import CSE306.S2DSM.System

/-! The run of one command: `main` accesses the pages of the command, each once and in
order, and keeps to them, however the other threads and the other process interleave. -/
namespace CSE306.S2DSM
open Transition Transition.Duplex

variable {n pageSize : Nat}

def Event.pages : Event n pageSize → List (Fin n)
  | .command _ => []
  | .wrote p _ | .read p _ => [p]

namespace Main

def remaining : Main n → List (Fin n)
  | .prompt => []
  | .loop _ pages => pages
  | .access (.load _) p rest | .access .print p rest | .access (.store _) p rest => p :: rest
  | .access (.mark _) _ rest | .access (.echo _) _ rest | .access (.notify _) _ rest => rest

/-- The page `main` is at, and those it still visits. -/
def visits : Main n → List (Fin n)
  | .prompt => []
  | .loop _ pages => pages
  | .access _ p rest => p :: rest

end Main

namespace Process

/-- What `main` does in one step, by where it stands. -/
inductive MainMove (x : Process n pageSize) : Label (MsgRequest n) (Reply n pageSize) →
    Option (Event n pageSize) → Process n pageSize → Prop where
  | finish : x.main = .loop op [] → MainMove x .silent none { x with main := .prompt }
  | enter : x.main = .loop op (p :: rest) →
      MainMove x .silent none { x with main := .access op.entry p rest }
  | load : x.main = .access (.load false) p rest → x.mapping p = some content →
      MainMove x .silent (some (.read p content)) { x with main := .loop (.read false) rest }
  | peek : x.main = .access (.load true) p rest → x.mapping p = some content →
      MainMove x .silent none { x with main := .access .print p rest }
  | print : x.main = .access .print p rest → x.mapping p = some content →
      MainMove x .silent (some (.read p content)) { x with main := .loop (.read true) rest }
  | store : x.main = .access (.store typed) p rest → x.mapping p = some content →
      MainMove x .silent (some (.wrote p typed))
        { x.setPage p (some (stored pageSize typed)) with main := .access (.mark typed) p rest }
  | mark : x.main = .access (.mark typed) p rest →
      MainMove x .silent none { x.setMsi p .modified with main := .access (.echo typed) p rest }
  | echo : x.main = .access (.echo typed) p rest → x.mapping p = some content →
      MainMove x .silent none { x with main := .access (.notify typed) p rest }
  | notify : x.main = .access (.notify typed) p rest →
      MainMove x (.request (.invalidate p)) none { x with main := .loop (.write typed) rest }

theorem mainStep_move {x y : Process n pageSize} (moved : x.mainStep = some (y, l, e)) :
    x.MainMove l e y := by
  unfold mainStep at moved
  split at moved
  · cases moved
  · rename_i here
    cases moved
    exact .finish here
  · rename_i here
    cases moved
    exact .enter here
  · rename_i here
    obtain ⟨content, present, same⟩ := Option.map_eq_some_iff.mp moved
    cases same
    exact .load here present
  · rename_i here
    obtain ⟨content, present, same⟩ := Option.map_eq_some_iff.mp moved
    cases same
    exact .peek here present
  · rename_i here
    obtain ⟨content, present, same⟩ := Option.map_eq_some_iff.mp moved
    cases same
    exact .print here present
  · rename_i here
    obtain ⟨content, present, same⟩ := Option.map_eq_some_iff.mp moved
    cases same
    exact .store here present
  · rename_i here
    cases moved
    exact .mark here
  · rename_i here
    obtain ⟨content, present, same⟩ := Option.map_eq_some_iff.mp moved
    cases same
    exact .echo here present
  · rename_i here
    cases moved
    exact .notify here

/-- A turn of the process that is not the start of a command. -/
def Works (x : Process n pageSize) (e : Option (Event n pageSize)) (y : Process n pageSize) :
    Prop :=
  ∃ turn request reply l, (∀ c, turn ≠ .command c) ∧ x.step request reply turn = some (y, l, e)

/-- `main` is at one of these pages if it is at any, changes no other page or entry, and
asks the other process for nothing about others. -/
structure Confined (pages : List (Fin n)) (x : Process n pageSize) : Prop where
  visits : x.main.visits ⊆ pages
  keeps : ∀ {y l e}, x.mainStep = some (y, l, e) → ∀ p ∉ pages,
    y.mapping p = x.mapping p ∧ y.msiArray p = x.msiArray p
  asks : ∀ {y l e}, x.mainStep = some (y, l, e) →
    l = .silent ∨ ∃ p ∈ pages, l = .request (.invalidate p)

/-- One step of `main`: what it accesses comes off its list, and it stays at its page. -/
structure Advances (x y : Process n pageSize) (l : Label (MsgRequest n) (Reply n pageSize))
    (e : Option (Event n pageSize)) : Prop where
  remaining : e.toList.flatMap Event.pages ++ y.main.remaining = x.main.remaining
  visits : y.main.visits ⊆ x.main.visits
  keeps : ∀ p ∉ x.main.visits, y.mapping p = x.mapping p ∧ y.msiArray p = x.msiArray p
  asks : l = .silent ∨ ∃ p ∈ x.main.visits, l = .request (.invalidate p)

theorem mainStep_advances {x y : Process n pageSize} (moved : x.mainStep = some (y, l, e)) :
    x.Advances y l e := by
  have move := mainStep_move moved
  obtain ⟨msiArray, mapping, main, handler, pageBuffer, server⟩ := x
  cases move with
  | finish here =>
    cases here
    exact ⟨rfl, List.Subset.refl _, fun p _ => ⟨rfl, rfl⟩, .inl rfl⟩
  | @enter op _ _ here =>
    cases here
    refine ⟨?_, List.Subset.refl _, fun p _ => ⟨rfl, rfl⟩, .inl rfl⟩
    cases op <;> rfl
  | load here | print here =>
    cases here
    exact ⟨rfl, List.subset_cons_self _ _, fun p _ => ⟨rfl, rfl⟩, .inl rfl⟩
  | peek here | echo here =>
    cases here
    exact ⟨rfl, List.Subset.refl _, fun p _ => ⟨rfl, rfl⟩, .inl rfl⟩
  | @store _ p _ _ here =>
    cases here
    refine ⟨rfl, List.Subset.refl _, fun q away => ⟨?_, rfl⟩, .inl rfl⟩
    have other : q ≠ p := fun same => away (same ▸ List.mem_cons_self)
    exact Function.update_of_ne other _ _
  | @mark _ p _ here =>
    cases here
    refine ⟨rfl, List.Subset.refl _, fun q away => ⟨rfl, ?_⟩, .inl rfl⟩
    have other : q ≠ p := fun same => away (same ▸ List.mem_cons_self)
    exact Function.update_of_ne other _ _
  | notify here =>
    cases here
    exact ⟨rfl, List.subset_cons_self _ _, fun p _ => ⟨rfl, rfl⟩, .inr ⟨_, List.mem_cons_self, rfl⟩⟩

/-- Only the start of a command and `main` itself move `main`; the other threads show
nothing. -/
theorem step_main {x y : Process n pageSize}
    (moved : x.step request reply turn = some (y, l, e)) :
    (y.main = x.main ∧ e = none) ∨ x.mainStep = some (y, l, e) ∨
      ∃ c, turn = .command c ∧ e = some (.command c) ∧ y.main = .loop c.op c.pages := by
  cases turn with
  | main => exact .inr (.inl moved)
  | command c =>
    simp only [step] at moved
    split at moved
    · cases moved
      exact .inr (.inr ⟨c, rfl, rfl, rfl⟩)
    · cases moved
  | fault p =>
    simp only [step, faultStep] at moved
    grind
  | handler =>
    simp only [step, faultHandlerThread] at moved
    grind [setMsi, setPage]
  | server =>
    simp only [step, serverThread] at moved
    grind [setMsi, setPage, Option.map_eq_some_iff]

theorem Works.main {x y : Process n pageSize} (works : x.Works e y) :
    (y.main = x.main ∧ e = none) ∨ ∃ l, x.mainStep = some (y, l, e) := by
  obtain ⟨turn, request, reply, l, noCommand, moved⟩ := works
  rcases step_main moved with same | moved | ⟨c, command, _⟩
  · exact .inl same
  · exact .inr ⟨l, moved⟩
  · exact (noCommand c command).elim

theorem accessed_remaining {x y : Process n pageSize} (run : Run Works x es y) :
    es.flatMap Event.pages ++ y.main.remaining = x.main.remaining ∧
      y.main.visits ⊆ x.main.visits := by
  induction run with
  | start => exact ⟨rfl, List.Subset.refl _⟩
  | next head works ih =>
    obtain ⟨remaining, visits⟩ := ih
    rcases works.main with ⟨same, rfl⟩ | ⟨l, moved⟩
    · rw [same]
      simpa using ⟨remaining, visits⟩
    · have advances := mainStep_advances moved
      refine ⟨?_, List.Subset.trans advances.visits visits⟩
      rw [List.flatMap_append, List.append_assoc, advances.remaining, remaining]

theorem confined_of_visits {x : Process n pageSize} (visits : x.main.visits ⊆ pages) :
    x.Confined pages where
  visits := visits
  keeps moved p away := (mainStep_advances moved).keeps p fun mem => away (visits mem)
  asks moved := (mainStep_advances moved).asks.imp_right fun ⟨p, mem, same⟩ =>
    ⟨p, visits mem, same⟩

end Process
end CSE306.S2DSM
