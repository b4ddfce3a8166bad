import CSE306.S2DSM.Private.Answers

/-! Commands of the process end, whichever of its two threads moves when. -/
namespace CSE306.S2DSM
open Transition

variable {n pageSize : Nat}

namespace Private

/-- How many pages the cursor still goes through. -/
def left (maxPage : BitVec 32) : Cursor → Nat
  | .all i => (maxPage.toInt - i.toInt).toNat
  | .one _ => 1
  | .done => 0

theorem left_covers (m : Mapping n) {pages : List (Fin n)} (covers : cursor.Covers pages) :
    left m.maxPage cursor = pages.length := by
  cases covers with
  | all k most =>
    rw [left, m.toInt_maxPage, m.toInt_ofNat most, List.length_drop, List.length_finRange]
    omega
  | one p => rfl
  | done => rfl

/-- The steps that the command loop has still to make. -/
def Main.work (maxPage : BitVec 32) : Main → Nat
  | .prompt => 0
  | .loop _ cursor => 5 * left maxPage cursor + 1
  | .access _ _ cursor => 5 * left maxPage cursor + 3
  | .print _ _ cursor => 5 * left maxPage cursor + 2

/-- A thread that is stopped waits for its fault to be read and for the page to be copied. -/
def stall (x : Private n pageSize) : Nat :=
  match x.main.touches with
  | none => 0
  | some i =>
    if x.memory (x.layout.addressLoc i) = none then
      if x.resolving = none then 2 else 1
    else 0

def work (x : Private n pageSize) : Nat := x.main.work x.layout.maxPage + x.stall

/-- A step that accepts no command. -/
def Works (x : Private n pageSize) (e : Option Event) (y : Private n pageSize) : Prop :=
  x.Step e y ∧ ∀ c, e ≠ some (.command c)

namespace Follows
variable {outside : AddressSpace} {cs : List (Command n)} {h : List Event}
  {x y : Private n pageSize} {mapping : Fin n → Option (Page pageSize)} {s : Strings n}
  {out : List (Fin n × List UInt8)} {owed : Strings n × List (Fin n × List UInt8)}

/-- A page is in memory with its first byte. -/
theorem memory_first (follows : Follows outside cs h x mapping s out owed) (p : Fin n) :
    x.memory (x.layout.addressLoc (index p)) = none ↔ mapping p = none := by
  refine ⟨fun missing => ?_, fun absent =>
    follows.memory ▸ Mapping.space_absent x.sized follows.fits absent⟩
  by_contra present
  obtain ⟨content, present⟩ := Option.ne_none_iff_exists'.mp present
  have held := Mapping.holds_addressLoc follows.fits p
  have positive : 0 < pageSize := x.sized ▸ x.layout.pageSize_bounds.1
  rw [follows.memory, Mapping.space, dif_pos held, Mapping.page_addressLoc follows.fits p, present,
    Option.bind_some, List.getElem?_eq_none_iff, content.size] at missing
  exact Nat.not_lt.mpr missing (Nat.mod_lt _ positive)

theorem stall_present (follows : Follows outside cs h x mapping s out owed)
    (touches : x.main.touches = some (index p)) (present : mapping p ≠ none) : x.stall = 0 := by
  rw [stall, touches]
  exact if_neg (mt (follows.memory_first p).mp present)

theorem stall_absent (follows : Follows outside cs h x mapping s out owed)
    (touches : x.main.touches = some (index p)) (absent : mapping p = none) :
    x.stall = if x.resolving = none then 2 else 1 := by
  rw [stall, touches]
  exact if_pos ((follows.memory_first p).mpr absent)

theorem stall_le (x : Private n pageSize) : x.stall ≤ 2 := by
  unfold stall
  split
  · exact Nat.zero_le 2
  · split
    · split <;> decide
    · exact Nat.zero_le 2

theorem mainStep_spends (follows : Follows outside cs h x mapping s out owed)
    (moved : x.mainStep = some (y, e)) : y.work < x.work := by
  have owes := follows.owes
  generalize here : x.main = main at owes
  cases owes with
  | prompt =>
    rw [Private.mainStep, here] at moved
    cases moved
  | loop op covers =>
    have before := left_covers x.layout covers
    rcases covers.next x.layout with ⟨rfl, last⟩ | ⟨p, rest, rest', rfl, next, covers⟩
    · simp only [Private.mainStep, here, last] at moved
      cases moved
      rw [work, work, here]
      exact Nat.lt_of_lt_of_le (Nat.zero_lt_succ _) (Nat.le_add_right _ _)
    · simp only [Private.mainStep, here, next] at moved
      cases moved
      have after := left_covers x.layout covers
      rw [List.length_cons, ← after] at before
      have most := stall_le { x with main := .access op (index p) rest' }
      rw [work, work, here, Main.work, Main.work, before]
      change 5 * left x.layout.maxPage rest' + 3 + _ < _
      omega
  | access op p covers =>
    cases present : mapping p with
    | none =>
      rw [follows.stopped (by rw [here]; rfl) present] at moved
      cases moved
    | some content =>
      have quiet := follows.resting (by rw [here]; rfl) present
      have idle := follows.stall_present (by rw [here]; rfl) (Option.ne_none_iff_exists'.mpr
        ⟨content, present⟩)
      cases op with
      | read again =>
        rw [follows.read_eq here present] at moved
        cases moved
        rw [work, work, here, idle]
        exact Nat.lt_succ_of_lt (Nat.lt_succ_self _)
      | write typed =>
        rw [follows.write_eq here present] at moved
        cases moved
        have after := follows.write quiet present typed covers rfl (short x)
        have idle' := after.stall_present rfl
          (by rw [Function.update_self]; exact Option.some_ne_none _)
        rw [work, work, here, idle, idle']
        exact Nat.lt_succ_self _
  | print op p covers present =>
    obtain ⟨content, held⟩ := Option.ne_none_iff_exists'.mp present
    have idle := follows.stall_present (by rw [here]; rfl) present
    rw [follows.print_eq here held] at moved
    cases moved
    rw [work, work, here, idle]
    exact Nat.lt_succ_self _

/-- Every step but a command spends work. -/
theorem spends (follows : Follows outside cs h x mapping s out owed) (works : x.Works e y) :
    y.work < x.work := by
  obtain ⟨⟨turn, moved⟩, uncommanded⟩ := works
  cases turn with
  | command c =>
    simp only [Private.step] at moved
    split at moved
    · split at moved <;> cases moved
      exact (uncommanded c rfl).elim
    · cases moved
  | main => exact follows.mainStep_spends moved
  | fault address =>
    simp only [Private.step] at moved
    split at moved
    · rename_i stopped
      cases moved
      obtain ⟨_, absent, touches, _⟩ := follows.faulted stopped.2
      have before := follows.stall_absent touches absent
      rw [if_pos stopped.1] at before
      have after : stall { x with resolving := some address } = 1 := by
        rw [stall, touches]
        exact if_pos ((follows.memory_first _).mpr absent)
      rw [work, work, before, after]
      exact Nat.lt_succ_self _
    · cases moved
  | handler =>
    obtain ⟨address, resolving, _⟩ := Option.bind_eq_some_iff.mp moved
    obtain ⟨held, absent, touches, _⟩ := follows.faulted (follows.resolves address resolving)
    have before := follows.stall_absent touches absent
    have after := (follows.handler resolving held).stall_present touches
      (by rw [Function.update_self]; exact Option.some_ne_none _)
    rw [if_neg (resolving.trans_ne (Option.some_ne_none _))] at before
    rw [Private.step, follows.handler_eq resolving held] at moved
    cases moved
    rw [work, work, before, after]
    exact Nat.lt_succ_self _

theorem loop_eq (here : x.main = .loop op cursor) :
    ∃ stage, x.mainStep = some ({ x with main := stage }, none) := by
  rw [Private.mainStep, here]
  cases next : cursor.next x.layout.maxPage with
  | none => exact ⟨.prompt, by simp only [next]⟩
  | some r => exact ⟨.access op r.1 r.2, by simp only [next]⟩

/-- Short of the prompt some thread can go on. -/
theorem able (follows : Follows outside cs h x mapping s out owed) (busy : x.main ≠ .prompt) :
    ∃ e y, x.Works e y := by
  have main {e : Option Event} {y : Private n pageSize} (moved : x.mainStep = some (y, e))
      (uncommanded : ∀ c, e ≠ some (.command c)) : ∃ e y, x.Works e y :=
    ⟨e, y, ⟨.main, moved⟩, uncommanded⟩
  have fault {p : Fin n} (touches : x.main.touches = some (index p)) (absent : mapping p = none)
      (quiet : x.resolving = none) : ∃ e y, x.Works e y := by
    have positive : 0 < pageSize := x.sized ▸ x.layout.pageSize_bounds.1
    have stopped : x.Faults (x.layout.addressLoc (index p)) :=
      ⟨Mapping.holds_addressLoc follows.fits p, (follows.memory_first p).mpr absent, index p,
        touches, Nat.le_refl _, Nat.lt_add_of_pos_right positive⟩
    exact ⟨_, _, ⟨.fault (x.layout.addressLoc (index p)), if_pos ⟨quiet, stopped⟩⟩, nofun⟩
  cases resolving : x.resolving with
  | some address =>
    have held := (follows.resolves address resolving).1
    exact ⟨_, _, ⟨.handler, follows.handler_eq resolving held⟩, nofun⟩
  | none =>
    have owes := follows.owes
    generalize here : x.main = stage at owes
    cases owes with
    | prompt => exact (busy here).elim
    | loop op covers =>
      obtain ⟨stage, moved⟩ := loop_eq here
      exact main moved nofun
    | access op p covers =>
      cases present : mapping p with
      | none => exact fault (by rw [here]; rfl) present resolving
      | some content =>
        cases op with
        | read again => exact main (follows.read_eq here present) nofun
        | write typed => exact main (follows.write_eq here present) nofun
    | print op p covers present =>
      obtain ⟨content, present⟩ := Option.ne_none_iff_exists'.mp present
      exact main (follows.print_eq here present) nofun

theorem left_le {pages : List (Fin n)} (covers : cursor.Covers pages) :
    left x.layout.maxPage cursor ≤ n := by
  rw [left_covers x.layout covers]
  cases covers with
  | all k most =>
    rw [List.length_drop, List.length_finRange]
    exact Nat.sub_le n k
  | one p => exact Nat.succ_le_of_lt (Nat.zero_lt_of_lt p.isLt)
  | done => exact Nat.zero_le n

theorem work_le (follows : Follows outside cs h x mapping s out owed) :
    x.work ≤ 5 * (n + 1) := by
  have owes := follows.owes
  have most := stall_le x
  rw [work]
  generalize x.main = main at owes
  cases owes with
  | prompt =>
    rw [Main.work]
    omega
  | loop _ covers | access _ _ covers | print _ _ covers =>
    have few := left_le (x := x) covers
    rw [Main.work]
    omega

end Follows

/-- Without further commands the process is back at its prompt after so many steps, whichever
thread moves when. -/
theorem private_commands_end (m : Mapping n) (sized : m.pageSize.toNat = pageSize)
    (fits : m.Fits) (outside : AddressSpace) (h : List Event) (x : Private n pageSize)
    (run : Runs m sized outside h x) :
    Inevitable Works (fun y => y.main = .prompt) (5 * (n + 1)) x := by
  obtain ⟨_, cs, mapping, s, out, owed, follows⟩ := Follows.of_runs fits run
  refine .of_history (I := fun h x => ∃ cs mapping s out owed,
    Follows outside cs h x mapping s out owed) ?_ ?_ ?_ ⟨cs, mapping, s, out, owed, follows⟩
    follows.work_le
  · rintro h x e y ⟨cs, mapping, s, out, owed, follows⟩ ⟨step, _⟩
    exact follows.step step
  · rintro h x e y ⟨cs, mapping, s, out, owed, follows⟩ works
    exact follows.spends works
  · rintro h x ⟨cs, mapping, s, out, owed, follows⟩ busy
    exact follows.able busy

theorem private_commands_end_stopped : ∃ (h : List Event) (x : Private 1 8),
    Runs Machines.onePage rfl (fun _ => some 7) h x ∧ x.main ≠ .prompt ∧
      x.resolving = some 0x1000 ∧ Inevitable Works (fun y => y.main = .prompt) 10 x := by
  have followed : (exec step onePage (writeAndRead.take 3)).any (fun r =>
      r.1.main ≠ .prompt ∧ r.1.resolving = some 0x1000) := by decide +kernel
  obtain ⟨x, h, run, busy, stopped⟩ := exec_any followed step_sound
  exact ⟨h, x, run, busy, stopped,
    private_commands_end Machines.onePage rfl (by decide) _ h x run⟩

end Private
end CSE306.S2DSM
