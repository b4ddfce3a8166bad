import CSE306.Transition.Duplex
import Mathlib.Algebra.BigOperators.Fin
import Mathlib.Algebra.BigOperators.Group.Finset.Basic
import Mathlib.Algebra.BigOperators.Group.List.Basic

/-! Potentials: what a state may still cost. A step pays for itself out of the
potential and out of what it observes, so runs are bounded, and a system that can
always go on reaches its goal whatever it does next. -/
namespace CSE306.Transition

/-- A run together with the number of its steps. -/
inductive Counted (step : S → Option E → S → Prop) (first : S) : Nat → List E → S → Prop where
  | start : Counted step first 0 [] first
  | next : Counted step first k h s → step s e t → Counted step first (k + 1) (h ++ e.toList) t

/-- What an observation is worth, when there is one. -/
def credited (cost : E → Nat) (e : Option E) : Nat := (e.map cost).getD 0

@[simp] theorem credited_none (cost : E → Nat) : credited cost none = 0 := rfl

@[simp] theorem credited_some (cost : E → Nat) (e : E) : credited cost (some e) = cost e := rfl

namespace Counted
variable {step : S → Option E → S → Prop} {first : S}

theorem run (counted : Counted step first k h s) : Run step first h s := by
  induction counted with
  | start => exact .start
  | next _ edge ih => exact .next ih edge

theorem cons (edge : step s e t) (tail : Counted step t k h u) :
    Counted step s (k + 1) (e.toList ++ h) u := by
  induction tail with
  | start => simpa using Counted.next .start edge
  | next _ last ih => simpa only [List.append_assoc] using Counted.next ih last

theorem exec {next : S → A → Option (S × Option E)}
    (sound : ∀ {s a t e}, next s a = some (t, e) → step s e t)
    (executed : exec next s schedule = some (t, h)) : Counted step s schedule.length h t := by
  induction schedule generalizing s h with
  | nil =>
    simp only [Transition.exec, Option.some.injEq, Prod.mk.injEq] at executed
    obtain ⟨rfl, rfl⟩ := executed
    exact .start
  | cons a rest ih =>
    simp only [Transition.exec, Option.bind_eq_bind, Option.bind_eq_some_iff, Option.pure_def,
      Option.some.injEq, Prod.mk.injEq, Prod.exists] at executed
    obtain ⟨u, e, moved, v, later, followed, rfl, rfl⟩ := executed
    exact .cons (sound moved) (ih followed)

/-- The steps of a run and the potential left are paid for by the first potential
and by what was observed. -/
theorem paid {potential : S → Nat} {cost : E → Nat}
    (pays : ∀ {s e t}, step s e t → potential t + 1 ≤ potential s + credited cost e)
    (counted : Counted step first k h s) :
    k + potential s ≤ potential first + (h.map cost).sum := by
  induction counted with
  | start => simp
  | @next k h s e t _ edge ih =>
    have paying := pays edge
    have total : ((h ++ e.toList).map cost).sum = (h.map cost).sum + credited cost e := by
      cases e <;> simp
    omega

end Counted

theorem Run.counted {step : S → Option E → S → Prop} (run : Run step first h s) :
    ∃ k, Counted step first k h s := by
  induction run with
  | start => exact ⟨0, .start⟩
  | next _ edge ih =>
    obtain ⟨k, counted⟩ := ih
    exact ⟨k + 1, .next counted edge⟩

/-- However the system goes on from here, it can go on until it reaches the goal, and it
does so within so many steps. -/
inductive Inevitable (step : S → Option E → S → Prop) (goal : S → Prop) : Nat → S → Prop where
  | here : goal s → Inevitable step goal k s
  | later : (∃ e t, step s e t) → (∀ e t, step s e t → Inevitable step goal k t) →
      Inevitable step goal (k + 1) s

namespace Inevitable
variable {step : S → Option E → S → Prop} {goal : S → Prop}

theorem mono (held : Inevitable step goal k s) (le : k ≤ l) : Inevitable step goal l s := by
  induction held generalizing l with
  | here reached => exact .here reached
  | later able _ ih =>
    obtain ⟨l, rfl⟩ := Nat.exists_eq_add_of_le' (Nat.one_le_of_lt le)
    exact .later able fun e t edge => ih e t edge (by omega)

/-- Where every step spends potential, it is enough that the system can go on short of
its goal. -/
theorem of_potential {I : S → Prop} {potential : S → Nat}
    (keeps : ∀ {s e t}, I s → step s e t → I t)
    (spends : ∀ {s e t}, I s → step s e t → potential t < potential s)
    (able : ∀ {s}, I s → ¬ goal s → ∃ e t, step s e t) (held : I s) :
    Inevitable step goal (potential s) s := by
  induction rank : potential s using Nat.strong_induction_on generalizing s with
  | _ rank' ih =>
    subst rank
    by_cases done : goal s
    · exact .here done
    obtain ⟨e, t, edge⟩ := able held done
    obtain ⟨k, same⟩ := Nat.exists_eq_add_of_le' (Nat.one_le_of_lt (spends held edge))
    rw [same]
    refine .later ⟨e, t, edge⟩ fun e t edge => ?_
    have less := spends held edge
    exact (ih _ less (keeps held edge) rfl).mono (by omega)

/-- The form for what is known of a state together with a history. -/
theorem of_history {I : List E → S → Prop} {potential : S → Nat}
    (keeps : ∀ {h s e t}, I h s → step s e t → I (h ++ e.toList) t)
    (spends : ∀ {h s e t}, I h s → step s e t → potential t < potential s)
    (able : ∀ {h s}, I h s → ¬ goal s → ∃ e t, step s e t) (held : I h s)
    (most : potential s ≤ k) : Inevitable step goal k s := by
  have bounded : Inevitable step goal (potential s) s := by
    refine .of_potential (I := fun s => ∃ h, I h s) ?_ ?_ ?_ ⟨h, held⟩
    · rintro s e t ⟨h, held⟩ edge
      exact ⟨h ++ e.toList, keeps held edge⟩
    · rintro s e t ⟨h, held⟩ edge
      exact spends held edge
    · rintro s ⟨h, held⟩ short
      exact able held short
  exact bounded.mono most

/-- A system whose steps all come from another one reaches what that one does, if it can go on
where the other can. -/
theorem lift {step' : S' → Option E' → S' → Prop} {goal' : S' → Prop} {R : S → S' → Prop}
    (reach : ∀ {s s'}, R s s' → goal s → goal' s')
    (follow : ∀ {s s' e t}, R s s' → step s e t → ∃ e' t', step' s' e' t')
    (back : ∀ {s s' e' t'}, R s s' → step' s' e' t' → ∃ e t, step s e t ∧ R t t')
    (held : Inevitable step goal k s) (related : R s s') : Inevitable step' goal' k s' := by
  induction held generalizing s' with
  | here reached => exact .here (reach related reached)
  | later able _ ih =>
    obtain ⟨e, t, edge⟩ := able
    refine .later (follow related edge) fun e' t' edge' => ?_
    obtain ⟨e, t, edge, related'⟩ := back related edge'
    exact ih e t edge related'

end Inevitable

namespace Duplex
variable {P Q R E : Type}

def Label.debit (request : Q → Nat) (reply : R → Nat) : Label Q R → Nat
  | .serve q => request q
  | .consume r => reply r
  | _ => 0

/-- What the messages that a move sends are worth. -/
def Label.credit (request : Q → Nat) (reply : R → Nat) : Label Q R → Nat
  | .request q => request q
  | .answer r => reply r
  | _ => 0

variable (party : P → Nat) (request : Q → Nat) (reply : R → Nat)

/-- The potential of a party and of the messages it has not read yet. -/
def End.worth (x : End P Q R) : Nat :=
  party x.party + (x.accepted.map request).sum + (x.connect.map reply).sum

def Net.worth (s : Net P Q R) : Nat :=
  (s .first).worth party request reply + (s .second).worth party request reply

theorem Net.worth_side (s : Net P Q R) (i : Side) : s.worth party request reply =
    (s i).worth party request reply + (s i.peer).worth party request reply := by
  cases i with
  | first => rfl
  | second => exact Nat.add_comm _ _

theorem End.worth_fire {x : End P Q R} (ready : x.Enabled l) (p : P) :
    (x.fire p l).worth party request reply + party x.party + l.debit request reply =
      x.worth party request reply + party p := by
  obtain ⟨own, accepted, connect⟩ := x
  cases l with
  | silent | request | answer => simp only [worth, fire, Label.debit]; omega
  | serve q | consume r =>
    obtain ⟨rest, rfl⟩ := List.head?_eq_some_iff.mp ready
    simp only [worth, fire, Label.debit, List.tail_cons, List.map_cons, List.sum_cons]
    omega

theorem End.worth_receive (y : End P Q R) (l : Label Q R) :
    (y.receive l).worth party request reply =
      y.worth party request reply + l.credit request reply := by
  cases l with
  | silent | serve | consume => rfl
  | request q | answer r =>
    simp only [worth, receive, Label.credit, List.map_append, List.map_cons, List.map_nil,
      List.sum_append, List.sum_singleton]
    omega

/-- Where each move of a party pays for itself and for what it sends, each step of the
net does. -/
theorem Step.pays {ok : End P Q R → End P Q R → P → Prop}
    {moves : P → Label Q R → Option E → P → Prop} {cost : E → Nat}
    (pays : ∀ {x l e y}, moves x l e y → party y + l.credit request reply + 1 ≤
      party x + l.debit request reply + credited cost e)
    (step : Step ok moves s e t) : t.worth party request reply + 1 ≤
      s.worth party request reply + credited (fun e => cost e.2) e := by
  obtain ⟨i, -, moved, ready⟩ := step
  rename_i p l e
  have paying := pays moved
  have same : credited (fun e => cost e.2) (e.map (i, ·)) = credited cost e := by cases e <;> rfl
  rw [Net.worth_side _ _ _ _ i, Net.worth_side _ _ _ _ i, Net.post_self, Net.post_peer, same,
    End.worth_receive]
  have fired := End.worth_fire party request reply ready p
  omega

end Duplex

theorem sum_exchange [Fintype ι] [DecidableEq ι] {f g : ι → Nat} (i : ι)
    (others : ∀ j ≠ i, f j = g j) : ∑ j, f j + g i = ∑ j, g j + f i := by
  have rest : ∑ j ∈ Finset.univ.erase i, f j = ∑ j ∈ Finset.univ.erase i, g j :=
    Finset.sum_congr rfl fun j mem => others j (Finset.ne_of_mem_erase mem)
  rw [← Finset.add_sum_erase _ f (Finset.mem_univ i),
    ← Finset.add_sum_erase _ g (Finset.mem_univ i), rest]
  omega

end CSE306.Transition
