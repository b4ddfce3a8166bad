import Mathlib.Data.List.Basic

/-! Runs of a labelled, potentially nondeterministic system, with everything
observed so far. Guards restrict which steps a run may take; an executable
schedule yields a run of the same relation. -/
namespace CSE306.Transition

/-- A finite run from `first`. Each step shows at most one observation, and
observations are kept oldest first. -/
inductive Run (step : S → Option E → S → Prop) (first : S) : List E → S → Prop where
  | start : Run step first [] first
  | next : Run step first h s → step s e t → Run step first (h ++ e.toList) t

namespace Run
variable {step : S → Option E → S → Prop} {first : S}

theorem invariant {I : List E → S → Prop} (start : I [] first)
    (preserves : ∀ {h s e t}, Run step first h s → I h s → step s e t → I (h ++ e.toList) t)
    (run : Run step first h s) : I h s := by
  induction run with
  | start => exact start
  | next head edge ih => exact preserves head ih edge

/-- The form for properties of states alone. -/
theorem state_invariant {I : S → Prop} (start : I first)
    (preserves : ∀ {s e t}, I s → step s e t → I t) (run : Run step first h s) : I s :=
  run.invariant (I := fun _ s => I s) start (fun _ held edge => preserves held edge)

theorem trans (head : Run step first h s) (tail : Run step s k t) :
    Run step first (h ++ k) t := by
  induction tail with
  | start => simpa only [List.append_nil] using head
  | next _ edge ih => simpa only [List.append_assoc] using Run.next ih edge

theorem cons (edge : step s e t) (tail : Run step t k u) : Run step s (e.toList ++ k) u := by
  simpa using (Run.next .start edge).trans tail

/-- Steps may be exchanged for others available in the states actually reached. -/
theorem mono {step' : S → Option E → S → Prop}
    (covers : ∀ {h s e t}, Run step first h s → step s e t → step' s e t)
    (run : Run step first h s) : Run step' first h s := by
  induction run with
  | start => exact .start
  | next head edge ih => exact .next ih (covers head edge)

/-- Every observation was made by one step, from the history before it. -/
theorem observed (run : Run step first (k ++ e :: l) t) :
    ∃ s u, Run step first k s ∧ step s (some e) u := by
  generalize whole : k ++ e :: l = h at run
  induction run generalizing l with
  | start => simp at whole
  | @next h s shown t head edge ih =>
    cases shown with
    | none => exact ih (by simpa using whole)
    | some last =>
      rcases List.eq_nil_or_concat l with rfl | ⟨l, b, rfl⟩
      · obtain ⟨rfl, same⟩ := List.append_inj' whole rfl
        cases same
        exact ⟨s, t, head, edge⟩
      · have shorter : (k ++ e :: l) ++ [b] = h ++ [last] := by simpa using whole
        exact ih (List.append_inj' shorter rfl).1
end Run

/-- Follow a schedule, failing where a scheduled action is not enabled. -/
def exec (next : S → A → Option (S × Option E)) : S → List A → Option (S × List E)
  | s, [] => some (s, [])
  | s, a :: rest => do
    let (t, e) ← next s a
    let (u, later) ← exec next t rest
    return (u, e.toList ++ later)

theorem exec_run {next : S → A → Option (S × Option E)} {step : S → Option E → S → Prop}
    (sound : ∀ {s a t e}, next s a = some (t, e) → step s e t)
    (executed : exec next s schedule = some (t, h)) : Run step s h t := by
  induction schedule generalizing s h with
  | nil =>
    simp only [exec, Option.some.injEq, Prod.mk.injEq] at executed
    obtain ⟨rfl, rfl⟩ := executed
    exact .start
  | cons a rest ih =>
    simp only [exec, Option.bind_eq_bind, Option.bind_eq_some_iff, Option.pure_def,
      Option.some.injEq, Prod.mk.injEq, Prod.exists] at executed
    obtain ⟨u, e, moved, v, later, followed, rfl, rfl⟩ := executed
    simpa using (Run.next .start (sound moved)).trans (ih followed)

/-- The run of a schedule that ends in a state with a property. -/
theorem exec_any {next : S → A → Option (S × Option E)} {step : S → Option E → S → Prop}
    {P : S × List E → Prop} [DecidablePred P]
    (followed : (exec next s schedule).any (fun r => decide (P r)) = true)
    (sound : ∀ {s a t e}, next s a = some (t, e) → step s e t) :
    ∃ t h, Run step s h t ∧ P (t, h) := by
  obtain ⟨⟨t, h⟩, executed, holds⟩ := (Option.any_eq_true _ _).mp followed
  exact ⟨t, h, exec_run sound executed, of_decide_eq_true holds⟩

end CSE306.Transition
