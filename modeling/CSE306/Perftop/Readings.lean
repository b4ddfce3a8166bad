import CSE306.Perftop.Ledger
import Mathlib.Algebra.GroupWithZero.Nat
import Mathlib.Data.List.Induction

/-! The time stamps the handler keeps are readings it has made. While readings do not go
back no elapsed time wraps, and no total wraps before the amounts added to it reach 2^64. -/
namespace CSE306.Perftop
open Transition

/-- The time stamp that a run of the handler reads, if it counts a switch. -/
def Call.reading (c : Call) : Option UInt64 := c.switch.map fun _ => c.tsc

def readings (h : List Call) : List UInt64 := h.filterMap Call.reading

namespace Ledger
variable {g : Ledger}

/-- The accounts after a run of the handler. -/
def after (g : Ledger) (c : Call) : Ledger :=
  match c.switch with
  | some (prev, next) => g.switch prev.pid next.pid c.tsc
  | none => g

/-- What a run of the handler adds to the total of a process. -/
def charge (g : Ledger) (c : Call) (pid : Pid) : Option UInt64 :=
  match c.switch with
  | some (prev, _) =>
    if prev.pid = pid then (g pid).bind fun a => a.total.map fun _ => c.tsc - a.start else none
  | none => none

theorem after_some (switched : c.switch = some (prev, next)) :
    g.after c = g.switch prev.pid next.pid c.tsc := by
  rw [after, switched]

theorem after_none (unswitched : c.switch = none) : g.after c = g := by
  rw [after, unswitched]

theorem charge_some (switched : c.switch = some (prev, next)) : g.charge c pid =
    if prev.pid = pid then (g pid).bind fun a => a.total.map fun _ => c.tsc - a.start
    else none := by
  rw [charge, switched]

theorem charge_none (unswitched : c.switch = none) : g.charge c pid = none := by
  rw [charge, unswitched]

def ofCalls (h : List Call) : Ledger := h.foldl after fun _ => none

theorem ofCalls_concat (h : List Call) (c : Call) : ofCalls (h ++ [c]) = (ofCalls h).after c := by
  rw [ofCalls, ofCalls, List.foldl_append, List.foldl_cons, List.foldl_nil]

/-- The amounts added to the total of a process, oldest first. -/
def charges (pid : Pid) : Ledger → List Call → List UInt64
  | _, [] => []
  | g, c :: rest => (g.charge c pid).toList ++ charges pid (g.after c) rest

theorem charges_concat (pid : Pid) (g : Ledger) (h : List Call) (c : Call) :
    charges pid g (h ++ [c]) = charges pid g h ++ (charge (h.foldl after g) c pid).toList := by
  induction h generalizing g with
  | nil => simp [charges]
  | cons first h ih => simp [charges, ih]

/-- The total of a process if numbers had no bound. -/
def unbounded (pid : Pid) (h : List Call) : Nat :=
  ((charges pid (fun _ => none) h).map UInt64.toNat).sum

theorem unbounded_concat (pid : Pid) (h : List Call) (c : Call) :
    unbounded pid (h ++ [c]) =
      unbounded pid h + (((ofCalls h).charge c pid).map UInt64.toNat).getD 0 := by
  rw [unbounded, unbounded, charges_concat, List.map_append, List.sum_append]
  change _ + (((ofCalls h).charge c pid).toList.map UInt64.toNat).sum = _
  cases (ofCalls h).charge c pid <;> simp

theorem unbounded_append (pid : Pid) (k l : List Call) :
    unbounded pid k ≤ unbounded pid (k ++ l) := by
  induction l using List.reverseRecOn with
  | nil => rw [List.append_nil]
  | append_singleton l c ih =>
    rw [← List.append_assoc, unbounded_concat]
    exact ih.trans (Nat.le_add_right _ _)

/-- The total in an account, if it shows one. -/
def total (g : Ledger) (pid : Pid) : Option UInt64 := (g pid).bind Account.total

theorem start_switchOut (account : Option Account) :
    (switchOut tsc account).start = tsc ∨ ∃ a, account = some a ∧
      (switchOut tsc account).start = a.start := by
  match account with
  | none => exact .inl rfl
  | some ⟨start, none⟩ => exact .inr ⟨_, rfl, rfl⟩
  | some ⟨start, some total⟩ => exact .inr ⟨_, rfl, rfl⟩

theorem start_switchIn (account : Option Account) : (switchIn tsc account).start = tsc := by
  cases account <;> rfl

theorem start_switch (known : g.switch prev next tsc pid = some a) :
    a.start = tsc ∨ ∃ old, g pid = some old ∧ a.start = old.start := by
  unfold switch at known
  by_cases into : pid = next
  · subst into
    rw [Function.update_self] at known
    cases known
    exact .inl (start_switchIn _)
  · rw [Function.update_of_ne into] at known
    by_cases out : pid = prev
    · subst out
      rw [Function.update_self] at known
      cases known
      exact start_switchOut (g pid)
    · rw [Function.update_of_ne out] at known
      exact .inr ⟨a, known, rfl⟩

theorem total_switch : (g.switch prev next tsc).total pid =
    if pid = prev then (switchOut tsc (g prev)).total else g.total pid := by
  have kept : ∀ account, (switchIn tsc account).total = account.bind Account.total := by
    intro account
    cases account <;> rfl
  unfold total switch
  by_cases into : pid = next
  · subst into
    rw [Function.update_self, Option.bind_some, kept, Function.update_apply]
    split <;> rfl
  · rw [Function.update_of_ne into, Function.update_apply]
    split <;> rfl

/-- Every stamp is a reading. -/
theorem start_mem_readings (known : ofCalls h pid = some a) : a.start ∈ readings h := by
  induction h using List.reverseRecOn generalizing a with
  | nil => cases known
  | append_singleton h c ih =>
    rw [ofCalls_concat] at known
    rw [readings, List.filterMap_append, List.mem_append]
    cases switched : c.switch with
    | none =>
      rw [after_none switched] at known
      exact .inl (ih known)
    | some tasks =>
      obtain ⟨prev, next⟩ := tasks
      rw [after_some switched] at known
      cases start_switch known with
      | inl now =>
        right
        rw [now]
        simp [Call.reading, switched]
      | inr before =>
        obtain ⟨old, there, same⟩ := before
        left
        rw [same]
        exact ih there

theorem total_switchOut (account : Option Account) : (switchOut tsc account).total =
    some (((account.bind fun a => a.total.map (· + (tsc - a.start)))).getD 0) := by
  match account with
  | none => rfl
  | some ⟨start, none⟩ => rfl
  | some ⟨start, some total⟩ => rfl

/-- A total is the unbounded one, as far as 64 bits hold it. -/
theorem total_ofCalls (h : List Call) (pid : Pid) :
    ((ofCalls h).total pid = none → unbounded pid h = 0) ∧
      ∀ t, (ofCalls h).total pid = some t → t.toNat = unbounded pid h % 2 ^ 64 := by
  induction h using List.reverseRecOn with
  | nil => exact ⟨fun _ => rfl, fun t known => by cases known⟩
  | append_singleton h c ih =>
    rw [ofCalls_concat, unbounded_concat]
    cases switched : c.switch with
    | none =>
      rw [after_none switched, charge_none switched]
      exact ih
    | some tasks =>
      obtain ⟨prev, next⟩ := tasks
      rw [after_some switched, charge_some switched, total_switch]
      by_cases out : prev.pid = pid
      · subst out
        rw [if_pos rfl, if_pos rfl, total_switchOut]
        refine ⟨fun none => absurd none (Option.some_ne_none _), fun t known => ?_⟩
        cases known
        cases account : ofCalls h prev.pid with
        | none =>
          have nothing := ih.1 (by rw [total, account]; rfl)
          simp [nothing]
        | some a =>
          cases sum : a.total with
          | none =>
            have nothing := ih.1 (by rw [total, account, Option.bind_some, sum])
            simp [nothing, sum]
          | some t =>
            have before := ih.2 t (by rw [total, account, Option.bind_some, sum])
            simp only [sum, Option.bind_some, Option.map_some, Option.getD_some,
              UInt64.toNat_add, before]
            omega
      · simpa [out, Ne.symm out] using ih

end Ledger

namespace Profiler
variable {b : OrderedTree.Balance Node}

theorem Handled.after {s : Profiler} (handled : s.Handled c t) (linked : s.Linked) :
    t.ledger = s.ledger.after c := by
  cases switched : c.switch with
  | some tasks =>
    rw [Ledger.after_some switched]
    exact handled.ledger linked switched
  | none =>
    unfold Handled at handled
    rw [switched] at handled
    obtain ⟨table, mytree⟩ := handled
    rw [Ledger.after_none switched]
    funext pid
    simp only [Profiler.ledger, position, total, table, mytree]

/-- The accounts are a function of the calls alone. -/
theorem Runs.ledger (run : Runs b h s) : s.ledger = Ledger.ofCalls h := by
  refine run.invariant (I := fun h s => s.ledger = Ledger.ofCalls h) rfl ?_
  rintro h s e t head same ⟨fresh, result⟩
  rename_i c
  have linked := Runs.linked head
  have handled := (Step.handled (.call fresh result) linked).1
  rw [Option.toList_some, Ledger.ofCalls_concat, ← same]
  exact handled.after linked

theorem Linked.total_ledger {s : Profiler} (linked : s.Linked) (pid : Pid) :
    s.total pid = s.ledger.total pid := by
  rw [Ledger.total, Profiler.ledger]
  cases found : s.position pid with
  | some e => rfl
  | none =>
    refine total_eq_none.mpr fun n mem owner => ?_
    obtain ⟨e, there, _⟩ := linked.source mem
    rw [owner, found] at there
    cases there

/-- What the start stamp of `prev` is. -/
theorem entry_tsc (s : Profiler) (pid : Pid) (tsc : UInt64) :
    (s.entry pid tsc).tsc = tsc ∨ ∃ a, s.ledger pid = some a ∧ (s.entry pid tsc).tsc = a.start := by
  unfold entry ledger
  cases s.position pid with
  | none => exact .inl rfl
  | some e => exact .inr ⟨_, rfl, rfl⟩

theorem Runs.stamp_mem (run : Runs b h s) (known : s.ledger pid = some a) :
    a.start ∈ readings h := by
  rw [run.ledger] at known
  exact Ledger.start_mem_readings known

end Profiler

section Ordered
variable {l : List UInt64} (ordered : l.Pairwise (· ≤ ·))
include ordered

theorem le_last (mem : x ∈ l) : ∃ last, l.getLast? = some last ∧ x ≤ last := by
  induction l with
  | nil => cases mem
  | cons a l ih =>
    obtain ⟨least, rest⟩ := List.pairwise_cons.mp ordered
    cases mem with
    | head =>
      cases known : l.getLast? with
      | none =>
        rw [List.getLast?_eq_none_iff.mp known]
        exact ⟨x, rfl, UInt64.le_refl x⟩
      | some last =>
        refine ⟨last, ?_, least last (List.mem_of_getLast? known)⟩
        rw [List.getLast?_cons, known]
        rfl
    | tail _ mem =>
      obtain ⟨last, known, bound⟩ := ih rest mem
      refine ⟨last, ?_, bound⟩
      rw [List.getLast?_cons, known]
      rfl

theorem first_le (mem : x ∈ l) : ∃ first, l.head? = some first ∧ first ≤ x := by
  cases l with
  | nil => cases mem
  | cons a l =>
    refine ⟨a, rfl, ?_⟩
    cases mem with
    | head => exact UInt64.le_refl x
    | tail _ mem => exact (List.pairwise_cons.mp ordered).1 x mem

end Ordered

namespace Profiler
variable {b : OrderedTree.Balance Node}

/-- The subtraction of the start stamp does not wrap and adds no more than the time since
the first reading. -/
theorem Runs.elapsed (run : Runs b k u) (switched : c.switch = some (prev, next))
    (ordered : (readings (k ++ [c])).Pairwise (· ≤ ·)) :
    (u.entry prev.pid c.tsc).tsc ≤ c.tsc ∧ ∃ first, (readings (k ++ [c])).head? = some first ∧
      first ≤ (u.entry prev.pid c.tsc).tsc := by
  have here : c.tsc ∈ readings (k ++ [c]) := by simp [readings, Call.reading, switched]
  have split : readings (k ++ [c]) = readings k ++ [c.tsc] := by
    simp [readings, Call.reading, switched]
  cases u.entry_tsc prev.pid c.tsc with
  | inl now =>
    rw [now]
    exact ⟨UInt64.le_refl _, first_le ordered here⟩
  | inr before =>
    obtain ⟨a, known, same⟩ := before
    have mem := run.stamp_mem known
    rw [same]
    constructor
    · rw [split] at ordered
      exact (List.pairwise_append.mp ordered).2.2 _ mem _ List.mem_cons_self
    · apply first_le ordered
      rw [split]
      exact List.mem_append_left _ mem

/-- A total that the numbers hold is the unbounded one. -/
theorem Runs.total_unbounded (run : Runs b h s) (small : Ledger.unbounded pid h < 2 ^ 64)
    (shown : s.total pid = some t) : t.toNat = Ledger.unbounded pid h := by
  rw [run.linked.total_ledger, run.ledger] at shown
  rw [(Ledger.total_ofCalls h pid).2 t shown, Nat.mod_eq_of_lt small]

/-- A process that has a total keeps having one. -/
theorem Runs.total_kept (run : Runs b h s) (run' : Runs b (h ++ l) t)
    (shown : s.total pid = some a) : ∃ a', t.total pid = some a' := by
  have before : Switched h pid := by
    apply (run.sorted.2 pid).mp
    obtain ⟨n, found, _⟩ := Option.map_eq_some_iff.mp shown
    exact ⟨n, List.mem_of_find?_eq_some found, by simpa using List.find?_some found⟩
  have after : Switched (h ++ l) pid := by
    obtain ⟨c, mem, known⟩ := before
    exact ⟨c, List.mem_append_left _ mem, known⟩
  obtain ⟨n, mem, rfl⟩ := (run'.sorted.2 pid).mpr after
  exact ⟨n.ttsc, run'.linked.total mem⟩

/-- While readings do not go back, every stamp is at most the last reading, no elapsed time
wraps or exceeds the time since the first reading, and no total decreases before the
amounts added to it reach 2^64. -/
theorem readings_never_wrap (run : Runs b h s) (ordered : (readings h).Pairwise (· ≤ ·)) :
    (∀ e ∈ s.table, ∃ last, (readings h).getLast? = some last ∧ e.tsc ≤ last) ∧
    (∀ k c l u prev next, h = k ++ c :: l → Runs b k u → c.switch = some (prev, next) →
      ∃ first, (readings h).head? = some first ∧
        ∀ start, (u.entry prev.pid c.tsc).tsc = start → start ≤ c.tsc ∧
          (c.tsc - start).toNat = c.tsc.toNat - start.toNat ∧
          (c.tsc - start).toNat ≤ c.tsc.toNat - first.toNat ∧
          ∀ v, Step b u (some c) v → ∀ a, u.total prev.pid = some a →
            v.total prev.pid = some (a + (c.tsc - start))) ∧
    ∀ pid, Ledger.unbounded pid h < 2 ^ 64 → ∀ k l u, h = k ++ l → Runs b k u →
      ∀ a, u.total pid = some a → ∃ a', s.total pid = some a' ∧ a ≤ a' := by
  refine ⟨fun e mem => ?_, ?_, ?_⟩
  · apply le_last ordered
    have known : s.ledger e.pid = some ⟨e.tsc, s.total e.pid⟩ := by
      rw [ledger, position, run.linked.keyed.find? mem]
      rfl
    exact run.stamp_mem known
  · rintro k c l u prev next rfl head switched
    have whole : readings (k ++ c :: l) = readings (k ++ [c]) ++ readings l := by
      simp [readings, ← List.filterMap_append]
    rw [whole] at ordered
    obtain ⟨bound, first, known, least⟩ :=
      head.elapsed switched (List.pairwise_append.mp ordered).1
    refine ⟨first, by rw [whole, List.head?_append, known]; rfl, ?_⟩
    rintro start rfl
    have exact_ := UInt64.toNat_sub_of_le _ _ bound
    have later := UInt64.le_iff_toNat_le.mp bound
    have earlier := UInt64.le_iff_toNat_le.mp least
    refine ⟨bound, exact_, by omega, fun v step a shown => ?_⟩
    have linked := head.linked
    obtain ⟨handled, linked'⟩ := step.handled linked
    rw [linked'.total_ledger, handled.after linked, Ledger.after_some switched,
      Ledger.total_switch, if_pos rfl, Ledger.total_switchOut]
    rw [linked.total_ledger] at shown
    obtain ⟨account, open_, sum⟩ := Option.bind_eq_some_iff.mp shown
    have stamp : (u.entry prev.pid c.tsc).tsc = account.start := by
      obtain ⟨e, found, rfl⟩ := Option.map_eq_some_iff.mp open_
      rw [entry_of_position c.tsc found]
    rw [open_, Option.bind_some, sum, stamp]
    rfl
  · rintro pid small k l u rfl head a shown
    obtain ⟨a', now⟩ := head.total_kept run shown
    refine ⟨a', now, UInt64.le_iff_toNat_le.mpr ?_⟩
    have grows := Ledger.unbounded_append pid k l
    rw [head.total_unbounded (by omega) shown, run.total_unbounded small now]
    exact grows

theorem readings_never_wrap_three_switches : ∃ s, Runs .unbalanced threeSwitches s ∧
    readings threeSwitches = [100, 150, 350] ∧ Ledger.unbounded 1 threeSwitches = 200 ∧
    (∀ e ∈ s.table, ∃ last, (readings threeSwitches).getLast? = some last ∧ e.tsc ≤ last) ∧
    ∀ k l u, threeSwitches = k ++ l → Runs .unbalanced k u → ∀ a, u.total 1 = some a →
      ∃ a', s.total 1 = some a' ∧ a ≤ a' := by
  have followed : (exec (step .unbalanced) empty threeSwitches).any (fun r =>
      r.2 = threeSwitches) := by decide +kernel
  obtain ⟨s, h, run, known⟩ := exec_any followed step_sound
  obtain rfl : h = threeSwitches := known
  obtain ⟨bound, _, grows⟩ := readings_never_wrap run (by decide +kernel)
  exact ⟨s, run, by decide +kernel, by decide +kernel, bound, grows 1 (by decide +kernel)⟩

end Profiler
end CSE306.Perftop
