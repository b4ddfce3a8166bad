import CSE306.Perftop.Counters
import CSE306.Transition.Simulation
import Mathlib.Data.Fintype.EquivFin

/-! The profiler of the first part, which only counts, and that of the second part: what
the second part does besides is invisible in the counters and stops no handler. -/
namespace CSE306.Perftop
open Transition

/-- An instance of the first part: it waits for the return, or its return handler has left
the part under `context_switch_lock` behind. -/
inductive Counter where
  | waiting (prev : Option Task)
  | counted
  deriving DecidableEq

/-- `pre_count`, `post_count` and `context_switch_counter`, with the instances in use. -/
structure Counting where
  preCount : BitVec 32
  postCount : BitVec 32
  contextSwitchCounter : BitVec 32
  instances : List Counter

/-- What the probes see: an entry, of a user task or not, and a return with both tasks. -/
inductive Seen where
  | entry (mm : Bool)
  | ret (prev next : Option Task)
  deriving DecidableEq

namespace Counting

def start : Counting := ⟨0, 0, 0, []⟩

/-- `data->prev != next`, and neither is NULL. -/
def Switches (prev next : Option Task) : Prop :=
  prev.map Task.addr ≠ next.map Task.addr ∧ next ≠ none ∧ prev ≠ none

instance (prev next : Option Task) : Decidable (Switches prev next) := by
  unfold Switches; infer_instance

/-- What the return handler does under `context_switch_lock`, if it takes it. -/
def contextSwitch (s : Counting) (prev next : Option Task) : Counting :=
  if Switches prev next then { s with contextSwitchCounter := s.contextSwitchCounter + 1 } else s

/-- One processor goes on by one critical section. -/
inductive Step : Counting → Option Seen → Counting → Prop where
  | missed : maxactive ≤ s.instances.length → Step s none s
  | entry (mm : Bool) (prev : Option Task) : s.instances.length < maxactive →
      entryPickNextFair mm s.preCount prev = (count, kept) →
      Step s (some (.entry mm)) { s with
        preCount := count
        instances := s.instances ++ (kept.map Counter.waiting).toList }
  | ret (next : Option Task) : s.instances = l ++ .waiting prev :: r →
      Step s (some (.ret prev next)) { s.contextSwitch prev next with
        instances := l ++ .counted :: r }
  | post : s.instances = l ++ .counted :: r →
      Step s none { s with postCount := s.postCount + 1, instances := l ++ r }

abbrev Runs (h : List Seen) (s : Counting) : Prop := Run Step start h s

end Counting

def Instance.counter : Instance → Counter
  | .waiting prev => .waiting prev
  | .timed => .counted

/-- What the first part would have seen. -/
def Probing.seen : Probing → Seen
  | .entry mm => .entry mm
  | .ret c => .ret c.prev c.next

def Probes.counting (s : Probes) : Counting where
  preCount := s.preCount
  postCount := s.profiler.postCount
  contextSwitchCounter := s.profiler.contextSwitchCounter
  instances := s.instances.map Instance.counter

namespace Probes
variable {b : OrderedTree.Balance Node}

theorem switches_iff (c : Call) : Counting.Switches c.prev c.next ↔ c.switch.isSome := by
  unfold Counting.Switches Call.switch
  cases c.prev <;> cases c.next <;> simp

theorem timing_handled {s t : Profiler} (linked : s.Linked) (fresh : s.Fresh c)
    (timed : timing b s c = some t) : t.Linked := by
  have handled := (Profiler.Step.handled (.call fresh
    (by simp only [Profiler.retPickNextFair]; exact congrArg _ timed)) linked).2
  exact handled.of_eq rfl rfl

theorem Runs.linked (run : Runs b h s) : s.profiler.Linked := by
  refine run.state_invariant (I := fun s => s.profiler.Linked) .empty ?_
  intro s e t linked edge
  cases edge with
  | missed | entry => exact linked
  | ret _ fresh timed => exact timing_handled linked fresh timed
  | post => exact linked.of_eq rfl rfl

theorem timing_counts {s t : Profiler} (timed : timing b s c = some t) :
    t.postCount = s.postCount ∧ t.contextSwitchCounter =
      if Counting.Switches c.prev c.next then s.contextSwitchCounter + 1
      else s.contextSwitchCounter := by
  simp only [switches_iff]
  unfold timing at timed
  cases switched : c.switch with
  | none =>
    rw [switched] at timed
    cases timed
    exact ⟨rfl, rfl⟩
  | some both =>
    rw [switched] at timed
    obtain ⟨counter, post⟩ := contextSwitch_counts timed
    exact ⟨post, counter⟩

theorem Counting.ret_eq {s : Probes} {t : Profiler} (timed : timing b s.profiler c = some t)
    (l r : List Instance) :
    counting { s with profiler := t, instances := l ++ .timed :: r } =
      { s.counting.contextSwitch c.prev c.next with
        instances := l.map Instance.counter ++ .counted :: r.map Instance.counter } := by
  obtain ⟨post, counter⟩ := timing_counts timed
  simp only [counting, Counting.contextSwitch, post, counter, List.map_append, List.map_cons,
    Instance.counter]
  split <;> rfl

/-- Each step of the second part is one of the first. -/
theorem Step.counting {s t : Probes} (edge : Step b s e t) :
    Counting.Step s.counting (e.map Probing.seen) t.counting := by
  cases edge with
  | missed full => exact .missed (by simpa [Probes.counting] using full)
  | entry mm prev room entered =>
    rename_i count kept
    have same : Probes.counting { s with
        preCount := count
        instances := s.instances ++ (kept.map Instance.waiting).toList } =
        { s.counting with
          preCount := count
          instances := s.counting.instances ++ (kept.map Counter.waiting).toList } := by
      cases kept <;> simp [Probes.counting, Instance.counter]
    rw [same]
    exact .entry mm prev (by simpa [Probes.counting] using room) entered
  | ret here fresh timed =>
    rename_i l r c u
    rw [Counting.ret_eq timed]
    refine .ret c.next ?_
    simp [Probes.counting, here, Instance.counter]
  | post here =>
    rename_i l r
    have same : Probes.counting { s with
        profiler := { s.profiler with postCount := s.profiler.postCount + 1 }
        instances := l ++ r } = { s.counting with
          postCount := s.counting.postCount + 1
          instances := l.map Instance.counter ++ r.map Instance.counter } := by
      simp [Probes.counting]
    rw [same]
    refine .post ?_
    simp [Probes.counting, here, Instance.counter]

theorem exists_instances {l : List Instance} {before after : List Counter} {x : Counter}
    (same : l.map Instance.counter = before ++ x :: after) : ∃ l₁ i l₂, l = l₁ ++ i :: l₂ ∧
      l₁.map Instance.counter = before ∧ i.counter = x ∧ l₂.map Instance.counter = after := by
  obtain ⟨l₁, rest, rfl, first, later⟩ := List.map_eq_append_iff.mp same
  obtain ⟨i, l₂, rfl, here, last⟩ := List.map_eq_cons_iff.mp later
  exact ⟨l₁, i, l₂, rfl, first, here, last⟩

theorem exists_fresh (s : Profiler) : ∃ addr, addr ∉ s.addrs :=
  Infinite.exists_notMem_finset s.addrs.toFinset |>.imp fun _ away mem =>
    away (List.mem_toFinset.mpr mem)

/-- Each step of the first part can be taken by the second, if its allocations succeed. -/
theorem Step.of_counting {s : Probes} (linked : s.profiler.Linked)
    (edge : Counting.Step s.counting e t) :
    ∃ e' t', Step b s e' t' ∧ e'.map Probing.seen = e ∧ t'.counting = t := by
  cases edge with
  | missed full => exact ⟨none, s, .missed (by simpa [Probes.counting] using full), rfl, rfl⟩
  | entry mm prev room entered =>
    rename_i count kept
    refine ⟨some (.entry mm), _, .entry mm prev (by simpa [Probes.counting] using room) entered,
      rfl, ?_⟩
    cases kept <;> simp [Probes.counting, Instance.counter]
  | ret next here =>
    rename_i l r prev
    obtain ⟨l₁, i, l₂, split, rfl, same, rfl⟩ := exists_instances here
    cases i with
    | timed => cases same
    | waiting prev' =>
      cases same
      obtain ⟨addr, away⟩ := exists_fresh s.profiler
      let c : Call := ⟨prev, next, 0, ⟨true, some addr, true⟩⟩
      have fresh : s.profiler.Fresh c := by
        rintro a ⟨⟩
        exact away
      obtain ⟨_, _, handled⟩ := (linked.step (b := b) fresh ⟨rfl, rfl, rfl⟩)
      obtain ⟨u, timed, _⟩ := Option.map_eq_some_iff.mp handled
      refine ⟨some (.ret c), _, .ret split fresh timed, rfl, ?_⟩
      exact Counting.ret_eq timed l₁ l₂
  | post here =>
    rename_i l r
    obtain ⟨l₁, i, l₂, split, rfl, same, rfl⟩ := exists_instances here
    cases i with
    | waiting prev => cases same
    | timed =>
      refine ⟨none, _, .post split, rfl, ?_⟩
      simp [Probes.counting]

/-- The counters of the first part are those of the second: whatever one can show after
some probes, the other can show after the same ones. -/
theorem counting_runs_iff (b : OrderedTree.Balance Node) (seen : List Seen) (shown : Counting) :
    Counting.Runs seen shown ↔
      ∃ h s, Runs b h s ∧ h.map Probing.seen = seen ∧ s.counting = shown := by
  constructor
  · intro run
    exact run.lift (R := fun (s : Probes) t => s.counting = t) (g := Probing.seen) rfl
      fun below same edge => Step.of_counting (Runs.linked below) (same ▸ edge)
  · rintro ⟨h, s, run, rfl, rfl⟩
    have simulated : ∃ t, Counting.Runs (h.map Probing.seen) t ∧ s.counting = t :=
      run.simulate (R := fun (s : Probes) t => s.counting = t) (g := Probing.seen) rfl
        fun _ same edge => ⟨_, same ▸ edge.counting, rfl⟩
    obtain ⟨_, run', rfl⟩ := simulated
    exact run'

end Probes
end CSE306.Perftop
