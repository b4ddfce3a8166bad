import CSE306.Perftop.Report
import CSE306.Perftop.Skipping
import CSE306.Words

/-! The three counters, over every interleaving of the probes. Each handler is taken apart
where it holds a lock, so that what other processors do may come between. -/
namespace CSE306.Perftop
open Transition

/-- `maxactive` -/
def maxactive : Nat := 8

/-- A kretprobe instance from the entry of the probed function on: it waits for the return
with its `prev`, or its return handler has left the part under `post_timing_lock` behind. -/
inductive Instance where
  | waiting (prev : Option Task)
  | timed
  deriving DecidableEq

def Instance.isTimed : Instance → Bool
  | .waiting _ => false
  | .timed => true

structure Probes where
  preCount : BitVec 32
  profiler : Profiler
  instances : List Instance

/-- What the probes are run for: an entry, of a user task or not, and a return. -/
inductive Probing where
  | entry (mm : Bool)
  | ret (c : Call)
  deriving DecidableEq

namespace Probes
variable {b : OrderedTree.Balance Node}

def start : Probes := ⟨0, .empty, []⟩

/-- What the return handler does under `post_timing_lock`, if it takes it. -/
def timing (b : OrderedTree.Balance Node) (s : Profiler) (c : Call) : Option Profiler :=
  match c.switch with
  | some (prev, next) => s.contextSwitch b prev next c
  | none => some s

/-- One processor goes on by one critical section. Where all instances are in use, an entry is
missed: no handler runs. An instance whose entry handler has returned 1 is in use no longer. -/
inductive Step (b : OrderedTree.Balance Node) : Probes → Option Probing → Probes → Prop where
  | missed : maxactive ≤ s.instances.length → Step b s none s
  | entry (mm : Bool) (prev : Option Task) : s.instances.length < maxactive →
      entryPickNextFair mm s.preCount prev = (count, kept) →
      Step b s (some (.entry mm)) { s with
        preCount := count
        instances := s.instances ++ (kept.map Instance.waiting).toList }
  | ret : s.instances = l ++ .waiting c.prev :: r → s.profiler.Fresh c →
      timing b s.profiler c = some t →
      Step b s (some (.ret c)) { s with profiler := t, instances := l ++ .timed :: r }
  | post : s.instances = l ++ .timed :: r →
      Step b s none { s with
        profiler := { s.profiler with postCount := s.profiler.postCount + 1 }
        instances := l ++ r }

abbrev Runs (b : OrderedTree.Balance Node) (h : List Probing) (s : Probes) : Prop :=
  Run (Step b) start h s

end Probes

namespace Probing

def isUserEntry : Probing → Bool
  | .entry mm => mm
  | .ret _ => false

def isReturn : Probing → Bool
  | .entry _ => false
  | .ret _ => true

/-- A return with `prev` and `next` that are different and not NULL. -/
def isSwitch : Probing → Bool
  | .entry _ => false
  | .ret c => c.switch.isSome

end Probing

def userEntries (h : List Probing) : Nat := h.countP Probing.isUserEntry

def handledReturns (h : List Probing) : Nat := h.countP Probing.isReturn

def countedSwitches (h : List Probing) : Nat := h.countP Probing.isSwitch

namespace Probes
variable {b : OrderedTree.Balance Node}

/-- Where the counters are, while instances are in use. A return counts as handled from the
part under `post_timing_lock` on, and is not in `post_count` before the last part. -/
structure Counted (h : List Probing) (s : Probes) : Prop where
  pre : s.preCount = BitVec.ofNat 32 (userEntries h)
  switches : s.profiler.contextSwitchCounter = BitVec.ofNat 32 (countedSwitches h)
  post : ∃ finished, s.profiler.postCount = BitVec.ofNat 32 finished ∧
    handledReturns h = finished + s.instances.countP Instance.isTimed
  waiting : userEntries h = handledReturns h + s.instances.countP (!·.isTimed)

theorem counted_start : Counted [] start where
  pre := rfl
  switches := rfl
  post := ⟨0, rfl, rfl⟩
  waiting := rfl

theorem workForPrev_counts {s t : Profiler} (charged : s.workForPrev b pid tsc kmalloc = some t) :
    t.contextSwitchCounter = s.contextSwitchCounter ∧ t.postCount = s.postCount := by
  simp only [Profiler.workForPrev, Option.bind_eq_bind, Option.bind_eq_some_iff,
    Option.pure_def, Option.some.injEq] at charged
  obtain ⟨_, _, _, _, _, _, rfl⟩ := charged
  exact ⟨rfl, rfl⟩

theorem workForNext_counts {s t : Profiler} (stamped : s.workForNext pid tsc kmalloc = some t) :
    t.contextSwitchCounter = s.contextSwitchCounter ∧ t.postCount = s.postCount := by
  unfold Profiler.workForNext at stamped
  split at stamped
  · split at stamped
    · cases stamped
      exact ⟨rfl, rfl⟩
    · cases stamped
  · cases stamped
    exact ⟨rfl, rfl⟩

theorem contextSwitch_counts {s t : Profiler} (switched : s.contextSwitch b prev next c = some t) :
    t.contextSwitchCounter = s.contextSwitchCounter + 1 ∧ t.postCount = s.postCount := by
  obtain ⟨u, charged, stamped⟩ := Option.bind_eq_some_iff.mp switched
  obtain ⟨counter, post⟩ := workForPrev_counts charged
  obtain ⟨counter', post'⟩ := workForNext_counts stamped
  exact ⟨counter'.trans counter, post'.trans post⟩

section
variable {h : List Probing}

theorem userEntries_concat (e : Probing) :
    userEntries (h ++ [e]) = userEntries h + if e.isUserEntry then 1 else 0 := by
  rw [userEntries, List.countP_append, List.countP_singleton, userEntries]

theorem handledReturns_concat (e : Probing) :
    handledReturns (h ++ [e]) = handledReturns h + if e.isReturn then 1 else 0 := by
  rw [handledReturns, List.countP_append, List.countP_singleton, handledReturns]

theorem countedSwitches_concat (e : Probing) :
    countedSwitches (h ++ [e]) = countedSwitches h + if e.isSwitch then 1 else 0 := by
  rw [countedSwitches, List.countP_append, List.countP_singleton, countedSwitches]

end

/-- An entry of a kernel thread, or one that is missed, changes no counter. -/
theorem Counted.kernelEntry {s : Probes} (counted : Counted h s) :
    Counted (h ++ [.entry false]) s := by
  obtain ⟨pre, switches, ⟨finished, post, returns⟩, waiting⟩ := counted
  refine ⟨?_, ?_, ⟨finished, post, ?_⟩, ?_⟩
  · rw [userEntries_concat]
    exact pre
  · rw [countedSwitches_concat]
    exact switches
  · rw [handledReturns_concat]
    exact returns
  · rw [userEntries_concat, handledReturns_concat]
    exact waiting

theorem Counted.userEntry {s : Probes} (counted : Counted h s) (prev : Option Task) :
    Counted (h ++ [.entry true]) { s with
      preCount := s.preCount + 1
      instances := s.instances ++ [.waiting prev] } := by
  obtain ⟨pre, switches, ⟨finished, post, returns⟩, waiting⟩ := counted
  refine ⟨?_, ?_, ⟨finished, post, ?_⟩, ?_⟩
  · rw [userEntries_concat, pre]
    exact (BitVec.ofNat_add ..).symm
  · rw [countedSwitches_concat]
    exact switches
  · rw [handledReturns_concat, List.countP_append]
    exact returns
  · rw [userEntries_concat, handledReturns_concat, List.countP_append, waiting]
    rfl

theorem Counted.ret {s : Probes} (counted : Counted h s)
    (here : s.instances = l ++ .waiting c.prev :: r) (timed : timing b s.profiler c = some t) :
    Counted (h ++ [.ret c]) { s with profiler := t, instances := l ++ .timed :: r } := by
  obtain ⟨pre, switches, ⟨finished, post, returns⟩, waiting⟩ := counted
  have counts : t.contextSwitchCounter =
      s.profiler.contextSwitchCounter + (if c.switch.isSome then 1 else 0) ∧
      t.postCount = s.profiler.postCount := by
    unfold timing at timed
    cases switched : c.switch with
    | none =>
      rw [switched] at timed
      cases timed
      simp
    | some both =>
      rw [switched] at timed
      exact contextSwitch_counts timed
  rw [here, List.countP_append, List.countP_cons] at returns waiting
  refine ⟨?_, ?_, ⟨finished, counts.2.trans post, ?_⟩, ?_⟩
  · rw [userEntries_concat]
    exact pre
  · rw [countedSwitches_concat, counts.1, switches, Probing.isSwitch]
    split
    · exact (BitVec.ofNat_add ..).symm
    · simp
  · rw [handledReturns_concat, List.countP_append, List.countP_cons, returns]
    simp [Probing.isReturn, Instance.isTimed]
    omega
  · rw [userEntries_concat, handledReturns_concat, List.countP_append, List.countP_cons, waiting]
    simp [Probing.isReturn, Probing.isUserEntry, Instance.isTimed]
    omega

theorem Counted.finish {s : Probes} (counted : Counted h s)
    (here : s.instances = l ++ .timed :: r) : Counted h { s with
      profiler := { s.profiler with postCount := s.profiler.postCount + 1 }
      instances := l ++ r } := by
  obtain ⟨pre, switches, ⟨finished, post, returns⟩, waiting⟩ := counted
  rw [here, List.countP_append, List.countP_cons] at returns waiting
  refine ⟨pre, switches, ⟨finished + 1, ?_, ?_⟩, ?_⟩
  · rw [post]
    exact (BitVec.ofNat_add ..).symm
  · rw [List.countP_append, returns]
    simp [Instance.isTimed]
    omega
  · rw [List.countP_append, waiting]
    simp [Instance.isTimed]

theorem Counted.step {s t : Probes} (counted : Counted h s) (edge : Step b s e t) :
    Counted (h ++ e.toList) t := by
  cases edge with
  | missed full =>
    rw [Option.toList_none, List.append_nil]
    exact counted
  | entry mm prev room entered =>
    cases mm with
    | false =>
      cases entered
      rw [Option.map_none, Option.toList_none, List.append_nil]
      exact counted.kernelEntry
    | true =>
      cases entered
      exact counted.userEntry prev
  | ret here fresh timed => exact counted.ret here timed
  | post here =>
    rw [Option.toList_none, List.append_nil]
    exact counted.finish here

theorem Runs.counted (run : Runs b h s) : Counted h s :=
  run.invariant counted_start fun _ counted edge => counted.step edge

/-- What a reading of `/proc/perftop` shows as `int`s is what has happened. -/
structure Exact (h : List Probing) (shown : Report) : Prop where
  pre : shown.preCount.toInt = userEntries h
  post : shown.postCount.toInt = handledReturns h
  switches : shown.contextSwitch.toInt = countedSwitches h
  nonneg : 0 ≤ shown.preCount.toInt ∧ 0 ≤ shown.postCount.toInt ∧ 0 ≤ shown.contextSwitch.toInt
  ordered : shown.contextSwitch.toInt ≤ shown.postCount.toInt ∧
    shown.postCount.toInt = shown.preCount.toInt

theorem countedSwitches_le (h : List Probing) : countedSwitches h ≤ handledReturns h := by
  apply List.countP_mono_left
  intro e _ switch
  cases e with
  | entry mm => cases switch
  | ret c => rfl

theorem toInt_ofNat (small : n < 2147483648) : (BitVec.ofNat 32 n).toInt = n := by
  rw [BitVec.toInt_ofNat']
  exact bmod_of_fits (by omega) (by omega)

/-- When no instance is in use, the counters are exact where not one of them has passed the
largest `int`, and the first to do so is `pre_count`. -/
theorem counters_exact_iff (run : Runs b h s) (quiet : s.instances = []) :
    Exact h (s.profiler.perftopProcShow s.preCount) ↔ userEntries h < 2147483648 := by
  obtain ⟨pre, switches, ⟨finished, post, returns⟩, waiting⟩ := run.counted
  rw [quiet, List.countP_nil, Nat.add_zero] at returns waiting
  constructor
  · intro exact_
    have bound : s.preCount.toInt < 2147483648 := BitVec.toInt_lt
    have shown : s.preCount.toInt = userEntries h := exact_.pre
    omega
  · intro small
    have fewer := countedSwitches_le h
    have pre' : s.preCount.toInt = userEntries h := by
      rw [pre, toInt_ofNat small]
    have post' : s.profiler.postCount.toInt = handledReturns h := by
      rw [post, ← returns, toInt_ofNat (by omega)]
    have switches' : s.profiler.contextSwitchCounter.toInt = countedSwitches h := by
      rw [switches, toInt_ofNat (by omega)]
    refine ⟨pre', post', switches', ?_, ?_⟩
    · simp only [Profiler.perftopProcShow, pre', post', switches']
      omega
    · simp only [Profiler.perftopProcShow, pre', post', switches']
      omega

/-- The task that runs is picked again. -/
def again : Call := ⟨some ⟨4096, 1⟩, some ⟨4096, 1⟩, 0, ⟨false, none, false⟩⟩

def rounds : Nat → List Probing
  | 0 => []
  | n + 1 => rounds n ++ [.entry true] ++ [.ret again]

theorem userEntries_rounds (n : Nat) : userEntries (rounds n) = n := by
  induction n with
  | zero => rfl
  | succ n ih => rw [rounds, userEntries_concat, userEntries_concat, ih]; rfl

theorem rounds_run (b : OrderedTree.Balance Node) (n : Nat) : Runs b (rounds n)
    ⟨BitVec.ofNat 32 n, { Profiler.empty with postCount := BitVec.ofNat 32 n }, []⟩ := by
  induction n with
  | zero => exact .start
  | succ n ih =>
    have count : BitVec.ofNat 32 (n + 1) = BitVec.ofNat 32 n + 1 := BitVec.ofNat_add ..
    have fresh : Profiler.empty.Fresh again := fun addr mem => by cases mem
    have entered := Run.next ih (.entry true again.prev (by simp [maxactive]) rfl)
    have returned := Run.next entered (.ret (l := []) (c := again) rfl fresh rfl)
    have finished := Run.next returned (.post (l := []) rfl)
    rw [Option.toList_none, List.append_nil] at finished
    rw [rounds, count]
    exact finished

/-- One switch, from task 1 to task 2. -/
theorem counters_exact_iff_switch : ∃ h s, Runs .unbalanced h s ∧ countedSwitches h = 1 ∧
    Exact h (s.profiler.perftopProcShow s.preCount) := by
  let c : Call := ⟨some ⟨4096, 1⟩, some ⟨8192, 2⟩, 100, ⟨true, some 12288, true⟩⟩
  have fresh : Profiler.empty.Fresh c := fun _ _ => List.not_mem_nil
  obtain ⟨t, timed⟩ := Option.isSome_iff_exists.mp
    (by decide +kernel : (timing .unbalanced .empty c).isSome = true)
  have entered := Run.next .start (Step.entry (b := .unbalanced) (s := start) true c.prev
    (by simp [maxactive, start]) rfl)
  have returned := Run.next entered (.ret (l := []) (c := c) rfl fresh timed)
  have finished := Run.next returned (.post (l := []) rfl)
  exact ⟨_, _, finished, rfl, (counters_exact_iff finished rfl).mpr (by decide)⟩

/-- After 2147483648 entries the counters that are shown are negative. -/
theorem counters_wrap : ∃ h s, Runs .unbalanced h s ∧ s.instances = [] ∧
    userEntries h = 2147483648 ∧
    (s.profiler.perftopProcShow s.preCount).preCount.toInt = -2147483648 ∧
    (s.profiler.perftopProcShow s.preCount).postCount.toInt = -2147483648 ∧
    ¬ Exact h (s.profiler.perftopProcShow s.preCount) := by
  have wrapped : (BitVec.ofNat 32 2147483648).toInt = -2147483648 := by decide
  refine ⟨_, _, rounds_run .unbalanced 2147483648, rfl, userEntries_rounds _, wrapped, wrapped, ?_⟩
  intro exact_
  have pre := exact_.nonneg.1
  rw [Profiler.perftopProcShow, wrapped] at pre
  exact absurd pre (by decide)

end Probes
end CSE306.Perftop
