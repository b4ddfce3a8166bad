import CSE306.Perftop.Ledger
import Mathlib.Algebra.GroupWithZero.Nat
import Mathlib.Data.Fintype.Basic

/-! Which part of the time a process has spent its total shows, when every switch on
every processor is handled. -/
namespace CSE306.Perftop
open Transition

/-- A switch on one processor, with the time stamp of its handler. -/
structure Switch (C : Type) where
  cpu : C
  prev : Pid
  next : Pid
  tsc : UInt64
  deriving DecidableEq

/-- The processors with what runs on them (none if nothing of it is ever seen), the
last time stamp, and the profiler. -/
structure Machine (C : Type) where
  running : C → Option Pid
  clock : UInt64
  profiler : Profiler

/-- The handler's arguments for a switch. The address of a `task_struct` is that of its pid. -/
def Switch.call (address : Pid → Addr) (w : Switch C) (kmalloc : Allocations) : Call :=
  ⟨some ⟨address w.prev, w.prev⟩, some ⟨address w.next, w.next⟩, w.tsc, kmalloc⟩

namespace Machine
variable {C : Type} [DecidableEq C] {b : OrderedTree.Balance Node} {address : Pid → Addr}

/-- No process is on two processors. -/
def Exclusive (running : C → Option Pid) : Prop :=
  ∀ c d p, running c = some p → running d = some p → c = d

def start (running : C → Option Pid) : Machine C := ⟨running, 0, .empty⟩

/-- A processor goes on from the process it runs to one that runs nowhere, no earlier
than the last time stamp. -/
structure Admits (m : Machine C) (w : Switch C) : Prop where
  chain : m.running w.cpu = some w.prev
  free : ∀ c, m.running c ≠ some w.next
  ordered : m.clock ≤ w.tsc

inductive Step (b : OrderedTree.Balance Node) (address : Pid → Addr) :
    Machine C → Option (Switch C) → Machine C → Prop where
  | switch (kmalloc : Allocations) : m.Admits w →
      m.profiler.Step b (some (w.call address kmalloc)) t →
      Step b address m (some w) ⟨Function.update m.running w.cpu (some w.next), w.tsc, t⟩

end Machine

/-- A time slice: when the process was switched in and when it was switched out. -/
abbrev Slice := UInt64 × UInt64

def Slice.length (s : Slice) : Nat := s.2.toNat - s.1.toNat

theorem Slice.length_mk (start tsc : UInt64) : length (start, tsc) = tsc.toNat - start.toNat := rfl

/-- What a history shows of one process: the slice it is in, if its switch-in was
handled, and its completed ones. -/
structure Slices where
  current : Option UInt64
  completed : List Slice

def Slices.observe (pid : Pid) (x : Slices) (w : Switch C) : Slices :=
  if w.prev = pid then
    match x.current with
    | some start => ⟨none, x.completed ++ [(start, w.tsc)]⟩
    | none => x
  else if w.next = pid then ⟨some w.tsc, x.completed⟩
  else x

def slices (pid : Pid) (h : List (Switch C)) : Slices := h.foldl (Slices.observe pid) ⟨none, []⟩

/-- Whether the first switch that shows the process is one to it. -/
def seenAsNext (pid : Pid) (h : List (Switch C)) : Option Bool :=
  (h.find? fun w => w.prev = pid ∨ w.next = pid).map fun w => w.next = pid

/-- The time the process has spent in its completed slices. -/
def Slices.sum (x : Slices) : Nat := (x.completed.map Slice.length).sum

/-- The length of the first slice of a process first seen as `next`. -/
def lost (seen : Option Bool) (x : Slices) : Nat :=
  if seen = some true then (x.completed.head?.map Slice.length).getD 0 else 0

section
variable (pid : Pid) (h : List (Switch C)) (w : Switch C)

theorem slices_concat : slices pid (h ++ [w]) = (slices pid h).observe pid w := by
  rw [slices, slices, List.foldl_append, List.foldl_cons, List.foldl_nil]

theorem seenAsNext_concat : seenAsNext pid (h ++ [w]) =
    (seenAsNext pid h).or (if w.prev = pid ∨ w.next = pid then some (w.next = pid) else none) := by
  unfold seenAsNext
  rw [List.find?_append, Option.map_or]
  congr 1
  by_cases shown : w.prev = pid ∨ w.next = pid <;> simp [shown]

end

/-- What the account of a process says about its history. A first slice is lost where
the account was opened by a switch to the process; the totals are too small to wrap. -/
inductive Booked (x : Slices) (runs : Prop) (clock : UInt64) :
    Option Bool → Option Account → Prop where
  | unseen : x = ⟨none, []⟩ → Booked x runs clock none none
  | entered : runs → x = ⟨some start, []⟩ → start.toNat ≤ clock.toNat →
      Booked x runs clock (some true) (some ⟨start, none⟩)
  | counted : (runs → x.current = some start ∧ total.toNat ≤ start.toNat) →
      (¬ runs → x.current = none) → (seen = true → x.completed ≠ []) →
      total.toNat + lost (some seen) x = x.sum → total.toNat ≤ clock.toNat →
      start.toNat ≤ clock.toNat → Booked x runs clock (some seen) (some ⟨start, some total⟩)

theorem Slices.sum_concat (x : Slices) (s : Slice) (current : Option UInt64) :
    (⟨current, x.completed ++ [s]⟩ : Slices).sum = x.sum + s.length := by
  simp [Slices.sum]

theorem lost_concat {x : Slices} (nonempty : seen = some true → x.completed ≠ []) (s : Slice)
    (current : Option UInt64) : lost seen ⟨current, x.completed ++ [s]⟩ = lost seen x := by
  unfold lost
  split
  · rename_i first
    cases known : x.completed with
    | nil => exact (nonempty first known).elim
    | cons => rfl
  · rfl

/-- Between two time stamps a total grows by the time between them, without wrapping. -/
theorem toNat_charge {total start tsc : UInt64} (before : total.toNat ≤ start.toNat)
    (later : start.toNat ≤ tsc.toNat) :
    (total + (tsc - start)).toNat = total.toNat + (tsc.toNat - start.toNat) := by
  rw [UInt64.toNat_add, UInt64.toNat_sub_of_le _ _ (UInt64.le_iff_toNat_le.mpr later)]
  have := tsc.toNat_lt
  omega

section
variable {x : Slices} {w : Switch C} {clock : UInt64} (later : clock.toNat ≤ w.tsc.toNat)
include later

theorem Booked.switchOut (held : Booked x True clock seen account) (out : w.prev = pid) :
    Booked (x.observe pid w) False w.tsc (seen.or (some false))
      (some (Ledger.switchOut w.tsc account)) := by
  unfold Slices.observe
  rw [if_pos out]
  cases held with
  | unseen known =>
    subst known
    exact .counted False.elim (fun _ => rfl) (fun h => by cases h) rfl (Nat.zero_le _) le_rfl
  | @entered start _ known bound =>
    subst known
    refine .counted False.elim (fun _ => rfl) (fun _ => by simp) ?_ (Nat.zero_le _)
      (bound.trans later)
    simp [lost, Slices.sum]
  | @counted start seen total runs rest nonempty sum bound entered =>
    obtain ⟨current, order⟩ := runs trivial
    rw [current]
    have charged := toNat_charge order (entered.trans later)
    refine .counted False.elim (fun _ => rfl) (fun _ => by simp) ?_ ?_ (entered.trans later)
    · rw [lost_concat (by simpa using nonempty), Slices.sum_concat, charged, ← sum, Slice.length_mk]
      omega
    · rw [charged]
      omega

theorem Booked.switchIn (held : Booked x False clock seen account) (other : w.prev ≠ pid)
    (into : w.next = pid) :
    Booked (x.observe pid w) True w.tsc (seen.or (some true))
      (some (Ledger.switchIn w.tsc account)) := by
  unfold Slices.observe
  rw [if_neg other, if_pos into]
  cases held with
  | unseen known =>
    subst known
    exact .entered trivial rfl le_rfl
  | entered runs => exact runs.elim
  | counted _ rest nonempty sum bound entered =>
    exact .counted (fun _ => ⟨rfl, bound.trans later⟩) (fun h => (h trivial).elim) nonempty sum
      (bound.trans later) le_rfl

theorem Booked.elsewhere (held : Booked x runs clock seen account) (notPrev : w.prev ≠ pid)
    (notNext : w.next ≠ pid) : Booked (x.observe pid w) runs w.tsc seen account := by
  unfold Slices.observe
  rw [if_neg notPrev, if_neg notNext]
  cases held with
  | unseen known => exact .unseen known
  | entered runs known bound => exact .entered runs known (bound.trans later)
  | counted runs rest nonempty sum bound entered =>
    exact .counted runs rest nonempty sum (bound.trans later) (entered.trans later)

end

namespace Machine
variable {C : Type} [DecidableEq C] {b : OrderedTree.Balance Node} {address : Pid → Addr}

section Execution
variable [Fintype C]

instance (m : Machine C) (w : Switch C) : Decidable (m.Admits w) :=
  decidable_of_iff (m.running w.cpu = some w.prev ∧ (∀ c, m.running c ≠ some w.next) ∧
    m.clock ≤ w.tsc) ⟨fun ⟨chain, free, ordered⟩ => ⟨chain, free, ordered⟩,
      fun ⟨chain, free, ordered⟩ => ⟨chain, free, ordered⟩⟩

def step (b : OrderedTree.Balance Node) (address : Pid → Addr) (m : Machine C)
    (turn : Switch C × Allocations) : Option (Machine C × Option (Switch C)) :=
  let w := turn.1
  let c := w.call address turn.2
  if m.Admits w ∧ m.profiler.Fresh c then
    (m.profiler.retPickNextFair b c).map fun t =>
      (⟨Function.update m.running w.cpu (some w.next), w.tsc, t⟩, some w)
  else none

theorem step_sound {m m' : Machine C} (moved : step b address m turn = some (m', e)) :
    Step b address m e m' := by
  simp only [step] at moved
  split at moved
  · rename_i ready
    obtain ⟨t, result, same⟩ := Option.map_eq_some_iff.mp moved
    cases same
    exact .switch turn.2 ready.1 (.call ready.2 result)
  · contradiction

end Execution

/-- The process is on some processor. -/
def Runs (m : Machine C) (pid : Pid) : Prop := ∃ c, m.running c = some pid

theorem Step.ledger (distinct : Function.Injective address) {m m' : Machine C}
    (step : Step b address m (some w) m') (linked : m.profiler.Linked) :
    m'.profiler.ledger = m.profiler.ledger.switch w.prev w.next w.tsc ∧ m'.profiler.Linked := by
  cases step with
  | switch kmalloc admits worked =>
    obtain ⟨handled, linked'⟩ := worked.handled linked
    have different : w.prev ≠ w.next := by
      intro same
      exact admits.free w.cpu (by rw [← same]; exact admits.chain)
    have known : (w.call address kmalloc).switch =
        some (⟨address w.prev, w.prev⟩, ⟨address w.next, w.next⟩) :=
      if_pos fun same => different (distinct same)
    exact ⟨handled.ledger linked known, linked'⟩

omit [DecidableEq C] in
theorem Admits.different {m : Machine C} (admits : m.Admits w) : w.prev ≠ w.next := by
  intro same
  exact admits.free w.cpu (by rw [← same]; exact admits.chain)

theorem Admits.runs {m : Machine C} (admits : m.Admits w) (exclusive : Exclusive m.running)
    (clock : UInt64) (t : Profiler) (pid : Pid) :
    Runs ⟨Function.update m.running w.cpu (some w.next), clock, t⟩ pid ↔
      pid = w.next ∨ pid ≠ w.prev ∧ m.Runs pid := by
  simp only [Runs, Function.update_apply]
  constructor
  · rintro ⟨c, here⟩
    split at here
    · exact .inl (Option.some.inj here).symm
    · rename_i other
      refine .inr ⟨?_, c, here⟩
      rintro rfl
      exact other (exclusive c w.cpu _ here admits.chain)
  · rintro (rfl | ⟨other, c, here⟩)
    · exact ⟨w.cpu, if_pos rfl⟩
    · refine ⟨c, ?_⟩
      rw [if_neg, here]
      rintro rfl
      exact other (Option.some.inj (here.symm.trans admits.chain))

/-- What is kept of the machine and of the account of each process. -/
structure Balanced (h : List (Switch C)) (m : Machine C) : Prop where
  exclusive : Exclusive m.running
  linked : m.profiler.Linked
  booked : ∀ pid, Booked (slices pid h) (m.Runs pid) m.clock (seenAsNext pid h)
    (m.profiler.ledger pid)

theorem Balanced.step (distinct : Function.Injective address) {m m' : Machine C}
    (held : Balanced h m) (step : Step b address m (some w) m') : Balanced (h ++ [w]) m' := by
  obtain ⟨ledger, linked⟩ := step.ledger distinct held.linked
  cases step with
  | switch kmalloc admits worked =>
    have later := UInt64.le_iff_toNat_le.mp admits.ordered
    have different := admits.different
    refine ⟨?_, linked, fun pid => ?_⟩
    · intro c d p here there
      simp only [Function.update_apply] at here there
      split at here <;> split at there
      · rename_i l r
        rw [l, r]
      · cases here
        exact (admits.free d there).elim
      · cases there
        exact (admits.free c here).elim
      · exact held.exclusive c d p here there
    · have before := held.booked pid
      rw [slices_concat, seenAsNext_concat, ledger, admits.runs held.exclusive]
      by_cases out : w.prev = pid
      · subst out
        have ran : m.Runs w.prev := ⟨w.cpu, admits.chain⟩
        simp only [ran] at before
        rw [Ledger.switch_prev different]
        simpa [different, different.symm] using before.switchOut later rfl
      · by_cases into : w.next = pid
        · subst into
          have rested : ¬ m.Runs w.next := fun ⟨c, here⟩ => admits.free c here
          simp only [rested] at before
          rw [Ledger.switch_next different]
          simpa using before.switchIn later out rfl
        · rw [Ledger.switch_of_ne (Ne.symm out) (Ne.symm into)]
          simpa [out, into, Ne.symm out, Ne.symm into] using before.elsewhere later out into

/-- The runs of a machine whose every switch is handled. -/
abbrev Observed (b : OrderedTree.Balance Node) (address : Pid → Addr) (running : C → Option Pid)
    (h : List (Switch C)) (m : Machine C) : Prop :=
  Run (Step b address) (start running) h m

theorem Observed.balanced (distinct : Function.Injective address) {running : C → Option Pid}
    (exclusive : Exclusive running) {m : Machine C} (run : Observed b address running h m) :
    Balanced h m := by
  apply run.invariant (I := Balanced)
  · exact ⟨exclusive, .empty, fun pid => .unseen rfl⟩
  · rintro h m e m' _ held step
    cases e with
    | none => cases step
    | some w => exact held.step distinct step

/-- Every total is the time the process has spent in its completed slices. -/
def Exact (h : List (Switch C)) (m : Machine C) : Prop :=
  ∀ n ∈ m.profiler.mytree.inorder, n.ttsc.toNat = (slices n.pid h).sum

/-- No process first seen as `next` has spent time in its first slice. -/
def FirstSlicesEmpty (h : List (Switch C)) : Prop :=
  ∀ pid, seenAsNext pid h = some true → ∀ first ∈ (slices pid h).completed.head?, first.length = 0

theorem lost_eq_zero : lost seen x = 0 ↔
    seen = some true → ∀ first ∈ x.completed.head?, Slice.length first = 0 := by
  unfold lost
  split
  · rename_i first
    cases x.completed.head? <;> simp [first]
  · rename_i other
    simp [other]

omit [DecidableEq C] in
theorem Balanced.exact_iff {m : Machine C} (held : Balanced h m) :
    Exact h m ↔ FirstSlicesEmpty h := by
  constructor
  · intro exact_ pid
    rw [← lost_eq_zero]
    have booked := held.booked pid
    generalize known : m.profiler.ledger pid = account at booked
    generalize seenAsNext pid h = seen at booked
    cases booked with
    | unseen => rfl
    | entered _ none => rw [none]; rfl
    | counted _ _ _ sum =>
      obtain ⟨n, mem, rfl, rfl⟩ := Profiler.mem_of_ledger known
      have := exact_ n mem
      omega
  · intro empty n mem
    have booked := held.booked n.pid
    obtain ⟨start, known⟩ := held.linked.ledger mem
    have nothing := lost_eq_zero.mpr (empty n.pid)
    rw [known] at booked
    generalize seenAsNext n.pid h = seen at booked nothing
    cases booked with
    | counted _ _ _ sum =>
      rw [nothing] at sum
      exact sum

section Prefix
variable (pid : Pid) (k l : List (Switch C))

omit [DecidableEq C] in
theorem slices_append : ∃ later, (slices pid (k ++ l)).completed =
    (slices pid k).completed ++ later := by
  induction l using List.reverseRecOn with
  | nil => exact ⟨[], by simp⟩
  | append_singleton l w ih =>
    obtain ⟨later, known⟩ := ih
    rw [← List.append_assoc, slices_concat, Slices.observe]
    split
    · split
      · exact ⟨later ++ [(_, w.tsc)], by rw [known, List.append_assoc]⟩
      · exact ⟨later, known⟩
    · split <;> exact ⟨later, known⟩

omit [DecidableEq C] in
theorem FirstSlicesEmpty.of_append (empty : FirstSlicesEmpty (k ++ l)) : FirstSlicesEmpty k := by
  intro pid seen first there
  obtain ⟨later, known⟩ := slices_append pid k l
  refine empty pid ?_ first ?_
  · obtain ⟨w, found, next⟩ := Option.map_eq_some_iff.mp seen
    exact Option.map_eq_some_iff.mpr ⟨w, by rw [List.find?_append, found]; rfl, next⟩
  · rw [known, List.head?_append, there]
    rfl

end Prefix

/-- After every switch of a run all totals are exact, if and only if no process that was
first seen as `next` has lost a first slice of some length. -/
theorem exact_iff_first_slices_empty (distinct : Function.Injective address)
    {running : C → Option Pid} (exclusive : Exclusive running) {m : Machine C}
    (run : Observed b address running h m) :
    (∀ k l u, h = k ++ l → Observed b address running k u → Exact k u) ↔ FirstSlicesEmpty h := by
  constructor
  · intro exact_
    exact (run.balanced distinct exclusive).exact_iff.mp (exact_ h [] m (by simp) run)
  · rintro empty k l u rfl head
    exact (head.balanced distinct exclusive).exact_iff.mpr (empty.of_append k l)

/-- One processor, which first runs the process with pid 1. -/
def oneCpu : Unit → Option Pid := fun _ => some 1

/-- Each `task_struct` at an address of its own. -/
def taskAddress (pid : Pid) : Addr := 4096 * pid.toNat

theorem taskAddress_injective : Function.Injective taskAddress := by
  intro p q same
  have same : 4096 * p.toNat = 4096 * q.toNat := same
  exact BitVec.eq_of_toNat_eq (Nat.eq_of_mul_eq_mul_left (by decide) same)

theorem oneCpu_exclusive : Exclusive oneCpu := fun _ _ _ _ _ => rfl

/-- The switches between processes 1 and 2 at these time stamps, with their allocations. -/
def alternate (tscs : List UInt64) : List (Switch Unit × Allocations) :=
  tscs.mapIdx fun i tsc =>
    let (prev, next) : Pid × Pid := if i % 2 = 0 then (1, 2) else (2, 1)
    (⟨(), prev, next, tsc⟩, ⟨true, some (64 * (i + 1)), true⟩)

/-- Process 2 is first seen at 100, as `next`, and switched out at 150. -/
theorem first_slice_lost : Exclusive oneCpu ∧ ∃ h m,
    Observed .unbalanced taskAddress oneCpu h m ∧
      h = [⟨(), 1, 2, 100⟩, ⟨(), 2, 1, 150⟩] ∧ ¬ Exact h m := by
  have followed : (exec (step .unbalanced taskAddress) (start oneCpu)
      (alternate [100, 150])).any (fun r => r.2 = [⟨(), 1, 2, 100⟩, ⟨(), 2, 1, 150⟩] ∧
        ⟨128, 0, 2⟩ ∈ r.1.profiler.mytree.inorder) := by decide +kernel
  obtain ⟨m, h, run, rfl, shown⟩ := exec_any followed step_sound
  refine ⟨oneCpu_exclusive, _, m, run, rfl, fun exact_ => ?_⟩
  exact absurd (exact_ _ shown) (by decide)

theorem exact_iff_first_slices_empty_thrice : ∃ h m,
    Observed .unbalanced taskAddress oneCpu h m ∧
      ⟨192, 250, 1⟩ ∈ m.profiler.mytree.inorder ∧
      ((∀ k l u, h = k ++ l → Observed .unbalanced taskAddress oneCpu k u → Exact k u) ↔
        FirstSlicesEmpty h) := by
  have followed : (exec (step .unbalanced taskAddress) (start oneCpu)
      (alternate [100, 100, 350])).any (fun r =>
        ⟨192, 250, 1⟩ ∈ r.1.profiler.mytree.inorder) := by decide +kernel
  obtain ⟨m, h, run, known⟩ := exec_any followed step_sound
  exact ⟨h, m, run, known,
    exact_iff_first_slices_empty taskAddress_injective oneCpu_exclusive run⟩

end Machine
end CSE306.Perftop
