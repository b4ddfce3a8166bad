import CSE306.Perftop.Readings
import CSE306.Perftop.Accounting

/-! One processor on which the switches away from kernel threads are not handled. A task
that such a switch resumes is charged from a stamp that may be much older. -/
namespace CSE306.Perftop
open Transition

/-- The probe on entry counts the calls of user tasks and keeps their `prev` for the return
handler; for a kernel thread, which has no `mm`, no return handler runs. -/
def entryPickNextFair (mm : Bool) (preCount : BitVec 32) (prev : Option Task) :
    BitVec 32 × Option (Option Task) :=
  if mm then (preCount + 1, some prev) else (preCount, none)

/-- What runs, the time, and the profiler. -/
structure Cpu where
  running : Pid
  clock : UInt64
  preCount : BitVec 32
  profiler : Profiler

namespace Cpu

def start (running : Pid) (clock : UInt64) : Cpu := ⟨running, clock, 0, .empty⟩

/-- What follows from a switch to `w.next` once the entry probe has run. -/
def resume (b : OrderedTree.Balance Node) (address : Pid → Addr) (x : Cpu) (w : Switch Unit)
    (kmalloc : Allocations) (entered : BitVec 32 × Option (Option Task)) : Option Cpu :=
  match entered with
  | (preCount, none) => some ⟨w.next, w.tsc, preCount, x.profiler⟩
  | (preCount, some prev) =>
    let c : Call := ⟨prev, some ⟨address w.next, w.next⟩, w.tsc, kmalloc⟩
    (x.profiler.step b c).map fun (t, _) => ⟨w.next, w.tsc, preCount, t⟩

/-- One switch, away from the task that runs and no earlier than the last one. -/
def step (b : OrderedTree.Balance Node) (address : Pid → Addr) (mm : Pid → Bool) (x : Cpu)
    (turn : Switch Unit × Allocations) : Option (Cpu × Option (Switch Unit)) :=
  let w := turn.1
  if w.prev = x.running ∧ x.clock ≤ w.tsc then
    (x.resume b address w turn.2 (entryPickNextFair (mm w.prev) x.preCount
      (some ⟨address w.prev, w.prev⟩))).map (·, some w)
  else none

inductive Step (b : OrderedTree.Balance Node) (address : Pid → Addr) (mm : Pid → Bool) :
    Cpu → Option (Switch Unit) → Cpu → Prop where
  | switch (kmalloc : Allocations) : step b address mm x (w, kmalloc) = some (y, some w) →
      Step b address mm x (some w) y

/-- The schedules of a processor that runs `running` from the time `clock`. -/
abbrev Observed (b : OrderedTree.Balance Node) (address : Pid → Addr) (mm : Pid → Bool)
    (running : Pid) (clock : UInt64) (h : List (Switch Unit)) (x : Cpu) : Prop :=
  Run (Step b address mm) (start running clock) h x

end Cpu

/-- How long a process has run on the processor between `clock` and the last switch. -/
def ran (pid : Pid) : Nat → List (Switch Unit) → Nat
  | _, [] => 0
  | clock, w :: rest =>
    (if w.prev = pid then w.tsc.toNat - clock else 0) + ran pid w.tsc.toNat rest

def stop (clock : Nat) (h : List (Switch Unit)) : Nat := h.foldl (fun _ w => w.tsc.toNat) clock

/-- What a schedule shows of one process. -/
structure Course where
  /-- when it was last switched in, while it runs -/
  since : Option Nat
  /-- the time in its completed slices -/
  completed : Nat
  /-- its last handled switch-in, or the end of its first slice if it has none -/
  stamp : Option Nat
  /-- the length of its first slice -/
  first : Option Nat
  /-- the time from the stamp to the switch-in, over its later slices -/
  stale : Nat

namespace Course

def start (runs : Bool) (clock : Nat) : Course :=
  { since := if runs then some clock else none
    completed := 0
    stamp := none
    first := none
    stale := 0 }

/-- A slice ends at `tsc`. Those after the first add the time before them that the stamp
does not know of. -/
def leave (x : Course) (tsc : Nat) : Course :=
  match x.since with
  | none => x
  | some since =>
    { since := none
      completed := x.completed + (tsc - since)
      stamp := x.stamp.or (some tsc)
      first := x.first.or (some (tsc - since))
      stale := if x.first.isSome then x.stale + (since - x.stamp.getD since) else x.stale }

def enter (x : Course) (handled : Bool) (tsc : Nat) : Course :=
  { x with since := some tsc, stamp := if handled then some tsc else x.stamp }

def observe (mm : Pid → Bool) (pid : Pid) (x : Course) (w : Switch Unit) : Course :=
  if w.prev = w.next then x
  else if w.prev = pid then x.leave w.tsc.toNat
  else if w.next = pid then x.enter (mm w.prev) w.tsc.toNat
  else x

end Course

def course (mm : Pid → Bool) (running : Pid) (clock : Nat) (pid : Pid)
    (h : List (Switch Unit)) : Course :=
  h.foldl (Course.observe mm pid) (.start (running = pid) clock)

section
variable (mm : Pid → Bool) (running : Pid) (clock : Nat) (pid : Pid) (h k : List (Switch Unit))
  (w : Switch Unit)

theorem stop_concat : stop clock (h ++ [w]) = w.tsc.toNat := by
  rw [stop, List.foldl_append, List.foldl_cons, List.foldl_nil]

theorem course_concat : course mm running clock pid (h ++ [w]) =
    (course mm running clock pid h).observe mm pid w := by
  rw [course, course, List.foldl_append, List.foldl_cons, List.foldl_nil]

theorem ran_append : ran pid clock (h ++ k) = ran pid clock h + ran pid (stop clock h) k := by
  induction h generalizing clock with
  | nil => rw [List.nil_append, ran, Nat.zero_add, stop, List.foldl_nil]
  | cons first h ih =>
    rw [List.cons_append, ran, ih, ran, Nat.add_assoc, stop, stop, List.foldl_cons]

theorem ran_concat : ran pid clock (h ++ [w]) = ran pid clock h +
    if w.prev = pid then w.tsc.toNat - stop clock h else 0 := by
  rw [ran_append, ran, ran, Nat.add_zero]

end

namespace Course

/-- What the account of a process says about its schedule. A total has all the stale time
in it and lacks the first slice. -/
inductive Accounted (x : Course) : Option Account → Prop where
  | unseen : x.stamp = none → x.first = none → x.completed = 0 → x.stale = 0 → Accounted x none
  | entered (stamp : UInt64) : x.stamp = some stamp.toNat → x.first = none → x.completed = 0 →
      x.stale = 0 → Accounted x (some ⟨stamp, none⟩)
  | counted (stamp total : UInt64) (slice : Nat) : x.stamp = some stamp.toNat →
      x.first = some slice → slice ≤ x.completed →
      total.toNat = (x.completed + x.stale - slice) % 2 ^ 64 →
      Accounted x (some ⟨stamp, some total⟩)

/-- How far the course of a process has come. -/
structure Tracks (x : Course) (runs : Prop) (clock time : Nat) (account : Option Account) :
    Prop where
  here : x.since.isSome ↔ runs
  reached : x.since.getD clock ≤ clock
  stamped : ∀ stamp ∈ x.stamp, stamp ≤ x.since.getD clock
  spent : time = x.completed + (clock - x.since.getD clock)
  bounded : time ≤ clock
  accounted : x.Accounted account

variable {x : Course} {tsc : UInt64}

theorem Tracks.start (running pid : Pid) (clock : Nat) :
    (Course.start (running = pid) clock).Tracks (running = pid) clock 0 none := by
  constructor
  case here => by_cases same : running = pid <;> simp [Course.start, same]
  case reached => by_cases same : running = pid <;> simp [Course.start, same]
  case stamped =>
    intro stamp known
    cases known
  case spent => by_cases same : running = pid <;> simp [Course.start, same]
  case bounded => exact Nat.zero_le clock
  case accounted => exact .unseen rfl rfl rfl rfl

theorem Tracks.leave (held : x.Tracks True clock time account) (later : clock ≤ tsc.toNat) :
    (x.leave tsc.toNat).Tracks False tsc.toNat (time + (tsc.toNat - clock))
      (some (Ledger.switchOut tsc account)) := by
  obtain ⟨here, reached, stamped, spent, bounded, accounted⟩ := held
  obtain ⟨since, known⟩ := Option.isSome_iff_exists.mp (here.mpr trivial)
  simp only [known, Option.getD_some] at reached stamped spent
  have left : x.leave tsc.toNat =
      { since := none
        completed := x.completed + (tsc.toNat - since)
        stamp := x.stamp.or (some tsc.toNat)
        first := x.first.or (some (tsc.toNat - since))
        stale := if x.first.isSome then x.stale + (since - x.stamp.getD since) else x.stale } := by
    rw [Course.leave, known]
  rw [left]
  refine ⟨by simp, le_rfl, ?_, ?_, by omega, ?_⟩
  · intro stamp mem
    cases before : x.stamp with
    | none =>
      rw [before, Option.none_or] at mem
      cases mem
      exact le_rfl
    | some s =>
      rw [before, Option.some_or] at mem
      cases mem
      have := stamped stamp before
      simp only [Option.getD_none]
      omega
  · simp only [Option.getD_none, spent]
    omega
  · cases accounted with
    | unseen none first completed stale =>
      apply Accounted.counted tsc 0 (tsc.toNat - since) <;> simp [none, first, completed, stale]
    | entered stamp known first completed stale =>
      apply Accounted.counted stamp 0 (tsc.toNat - since) <;> simp [known, first, completed, stale]
    | counted stamp total slice known first bound sum =>
      have order := stamped stamp.toNat known
      have later' : stamp ≤ tsc := UInt64.le_iff_toNat_le.mpr (by omega)
      refine .counted stamp _ slice (by rw [known]; rfl) (by rw [first]; rfl)
        (Nat.le_add_right_of_le bound) ?_
      simp only [first, Option.isSome_some, if_true, known, Option.getD_some]
      rw [UInt64.toNat_add, UInt64.toNat_sub_of_le _ _ later', sum]
      omega

theorem Tracks.enter (held : x.Tracks False clock time account) (handled : Bool)
    (later : clock ≤ tsc.toNat) : (x.enter handled tsc.toNat).Tracks True tsc.toNat time
      (if handled then some (Ledger.switchIn tsc account) else account) := by
  obtain ⟨here, reached, stamped, spent, bounded, accounted⟩ := held
  have rests : x.since = none := by
    cases known : x.since with
    | none => rfl
    | some since =>
      rw [known] at here
      exact (here.mp rfl).elim
  simp only [rests, Option.getD_none] at reached stamped spent
  refine ⟨by simp [Course.enter], le_rfl, ?_, by simp [Course.enter, spent], by omega, ?_⟩
  · intro stamp mem
    simp only [Course.enter, Option.getD_some] at mem ⊢
    split at mem
    · cases mem
      exact le_rfl
    · exact (stamped stamp mem).trans later
  · cases handled with
    | false =>
      cases accounted with
      | unseen none first completed stale => exact .unseen none first completed stale
      | entered _ stamp first completed stale => exact .entered _ stamp first completed stale
      | counted _ _ _ stamp first bound sum => exact .counted _ _ _ stamp first bound sum
    | true =>
      cases accounted with
      | unseen _ first completed stale => exact .entered tsc rfl first completed stale
      | entered _ _ first completed stale => exact .entered tsc rfl first completed stale
      | counted _ _ _ _ first bound sum => exact .counted tsc _ _ rfl first bound sum

theorem Tracks.elsewhere (held : x.Tracks runs clock time account) (later : clock ≤ tsc.toNat) :
    x.Tracks runs tsc.toNat (time + if x.since.isSome then tsc.toNat - clock else 0) account := by
  obtain ⟨here, reached, stamped, spent, bounded, accounted⟩ := held
  cases known : x.since with
  | none =>
    simp only [known, Option.getD_none] at stamped spent
    refine ⟨by rw [← here, known], by simp [known], ?_, by simp [spent, known], ?_, accounted⟩
    · intro stamp mem
      rw [known]
      exact (stamped stamp mem).trans later
    · simp only [Option.isSome_none, Bool.false_eq_true, if_false]
      omega
  | some since =>
    simp only [known, Option.getD_some] at reached stamped spent
    refine ⟨by rw [← here, known], ?_, ?_, ?_, ?_, accounted⟩
    · rw [known]
      exact reached.trans later
    · rw [known]
      exact stamped
    · simp only [known, Option.getD_some, Option.isSome_some, if_true, spent]
      omega
    · simp only [Option.isSome_some, if_true]
      omega

end Course

namespace Cpu
variable {b : OrderedTree.Balance Node} {address : Pid → Addr} {mm : Pid → Bool}
  {running : Pid} {clock : Nat}

/-- What one switch does. The handler runs for a user task only. -/
theorem Step.resumed {x y : Cpu} (step : Step b address mm x (some w) y) :
    w.prev = x.running ∧ x.clock ≤ w.tsc ∧ y.running = w.next ∧ y.clock = w.tsc ∧
      (mm w.prev = false ∧ y.profiler = x.profiler ∨
        mm w.prev = true ∧ ∃ kmalloc,
          x.profiler.Step b (some (w.call address kmalloc)) y.profiler) := by
  obtain ⟨kmalloc, moved⟩ := step
  simp only [Cpu.step] at moved
  split at moved
  · rename_i chain
    obtain ⟨z, result, same⟩ := Option.map_eq_some_iff.mp moved
    cases same
    refine ⟨chain.1, chain.2, ?_⟩
    cases user : mm w.prev with
    | false =>
      simp only [entryPickNextFair, user, resume] at result
      cases result
      exact ⟨rfl, rfl, .inl ⟨rfl, rfl⟩⟩
    | true =>
      simp only [entryPickNextFair, user, resume, if_true] at result
      obtain ⟨⟨t, e⟩, handled, rfl⟩ := Option.map_eq_some_iff.mp result
      refine ⟨rfl, rfl, .inr ⟨rfl, kmalloc, ?_⟩⟩
      simp only [Profiler.step] at handled
      split at handled
      · rename_i fresh
        obtain ⟨t, worked, same⟩ := Option.map_eq_some_iff.mp handled
        cases same
        exact .call fresh worked
      · contradiction
  · contradiction

theorem step_sound {x y : Cpu} (moved : step b address mm x turn = some (y, e)) :
    Step b address mm x e y := by
  have again := moved
  simp only [step] at moved
  split at moved
  · obtain ⟨z, _, same⟩ := Option.map_eq_some_iff.mp moved
    cases same
    exact .switch turn.2 again
  · contradiction

/-- A switch from a user task to another task moves the accounts, any other leaves them. -/
theorem Step.ledger (distinct : Function.Injective address) {x y : Cpu}
    (step : Step b address mm x (some w) y) (linked : x.profiler.Linked) :
    y.profiler.Linked ∧ y.profiler.ledger =
      if mm w.prev ∧ w.prev ≠ w.next then x.profiler.ledger.switch w.prev w.next w.tsc
      else x.profiler.ledger := by
  obtain ⟨_, _, _, _, handler⟩ := step.resumed
  cases handler with
  | inl skipped =>
    obtain ⟨kernel, same⟩ := skipped
    rw [same, kernel]
    exact ⟨linked, by simp⟩
  | inr ran =>
    obtain ⟨user, kmalloc, worked⟩ := ran
    obtain ⟨handled, linked'⟩ := worked.handled linked
    refine ⟨linked', ?_⟩
    rw [handled.after linked, user]
    by_cases same : w.prev = w.next
    · have unswitched : (w.call address kmalloc).switch = none := if_neg (by simp [same])
      rw [Ledger.after_none unswitched, if_neg (by simp [same])]
    · have switched : (w.call address kmalloc).switch =
          some (⟨address w.prev, w.prev⟩, ⟨address w.next, w.next⟩) :=
        if_pos fun there => same (distinct there)
      rw [Ledger.after_some switched, if_pos ⟨rfl, same⟩]
      rfl

/-- What is kept of the processor and of the course of each user task. -/
structure Followed (mm : Pid → Bool) (running : Pid) (clock : Nat) (h : List (Switch Unit))
    (x : Cpu) : Prop where
  linked : x.profiler.Linked
  stop : x.clock.toNat = stop clock h
  tracks : ∀ pid, mm pid → (course mm running clock pid h).Tracks (x.running = pid)
    x.clock.toNat (ran pid clock h) (x.profiler.ledger pid)

theorem Followed.step (distinct : Function.Injective address) {x y : Cpu}
    (held : Followed mm running clock h x) (step : Step b address mm x (some w) y) :
    Followed mm running clock (h ++ [w]) y := by
  obtain ⟨linked, ledger⟩ := step.ledger distinct held.linked
  obtain ⟨chain, order, goesOn, time, _⟩ := step.resumed
  have later := UInt64.le_iff_toNat_le.mp order
  refine ⟨linked, by rw [time, stop_concat], fun pid user => ?_⟩
  have before := held.tracks pid user
  rw [course_concat, ran_concat, ← held.stop, goesOn, time, ledger, Course.observe]
  rw [← chain] at before
  by_cases same : w.prev = w.next
  · have leaves : ¬ (mm w.prev ∧ w.prev ≠ w.next) := fun ⟨_, other⟩ => other same
    rw [if_pos same, if_neg leaves, ← same]
    have after := before.elsewhere later
    simpa only [before.here] using after
  · rw [if_neg same]
    by_cases out : w.prev = pid
    · subst out
      rw [if_pos rfl, if_pos rfl, if_pos ⟨user, same⟩, Ledger.switch_prev same]
      simp only [eq_self, Ne.symm same] at before ⊢
      exact before.leave later
    · rw [if_neg out, if_neg out, Nat.add_zero]
      simp only [out] at before
      by_cases into : w.next = pid
      · subst into
        rw [if_pos rfl]
        simp only [eq_self]
        have after := before.enter (mm w.prev) later
        cases handled : mm w.prev with
        | false => simpa [handled] using after
        | true =>
          rw [if_pos ⟨rfl, same⟩, Ledger.switch_next same]
          simpa [handled] using after
      · rw [if_neg into]
        simp only [into]
        have rests : (course mm running clock pid h).since.isSome = false := by
          simpa using before.here
        have after := before.elsewhere later
        rw [rests] at after
        split
        · rw [Ledger.switch_of_ne (Ne.symm out) (Ne.symm into)]
          exact after
        · exact after

theorem Observed.followed (distinct : Function.Injective address) {from_ : UInt64}
    {x : Cpu} (run : Observed b address mm running from_ h x) :
    Followed mm running from_.toNat h x := by
  apply run.invariant (I := Followed mm running from_.toNat)
  · exact ⟨.empty, rfl, fun pid _ => .start running pid from_.toNat⟩
  · rintro h x e y _ held step
    cases e with
    | none => cases step
    | some w => exact held.step distinct step

/-- No user task has a total above the time it has run. -/
def Within (mm : Pid → Bool) (clock : Nat) (h : List (Switch Unit)) (x : Cpu) : Prop :=
  ∀ n ∈ x.profiler.mytree.inorder, mm n.pid → n.ttsc.toNat ≤ ran n.pid clock h

/-- No user task has more stale time than its first slice, which is not counted. -/
def Repaid (mm : Pid → Bool) (running : Pid) (clock : Nat) (h : List (Switch Unit)) : Prop :=
  ∀ pid, mm pid → ∀ slice ∈ (course mm running clock pid h).first,
    (course mm running clock pid h).stale ≤ slice

theorem Followed.within {x : Cpu} (held : Followed mm running clock h x)
    (repaid : Repaid mm running clock h) : Within mm clock h x := by
  intro n mem user
  obtain ⟨start, known⟩ := held.linked.ledger mem
  have tracks := held.tracks n.pid user
  have accounted := tracks.accounted
  rw [known] at accounted
  cases accounted with
  | counted _ _ slice _ first bound sum =>
    have few := repaid n.pid user slice first
    have spent := tracks.spent
    omega

end Cpu

namespace Course
variable {x : Course}

theorem observe_grows (mm : Pid → Bool) (pid : Pid) (w : Switch Unit)
    (known : x.first = some slice) :
    (x.observe mm pid w).first = some slice ∧ x.stale ≤ (x.observe mm pid w).stale := by
  unfold Course.observe
  split
  · exact ⟨known, le_rfl⟩
  · split
    · cases here : x.since with
      | none => simp [Course.leave, here, known]
      | some since => simp [Course.leave, here, known]
    · split
      · exact ⟨known, le_rfl⟩
      · exact ⟨known, le_rfl⟩

theorem leave_since (x : Course) (tsc : Nat) : (x.leave tsc).since = none := by
  unfold Course.leave
  split
  · assumption
  · rfl

theorem Tracks.unseen (held : x.Tracks runs clock time account) (first : x.first = none) :
    x.stale = 0 := by
  cases held.accounted with
  | unseen _ _ _ stale => exact stale
  | entered _ _ _ _ stale => exact stale
  | counted _ _ slice _ known => rw [first] at known; cases known

theorem Tracks.leave_stale (held : x.Tracks runs clock time account)
    (repaid : ∀ slice ∈ x.first, x.stale ≤ slice) (left : (x.leave tsc).first = some slice) :
    (x.leave tsc).stale ≤ slice + clock := by
  have reached := held.reached
  cases here : x.since with
  | none =>
    simp only [Course.leave, here] at left ⊢
    exact (repaid slice left).trans (Nat.le_add_right slice clock)
  | some since =>
    simp only [Course.leave, here] at left ⊢
    rw [here, Option.getD_some] at reached
    cases first : x.first with
    | none =>
      rw [held.unseen first]
      exact Nat.zero_le _
    | some known =>
      rw [first, Option.some_or] at left
      cases left
      have few := repaid slice first
      simp only [Option.isSome_some, if_true]
      omega

theorem observe_stays (mm : Pid → Bool) (x : Course) (stays : w.prev = w.next ∨ w.prev ≠ pid) :
    (x.observe mm pid w).first = x.first ∧ (x.observe mm pid w).stale = x.stale := by
  unfold Course.observe
  split
  · exact ⟨rfl, rfl⟩
  · rename_i other
    rw [if_neg (stays.resolve_left other)]
    split <;> exact ⟨rfl, rfl⟩

end Course

namespace Cpu
variable {b : OrderedTree.Balance Node} {address : Pid → Addr} {mm : Pid → Bool}
  {running : Pid} {clock : Nat}

theorem Repaid.earlier (repaid : Repaid mm running clock (h ++ l)) : Repaid mm running clock h := by
  induction l using List.reverseRecOn with
  | nil => rwa [List.append_nil] at repaid
  | append_singleton l w ih =>
    apply ih
    intro pid user slice first
    obtain ⟨kept, grows⟩ := Course.observe_grows mm pid w first
    rw [← List.append_assoc] at repaid
    have few := repaid pid user slice
    rw [course_concat] at few
    exact grows.trans (few kept)

/-- The first switch that leaves more stale time than the first slice shows in the total. -/
theorem Followed.repaid_concat {x y : Cpu} (before : Followed mm running clock h x)
    (held : Followed mm running clock (h ++ [w]) y) (small : y.clock.toNat < 2 ^ 63)
    (later : x.clock.toNat ≤ y.clock.toNat) (repaid : Repaid mm running clock h)
    (within : mm w.prev → Within mm clock (h ++ [w]) y) :
    Repaid mm running clock (h ++ [w]) := by
  intro pid user slice first
  have old := before.tracks pid user
  have tracks := held.tracks pid user
  rw [course_concat] at first tracks ⊢
  by_cases stays : w.prev = w.next ∨ w.prev ≠ pid
  · obtain ⟨same, unchanged⟩ := Course.observe_stays mm
      (course mm running clock pid h) stays
    rw [unchanged]
    rw [same] at first
    exact repaid pid user slice first
  · obtain ⟨other, out⟩ := not_or.mp stays
    obtain rfl := not_not.mp out
    have left : (course mm running clock w.prev h).observe mm w.prev w =
        (course mm running clock w.prev h).leave w.tsc.toNat := by
      rw [Course.observe, if_neg other, if_pos rfl]
    rw [left] at first tracks ⊢
    have least := old.leave_stale (repaid w.prev user) first
    have spent := tracks.spent
    have bounded := tracks.bounded
    have accounted := tracks.accounted
    rw [Course.leave_since, Option.getD_none, Nat.sub_self, Nat.add_zero] at spent
    generalize known : y.profiler.ledger w.prev = account at accounted
    cases accounted with
    | unseen _ none => rw [first] at none; cases none
    | entered _ _ none => rw [first] at none; cases none
    | counted stamp total slice' _ first' bound sum =>
      obtain rfl : slice = slice' := Option.some.inj (first.symm.trans first')
      obtain ⟨n, mem, owner, rfl⟩ := Profiler.mem_of_ledger known
      have shown := within user n mem (by rw [owner]; exact user)
      rw [owner] at shown
      omega

/-- While the stale time of no user task exceeds its first slice, no total exceeds the time
its task has run. Before 2^63 the first excess shows after the switch that makes it. -/
theorem within_iff_repaid (distinct : Function.Injective address) {from_ : UInt64} {x : Cpu}
    (run : Observed b address mm running from_ h x) :
    (Repaid mm running from_.toNat h → ∀ k l y, h = k ++ l →
      Observed b address mm running from_ k y → Within mm from_.toNat k y) ∧
    (x.clock.toNat < 2 ^ 63 → (∀ k w l y, h = k ++ w :: l → mm w.prev →
      Observed b address mm running from_ (k ++ [w]) y → Within mm from_.toNat (k ++ [w]) y) →
        Repaid mm running from_.toNat h) := by
  constructor
  · rintro repaid k l y rfl head
    exact (head.followed distinct).within repaid.earlier
  · intro small within
    induction run with
    | start =>
      intro pid _ slice first
      cases first
    | @next h x e y head step ih =>
      cases e with
      | none => cases step
      | some w =>
        obtain ⟨_, order, _, time, _⟩ := step.resumed
        have later : x.clock.toNat ≤ y.clock.toNat := by
          rw [time]
          exact UInt64.le_iff_toNat_le.mp order
        have earlier : Observed b address mm running from_ h x := head
        have whole : Observed b address mm running from_ (h ++ [w]) y := .next head step
        apply (earlier.followed distinct).repaid_concat (whole.followed distinct) small later
        · apply ih (later.trans_lt small)
          rintro k w' l z rfl user run
          exact within k w' (l ++ [w]) z (by simp) user run
        · intro user
          exact within h w [] y rfl user whole

def userTask (pid : Pid) : Bool := pid = 1

def atAddress (pid : Pid) : Addr := pid.toNat

theorem atAddress_injective : Function.Injective atAddress := fun _ _ => BitVec.eq_of_toNat_eq

/-- A schedule of user task 1 and kernel thread 3. The switch back at `resumed` is not
handled, so that in the end the task is charged from the time 100. -/
def resumedByKernel (resumed left : UInt64) : List (Switch Unit) :=
  [⟨(), 1, 3, 100⟩, ⟨(), 3, 1, resumed⟩, ⟨(), 1, 3, left⟩]

def follow (h : List (Switch Unit)) : Option (Cpu × List (Switch Unit)) :=
  exec (step .unbalanced atAddress userTask) (start 1 0)
    (h.zipIdx.map fun (w, i) => (w, ⟨true, some i, true⟩))

/-- The task is charged 901 for the two slices of 100 and 1. -/
theorem within_fails : ∃ x, Observed .unbalanced atAddress userTask 1 0
    (resumedByKernel 1000 1001) x ∧ ran 1 0 (resumedByKernel 1000 1001) = 101 ∧
    ∃ n ∈ x.profiler.mytree.inorder, n.pid = 1 ∧ userTask n.pid ∧ n.ttsc = 901 := by
  have followed : (follow (resumedByKernel 1000 1001)).any (fun r =>
      r.2 = resumedByKernel 1000 1001 ∧
        ∃ n ∈ r.1.profiler.mytree.inorder, n.pid = 1 ∧ userTask n.pid ∧ n.ttsc = 901) := by
    decide +kernel
  obtain ⟨x, h, run, rfl, charged⟩ := exec_any followed step_sound
  exact ⟨x, run, by decide +kernel, charged⟩

theorem within_iff_repaid_resumed : ∃ x, Observed .unbalanced atAddress userTask 1 0
    (resumedByKernel 150 160) x ∧ Within userTask 0 (resumedByKernel 150 160) x ∧
    Repaid userTask 1 0 (resumedByKernel 150 160) := by
  have followed : (follow (resumedByKernel 150 160)).any (fun r =>
      r.2 = resumedByKernel 150 160 ∧ r.1.clock = 160) := by decide +kernel
  obtain ⟨x, h, run, rfl, clock⟩ := exec_any followed step_sound
  have both := within_iff_repaid atAddress_injective run
  have repaid : Repaid userTask 1 0 (resumedByKernel 150 160) := by
    intro pid user
    obtain rfl : pid = 1 := of_decide_eq_true user
    decide +kernel
  have within := both.1 repaid
  refine ⟨x, run, within _ [] x (by simp) run, both.2 ?_ ?_⟩
  · rw [clock]
    decide
  · intro k w l y whole _ head
    exact within (k ++ [w]) l y (by simpa using whole) head

end Cpu
end CSE306.Perftop
