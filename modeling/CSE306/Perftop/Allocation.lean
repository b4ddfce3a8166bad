import CSE306.Perftop.Ledger

/-! The handler where `kmalloc` fails. It never looks at what `kmalloc` returned, so it stops
at the first use of a NULL pointer, with the lock held and its work half done. -/
namespace CSE306.Perftop
open Transition

/-- The profiler while the handler runs, and whether it holds `post_timing_lock`. -/
structure Handling where
  profiler : Profiler
  postTimingLock : Bool

namespace Handling

def spinLock (s : Handling) : Handling := { s with postTimingLock := true }

def spinUnlock (s : Handling) : Handling := { s with postTimingLock := false }

end Handling

/-- What a pointer refers to. The handler stops where that is nothing. -/
def orStop (s : S) : Option A → Except S A
  | some a => .ok a
  | none => .error s

theorem orStop_toOption (s : S) (x : Option A) : (orStop s x).toOption = x := by
  cases x <;> rfl

theorem orStop_bind_toOption (s : S) (x : Option A) (f : A → Except S B) :
    (orStop s x >>= f).toOption = x.bind fun a => (f a).toOption := by
  cases x <;> rfl

theorem orStop_error {x : Option A} (stopped : orStop s x = .error t) : t = s := by
  cases x with
  | none => exact (Except.error.inj stopped).symm
  | some => cases stopped

namespace Profiler
variable {b : OrderedTree.Balance Node}

/-- `workForPrev` with the state in which it stops. An entry made for `prev` is in the table
by the time the tree entry is allocated. -/
def prevOrStop (b : OrderedTree.Balance Node) (s : Profiler) (pid : Pid) (currentTsc : UInt64)
    (kmalloc : Allocations) : Except Profiler Profiler := do
  let (table, position) ← orStop s (s.findPrev pid currentTsc kmalloc)
  let s := { s with table }
  let elapsed := currentTsc - position.tsc
  let addr ← orStop s kmalloc.node
  let (mytree, ttsc) ← orStop s (s.dropOld b position.node elapsed)
  return { s with
    table := table.update hash32 Entry.pid pid ({ · with node := some addr })
    mytree := mytree.insert ttscKey b ⟨addr, ttsc, pid⟩ }

/-- `contextSwitch` with the state in which it stops. -/
def switchOrStop (b : OrderedTree.Balance Node) (s : Profiler) (prev next : Task) (c : Call) :
    Except Profiler Profiler := do
  let s := { s with contextSwitchCounter := s.contextSwitchCounter + 1 }
  let s ← s.prevOrStop b prev.pid c.tsc c.kmalloc
  orStop s (s.workForNext next.pid c.tsc c.kmalloc)

end Profiler

/-- `retPickNextFair` with the lock and, as an error, the state in which it stops. -/
def Handling.retPickNextFair (b : OrderedTree.Balance Node) (s : Handling) (c : Call) :
    Except Handling Handling := do
  let s ← match c.switch with
    | some (prev, next) => do
      let s := s.spinLock
      let t ← (s.profiler.switchOrStop b prev next c).mapError ({ s with profiler := · })
      pure { s with profiler := t }.spinUnlock
    | none => pure s
  return { s with profiler.postCount := s.profiler.postCount + 1 }

namespace Profiler
variable {b : OrderedTree.Balance Node}

theorem prevOrStop_toOption (s : Profiler) (pid : Pid) (tsc : UInt64) (m : Allocations) :
    (s.prevOrStop b pid tsc m).toOption = s.workForPrev b pid tsc m := by
  simp only [prevOrStop, orStop_bind_toOption]
  rfl

theorem switchOrStop_toOption (s : Profiler) (prev next : Task) (c : Call) :
    (s.switchOrStop b prev next c).toOption = s.contextSwitch b prev next c := by
  simp only [switchOrStop, contextSwitch, ← prevOrStop_toOption]
  cases prevOrStop b _ prev.pid c.tsc c.kmalloc with
  | error => rfl
  | ok u => exact orStop_toOption ..

/-- The handler returns where `retPickNextFair` has a result, with the lock released. -/
theorem retPickNextFair_toOption (s : Profiler) (c : Call) :
    (Handling.retPickNextFair b ⟨s, false⟩ c).toOption =
      (s.retPickNextFair b c).map (⟨·, false⟩) := by
  unfold Handling.retPickNextFair Profiler.retPickNextFair
  cases c.switch with
  | none => rfl
  | some tasks =>
    obtain ⟨prev, next⟩ := tasks
    simp only [← switchOrStop_toOption, Handling.spinLock]
    cases s.switchOrStop b prev next c <;> rfl

theorem stops {s : Profiler} (stopped : Handling.retPickNextFair b ⟨s, false⟩ c = .error u) :
    ∃ prev next v, c.switch = some (prev, next) ∧ s.switchOrStop b prev next c = .error v ∧
      u = ⟨v, true⟩ := by
  unfold Handling.retPickNextFair at stopped
  cases known : c.switch with
  | none =>
    rw [known] at stopped
    cases stopped
  | some tasks =>
    obtain ⟨prev, next⟩ := tasks
    simp only [known, Handling.spinLock] at stopped
    cases worked : s.switchOrStop b prev next c with
    | ok =>
      rw [worked] at stopped
      cases stopped
    | error v =>
      rw [worked] at stopped
      cases stopped
      exact ⟨prev, next, v, rfl, worked, rfl⟩

theorem Linked.found {s : Profiler} {table : HashTable (BitVec 10) Entry} (linked : s.Linked)
    (known : s.findPrev pid tsc m = some (table, e)) : Linked { s with table } := by
  obtain ⟨_, keyed, find⟩ := findPrev_spec linked known
  refine ⟨keyed, linked.addrs, fun {p e addr} found points => ?_, fun {n} mem => ?_⟩
  · rw [position, find] at found
    split at found
    · rename_i same
      cases found
      rw [same]
      exact linked.target (position_of_entry points) points
    · exact linked.target found points
  · obtain ⟨e, found, points⟩ := linked.source mem
    refine ⟨e, ?_, points⟩
    rw [position, find]
    split
    · rename_i same
      rw [same] at found
      rw [entry_of_position tsc found]
    · exact found

theorem Linked.prevOrStop {s : Profiler} (linked : s.Linked) (b : OrderedTree.Balance Node)
    (pid : Pid) (tsc : UInt64) (m : Allocations) :
    (∃ u n, s.prevOrStop b pid tsc m = .ok u ∧ m.node = some n.addr ∧ s.Charged u pid tsc n) ∨
      ∃ u, s.prevOrStop b pid tsc m = .error u ∧ u.Linked ∧ u.mytree = s.mytree := by
  cases worked : s.prevOrStop b pid tsc m with
  | ok u =>
    have known := prevOrStop_toOption (b := b) s pid tsc m
    rw [worked] at known
    obtain ⟨n, allocated, charged⟩ := workForPrev_spec linked known.symm
    exact .inl ⟨u, n, rfl, allocated, charged⟩
  | error u =>
    refine .inr ⟨u, rfl, ?_⟩
    cases known : s.findPrev pid tsc m with
    | none =>
      rw [Profiler.prevOrStop, known] at worked
      cases worked
      exact ⟨linked, rfl⟩
    | some found =>
      obtain ⟨table, e⟩ := found
      cases allocated : m.node with
      | none =>
        rw [Profiler.prevOrStop, known, allocated] at worked
        cases worked
        exact ⟨linked.found known, rfl⟩
      | some addr =>
        -- the old node of an entry is in the tree
        obtain ⟨rfl, _⟩ := findPrev_spec linked known
        obtain ⟨dropped, resolved⟩ := linked.dropOld_total (b := b) pid tsc
          (tsc - (s.entry pid tsc).tsc)
        have completes := prevOrStop_toOption (b := b) s pid tsc m
        rw [worked] at completes
        simp [workForPrev, known, allocated, resolved, Except.toOption] at completes

/-- Which totals may differ once the handler has returned or stopped. -/
structure Kept (s : Profiler) (c : Call) (t : Profiler) : Prop where
  others : ∀ pid, ¬Switched [c] pid → t.total pid = s.total pid
  prev : ∀ pid start ttsc, Switched [c] pid → s.ledger pid = some ⟨start, some ttsc⟩ →
    t.total pid = some ttsc ∨ t.total pid = some (ttsc + (c.tsc - start))

theorem Kept.of_eq {s t : Profiler} (mytree : t.mytree = s.mytree) : s.Kept c t := by
  constructor
  · intro pid _
    rw [total_congr mytree]
  · intro pid start ttsc _ known
    rw [total_congr mytree]
    exact .inl (total_of_ledger known)

theorem Charged.total {s u : Profiler} (charged : s.Charged u pid tsc n) (linked : s.Linked)
    (linked' : u.Linked) (known : s.ledger pid = some ⟨start, some ttsc⟩) :
    u.total pid = some (ttsc + (tsc - start)) := by
  have after := congrFun (charged.ledger linked linked') pid
  rw [Function.update_self, known] at after
  exact total_of_ledger after

/-- A total that the switch adds to. -/
def Adds (s : Profiler) (c : Call) (t : Profiler) : Prop :=
  ∀ pid start ttsc, Switched [c] pid → s.ledger pid = some ⟨start, some ttsc⟩ →
    t.total pid = some (ttsc + (c.tsc - start))

theorem Charged.kept {s u : Profiler} (charged : s.Charged u prev.pid c.tsc n) (linked : s.Linked)
    (linked' : u.Linked) (known : c.switch = some (prev, next)) : s.Kept c u ∧ s.Adds c u := by
  have adds : s.Adds c u := by
    rintro pid start ttsc ⟨c', mem, prev', next', known', rfl⟩ before
    obtain rfl := List.mem_singleton.mp mem
    rw [known] at known'
    cases known'
    exact charged.total linked linked' before
  refine ⟨⟨fun pid other => ?_, fun pid start ttsc switched before => ?_⟩, adds⟩
  · have different : prev.pid ≠ pid := by
      intro same
      exact other ⟨c, List.mem_singleton_self c, prev, next, known, same⟩
    rw [total_eq_nodes, charged.nodes different, ← total_eq_nodes]
  · exact .inr (adds pid start ttsc switched before)

theorem Handled.kept {s : Profiler} (handled : s.Handled c t) (linked : s.Linked) :
    s.Kept c t ∧ s.Adds c t := by
  unfold Handled at handled
  split at handled
  · rename_i known
    refine ⟨.of_eq handled.2, ?_⟩
    rintro pid start ttsc ⟨c', mem, prev, next, known', _⟩
    obtain rfl := List.mem_singleton.mp mem
    rw [known] at known'
    cases known'
  · rename_i prev next known
    obtain ⟨u, n, linked', charged, stamped⟩ := handled
    obtain ⟨⟨others, prev⟩, adds⟩ := charged.kept linked linked' known
    rw [← total_congr stamped.mytree] at others prev
    refine ⟨⟨others, prev⟩, ?_⟩
    unfold Adds
    rwa [total_congr stamped.mytree]

/-- A state in which the handler has returned: it has released the lock, the table and the
tree agree, and the totals are those before, with the time since for `prev`. -/
structure Intact (h : List Call) (s : Profiler) (c : Call) (t : Handling) : Prop where
  unlocked : t.postTimingLock = false
  represents : Represents (h ++ [c]) t.profiler
  kept : s.Kept c t.profiler
  adds : s.Adds c t.profiler

theorem Linked.of_error {s : Profiler} (linked : s.Linked) (fresh : s.Fresh c)
    (stopped : Handling.retPickNextFair b ⟨s, false⟩ c = .error u) :
    u.postTimingLock = true ∧ u.profiler.Linked ∧ s.Kept c u.profiler ∧
      (s.mytree.Sorted ttscKey → u.profiler.mytree.Sorted ttscKey) := by
  obtain ⟨prev, next, u, known, last, rfl⟩ := stops stopped
  have counted : Linked { s with contextSwitchCounter := s.contextSwitchCounter + 1 } :=
    linked.of_eq rfl rfl
  refine ⟨rfl, ?_⟩
  rcases counted.prevOrStop b prev.pid c.tsc c.kmalloc with
    ⟨w, n, completes, allocated, charged⟩ | ⟨w, stuck, linked', mytree⟩
  · simp only [switchOrStop, completes] at last
    obtain rfl := orStop_error last
    have linked' := counted.charged charged (fresh n.addr allocated)
    have charged := charged.of_counted
    exact ⟨linked', (charged.kept linked linked' known).1, charged.sorted⟩
  · simp only [switchOrStop, stuck] at last
    cases last
    exact ⟨linked', .of_eq mytree, fun sorted => by rwa [mytree]⟩

/-- Whatever `kmalloc` returns, the two structures agree and no total is lost. But the handler
returns, and releases the lock, exactly if all its allocations succeed. -/
theorem intact_iff_allocated (run : Runs b h s) (fresh : s.Fresh c) :
    ((∃ t, Handling.retPickNextFair b ⟨s, false⟩ c = .ok t ∧ Intact h s c t) ↔ s.Allocated c) ∧
    ∀ u, Handling.retPickNextFair b ⟨s, false⟩ c = .error u →
      u.postTimingLock = true ∧ u.profiler.Linked ∧ s.Kept c u.profiler ∧
        u.profiler.mytree.Sorted ttscKey := by
  have linked := run.linked
  have returns := retPickNextFair_toOption (b := b) s c
  constructor
  · rw [linked.allocated_iff (b := b)]
    constructor
    · rintro ⟨t, returned, _⟩
      rw [returned] at returns
      obtain ⟨u, handled, _⟩ := Option.map_eq_some_iff.mp returns.symm
      exact ⟨u, handled⟩
    · rintro ⟨u, handled⟩
      rw [handled] at returns
      have step : Step b s (some c) u := .call fresh handled
      cases returned : Handling.retPickNextFair b ⟨s, false⟩ c with
      | error => simp [returned, Except.toOption] at returns
      | ok t =>
        rw [returned] at returns
        cases returns
        obtain ⟨kept, adds⟩ := (step.handled linked).1.kept linked
        exact ⟨_, rfl, rfl, (representation (run.next step)).1, kept, adds⟩
  · intro u stopped
    obtain ⟨held, linked', kept, sorted⟩ := linked.of_error fresh stopped
    exact ⟨held, linked', kept, sorted run.sorted.1⟩

theorem intact_fourth_switch : ∃ s t, Runs .unbalanced threeSwitches s ∧
    Handling.retPickNextFair .unbalanced ⟨s, false⟩
      ⟨some ⟨8192, 2⟩, some ⟨4096, 1⟩, 400, ⟨false, some 256, false⟩⟩ = .ok t ∧
    Intact threeSwitches s
      ⟨some ⟨8192, 2⟩, some ⟨4096, 1⟩, 400, ⟨false, some 256, false⟩⟩ t := by
  have followed : (exec (step .unbalanced) empty threeSwitches).any (fun r =>
      r.2 = threeSwitches ∧ 256 ∉ r.1.addrs ∧
        (r.1.position 1).isSome ∧ (r.1.position 2).isSome) := by
    decide +kernel
  obtain ⟨s, h, run, rfl, free, next, prev⟩ := exec_any followed step_sound
  obtain ⟨t, returned, intact⟩ := (intact_iff_allocated run (c := ⟨some ⟨8192, 2⟩,
      some ⟨4096, 1⟩, 400, ⟨false, some 256, false⟩⟩) (by simpa [Fresh] using free)).1.mpr (by
    rintro _ _ ⟨⟩
    refine ⟨fun new => ?_, rfl, fun _ new => ?_⟩
    · rw [new] at prev
      cases prev
    · rw [new] at next
      cases next)
  exact ⟨s, t, run, returned, intact⟩

/-- On the first switch, `kmalloc` has no memory for the entry of `prev`. -/
theorem first_entry_not_allocated : ¬∀ (b : OrderedTree.Balance Node) (h : List Call)
    (s : Profiler) (c : Call), Runs b h s → s.Fresh c →
    ∃ t, Handling.retPickNextFair b ⟨s, false⟩ c = .ok t ∧ Intact h s c t := by
  intro intact
  obtain ⟨t, returned, _⟩ := intact .unbalanced [] empty
    ⟨some ⟨4096, 1⟩, some ⟨8192, 2⟩, 100, ⟨false, some 64, true⟩⟩ .start (by decide)
  cases returned

end Profiler
end CSE306.Perftop
