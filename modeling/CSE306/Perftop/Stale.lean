import CSE306.Perftop.Report

/-! The handler over a table that `kmalloc` returned and nothing cleared. What was in that
memory is in the buckets, and the handler looks its tasks up there. -/
namespace CSE306

/-- No two contents of the memory lead to different observations. -/
def Independent (observe : M → O) : Prop :=
  ∀ memory memory', observe memory = observe memory'

end CSE306

namespace CSE306.Perftop
open Transition

abbrev PidTable := HashTable (BitVec 10) Entry

namespace Profiler
variable {b : OrderedTree.Balance Node}

/-- What one run of the handler finds in the table, for `prev` and then for `next`. -/
def finds (b : OrderedTree.Balance Node) (s : Profiler) (c : Call) : List (Option Entry) :=
  match c.switch with
  | some (prev, next) => s.position prev.pid ::
      ((s.workForPrev b prev.pid c.tsc c.kmalloc).map (·.position next.pid)).toList
  | none => []

/-- What the runs of the handler find, up to the first that does not complete. -/
def lookups (b : OrderedTree.Balance Node) : Profiler → List Call → List (Option Entry)
  | _, [] => []
  | s, c :: rest => s.finds b c ++
      match s.retPickNextFair b c with
      | some t => lookups b t rest
      | none => []

/-- What reading `/proc/perftop` shows after the runs of the handler. -/
def reported (b : OrderedTree.Balance Node) (preCount : BitVec 32) (s : Profiler)
    (h : List Call) : Option Report :=
  (h.foldlM (retPickNextFair b) s).map (perftopProcShow preCount)

/-- A chain that is left in every bucket, with one entry of a process. -/
def stale (e : Entry) : PidTable := ⟨fun _ => [e]⟩

theorem find?_stale (e : Entry) : (stale e).find? hash32 Entry.pid e.pid = some e := by
  simp [HashTable.find?, stale]

theorem retPickNextFair_switchless (s : Profiler) (none : c.switch = none) :
    s.retPickNextFair b c = some { s with postCount := s.postCount + 1 } := by
  rw [retPickNextFair, none]
  rfl

theorem lookups_switchless (s : Profiler) (none : c.switch = none) (h : List Call) :
    lookups b s (c :: h) = lookups b { s with postCount := s.postCount + 1 } h := by
  rw [lookups, retPickNextFair_switchless s none, finds, none]
  rfl

theorem reported_switchless (preCount : BitVec 32) (s : Profiler) (none : c.switch = none)
    (h : List Call) : reported b preCount s (c :: h) =
      reported b preCount { s with postCount := s.postCount + 1 } h := by
  rw [reported, List.foldlM_cons, retPickNextFair_switchless s none]
  rfl

/-- The lookups are the same for all contents of the table where none is made. -/
theorem independent_lookups_iff (s : Profiler) (h : List Call) :
    Independent (fun table => lookups b { s with table } h) ↔ ∀ c ∈ h, c.switch = none := by
  induction h generalizing s with
  | nil => exact iff_of_true (fun _ _ => rfl) (fun _ mem => by cases mem)
  | cons c h ih =>
    rw [List.forall_mem_cons]
    cases known : c.switch with
    | none =>
      have same : ∀ table, lookups b { s with table } (c :: h) =
          lookups b { s with postCount := s.postCount + 1, table } h :=
        fun table => lookups_switchless { s with table } known h
      simp only [same, true_and]
      exact ih { s with postCount := s.postCount + 1 }
    | some tasks =>
      obtain ⟨prev, next⟩ := tasks
      refine iff_of_false (fun independent => ?_) (fun none => by cases none.1)
      -- the first lookup finds nothing in a cleared table
      have same := independent .empty (stale ⟨0, prev.pid, none⟩)
      simp only [lookups, finds, known, List.cons_append, List.cons.injEq] at same
      have found := same.1.trans (find?_stale ⟨0, prev.pid, none⟩)
      cases found

/-- The handler follows the pointer of a stale entry, which leads to no tree entry. -/
theorem workForPrev_stale (s : Profiler) (leaf : s.mytree = .leaf) (e : Entry)
    (points : e.node = some addr) (tsc : UInt64) (m : Allocations) :
    workForPrev b { s with table := stale e } e.pid tsc m = none := by
  have known : findPrev { s with table := stale e } e.pid tsc m = some (stale e, e) := by
    have found : position { s with table := stale e } e.pid = some e := find?_stale e
    rw [findPrev, found]
  have dangling (elapsed : UInt64) :
      dropOld b { s with table := stale e } e.node elapsed = none := by
    have freed : deref { s with table := stale e } addr = none := by
      rw [deref, leaf]
      rfl
    rw [points]
    exact congrArg (Option.map _) freed
  simp only [workForPrev, known, dangling, Option.bind_eq_bind, Option.bind_some,
    Option.bind_none, Option.bind_fun_none]

theorem retPickNextFair_stale (s : Profiler) (known : c.switch = some (prev, next))
    (leaf : s.mytree = .leaf) (tsc : UInt64) (addr : Addr) :
    retPickNextFair b { s with table := stale ⟨tsc, prev.pid, some addr⟩ } c = none := by
  have stops := workForPrev_stale (b := b)
    { s with contextSwitchCounter := s.contextSwitchCounter + 1 } leaf
    ⟨tsc, prev.pid, some addr⟩ rfl c.tsc c.kmalloc
  rw [retPickNextFair, known]
  simp only [contextSwitch, stops, Option.bind_eq_bind, Option.bind_none, Option.map_none]

/-- Where the handler completes from a cleared table, the report is the same for all contents
if no switch was counted. -/
theorem independent_reported_iff (preCount : BitVec 32) (s : Profiler) (leaf : s.mytree = .leaf)
    (h : List Call) (completes : (h.foldlM (retPickNextFair b) { s with table := .empty }).isSome) :
    Independent (fun table => reported b preCount { s with table } h) ↔
      ∀ c ∈ h, c.switch = none := by
  induction h generalizing s with
  | nil => exact iff_of_true (fun _ _ => rfl) (fun _ mem => by cases mem)
  | cons c h ih =>
    rw [List.forall_mem_cons]
    cases known : c.switch with
    | none =>
      have same : ∀ table, reported b preCount { s with table } (c :: h) =
          reported b preCount { s with postCount := s.postCount + 1, table } h :=
        fun table => reported_switchless preCount { s with table } known h
      rw [List.foldlM_cons, retPickNextFair_switchless _ known] at completes
      simp only [same, true_and]
      exact ih { s with postCount := s.postCount + 1 } leaf completes
    | some tasks =>
      obtain ⟨prev, next⟩ := tasks
      refine iff_of_false (fun independent => ?_) (fun none => by cases none.1)
      have stops : reported b preCount { s with table := stale ⟨0, prev.pid, some 0⟩ } (c :: h) =
          none := by
        rw [reported, List.foldlM_cons, retPickNextFair_stale s known leaf]
        rfl
      have same : reported b preCount { s with table := .empty } (c :: h) = none :=
        (independent .empty (stale ⟨0, prev.pid, some 0⟩)).trans stops
      obtain ⟨t, executed⟩ := Option.isSome_iff_exists.mp completes
      rw [reported, executed] at same
      cases same

theorem Runs.completes (run : Runs b h s) : h.foldlM (retPickNextFair b) empty = some s := by
  induction run with
  | start => rfl
  | next _ edge ih =>
    obtain ⟨_, result⟩ := edge
    rw [Option.toList_some, List.foldlM_append, ih]
    exact congrArg (· >>= pure) result

end Profiler
end CSE306.Perftop
