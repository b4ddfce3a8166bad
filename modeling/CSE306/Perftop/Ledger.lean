import CSE306.Perftop.Representation

/-! What the handler computes for each process, without the pointers: the time stamp of
its hash entry and, once it was switched out, the total of its tree entry. -/
namespace CSE306.Perftop
open Transition

structure Account where
  start : UInt64
  total : Option UInt64
  deriving DecidableEq

abbrev Ledger := Pid → Option Account

namespace Ledger

/-- The account of a process switched out at `tsc`. -/
def switchOut (tsc : UInt64) : Option Account → Account
  | none => ⟨tsc, some 0⟩
  | some ⟨start, none⟩ => ⟨start, some 0⟩
  | some ⟨start, some total⟩ => ⟨start, some (total + (tsc - start))⟩

/-- The account of a process switched in at `tsc`. -/
def switchIn (tsc : UInt64) : Option Account → Account
  | none => ⟨tsc, none⟩
  | some a => { a with start := tsc }

def switch (prev next : Pid) (tsc : UInt64) (g : Ledger) : Ledger :=
  let g := Function.update g prev (some (switchOut tsc (g prev)))
  Function.update g next (some (switchIn tsc (g next)))

variable {g : Ledger}

theorem switch_prev (different : prev ≠ next) :
    g.switch prev next tsc prev = some (switchOut tsc (g prev)) := by
  rw [switch, Function.update_of_ne different, Function.update_self]

theorem switch_next (different : prev ≠ next) :
    g.switch prev next tsc next = some (switchIn tsc (g next)) := by
  rw [switch, Function.update_self, Function.update_of_ne different.symm]

theorem switch_of_ne (notPrev : pid ≠ prev) (notNext : pid ≠ next) :
    g.switch prev next tsc pid = g pid := by
  rw [switch, Function.update_of_ne notNext, Function.update_of_ne notPrev]

end Ledger

namespace Profiler
variable {b : OrderedTree.Balance Node}

def total (s : Profiler) (pid : Pid) : Option UInt64 :=
  (s.mytree.inorder.find? (·.pid = pid)).map Node.ttsc

def ledger (s : Profiler) : Ledger := fun pid =>
  (s.position pid).map fun e => ⟨e.tsc, s.total pid⟩

theorem Linked.total {s : Profiler} (linked : s.Linked) (mem : n ∈ s.mytree.inorder) :
    s.total n.pid = some n.ttsc := by
  unfold Profiler.total
  cases found : s.mytree.inorder.find? (·.pid = n.pid) with
  | none => simpa using List.find?_eq_none.mp found n mem
  | some n' =>
    have same : n'.pid = n.pid := by simpa using List.find?_some found
    rw [linked.eq_of_pid (List.mem_of_find?_eq_some found) mem same, Option.map_some]

theorem total_eq_none {s : Profiler} :
    s.total pid = none ↔ ∀ n ∈ s.mytree.inorder, n.pid ≠ pid := by
  simp [Profiler.total]

theorem Linked.ledger {s : Profiler} (linked : s.Linked) (mem : n ∈ s.mytree.inorder) :
    ∃ start, s.ledger n.pid = some ⟨start, some n.ttsc⟩ := by
  obtain ⟨e, found, _⟩ := linked.source mem
  exact ⟨e.tsc, by rw [Profiler.ledger, found, linked.total mem, Option.map_some]⟩

theorem total_of_ledger {s : Profiler} (known : s.ledger pid = some ⟨start, ttsc⟩) :
    s.total pid = ttsc := by
  obtain ⟨e, _, same⟩ := Option.map_eq_some_iff.mp known
  exact (Account.mk.inj same).2

theorem total_congr {s t : Profiler} (mytree : t.mytree = s.mytree) : t.total = s.total := by
  funext pid
  rw [total, total, mytree]

theorem mem_of_ledger {s : Profiler} (known : s.ledger pid = some ⟨start, some ttsc⟩) :
    ∃ n ∈ s.mytree.inorder, n.pid = pid ∧ n.ttsc = ttsc := by
  obtain ⟨e, _, same⟩ := Option.map_eq_some_iff.mp known
  obtain ⟨n, found, value⟩ := Option.map_eq_some_iff.mp (Account.mk.inj same).2
  exact ⟨n, List.mem_of_find?_eq_some found, by simpa using List.find?_some found, value⟩

/-- The account shows a total exactly where the hash entry has a node. -/
theorem Linked.total_of_entry {s : Profiler} (linked : s.Linked) (pid : Pid) (tsc : UInt64) :
    ((s.entry pid tsc).node = none ∧ s.total pid = none) ∨
      ∃ n ∈ s.mytree.inorder, n.pid = pid ∧ (s.entry pid tsc).node = some n.addr ∧
        s.total pid = some n.ttsc := by
  cases points : (s.entry pid tsc).node with
  | none =>
    refine .inl ⟨rfl, total_eq_none.mpr fun n mem owner => ?_⟩
    subst owner
    obtain ⟨e, found, target⟩ := linked.source mem
    rw [entry_of_position tsc found, target] at points
    cases points
  | some addr =>
    obtain ⟨n, mem, rfl, rfl⟩ := linked.target (position_of_entry points) points
    exact .inr ⟨n, mem, rfl, rfl, linked.total mem⟩

theorem total_eq_nodes (s : Profiler) (pid : Pid) :
    s.total pid = (s.nodes pid).head?.map Node.ttsc := by
  rw [total, nodes, List.head?_filter]

theorem Charged.ledger {s u : Profiler} (linked : s.Linked) (linked' : u.Linked)
    (charged : s.Charged u pid tsc n) :
    u.ledger = Function.update s.ledger pid (some (Ledger.switchOut tsc (s.ledger pid))) := by
  funext p
  rw [Function.update_apply, Profiler.ledger, charged.position]
  split
  · rename_i same
    subst same
    have now : u.total p = some n.ttsc := by
      rw [← charged.owner]
      exact linked'.total (charged.mem_inorder.mpr (.inl rfl))
    rw [Option.map_some, now, Profiler.ledger]
    rcases linked.total_of_entry p tsc with ⟨none, without⟩ | ⟨old, mem, _, points, before⟩
    · rw [charged.fresh none, without]
      cases found : s.position p with
      | none => simp [entry, found, Ledger.switchOut]
      | some e => simp [entry, found, Ledger.switchOut]
    · rw [charged.adds old mem points, before, position_of_entry points]
      rfl
  · rename_i other
    rw [total_eq_nodes, charged.nodes (Ne.symm other), ← total_eq_nodes]
    rfl

theorem Stamped.ledger {u t : Profiler} (linked : u.Linked) (stamped : u.Stamped t pid tsc) :
    t.ledger = Function.update u.ledger pid (some (Ledger.switchIn tsc (u.ledger pid))) := by
  funext p
  rw [Function.update_apply, Profiler.ledger, stamped.position, total_congr stamped.mytree]
  split
  · rename_i same
    subst same
    cases found : u.position p with
    | some e => simp [Profiler.ledger, found, Ledger.switchIn]
    | none =>
      have without : u.total p = none := by
        refine total_eq_none.mpr fun n mem owner => ?_
        obtain ⟨e, there, _⟩ := linked.source mem
        rw [owner, found] at there
        cases there
      simp [Profiler.ledger, found, Ledger.switchIn, without]
  · rfl

/-- The handler does to the accounts what the ledger says. -/
theorem Handled.ledger {s : Profiler} (handled : s.Handled c t) (linked : s.Linked)
    (known : c.switch = some (prev, next)) :
    t.ledger = s.ledger.switch prev.pid next.pid c.tsc := by
  unfold Handled at handled
  rw [known] at handled
  obtain ⟨u, n, linked', charged, stamped⟩ := handled
  rw [stamped.ledger linked', charged.ledger linked linked', Ledger.switch]

end Profiler
end CSE306.Perftop
