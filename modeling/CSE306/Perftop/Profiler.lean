import CSE306.HashTable
import CSE306.OrderedTree
import CSE306.Transition
import Mathlib.Data.Nat.Basic

/-! The return probe of `pick_next_task_fair`: a hash table with the last time stamp of
each process and a tree of the processes by the time they have spent. -/
namespace CSE306.Perftop
open Transition

abbrev Pid := BitVec 32

/-- `hash_32(pid, 10)` -/
def hash32 (pid : Pid) : BitVec 10 := ((pid * 0x61C88647) >>> 22).setWidth 10

/-- Where `kmalloc` has put a tree entry. -/
abbrev Addr := Nat

/-- `struct my_hash_table_struct` -/
structure Entry where
  tsc : UInt64
  pid : Pid
  node : Option Addr
  deriving DecidableEq

/-- `struct my_rb_tree_struct`, at its address -/
structure Node where
  addr : Addr
  ttsc : UInt64
  pid : Pid
  deriving DecidableEq

structure Task where
  addr : Addr
  pid : Pid
  deriving DecidableEq

structure Profiler where
  postCount : BitVec 32
  contextSwitchCounter : BitVec 32
  table : HashTable (BitVec 10) Entry
  mytree : OrderedTree Node

/-- Which allocations of one run of the handler succeed, and where the tree entry is put. -/
structure Allocations where
  prevEntry : Bool
  node : Option Addr
  nextEntry : Bool
  deriving DecidableEq

def Allocations.Succeed (m : Allocations) : Prop :=
  m.prevEntry = true ∧ m.node.isSome = true ∧ m.nextEntry = true

/-- One run of the handler: its arguments, what `rdtsc` and `kmalloc` return. -/
structure Call where
  prev : Option Task
  next : Option Task
  tsc : UInt64
  kmalloc : Allocations
  deriving DecidableEq

/-- Both tasks, where the run counts a context switch. -/
def Call.switch (c : Call) : Option (Task × Task) :=
  match c.prev, c.next with
  | some prev, some next => if prev.addr ≠ next.addr then some (prev, next) else none
  | _, _ => none

namespace Profiler

def empty : Profiler := ⟨0, 0, .empty, .leaf⟩

/-- `hash_for_each_possible`, up to the entry with the pid. -/
def position (s : Profiler) (pid : Pid) : Option Entry := s.table.find? hash32 Entry.pid pid

/-- The tree entry at an address, if it has not been freed. -/
def deref (s : Profiler) (addr : Addr) : Option Node := s.mytree.inorder.find? (·.addr = addr)

def ttscKey (n : Node) : Nat := n.ttsc.toNat

/-- The entry of `prev`, made now if it has none. An access through a pointer that is NULL
or freed has no result. -/
def findPrev (s : Profiler) (pid : Pid) (currentTsc : UInt64) (kmalloc : Allocations) :
    Option (HashTable (BitVec 10) Entry × Entry) :=
  match s.position pid with
  | some position => some (s.table, position)
  | none =>
    let hashToAdd : Entry := ⟨currentTsc, pid, none⟩
    if kmalloc.prevEntry then some (s.table.add hash32 Entry.pid hashToAdd, hashToAdd) else none

/-- The tree without the old node of `prev`, and the total for the new one. -/
def dropOld (b : OrderedTree.Balance Node) (s : Profiler) (node : Option Addr)
    (elapsed : UInt64) : Option (OrderedTree Node × UInt64) :=
  match node with
  | some old => (s.deref old).map fun entry => (b.erase s.mytree entry, entry.ttsc + elapsed)
  | none => some (s.mytree, 0)

def workForPrev (b : OrderedTree.Balance Node) (s : Profiler) (pid : Pid) (currentTsc : UInt64)
    (kmalloc : Allocations) : Option Profiler := do
  let (table, position) ← s.findPrev pid currentTsc kmalloc
  let elapsed := currentTsc - position.tsc
  let addr ← kmalloc.node
  let (mytree, ttsc) ← s.dropOld b position.node elapsed
  return { s with
    table := table.update hash32 Entry.pid pid ({ · with node := some addr })
    mytree := mytree.insert ttscKey b ⟨addr, ttsc, pid⟩ }

def workForNext (s : Profiler) (pid : Pid) (currentTsc : UInt64) (kmalloc : Allocations) :
    Option Profiler :=
  match s.position pid with
  | none =>
    if kmalloc.nextEntry then
      some { s with table := s.table.add hash32 Entry.pid ⟨currentTsc, pid, none⟩ }
    else none
  | some _ =>
    some { s with table := s.table.update hash32 Entry.pid pid ({ · with tsc := currentTsc }) }

/-- The part of the handler under `post_timing_lock`. -/
def contextSwitch (b : OrderedTree.Balance Node) (s : Profiler) (prev next : Task) (c : Call) :
    Option Profiler := do
  let s := { s with contextSwitchCounter := s.contextSwitchCounter + 1 }
  let s ← s.workForPrev b prev.pid c.tsc c.kmalloc
  s.workForNext next.pid c.tsc c.kmalloc

def retPickNextFair (b : OrderedTree.Balance Node) (s : Profiler) (c : Call) : Option Profiler :=
  let unlocked := match c.switch with
    | some (prev, next) => s.contextSwitch b prev next c
    | none => some s
  unlocked.map fun s => { s with postCount := s.postCount + 1 }

def addrs (s : Profiler) : List Addr := s.mytree.inorder.map Node.addr

/-- `kmalloc` does not return memory that is in use. -/
def Fresh (s : Profiler) (c : Call) : Prop := ∀ addr ∈ c.kmalloc.node, addr ∉ s.addrs

instance (s : Profiler) (c : Call) : Decidable (s.Fresh c) := by unfold Fresh; infer_instance

def step (b : OrderedTree.Balance Node) (s : Profiler) (c : Call) :
    Option (Profiler × Option Call) :=
  if s.Fresh c then (s.retPickNextFair b c).map (·, some c) else none

inductive Step (b : OrderedTree.Balance Node) : Profiler → Option Call → Profiler → Prop where
  | call : s.Fresh c → s.retPickNextFair b c = some t → Step b s (some c) t

/-- The states after a sequence of runs of the handler. -/
abbrev Runs (b : OrderedTree.Balance Node) (h : List Call) (s : Profiler) : Prop :=
  Run (Step b) empty h s

theorem step_sound (moved : step b s c = some (t, e)) : Step b s e t := by
  unfold step at moved
  split at moved
  · rename_i fresh
    obtain ⟨t, result, same⟩ := Option.map_eq_some_iff.mp moved
    cases same
    exact .call fresh result
  · contradiction

end Profiler
end CSE306.Perftop
