import CSE306.Perftop.Profiler

/-! The pointers between the hash table and the tree, after any sequence of switches.
Each process has at most one entry, and the two structures agree about it. -/
namespace CSE306.Perftop
open Transition

namespace Profiler
variable {b : OrderedTree.Balance Node}

/-- Each process with a tree entry has a hash entry that points to it, and no other
hash entry points anywhere. -/
structure Linked (s : Profiler) : Prop where
  keyed : s.table.Keyed hash32 Entry.pid
  addrs : s.addrs.Nodup
  target : ∀ {pid e addr}, s.position pid = some e → e.node = some addr →
    ∃ n ∈ s.mytree.inorder, n.addr = addr ∧ n.pid = pid
  source : ∀ {n}, n ∈ s.mytree.inorder → ∃ e, s.position n.pid = some e ∧ e.node = some n.addr

theorem Linked.empty : Linked empty where
  keyed := HashTable.keyed_empty hash32 Entry.pid
  addrs := List.nodup_nil
  target := fun found => by
    simp [position, Profiler.empty, HashTable.find?, HashTable.empty] at found
  source := fun mem => by simp [Profiler.empty] at mem

theorem Linked.eq_of_addr {s : Profiler} (linked : s.Linked) (mem : n ∈ s.mytree.inorder)
    (mem' : n' ∈ s.mytree.inorder) (same : n.addr = n'.addr) : n = n' :=
  List.inj_on_of_nodup_map linked.addrs mem mem' same

/-- No process has two tree entries. -/
theorem Linked.eq_of_pid {s : Profiler} (linked : s.Linked) (mem : n ∈ s.mytree.inorder)
    (mem' : n' ∈ s.mytree.inorder) (same : n.pid = n'.pid) : n = n' := by
  obtain ⟨e, found, points⟩ := linked.source mem
  obtain ⟨e', found', points'⟩ := linked.source mem'
  rw [same, found'] at found
  obtain rfl := Option.some.inj found
  rw [points'] at points
  exact linked.eq_of_addr mem mem' (Option.some.inj points).symm

theorem Linked.deref {s : Profiler} (linked : s.Linked) (mem : n ∈ s.mytree.inorder) :
    s.deref n.addr = some n := by
  cases found : s.deref n.addr with
  | none => simpa using List.find?_eq_none.mp found n mem
  | some n' =>
    have same : n'.addr = n.addr := by simpa using List.find?_some found
    rw [linked.eq_of_addr (List.mem_of_find?_eq_some found) mem same]

/-- The hash entry of a process, or the one the handler makes for it. -/
def entry (s : Profiler) (pid : Pid) (tsc : UInt64) : Entry :=
  (s.position pid).getD ⟨tsc, pid, none⟩

/-- The tree entries of the other processes. -/
def others (s : Profiler) (pid : Pid) : List Node := s.mytree.inorder.filter (·.pid ≠ pid)

theorem Linked.others_erase {s : Profiler} (linked : s.Linked) (mem : n ∈ s.mytree.inorder) :
    (b.erase s.mytree n).inorder = s.others n.pid := by
  have nodup : s.mytree.inorder.Nodup := linked.addrs.of_map
  rw [b.inorder_erase _ _ mem, nodup.erase_eq_filter, others]
  refine List.filter_congr fun n' mem' => ?_
  by_cases same : n' = n
  · simp [same]
  · have other : n'.pid ≠ n.pid := fun pids => same (linked.eq_of_pid mem' mem pids)
    simp [same, other]

theorem Linked.others_all {s : Profiler} (linked : s.Linked)
    (none : ∀ e, s.position pid = some e → e.node = none) : s.mytree.inorder = s.others pid := by
  refine (List.filter_eq_self.mpr fun n mem => ?_).symm
  have other : n.pid ≠ pid := by
    rintro rfl
    obtain ⟨e, found, points⟩ := linked.source mem
    rw [none e found] at points
    contradiction
  simpa using other

/-- What the work for `prev` does to a state whose pointers are in order. -/
structure Charged (s t : Profiler) (pid : Pid) (tsc : UInt64) (n : Node) : Prop where
  keyed : t.table.Keyed hash32 Entry.pid
  position : ∀ p, t.position p =
    if p = pid then some { s.entry pid tsc with node := some n.addr } else s.position p
  inorder : ∃ l r, s.others pid = l ++ r ∧ t.mytree.inorder = l ++ n :: r
  sorted : s.mytree.Sorted ttscKey → t.mytree.Sorted ttscKey
  owner : n.pid = pid
  fresh : (s.entry pid tsc).node = none → n.ttsc = 0
  adds : ∀ old ∈ s.mytree.inorder, (s.entry pid tsc).node = some old.addr →
    n.ttsc = old.ttsc + (tsc - (s.entry pid tsc).tsc)

/-- The counter plays no part. -/
theorem Charged.of_counted {s t : Profiler}
    (charged : Charged { s with contextSwitchCounter := counter } t pid tsc n) :
    s.Charged t pid tsc n :=
  ⟨charged.keyed, charged.position, charged.inorder, charged.sorted, charged.owner,
    charged.fresh, charged.adds⟩

/-- The hash table once `prev` has an entry. -/
theorem findPrev_spec {s : Profiler} {table : HashTable (BitVec 10) Entry} (linked : s.Linked)
    (known : s.findPrev pid tsc m = some (table, e)) :
    e = s.entry pid tsc ∧ table.Keyed hash32 Entry.pid ∧
      ∀ p, table.find? hash32 Entry.pid p =
        if p = pid then some (s.entry pid tsc) else s.position p := by
  unfold findPrev at known
  unfold entry
  split at known
  · rename_i found
    cases known
    refine ⟨by rw [found]; rfl, linked.keyed, fun p => ?_⟩
    split
    · rename_i same
      rw [same, found]
      exact found
    · rfl
  · rename_i new
    split at known
    · cases known
      refine ⟨by rw [new]; rfl, linked.keyed.add new, fun p => ?_⟩
      rw [HashTable.find?_add, new]
      simp only [eq_comm, Option.getD_none]
      rfl
    · cases known

theorem entry_of_position {s : Profiler} (tsc : UInt64) (found : s.position pid = some e) :
    s.entry pid tsc = e := by
  rw [entry, found, Option.getD_some]

theorem position_of_entry {s : Profiler} (points : (s.entry pid tsc).node = some addr) :
    s.position pid = some (s.entry pid tsc) := by
  unfold entry at points ⊢
  cases found : s.position pid with
  | none => simp [found] at points
  | some e => rfl

theorem dropOld_spec {s : Profiler} {tree : OrderedTree Node} (linked : s.Linked)
    (resolved : s.dropOld b (s.entry pid tsc).node elapsed = some (tree, ttsc)) :
    tree.inorder = s.others pid ∧ (s.mytree.Sorted ttscKey → tree.Sorted ttscKey) ∧
      ((s.entry pid tsc).node = none → ttsc = 0) ∧
      ∀ old ∈ s.mytree.inorder, (s.entry pid tsc).node = some old.addr →
        ttsc = old.ttsc + elapsed := by
  cases points : (s.entry pid tsc).node with
  | none =>
    rw [points] at resolved
    cases resolved
    refine ⟨linked.others_all fun e found => ?_, id, fun _ => rfl, fun _ _ h => by cases h⟩
    rw [← entry_of_position tsc found, points]
  | some addr =>
    obtain ⟨n, mem, rfl, rfl⟩ := linked.target (position_of_entry points) points
    rw [points, dropOld, linked.deref mem] at resolved
    cases resolved
    refine ⟨linked.others_erase mem, fun sorted => sorted.erase ttscKey b mem,
      fun h => (by cases h), fun old mem' same => ?_⟩
    rw [linked.eq_of_addr mem mem' (Option.some.inj same)]

theorem workForPrev_spec {s : Profiler} (linked : s.Linked)
    (worked : s.workForPrev b pid tsc m = some t) :
    ∃ n, m.node = some n.addr ∧ s.Charged t pid tsc n := by
  simp only [workForPrev, Option.bind_eq_bind, Option.bind_eq_some_iff, Option.pure_def,
    Option.some.injEq, Prod.exists] at worked
  obtain ⟨table, e, known, addr, allocated, tree, ttsc, resolved, rfl⟩ := worked
  obtain ⟨rfl, keyed, find⟩ := findPrev_spec linked known
  obtain ⟨rest, sorted, fresh, adds⟩ := dropOld_spec linked resolved
  have keeps : ∀ e : Entry, ({ e with node := some addr } : Entry).pid = e.pid := fun _ => rfl
  refine ⟨⟨addr, ttsc, pid⟩, allocated, keyed.update keeps pid, fun p => ?_, ?_,
    fun before => (sorted before).insert ttscKey b _, rfl, fresh, adds⟩
  · rw [position, HashTable.find?_update keeps, find p]
    split <;> rfl
  · rw [← rest]
    exact tree.inorder_insert ttscKey b _

theorem Charged.mem_inorder {s t : Profiler} (charged : s.Charged t pid tsc n) :
    n' ∈ t.mytree.inorder ↔ n' = n ∨ n' ∈ s.mytree.inorder ∧ n'.pid ≠ pid := by
  obtain ⟨l, r, before, after⟩ := charged.inorder
  have old : n' ∈ l ++ r ↔ n' ∈ s.mytree.inorder ∧ n'.pid ≠ pid := by
    rw [← before, others, List.mem_filter, decide_eq_true_eq]
  rw [after, ← old]
  simp only [List.mem_append, List.mem_cons]
  tauto

theorem Linked.charged {s t : Profiler} (linked : s.Linked) (charged : s.Charged t pid tsc n)
    (fresh : n.addr ∉ s.addrs) : t.Linked := by
  refine ⟨charged.keyed, ?_, fun {p e addr} found points => ?_, fun {n'} mem => ?_⟩
  · obtain ⟨l, r, before, after⟩ := charged.inorder
    have kept : ((l ++ r).map Node.addr).Sublist s.addrs := by
      rw [← before]
      exact List.filter_sublist.map _
    have moved : (t.mytree.inorder.map Node.addr).Perm (n.addr :: (l ++ r).map Node.addr) := by
      rw [after]
      exact List.perm_middle.map _
    exact moved.nodup_iff.mpr
      (List.nodup_cons.mpr ⟨fun mem => fresh (kept.subset mem), linked.addrs.sublist kept⟩)
  · rw [charged.position] at found
    split at found
    · rename_i same
      cases found
      cases points
      exact ⟨n, charged.mem_inorder.mpr (.inl rfl), rfl, charged.owner.trans same.symm⟩
    · rename_i other
      obtain ⟨n', mem, place, owner⟩ := linked.target found points
      refine ⟨n', charged.mem_inorder.mpr (.inr ⟨mem, ?_⟩), place, owner⟩
      rwa [owner]
  · rw [charged.position]
    rcases charged.mem_inorder.mp mem with rfl | ⟨old, other⟩
    · rw [if_pos charged.owner]
      exact ⟨_, rfl, rfl⟩
    · rw [if_neg other]
      exact linked.source old

/-- What the work for `next` does. -/
structure Stamped (s t : Profiler) (pid : Pid) (tsc : UInt64) : Prop where
  keyed : t.table.Keyed hash32 Entry.pid
  position : ∀ p, t.position p =
    if p = pid then some { s.entry pid tsc with tsc } else s.position p
  mytree : t.mytree = s.mytree

theorem workForNext_spec {s : Profiler} (linked : s.Linked)
    (worked : s.workForNext pid tsc m = some t) : s.Stamped t pid tsc := by
  unfold workForNext at worked
  split at worked
  · rename_i new
    split at worked
    · cases worked
      refine ⟨linked.keyed.add new, fun p => ?_, rfl⟩
      rw [position, HashTable.find?_add, entry, new]
      simp only [eq_comm, Option.getD_none]
      rfl
    · cases worked
  · rename_i e found
    cases worked
    have keeps : ∀ e : Entry, ({ e with tsc } : Entry).pid = e.pid := fun _ => rfl
    refine ⟨linked.keyed.update keeps pid, fun p => ?_, rfl⟩
    rw [position, HashTable.find?_update keeps, entry_of_position tsc found]
    split
    · rename_i same
      rw [same]
      exact congrArg (Option.map _) found
    · rfl

theorem Linked.stamped {s t : Profiler} (linked : s.Linked) (stamped : s.Stamped t pid tsc) :
    t.Linked := by
  refine ⟨stamped.keyed, ?_, fun {p e addr} found points => ?_, fun {n} mem => ?_⟩
  · rw [Profiler.addrs, stamped.mytree]
    exact linked.addrs
  · rw [stamped.mytree]
    rw [stamped.position] at found
    split at found
    · rename_i same
      cases found
      rw [same]
      exact linked.target (position_of_entry points) points
    · exact linked.target found points
  · rw [stamped.mytree] at mem
    obtain ⟨e, found, points⟩ := linked.source mem
    rw [stamped.position]
    split
    · rename_i same
      rw [same] at found
      exact ⟨_, rfl, by rw [entry_of_position tsc found]; exact points⟩
    · exact ⟨e, found, points⟩

/-- What a run of the handler does to the two structures. -/
def Handled (s : Profiler) (c : Call) (t : Profiler) : Prop :=
  match c.switch with
  | none => t.table = s.table ∧ t.mytree = s.mytree
  | some (prev, next) => ∃ u n, u.Linked ∧ s.Charged u prev.pid c.tsc n ∧
      u.Stamped t next.pid c.tsc

theorem Linked.of_eq {s t : Profiler} (linked : s.Linked) (table : t.table = s.table)
    (mytree : t.mytree = s.mytree) : t.Linked := by
  obtain ⟨keyed, addrs, target, source⟩ := linked
  have position : t.position = s.position := by
    funext pid
    rw [Profiler.position, Profiler.position, table]
  refine ⟨by rwa [table], by rwa [Profiler.addrs, mytree], ?_, ?_⟩
  · rwa [position, mytree]
  · rwa [position, mytree]

/-- A run of the handler keeps the pointers in order. -/
theorem Step.handled (step : Step b s (some c) t) (linked : s.Linked) :
    s.Handled c t ∧ t.Linked := by
  obtain ⟨fresh, result⟩ := step
  obtain ⟨u, worked, rfl⟩ := Option.map_eq_some_iff.mp result
  unfold Handled
  split at worked
  · rename_i prev next known
    rw [known]
    simp only [contextSwitch, Option.bind_eq_bind, Option.bind_eq_some_iff] at worked
    obtain ⟨v, worked, stamped⟩ := worked
    have counted : Linked { s with contextSwitchCounter := s.contextSwitchCounter + 1 } :=
      linked.of_eq rfl rfl
    obtain ⟨n, allocated, charged⟩ := workForPrev_spec counted worked
    have charged := charged.of_counted
    have linked' := linked.charged charged (fresh n.addr allocated)
    have stamped := workForNext_spec linked' stamped
    exact ⟨⟨v, n, linked', charged, stamped.keyed, stamped.position, stamped.mytree⟩,
      (linked'.stamped stamped).of_eq rfl rfl⟩
  · rename_i known
    rw [known]
    cases worked
    exact ⟨⟨rfl, rfl⟩, linked.of_eq rfl rfl⟩

theorem Runs.linked (run : Runs b h s) : s.Linked := by
  apply run.state_invariant (I := Linked) .empty
  rintro s e t linked ⟨fresh, result⟩
  exact (Step.handled (.call fresh result) linked).2

/-- The pids that were `prev` of a counted switch. -/
def Switched (h : List Call) (pid : Pid) : Prop :=
  ∃ c ∈ h, ∃ prev next, c.switch = some (prev, next) ∧ prev.pid = pid

theorem Handled.pids {s : Profiler} (handled : s.Handled c t) :
    (∃ n ∈ t.mytree.inorder, n.pid = pid) ↔
      (∃ n ∈ s.mytree.inorder, n.pid = pid) ∨ Switched [c] pid := by
  unfold Handled at handled
  simp only [Switched, List.mem_singleton, exists_eq_left]
  split at handled
  · rename_i known
    rw [known, handled.2]
    simp
  · rename_i prev next known
    obtain ⟨u, n, _, charged, stamped⟩ := handled
    rw [known, stamped.mytree]
    simp only [charged.mem_inorder, Option.some.injEq, Prod.mk.injEq]
    constructor
    · rintro ⟨n', rfl | ⟨mem, other⟩, rfl⟩
      · exact .inr ⟨prev, next, ⟨rfl, rfl⟩, charged.owner.symm⟩
      · exact .inl ⟨n', mem, rfl⟩
    · rintro (⟨n', mem, rfl⟩ | ⟨_, _, ⟨rfl, rfl⟩, rfl⟩)
      · by_cases same : n'.pid = prev.pid
        · exact ⟨n, .inl rfl, by rw [charged.owner, same]⟩
        · exact ⟨n', .inr ⟨mem, same⟩, rfl⟩
      · exact ⟨n, .inl rfl, charged.owner⟩

theorem Handled.sorted {s : Profiler} (handled : s.Handled c t)
    (sorted : s.mytree.Sorted ttscKey) : t.mytree.Sorted ttscKey := by
  unfold Handled at handled
  split at handled
  · rwa [handled.2]
  · obtain ⟨u, n, _, charged, stamped⟩ := handled
    rw [stamped.mytree]
    exact charged.sorted sorted

/-- The tree entries of a process; there is at most one. -/
def nodes (s : Profiler) (pid : Pid) : List Node := s.mytree.inorder.filter (·.pid = pid)

theorem Charged.nodes {s u : Profiler} (charged : s.Charged u prev tsc n) (other : prev ≠ pid) :
    u.nodes pid = s.nodes pid := by
  obtain ⟨l, r, before, after⟩ := charged.inorder
  have different : n.pid ≠ pid := by rwa [charged.owner]
  have kept : (s.others prev).filter (·.pid = pid) = s.mytree.inorder.filter (·.pid = pid) := by
    rw [others, List.filter_filter]
    refine List.filter_congr fun n' _ => ?_
    by_cases same : n'.pid = pid <;> simp [same, other.symm]
  rw [Profiler.nodes, Profiler.nodes, after, ← kept, before]
  simp [List.filter_append, different]

/-- Only the work for `prev` touches tree entries, and only those of that process. -/
theorem Handled.nodes {s : Profiler} (handled : s.Handled c t)
    (other : ∀ prev next, c.switch = some (prev, next) → prev.pid ≠ pid) :
    t.nodes pid = s.nodes pid := by
  unfold Handled at handled
  split at handled
  · rw [Profiler.nodes, Profiler.nodes, handled.2]
  · rename_i prev next known
    obtain ⟨u, n, _, charged, stamped⟩ := handled
    rw [← charged.nodes (other prev next known), Profiler.nodes, Profiler.nodes, stamped.mytree]

/-- Hash entries stay, and only the one of `next` gets another time stamp. -/
theorem Handled.tsc {s : Profiler} (handled : s.Handled c t) (found : s.position pid = some e)
    (other : ∀ prev next, c.switch = some (prev, next) → next.pid ≠ pid) :
    ∃ e', t.position pid = some e' ∧ e'.tsc = e.tsc := by
  unfold Handled at handled
  split at handled
  · refine ⟨e, ?_, rfl⟩
    rw [position, handled.1]
    exact found
  · rename_i prev next known
    obtain ⟨u, n, _, charged, stamped⟩ := handled
    rw [stamped.position, if_neg (other prev next known).symm, charged.position]
    split
    · rename_i same
      rw [same] at found
      exact ⟨_, rfl, by rw [entry_of_position c.tsc found]⟩
    · exact ⟨e, found, rfl⟩

theorem Linked.dropOld_total {s : Profiler} (linked : s.Linked) (pid : Pid) (tsc elapsed : UInt64) :
    ∃ dropped, s.dropOld b (s.entry pid tsc).node elapsed = some dropped := by
  cases points : (s.entry pid tsc).node with
  | none => exact ⟨_, rfl⟩
  | some addr =>
    obtain ⟨n, mem, rfl, _⟩ := linked.target (position_of_entry points) points
    exact ⟨_, by rw [dropOld, linked.deref mem]; rfl⟩

theorem workForPrev_total {s : Profiler} (linked : s.Linked)
    (entry : s.position pid = none → m.prevEntry = true) (node : m.node = some addr) :
    ∃ t, s.workForPrev b pid tsc m = some t := by
  obtain ⟨table, known⟩ : ∃ table, s.findPrev pid tsc m = some (table, s.entry pid tsc) := by
    unfold findPrev
    split
    · rename_i found
      exact ⟨_, by rw [entry_of_position tsc found]⟩
    · rename_i new
      rw [if_pos (entry new)]
      exact ⟨_, by rw [Profiler.entry, new]; rfl⟩
  obtain ⟨dropped, resolved⟩ := linked.dropOld_total (b := b) pid tsc
    (tsc - (s.entry pid tsc).tsc)
  simp only [workForPrev, known, node, resolved, Option.bind_eq_bind, Option.bind_some]
  exact ⟨_, rfl⟩

theorem workForNext_total (s : Profiler) (entry : s.position pid = none → m.nextEntry = true) :
    ∃ t, s.workForNext pid tsc m = some t := by
  unfold workForNext
  split
  · rename_i new
    exact ⟨_, if_pos (entry new)⟩
  · exact ⟨_, rfl⟩

/-- Every allocation that the handler makes succeeds. One for `next` is made where neither the
table nor the work for `prev` has an entry for it. -/
def Allocated (s : Profiler) (c : Call) : Prop :=
  ∀ prev next, c.switch = some (prev, next) →
    (s.position prev.pid = none → c.kmalloc.prevEntry = true) ∧
    c.kmalloc.node.isSome = true ∧
    (next.pid ≠ prev.pid → s.position next.pid = none → c.kmalloc.nextEntry = true)

theorem workForPrev_allocated {s : Profiler} (worked : s.workForPrev b pid tsc m = some t) :
    (s.position pid = none → m.prevEntry = true) ∧ m.node.isSome = true := by
  simp only [workForPrev, Option.bind_eq_bind, Option.bind_eq_some_iff, Prod.exists] at worked
  obtain ⟨table, e, known, addr, allocated, _⟩ := worked
  refine ⟨fun new => ?_, by rw [allocated]; rfl⟩
  rw [findPrev, new] at known
  exact (Option.ite_none_right_eq_some.mp known).1

theorem workForNext_allocated {s : Profiler} (worked : s.workForNext pid tsc m = some t)
    (new : s.position pid = none) : m.nextEntry = true := by
  rw [workForNext, new] at worked
  exact (Option.ite_none_right_eq_some.mp worked).1

theorem Charged.position_eq_none {s u : Profiler} (charged : s.Charged u prev tsc n) :
    u.position pid = none ↔ pid ≠ prev ∧ s.position pid = none := by
  rw [charged.position]
  split <;> simp [*]

theorem Linked.allocated_iff {s : Profiler} (linked : s.Linked) :
    s.Allocated c ↔ ∃ t, s.retPickNextFair b c = some t := by
  unfold Allocated retPickNextFair
  have counted : Linked { s with contextSwitchCounter := s.contextSwitchCounter + 1 } :=
    linked.of_eq rfl rfl
  cases known : c.switch with
  | none => simp
  | some tasks =>
    obtain ⟨prev, next⟩ := tasks
    simp only [Option.some.injEq, Prod.mk.injEq, Option.map_eq_some_iff]
    constructor
    · intro allocated
      obtain ⟨prevEntry, node, nextEntry⟩ := allocated prev next ⟨rfl, rfl⟩
      obtain ⟨addr, node⟩ := Option.isSome_iff_exists.mp node
      obtain ⟨u, worked⟩ : ∃ u, workForPrev b _ prev.pid c.tsc c.kmalloc = some u :=
        workForPrev_total counted prevEntry node
      obtain ⟨n, _, charged⟩ := workForPrev_spec counted worked
      obtain ⟨t, stamped⟩ : ∃ t, u.workForNext next.pid c.tsc c.kmalloc = some t :=
        workForNext_total u fun new => (charged.position_eq_none.mp new).elim nextEntry
      exact ⟨_, t, Option.bind_eq_some_iff.mpr ⟨u, worked, stamped⟩, rfl⟩
    · rintro ⟨_, t, worked, _⟩ _ _ ⟨rfl, rfl⟩
      obtain ⟨u, worked, stamped⟩ := Option.bind_eq_some_iff.mp worked
      obtain ⟨prevEntry, node⟩ := workForPrev_allocated worked
      obtain ⟨n, _, charged⟩ := workForPrev_spec counted worked
      refine ⟨prevEntry, node, fun different new => ?_⟩
      exact workForNext_allocated stamped (charged.position_eq_none.mpr ⟨different, new⟩)

/-- The handler follows no pointer that is NULL or freed. -/
theorem Linked.step {s : Profiler} (linked : s.Linked) (fresh : s.Fresh c)
    (succeed : c.kmalloc.Succeed) : ∃ t, Step b s (some c) t := by
  obtain ⟨prevEntry, node, nextEntry⟩ := succeed
  obtain ⟨t, handled⟩ := (linked.allocated_iff (b := b)).mp
    fun prev next _ => ⟨fun _ => prevEntry, node, fun _ _ => nextEntry⟩
  exact ⟨t, .call fresh handled⟩

/-- The table and the tree after the runs `h` of the handler. -/
structure Represents (h : List Call) (s : Profiler) : Prop where
  entries : s.table.Keyed hash32 Entry.pid
  addrs : s.addrs.Nodup
  nodes : ∀ e ∈ s.table, ∀ addr, e.node = some addr →
    ∃ n ∈ s.mytree.inorder, n.addr = addr ∧ n.pid = e.pid
  referred : ∀ n ∈ s.mytree.inorder, ∃! e, e ∈ s.table ∧ e.node = some n.addr
  sorted : s.mytree.Sorted ttscKey
  pids : ∀ pid, (∃ n ∈ s.mytree.inorder, n.pid = pid) ↔ Switched h pid

theorem Runs.sorted (run : Runs b h s) : s.mytree.Sorted ttscKey ∧
    ∀ pid, (∃ n ∈ s.mytree.inorder, n.pid = pid) ↔ Switched h pid := by
  refine run.invariant (I := fun h s => s.mytree.Sorted ttscKey ∧
    ∀ pid, (∃ n ∈ s.mytree.inorder, n.pid = pid) ↔ Switched h pid) ?_ ?_
  · exact ⟨List.Pairwise.nil, fun pid => by simp [Profiler.empty, Switched]⟩
  · rintro h s e t head ⟨sorted, pids⟩ ⟨fresh, result⟩
    rename_i c
    have handled := (Step.handled (.call fresh result) (Runs.linked head)).1
    refine ⟨handled.sorted sorted, fun pid => ?_⟩
    rw [handled.pids, pids]
    simp only [Switched, Option.toList_some, List.mem_append, or_and_right, exists_or]

/-- After any runs of the handler the table and the tree agree, and one more run completes
and changes no other total and no other time stamp than it should. -/
theorem representation (run : Runs b h s) : Represents h s ∧
    (∀ c, s.Fresh c → c.kmalloc.Succeed → ∃ t, Step b s (some c) t) ∧
    ∀ c t, Step b s (some c) t →
    (∀ pid, (∀ prev next, c.switch = some (prev, next) → prev.pid ≠ pid) →
      t.nodes pid = s.nodes pid) ∧
    ∀ e ∈ s.table, (∀ prev next, c.switch = some (prev, next) → next.pid ≠ e.pid) →
      ∃ e' ∈ t.table, e'.pid = e.pid ∧ e'.tsc = e.tsc := by
  have linked := run.linked
  refine ⟨⟨linked.keyed, linked.addrs, fun e mem addr points => ?_, fun n mem => ?_,
      run.sorted.1, run.sorted.2⟩, fun c => linked.step, fun c t step =>
    ⟨fun pid other => ?_, fun e mem other => ?_⟩⟩
  · exact linked.target (linked.keyed.find? mem) points
  · obtain ⟨e, found, points⟩ := linked.source mem
    refine ⟨e, ⟨HashTable.mem_of_find? found, points⟩, fun e' ⟨mem', points'⟩ => ?_⟩
    obtain ⟨n', there, place, owner⟩ := linked.target (linked.keyed.find? mem') points'
    obtain rfl := linked.eq_of_addr there mem place
    have same : e'.pid = e.pid := owner.symm.trans (HashTable.find?_key found).symm
    exact linked.keyed.eq mem' (HashTable.mem_of_find? found) same
  · exact (step.handled linked).1.nodes other
  · obtain ⟨e', found, same⟩ := (step.handled linked).1.tsc (linked.keyed.find? mem) other
    exact ⟨e', HashTable.mem_of_find? found, HashTable.find?_key found, same⟩

/-- A switch from one task to another, its tree entry allocated at `addr`. -/
def switchCall (prev next : Task) (tsc : UInt64) (addr : Addr) : Call :=
  ⟨some prev, some next, tsc, ⟨true, some addr, true⟩⟩

/-- Three switches between two tasks; the third one replaces a tree entry. -/
def threeSwitches : List Call :=
  let a : Task := ⟨4096, 1⟩
  let b : Task := ⟨8192, 2⟩
  [switchCall a b 100 64, switchCall b a 150 128, switchCall a b 350 192]

theorem representation_three_switches : ∃ h s, Runs .unbalanced h s ∧ Represents h s ∧
    s.mytree.inorder = [⟨128, 0, 2⟩, ⟨192, 200, 1⟩] := by
  have followed : (exec (step .unbalanced) empty threeSwitches).any (fun r =>
      r.1.mytree.inorder = [⟨128, 0, 2⟩, ⟨192, 200, 1⟩]) := by decide +kernel
  obtain ⟨s, h, run, known⟩ := exec_any followed step_sound
  exact ⟨h, s, run, (representation run).1, known⟩

end Profiler
end CSE306.Perftop
