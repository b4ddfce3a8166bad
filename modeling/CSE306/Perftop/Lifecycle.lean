import CSE306.Perftop.Ledger
import CSE306.Teardown
import Mathlib.Data.Finset.Basic
import Mathlib.Data.Finset.Dedup

/-! The life of the module: the memory of the tree from the first switch to `perftop_exit`,
the hash table that each load gets, and what is left of a load that fails. -/
namespace CSE306.Perftop
open Transition

/-- What is done with the memory of a `my_rb_tree_struct`. -/
inductive NodeMemory where
  | kmalloc (addr : Addr)
  | kfree (addr : Addr)
  deriving DecidableEq

namespace NodeMemory

/-- The memory in use afterwards. Memory in use is not allocated again, and memory that is
not in use cannot be freed. -/
def replay : Finset Addr → List NodeMemory → Option (Finset Addr)
  | live, [] => some live
  | live, .kmalloc addr :: later => if addr ∈ live then none else replay (insert addr live) later
  | live, .kfree addr :: later => if addr ∈ live then replay (live.erase addr) later else none

theorem replay_append {log : List NodeMemory} (known : replay live log = some live')
    (later : List NodeMemory) : replay live (log ++ later) = replay live' later := by
  induction log generalizing live with
  | nil =>
    cases known
    rfl
  | cons m log ih =>
    cases m with
    | kmalloc addr | kfree addr =>
      simp only [replay, List.cons_append] at known ⊢
      split at known
      · first | cases known | (rw [if_pos ‹_›]; exact ih known)
      · first | cases known | (rw [if_neg ‹_›]; exact ih known)

/-- From nothing in use to nothing in use, every allocation is freed once. -/
theorem count_of_replay {log : List NodeMemory} (known : replay live log = some live')
    (addr : Addr) : log.count (.kmalloc addr) + (if addr ∈ live then 1 else 0) =
      log.count (.kfree addr) + (if addr ∈ live' then 1 else 0) := by
  induction log generalizing live with
  | nil =>
    cases known
    rfl
  | cons m log ih =>
    cases m with
    | kmalloc a =>
      simp only [replay, Option.ite_none_left_eq_some] at known
      have rest := ih known.2
      by_cases same : a = addr
      · subst same
        simp only [List.count_cons, Finset.mem_insert_self, if_true, if_neg known.1] at rest ⊢
        simpa using rest
      · have mem : addr ∈ insert a live ↔ addr ∈ live := by simp [Ne.symm same]
        simp only [List.count_cons, mem] at rest ⊢
        simpa [same] using rest
    | kfree a =>
      simp only [replay, Option.ite_none_right_eq_some] at known
      have rest := ih known.2
      by_cases same : a = addr
      · subst same
        simp only [List.count_cons, Finset.notMem_erase, if_false, if_pos known.1] at rest ⊢
        simp only [beq_self_eq_true, if_true, beq_iff_eq, reduceCtorEq, if_false]
        omega
      · have mem : addr ∈ live.erase a ↔ addr ∈ live := by simp [Ne.symm same]
        simp only [List.count_cons, mem] at rest ⊢
        simpa [same] using rest

end NodeMemory

namespace Profiler
variable {b : OrderedTree.Balance Node}

/-- The tree memory that one run of the handler allocates, and then frees: the old node of
`prev`, if the hash entry points to one. -/
def nodeMemory (s : Profiler) (c : Call) : List NodeMemory :=
  match c.switch with
  | none => []
  | some (prev, _) =>
    (c.kmalloc.node.map NodeMemory.kmalloc).toList ++
      (((s.position prev.pid).bind Entry.node).map NodeMemory.kfree).toList

/-- The loop of `perftop_exit` over the tree, which asks for the next node before it erases
and frees this one. -/
def exitTree (b : OrderedTree.Balance Node) :
    Nat → OrderedTree Node → Option Node → Option (List NodeMemory × OrderedTree Node)
  | _, mytree, none => some ([], mytree)
  | 0, _, some _ => none
  | fuel + 1, mytree, some nodePosition => do
    let temp := mytree.next? nodePosition
    let mytree := b.erase mytree nodePosition
    let (later, mytree) ← exitTree b fuel mytree temp
    return (.kfree nodePosition.addr :: later, mytree)

theorem exitTree_frees {mytree : OrderedTree Node} (whole : mytree.inorder = l)
    (enough : l.length ≤ fuel) : ∃ t, exitTree b fuel mytree mytree.first? =
      some (l.map (.kfree ·.addr), t) ∧ t.inorder = [] := by
  induction l generalizing mytree fuel with
  | nil =>
    refine ⟨mytree, ?_, whole⟩
    rw [OrderedTree.first?, whole]
    cases fuel <;> rfl
  | cons n l ih =>
    obtain ⟨fuel, rfl⟩ := Nat.exists_eq_succ_of_ne_zero (Nat.ne_zero_of_lt enough)
    have erased : (b.erase mytree n).inorder = l := by
      rw [b.inorder_erase mytree n (whole ▸ List.mem_cons_self), whole, List.erase_cons_head]
    obtain ⟨t, rest, none⟩ := ih erased (Nat.le_of_succ_le_succ enough)
    refine ⟨t, ?_, none⟩
    rw [OrderedTree.first?, erased] at rest
    rw [OrderedTree.first?, whole, List.head?_cons, exitTree, OrderedTree.next?_first whole, rest]
    rfl

theorem replay_kfree {l : List Node} (distinct : (l.map Node.addr).Nodup) :
    NodeMemory.replay (l.map Node.addr).toFinset (l.map (.kfree ·.addr)) = some ∅ := by
  induction l with
  | nil => rfl
  | cons n l ih =>
    obtain ⟨away, distinct⟩ := List.nodup_cons.mp distinct
    rw [List.map_cons, List.map_cons, List.toFinset_cons, NodeMemory.replay,
      if_pos (Finset.mem_insert_self _ _), Finset.erase_insert (by simpa using away)]
    exact ih distinct

theorem Step.charged {s t : Profiler} (step : Step b s (some c) t) (linked : s.Linked)
    (switched : c.switch = some (prev, next)) : ∃ u n, c.kmalloc.node = some n.addr ∧
      s.Charged u prev.pid c.tsc n ∧ t.mytree = u.mytree := by
  obtain ⟨fresh, result⟩ := step
  obtain ⟨v, worked, rfl⟩ := Option.map_eq_some_iff.mp result
  rw [switched] at worked
  simp only [contextSwitch, Option.bind_eq_bind, Option.bind_eq_some_iff] at worked
  obtain ⟨u, worked, stamped⟩ := worked
  have counted : Linked { s with contextSwitchCounter := s.contextSwitchCounter + 1 } :=
    linked.of_eq rfl rfl
  obtain ⟨n, allocated, charged⟩ := workForPrev_spec counted worked
  have charged := charged.of_counted
  have linked' := linked.charged charged (fresh n.addr allocated)
  exact ⟨u, n, allocated, charged, (workForNext_spec linked' stamped).mytree⟩

theorem node_of_entry (s : Profiler) (pid : Pid) (tsc : UInt64) :
    (s.position pid).bind Entry.node = (s.entry pid tsc).node := by
  rw [entry]
  cases s.position pid <;> rfl

section
variable {s u : Profiler} {prev : Pid} {tsc : UInt64} {n old : Node}

theorem Charged.mem_addrs (charged : s.Charged u prev tsc n) (addr : Addr) : addr ∈ u.addrs ↔
    addr = n.addr ∨ ∃ n' ∈ s.mytree.inorder, n'.pid ≠ prev ∧ n'.addr = addr := by
  simp only [Profiler.addrs, List.mem_map, charged.mem_inorder]
  constructor
  · rintro ⟨n', rfl | ⟨mem, other⟩, rfl⟩
    · exact .inl rfl
    · exact .inr ⟨n', mem, other, rfl⟩
  · rintro (rfl | ⟨n', mem, other, rfl⟩)
    · exact ⟨n, .inl rfl, rfl⟩
    · exact ⟨n', .inr ⟨mem, other⟩, rfl⟩

theorem Charged.addrs_first (charged : s.Charged u prev tsc n)
    (without : ∀ n' ∈ s.mytree.inorder, n'.pid ≠ prev) :
    u.addrs.toFinset = insert n.addr s.addrs.toFinset := by
  ext addr
  rw [List.mem_toFinset, charged.mem_addrs, Finset.mem_insert, List.mem_toFinset, Profiler.addrs,
    List.mem_map]
  refine or_congr_right ⟨?_, ?_⟩
  · rintro ⟨n', mem, -, same⟩
    exact ⟨n', mem, same⟩
  · rintro ⟨n', mem, same⟩
    exact ⟨n', mem, without n' mem, same⟩

theorem Charged.addrs_again (charged : s.Charged u prev tsc n) (linked : s.Linked)
    (here : old ∈ s.mytree.inorder) (owner : old.pid = prev) (apart : n.addr ≠ old.addr) :
    u.addrs.toFinset = (insert n.addr s.addrs.toFinset).erase old.addr := by
  ext addr
  rw [List.mem_toFinset, charged.mem_addrs, Finset.mem_erase, Finset.mem_insert,
    List.mem_toFinset, Profiler.addrs, List.mem_map]
  constructor
  · rintro (rfl | ⟨n', mem, other, rfl⟩)
    · exact ⟨apart, .inl rfl⟩
    · refine ⟨fun same => other ?_, .inr ⟨n', mem, rfl⟩⟩
      rw [linked.eq_of_addr mem here same, owner]
  · rintro ⟨other, rfl | ⟨n', mem, rfl⟩⟩
    · exact .inl rfl
    · refine .inr ⟨n', mem, fun same => other ?_, rfl⟩
      rw [linked.eq_of_pid mem here (same.trans owner.symm)]

end

theorem Linked.replay_step {s t : Profiler} (linked : s.Linked) (step : Step b s (some c) t) :
    NodeMemory.replay s.addrs.toFinset (s.nodeMemory c) = some t.addrs.toFinset := by
  unfold nodeMemory
  cases switched : c.switch with
  | none =>
    have handled := (step.handled linked).1
    rw [Handled, switched] at handled
    rw [Profiler.addrs, Profiler.addrs, handled.2]
    rfl
  | some both =>
    obtain ⟨prev, next⟩ := both
    obtain ⟨u, n, allocated, charged, mytree⟩ := step.charged linked switched
    obtain ⟨fresh, -⟩ := step
    have away : n.addr ∉ s.addrs.toFinset := by simpa using fresh n.addr allocated
    rw [show t.addrs = u.addrs from congrArg (·.inorder.map Node.addr) mytree]
    simp only [allocated, node_of_entry s prev.pid c.tsc, Option.map_some, Option.toList_some,
      List.singleton_append, NodeMemory.replay, if_neg away]
    rcases linked.total_of_entry prev.pid c.tsc with ⟨none, without⟩ | ⟨old, here, owner, points, -⟩
    · rw [none, charged.addrs_first (total_eq_none.mp without)]
      rfl
    · have used : old.addr ∈ s.addrs.toFinset :=
        List.mem_toFinset.mpr (List.mem_map_of_mem here)
      rw [points, charged.addrs_again linked here owner fun same => away (same ▸ used)]
      simp only [Option.map_some, Option.toList_some, NodeMemory.replay,
        if_pos (Finset.mem_insert_of_mem used)]

end Profiler

/-- The loop of `perftop_exit` over the hash table. `hash_del` makes the link of its entry NULL
and the walk goes on from there, so that each bucket loses its first entry only. -/
def exitTable (table : HashTable (BitVec 10) Entry) : HashTable (BitVec 10) Entry :=
  ⟨fun b => (table.buckets b).tail⟩

/-- So it does on linked entries, where the link of an entry just freed is still there. -/
theorem exitTable_teardown [DecidableEq A] {s : Hlist (BitVec 10) A} (held : s.Represents x)
    {entry : A → Entry} {table : HashTable (BitVec 10) Entry}
    (holds : ∀ b, (x.chain b).map entry = table.buckets b) (fuel : Nat) :
    ∃ t y, perftopExitTeardown (fuel + 1) s = some (t, CSE306.buckets.flatMap (freed x)) ∧
      t.Represents y ∧ ∀ b, (y.chain b).map entry = (exitTable table).buckets b := by
  obtain ⟨t, y, walked, represents, tails⟩ := hashForEach_freeEntry fuel nodup_buckets held
  refine ⟨t, y, walked, represents, fun b => ?_⟩
  rw [tails, if_pos (mem_buckets b), List.map_tail, holds]
  rfl

/-- What happens to the module. A load gets memory for its hash table, with what is in it, or
NULL; `proc_create` and `register_kretprobe` may fail. -/
inductive Happening where
  | insmod (htWrapper : Option (HashTable (BitVec 10) Entry)) (created registered : Bool)
  | ret (c : Call)
  | opened (load : Nat)
  | rmmod

/-- The memory for the hash table of a load has NULL heads. -/
def Happening.Cleared : Happening → Prop
  | .insmod htWrapper _ _ => htWrapper = some .empty
  | .ret _ | .opened _ | .rmmod => True

/-- A kernel that loads the module again and again: how often it was loaded, the profiler of
the module that is in and whether it has a hash table, the load that `/proc/perftop` is of,
what was done to the memory of all trees, and the hash entries that no removal has freed. -/
structure Host where
  loads : Nat
  module : Option Profiler
  htWrapper : Bool
  entry : Option Nat
  log : List NodeMemory
  lost : List Entry

namespace Host

def start : Host := ⟨0, none, false, none, [], []⟩

/-- `perftop_init`, which looks at nothing but the result of `register_kretprobe`, and leaves
the entry behind when that fails. A name that is there is not made again. -/
def perftopInit (s : Host) (htWrapper : Option (HashTable (BitVec 10) Entry))
    (created registered : Bool) : Host :=
  { s with
    loads := s.loads + 1
    module :=
      if registered then some { Profiler.empty with table := htWrapper.getD .empty } else none
    htWrapper := htWrapper.isSome
    entry := s.entry.or (if created then some s.loads else none) }

/-- `perftop_exit`: the entry of `/proc` is removed, then the hash table is emptied, for which
it must be there, then the tree. -/
def perftopExit (b : OrderedTree.Balance Node) (s : Host) (p : Profiler) : Option Host :=
  if s.htWrapper then do
    let lost := CSE306.buckets.flatMap (exitTable p.table).buckets
    let (freed, _) ← Profiler.exitTree b p.mytree.inorder.length p.mytree p.mytree.first?
    return { s with
      module := none, entry := none, log := s.log ++ freed, lost := s.lost ++ lost }
  else none

/-- The handler looks at the hash table where it counts a switch. -/
inductive Step (b : OrderedTree.Balance Node) : Host → Option Happening → Host → Prop where
  | insmod (htWrapper : Option (HashTable (BitVec 10) Entry)) (created registered : Bool) :
      s.module = none → Step b s (some (.insmod htWrapper created registered))
        (s.perftopInit htWrapper created registered)
  | ret : s.module = some p → (s.htWrapper = true ∨ c.switch = none) →
      Profiler.Step b p (some c) q →
      Step b s (some (.ret c)) { s with module := some q, log := s.log ++ p.nodeMemory c }
  | opened : s.entry = some load → Step b s (some (.opened load)) s
  | rmmod : s.module = some p → s.perftopExit b p = some t → Step b s (some .rmmod) t

abbrev Runs (b : OrderedTree.Balance Node) (h : List Happening) (s : Host) : Prop :=
  Run (Step b) start h s

/-- What happens next, if it can. -/
def step (b : OrderedTree.Balance Node) (s : Host) : Happening → Option Host
  | .insmod htWrapper created registered =>
    match s.module with
    | none => some (s.perftopInit htWrapper created registered)
    | some _ => none
  | .ret c =>
    match s.module with
    | some p =>
      if (s.htWrapper = true ∨ c.switch = none) ∧ p.Fresh c then
        (p.retPickNextFair b c).map fun q =>
          { s with module := some q, log := s.log ++ p.nodeMemory c }
      else none
    | none => none
  | .opened load => if s.entry = some load then some s else none
  | .rmmod => s.module.bind (s.perftopExit b)

theorem step_sound (moved : step b s e = some t) : Step b s (some e) t := by
  cases e with
  | insmod htWrapper created registered =>
    simp only [step] at moved
    split at moved
    · rename_i out
      cases moved
      exact .insmod _ _ _ out
    · cases moved
  | ret c =>
    simp only [step] at moved
    split at moved
    · rename_i p here
      split at moved
      · rename_i both
        obtain ⟨there, fresh⟩ := both
        obtain ⟨q, result, same⟩ := Option.map_eq_some_iff.mp moved
        cases same
        exact .ret here there (.call fresh result)
      · cases moved
    · cases moved
  | opened load =>
    simp only [step, Option.ite_none_right_eq_some] at moved
    obtain ⟨here, same⟩ := moved
    cases same
    exact .opened here
  | rmmod =>
    obtain ⟨p, here, gone⟩ := Option.bind_eq_some_iff.mp moved
    exact .rmmod here gone

theorem foldlM_step (followed : h.foldlM (step b) s = some t) : Run (Step b) s h t := by
  induction h generalizing s with
  | nil =>
    cases followed
    exact .start
  | cons e h ih =>
    rw [List.foldlM_cons] at followed
    obtain ⟨u, moved, later⟩ := Option.bind_eq_some_iff.mp followed
    exact (Run.next .start (step_sound moved)).trans (ih later)

variable {b : OrderedTree.Balance Node}

def live (s : Host) : Finset Addr :=
  match s.module with
  | none => ∅
  | some p => p.addrs.toFinset

/-- The memory of the trees is that of the tree that is there. -/
structure Accounted (s : Host) : Prop where
  linked : ∀ p ∈ s.module, p.Linked ∧ s.htWrapper = true
  replay : NodeMemory.replay ∅ s.log = some s.live

theorem perftopExit_spec (b : OrderedTree.Balance Node) {s : Host} (there : s.htWrapper = true)
    (p : Profiler) : s.perftopExit b p = some { s with
      module := none
      entry := none
      log := s.log ++ p.mytree.inorder.map (.kfree ·.addr)
      lost := s.lost ++ CSE306.buckets.flatMap (exitTable p.table).buckets } := by
  obtain ⟨t, freed, _⟩ := Profiler.exitTree_frees (b := b) (Eq.refl p.mytree.inorder) le_rfl
  rw [perftopExit, if_pos there, freed]
  rfl

theorem Accounted.step {s t : Host} (held : s.Accounted) (step : Step b s (some e) t)
    (cleared : e.Cleared) : t.Accounted := by
  obtain ⟨linked, replay⟩ := held
  cases step with
  | insmod htWrapper created registered out =>
    rw [live, out] at replay
    obtain rfl := cleared
    cases registered with
    | false =>
      refine ⟨?_, replay⟩
      intro p mem
      cases mem
    | true =>
      refine ⟨?_, replay⟩
      intro p mem
      cases mem
      exact ⟨.empty, rfl⟩
  | ret here table handled =>
    rename_i p c q
    rw [live, here] at replay
    obtain ⟨before, there⟩ := linked p here
    constructor
    case linked =>
      intro p mem
      cases mem
      exact ⟨(handled.handled before).2, there⟩
    case replay => exact (NodeMemory.replay_append replay _).trans (before.replay_step handled)
  | opened here => exact ⟨linked, replay⟩
  | rmmod here gone =>
    rename_i p
    rw [live, here] at replay
    obtain ⟨before, there⟩ := linked p here
    rw [perftopExit_spec b there] at gone
    cases gone
    constructor
    case linked =>
      intro p mem
      cases mem
    case replay =>
      exact (NodeMemory.replay_append replay _).trans (Profiler.replay_kfree before.addrs)

theorem Runs.accounted (run : Runs b h s) : (∀ e ∈ h, e.Cleared) → s.Accounted := by
  refine run.invariant (I := fun h s => (∀ e ∈ h, e.Cleared) → s.Accounted) ?_ ?_
  · intro _
    refine ⟨?_, rfl⟩
    intro p mem
    cases mem
  · intro h s e t _ held step cleared
    cases e with
    | none => cases step
    | some e =>
      have before := held fun e mem => cleared e (List.mem_append_left _ mem)
      exact before.step step (cleared e (List.mem_append_right h List.mem_cons_self))

/-- Over any loads, each with a hash table whose heads are NULL, and any switches the handler
and `perftop_exit` complete, the tree memory is never freed twice and never allocated while it
is in use, and without the module none is in use: each address was freed as often as it was
allocated. Of each bucket of the table only the first entry is freed. -/
theorem tree_memory_returned (run : Runs b h s) (cleared : ∀ e ∈ h, e.Cleared) :
    NodeMemory.replay ∅ s.log = some s.live ∧
    (∀ p ∈ s.module,
      (∃ t, Step b s (some .rmmod) t ∧
        t.lost = s.lost ++ CSE306.buckets.flatMap fun k => (p.table.buckets k).tail) ∧
      ∀ c, p.Fresh c → c.kmalloc.Succeed → ∃ t, Step b s (some (.ret c)) t) ∧
    (s.module = none → ∀ addr, s.log.count (.kmalloc addr) = s.log.count (.kfree addr)) := by
  have held := run.accounted cleared
  refine ⟨held.replay, fun p here => ?_, fun out addr => ?_⟩
  · obtain ⟨linked, there⟩ := held.linked p here
    refine ⟨⟨_, .rmmod here (perftopExit_spec b there p), rfl⟩, fun c fresh succeed => ?_⟩
    obtain ⟨q, handled⟩ := linked.step (b := b) fresh succeed
    exact ⟨_, .ret here (.inl there) handled⟩
  · have counted := NodeMemory.count_of_replay held.replay addr
    rw [live, out] at counted
    simpa using counted

def oneLoad : List Happening :=
  [.insmod (some .empty) true true,
    .ret ⟨some ⟨4096, 1⟩, some ⟨8192, 2⟩, 100, ⟨true, some 64, true⟩⟩,
    .ret ⟨some ⟨8192, 2⟩, some ⟨4096, 1⟩, 200, ⟨true, some 128, true⟩⟩,
    .ret ⟨some ⟨4096, 1⟩, some ⟨8192, 2⟩, 300, ⟨true, some 192, true⟩⟩,
    .rmmod]

theorem tree_memory_returned_removed : ∃ s, Runs .unbalanced oneLoad s ∧ s.log ≠ [] ∧
    ∀ addr, s.log.count (.kmalloc addr) = s.log.count (.kfree addr) := by
  have followed : (oneLoad.foldlM (step .unbalanced) start).any (fun s =>
      s.module.isNone ∧ s.log ≠ []) := by
    decide +kernel
  obtain ⟨s, executed, known⟩ := (Option.any_eq_true _ _).mp followed
  obtain ⟨out, used⟩ := of_decide_eq_true known
  have run := foldlM_step executed
  have cleared : ∀ e ∈ oneLoad, e.Cleared := by
    simp [oneLoad, Happening.Cleared]
  exact ⟨s, run, used, (tree_memory_returned run cleared).2.2 (Option.isNone_iff_eq_none.mp out)⟩

/-- A load that had made the entry failed, and no module was removed since. -/
def LeftBehind (h : List Happening) : Prop :=
  ∃ earlier htWrapper later, h = earlier ++ .insmod htWrapper true false :: later ∧
    .rmmod ∉ later

def current (s : Host) : Option Nat := s.module.map fun _ => s.loads - 1

theorem leftBehind_concat : LeftBehind (h ++ [e]) ↔
    (∃ htWrapper, e = .insmod htWrapper true false) ∨ e ≠ .rmmod ∧ LeftBehind h := by
  constructor
  · rintro ⟨earlier, htWrapper, later, whole, kept⟩
    rcases List.eq_nil_or_concat later with rfl | ⟨later, last, rfl⟩
    · exact .inl ⟨htWrapper, List.singleton_inj.mp (List.append_inj' whole rfl).2⟩
    · rw [List.concat_eq_append] at whole kept
      rw [← List.cons_append, ← List.append_assoc] at whole
      obtain ⟨rfl, same⟩ := List.append_inj' whole rfl
      obtain rfl := List.singleton_inj.mp same
      refine .inr ⟨fun gone => kept ?_, earlier, htWrapper, later, rfl, fun mem => kept ?_⟩
      · rw [gone]
        exact List.mem_append_right _ List.mem_cons_self
      · exact List.mem_append_left _ mem
  · rintro (⟨htWrapper, rfl⟩ | ⟨other, earlier, htWrapper, later, rfl, kept⟩)
    · exact ⟨h, htWrapper, [], rfl, List.not_mem_nil⟩
    · refine ⟨earlier, htWrapper, later ++ [e], by simp, fun mem => ?_⟩
      rcases List.mem_append.mp mem with mem | mem
      · exact kept mem
      · exact other (List.mem_singleton.mp mem).symm

/-- The entry is of an earlier load just where one was left behind. -/
structure Owned (h : List Happening) (s : Host) : Prop where
  past : ∀ load ∈ s.entry, load < s.loads
  loaded : s.module ≠ none → 0 < s.loads
  stale : (∃ load, s.entry = some load ∧ s.current ≠ some load) ↔ LeftBehind h

theorem Owned.step {s t : Host} (held : s.Owned h) (step : Step b s e t) :
    t.Owned (h ++ e.toList) := by
  obtain ⟨past, loaded, stale⟩ := held
  cases step with
  | insmod htWrapper created registered out =>
    have none : s.current = none := by rw [current, out]; rfl
    refine ⟨fun load mem => ?_, fun _ => Nat.succ_pos _, ?_⟩
    · cases here : s.entry with
      | none =>
        rw [perftopInit, here, Option.none_or] at mem
        cases created with
        | false => cases mem
        | true =>
          cases mem
          exact Nat.lt_succ_self _
      | some k =>
        rw [perftopInit, here, Option.some_or] at mem
        cases mem
        exact (past load here).trans (Nat.lt_succ_self _)
    · rw [Option.toList_some, leftBehind_concat, ← stale, none]
      cases here : s.entry with
      | none => cases created <;> cases registered <;> simp [perftopInit, current, here]
      | some k =>
        have before := past k here
        cases registered <;> simp [perftopInit, current, here]
        omega
  | ret here _ handled =>
    refine ⟨past, fun _ => loaded (by rw [here]; nofun), ?_⟩
    rw [Option.toList_some, leftBehind_concat, ← stale]
    simp [current, here]
  | opened here =>
    refine ⟨past, loaded, ?_⟩
    rw [Option.toList_some, leftBehind_concat, ← stale]
    simp
  | rmmod here gone =>
    simp only [perftopExit, Option.ite_none_right_eq_some, Option.bind_eq_bind,
      Option.bind_eq_some_iff, Option.pure_def, Option.some.injEq] at gone
    obtain ⟨_, freed, _, rfl⟩ := gone
    refine ⟨nofun, nofun, ?_⟩
    rw [Option.toList_some, leftBehind_concat]
    simp

/-- Opening `/proc/perftop` runs code of a load that is no longer in exactly if a load that had
made the entry failed since the last removal. Later loads, also those that succeed, do not
change that. -/
theorem opened_unloaded_iff (run : Runs b h s) (opened : Step b s (some (.opened load)) t) :
    s.current ≠ some load ↔ LeftBehind h := by
  have held : s.Owned h := run.invariant (I := fun h s => s.Owned h)
    ⟨nofun, nofun, by simp [start, LeftBehind]⟩ fun _ => Owned.step
  cases opened with
  | opened here =>
    rw [← held.stale, here]
    simp

/-- The second load succeeds, and the entry is still that of the first. -/
def secondLoad : List Happening := [.insmod (some .empty) true false, .insmod none true true]

theorem opened_unloaded_second : ∃ s, Runs .unbalanced secondLoad s ∧
    Step .unbalanced s (some (.opened 0)) s ∧ s.current = some 1 ∧
    (s.current ≠ some 0 ↔ LeftBehind secondLoad) := by
  have followed : (secondLoad.foldlM (step .unbalanced) start).any (fun s =>
      s.entry = some 0 ∧ s.current = some 1) := by
    decide +kernel
  obtain ⟨s, executed, known⟩ := (Option.any_eq_true _ _).mp followed
  obtain ⟨here, now⟩ := of_decide_eq_true known
  have run := foldlM_step executed
  have opened : Step .unbalanced s (some (.opened 0)) s := .opened here
  exact ⟨s, run, opened, now, opened_unloaded_iff run opened⟩

end Host
end CSE306.Perftop
