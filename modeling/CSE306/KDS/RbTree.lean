import CSE306.KDS.Kernel
import CSE306.OrderedTree

/-! The red-black tree of the numbers: it is filled in input order, and emptied from its
smallest entry on. -/
namespace CSE306.KDS
open OrderedTree

/-- What `my_rb_insert` compares. -/
def dataKey (x : Item) : Int := x.data.toInt

/-- The loop that prints and frees the entries, for at most `fuel` turns. -/
def emptyTree (b : Balance Item) : Nat → OrderedTree Item → Kernel → Option Item →
    Option (OrderedTree Item × Kernel)
  | _, t, k, none => some (t, k)
  | 0, _, _, some _ => none
  | fuel + 1, t, k, some position => do
    let k ← k.printData .rbTree (some position)
    let temp := t.next? position
    let t := b.erase t position
    let k ← (k.log (.rbErase position.cell)).kfree (some position.cell)
    emptyTree b fuel t k temp

def playRbTree (b : Balance Item) (fails : Cell → Bool) (nums : List (BitVec 32)) (k : Kernel) :
    Option (Done (OrderedTree Item)) := do
  match ← allocate fails .rbNode (fun t x => some (t.insert dataKey b x)) 0 nums k .leaf with
  | (k, .error t) => return ⟨k, einval, t⟩
  | (k, .ok t) =>
    let (t, k) ← emptyTree b nums.length t k t.first?
    return ⟨k, 0, t⟩

/-- What one turn of the loop does to an entry. -/
def emptied (x : Item) : List Event :=
  [.read x.cell, .printk (.rbTree x.data), .rbErase x.cell, .kfree x.cell]

theorem emptyTree_inorder (b : Balance Item) {t : OrderedTree Item} {k : Kernel}
    (whole : t.inorder = l) (distinct : (l.map Item.cell).Nodup) (live : ∀ x ∈ l, x.cell ∈ k.live)
    (enough : l.length ≤ fuel) :
    ∃ t', emptyTree b fuel t k t.first? =
        some (t', ⟨k.live \ cells l, k.trace ++ l.flatMap emptied⟩) ∧ t'.inorder = [] := by
  induction l generalizing t k fuel with
  | nil =>
    refine ⟨t, ?_, whole⟩
    rw [first?, whole, cells_nil, Finset.sdiff_empty, List.flatMap_nil, List.append_nil]
    cases fuel <;> rfl
  | cons x l ih =>
    obtain ⟨fuel, rfl⟩ := Nat.exists_eq_succ_of_ne_zero (Nat.ne_zero_of_lt enough)
    have here := live x List.mem_cons_self
    have erased : (b.erase t x).inorder = l := by
      rw [b.inorder_erase t x (whole ▸ List.mem_cons_self), whole, List.erase_cons_head]
    have next : t.next? x = (b.erase t x).first? := by
      rw [next?_first whole, first?, erased]
    have first : t.first? = some x := by rw [first?, whole, List.head?_cons]
    have freed : (Kernel.log ⟨k.live, k.trace ++ [.read x.cell, .printk (.rbTree x.data)]⟩
        (.rbErase x.cell)).kfree (some x.cell) =
          some ⟨k.live.erase x.cell, k.trace ++ emptied x⟩ := by
      have there : x.cell ∈ (Kernel.log ⟨k.live, k.trace ++ [.read x.cell,
        .printk (.rbTree x.data)]⟩ (.rbErase x.cell)).live := here
      rw [Kernel.kfree_live there]
      simp [Kernel.log, emptied]
    obtain ⟨t', rest, none⟩ := ih (k := ⟨k.live.erase x.cell, k.trace ++ emptied x⟩) erased
      (List.nodup_cons.mp distinct).2 (live_erase distinct live) (Nat.le_of_succ_le_succ enough)
    refine ⟨t', ?_, none⟩
    rw [first, emptyTree, k.printData_live .rbTree here]
    simp only [Option.bind_eq_bind, Option.bind_some, freed, next, rest, sdiff_cells_cons,
      List.flatMap_cons, List.append_assoc]

/-- From an earlier turn of the loop that allocates. -/
def older (x y : Item) : Prop := x.cell.turn < y.cell.turn

theorem items_older (nums : List (BitVec 32)) : (items .rbNode 0 nums).Pairwise older := by
  have rising : ((nums.zipIdx).map Prod.snd).Pairwise (· < ·) := by
    rw [List.zipIdx_map_snd]
    exact List.pairwise_lt_range'
  have ages : nums.zipIdx.Pairwise fun x y => x.2 < y.2 := List.pairwise_map.mp rising
  exact List.pairwise_map.mpr ages

theorem rbNode_injective : Function.Injective Cell.rbNode := fun _ _ same => by cases same; rfl

/-- What the function does when nothing fails, and when something does. -/
theorem playRbTree_eq (b : Balance Item) (fails : Cell → Bool) (nums : List (BitVec 32))
    (k : Kernel) :
    (∀ x ∈ items .rbNode 0 nums, fails x.cell = false) ∧ (∃ t order, t.inorder = [] ∧
      order.Perm (items .rbNode 0 nums) ∧
      (order.Pairwise fun x y => dataKey x < dataKey y ∨ dataKey x = dataKey y ∧ older x y) ∧
      playRbTree b fails nums k = some ⟨⟨(k.live ∪ cells order) \ cells order,
        k.trace ++ order.flatMap emptied⟩, 0, t⟩) ∨
    ¬ (∀ x ∈ items .rbNode 0 nums, fails x.cell = false) ∧ ∃ t, playRbTree b fails nums k = some
      ⟨{ k with live := k.live ∪ cells (allocated fails (items .rbNode 0 nums)) }, einval, t⟩ := by
  rw [playRbTree]
  by_cases all : ∀ x ∈ items .rbNode 0 nums, fails x.cell = false
  · left
    refine ⟨all, ?_⟩
    have nothing : (leaf : OrderedTree Item).Stable dataKey older := List.Pairwise.nil
    obtain ⟨stable, perm⟩ := Stable.foldl_insert b (items .rbNode 0 nums) nothing
      (items_older nums) (by simp)
    rw [inorder_leaf, List.append_nil] at perm
    rw [allocate_all _ all]
    generalize (items .rbNode 0 nums).foldl _ _ = t at stable perm ⊢
    have same : cells (items .rbNode 0 nums) = cells t.inorder := by
      ext c
      simp only [mem_cells, perm.mem_iff]
    have distinct : (t.inorder.map Item.cell).Nodup :=
      (perm.map Item.cell).nodup_iff.mpr (nodup_cells rbNode_injective 0 nums)
    have enough : t.inorder.length ≤ nums.length := by
      rw [perm.length_eq, length_items]
    obtain ⟨t', empties, none⟩ := emptyTree_inorder b
      (k := { k with live := k.live ∪ cells t.inorder }) rfl distinct
      mem_live_cells enough
    refine ⟨t', t.inorder, none, perm, stable, ?_⟩
    rw [same]
    simp only [Option.bind_eq_bind, Option.bind_some, empties]
    rfl
  · right
    rw [allocate_eq, if_neg all]
    exact ⟨all, _, rfl⟩

section
variable {l : List Item}

theorem count_rbErase (c : Cell) (l : List Item) :
    (l.flatMap emptied).count (.rbErase c) = (l.map Item.cell).count c := by
  induction l with
  | nil => rfl
  | cons x l ih =>
    rw [List.flatMap_cons, List.count_append, ih, List.map_cons, List.count_cons, Nat.add_comm]
    simp [emptied, List.count_cons]

theorem count_kfree (c : Cell) (l : List Item) :
    (l.flatMap emptied).count (.kfree c) = (l.map Item.cell).count c := by
  induction l with
  | nil => rfl
  | cons x l ih =>
    rw [List.flatMap_cons, List.count_append, ih, List.map_cons, List.count_cons, Nat.add_comm]
    simp [emptied, List.count_cons]

theorem lines_emptied (l : List Item) :
    lines (l.flatMap emptied) = l.map fun x => .rbTree x.data := by
  induction l with
  | nil => rfl
  | cons x l ih =>
    rw [List.flatMap_cons, lines_append, ih, List.map_cons]
    rfl

/-- No node is read after it was erased or freed. -/
def NeverReadLater (events : List Event) : Prop :=
  events.Pairwise fun e e' => ∀ c, e = .rbErase c ∨ e = .kfree c → e' ≠ .read c

theorem neverReadLater_emptied (distinct : (l.map Item.cell).Nodup) :
    NeverReadLater (l.flatMap emptied) := by
  induction l with
  | nil => exact List.Pairwise.nil
  | cons x l ih =>
    obtain ⟨notLater, distinct⟩ := List.nodup_cons.mp distinct
    rw [NeverReadLater, List.flatMap_cons, List.pairwise_append]
    refine ⟨by simp [emptied], ih distinct, ?_⟩
    intro e mem e' mem' c gone same
    obtain ⟨y, there, shown⟩ := List.mem_flatMap.mp mem'
    have here : c = x.cell := by
      rcases gone with rfl | rfl <;> simpa [emptied] using mem
    have later : c = y.cell := by
      subst same
      simpa [emptied] using shown
    apply notLater
    rw [← here, later]
    exact List.mem_map_of_mem there

end

/-- The numbers are printed in order, equal ones as they came, and every node is erased and
freed once, after it has been read for the last time. -/
theorem play_rb_tree_sorts (b : Balance Item) (fails : Cell → Bool) (nums : List (BitVec 32))
    (succeed : ∀ i < nums.length, fails (.rbNode i) = false) (k : Kernel) :
    ∃ done events, ∃ order : List (BitVec 32 × Nat), playRbTree b fails nums k = some done ∧
      done.ret = 0 ∧ done.left.inorder = [] ∧ done.kernel.trace = k.trace ++ events ∧
      order.Perm nums.zipIdx ∧
      (order.Pairwise fun x y => x.1.toInt < y.1.toInt ∨ x.1 = y.1 ∧ x.2 < y.2) ∧
      done.kernel.printed = k.printed ++ order.map (fun x => .rbTree x.1) ∧
      (∀ i < nums.length, events.count (.rbErase (.rbNode i)) = 1 ∧
        events.count (.kfree (.rbNode i)) = 1 ∧ .rbNode i ∉ done.kernel.live) ∧
      NeverReadLater events := by
  have all := all_succeed succeed
  obtain ⟨_, t, order, none, perm, stable, done⟩ | ⟨failed, _⟩ := playRbTree_eq b fails nums k
  · have distinct : (order.map Item.cell).Nodup :=
      (perm.map Item.cell).nodup_iff.mpr (nodup_cells rbNode_injective 0 nums)
    refine ⟨_, order.flatMap emptied, order.map fun x => (x.data, x.cell.turn), done, rfl, none,
      rfl, ?_, ?_, ?_, ?_, neverReadLater_emptied distinct⟩
    · have turns : (items .rbNode 0 nums).map (fun x => (x.data, x.cell.turn)) = nums.zipIdx := by
        rw [items, List.map_map]
        exact List.map_id _
      rw [← turns]
      exact perm.map _
    · apply List.pairwise_map.mpr
      exact stable.imp fun order => order.imp id fun equal =>
        ⟨BitVec.eq_of_toInt_eq equal.1, equal.2⟩
    · rw [Kernel.printed, lines_append, lines_emptied, List.map_map]
      rfl
    · intro i small
      have here : .rbNode i ∈ order.map Item.cell :=
        List.mem_map.mpr ⟨_, perm.mem_iff.mpr (mem_items.mpr ⟨i, small, rfl⟩), rfl⟩
      rw [count_rbErase, count_kfree, List.count_eq_one_of_mem distinct here]
      refine ⟨rfl, rfl, fun live => ?_⟩
      exact (Finset.mem_sdiff.mp live).2 (List.mem_toFinset.mpr here)
  · exact (failed all).elim

theorem play_rb_tree_sorts_three : ∃ done events,
    playRbTree .unbalanced (fun _ => false) [3, -1, 3] ⟨∅, []⟩ = some done ∧
      done.kernel.trace = events ∧ NeverReadLater events ∧
      done.kernel.printed = [.rbTree (-1), .rbTree 3, .rbTree 3] := by
  obtain ⟨done, events, _, played, _, _, whole, _, _, _, _, later⟩ :=
    play_rb_tree_sorts .unbalanced (fun _ => false) [3, -1, 3] (fun _ _ => rfl) ⟨∅, []⟩
  have shown : (playRbTree .unbalanced (fun _ => false) [3, -1, 3] ⟨∅, []⟩).map
      (·.kernel.printed) = some [.rbTree (-1), .rbTree 3, .rbTree 3] := by decide +kernel
  rw [played] at shown
  exact ⟨done, events, played, whole, later, Option.some.inj shown⟩

end CSE306.KDS
