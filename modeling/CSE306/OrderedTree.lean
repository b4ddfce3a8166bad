import Mathlib.Data.List.Basic
import Mathlib.Order.Lattice

/-! Binary trees ordered by a key that need not be unique. Rebalancing is a parameter:
it may colour and rotate a tree in any way that keeps the order of its entries. -/
namespace CSE306

inductive OrderedTree (α : Type) where
  | leaf
  | node (red : Bool) (left : OrderedTree α) (entry : α) (right : OrderedTree α)

namespace OrderedTree
variable {α β : Type}

def inorder : OrderedTree α → List α
  | .leaf => []
  | .node _ left x right => left.inorder ++ x :: right.inorder

@[simp] theorem inorder_leaf : (leaf : OrderedTree α).inorder = [] := rfl

@[simp] theorem inorder_node (red : Bool) (left right : OrderedTree α) (x : α) :
    (node red left x right).inorder = left.inorder ++ x :: right.inorder := rfl

/-- The entries come in the order of their keys. -/
def Sorted [LE β] (key : α → β) (t : OrderedTree α) : Prop :=
  t.inorder.Pairwise (key · ≤ key ·)

/-- How a tree is kept balanced after a change, and how an entry is taken out. -/
structure Balance (α : Type) [DecidableEq α] where
  insertColor : OrderedTree α → α → OrderedTree α
  erase : OrderedTree α → α → OrderedTree α
  inorder_insertColor : ∀ t x, (insertColor t x).inorder = t.inorder
  inorder_erase : ∀ t x, x ∈ t.inorder → (erase t x).inorder = t.inorder.erase x

section Unbalanced

/-- The tree with its root black. -/
def blacken : OrderedTree α → OrderedTree α
  | .leaf => .leaf
  | .node _ left x right => .node false left x right

def join : OrderedTree α → OrderedTree α → OrderedTree α
  | .leaf, t => t
  | .node red left x right, t => .node red left x (right.join t)

@[simp] theorem inorder_blacken (t : OrderedTree α) : t.blacken.inorder = t.inorder := by
  cases t <;> rfl

@[simp] theorem inorder_join (s t : OrderedTree α) :
    (s.join t).inorder = s.inorder ++ t.inorder := by
  induction s with
  | leaf => rfl
  | node red left x right _ ih => simp [join, ih]

variable [DecidableEq α]

def remove (x : α) : OrderedTree α → OrderedTree α
  | .leaf => .leaf
  | .node red left y right =>
    if x ∈ left.inorder then .node red (left.remove x) y right
    else if y = x then left.join right
    else .node red left y (right.remove x)

theorem inorder_remove (t : OrderedTree α) (x : α) : (t.remove x).inorder = t.inorder.erase x := by
  induction t with
  | leaf => rfl
  | node red left y right il ir =>
    unfold remove
    split
    · rename_i mem
      rw [inorder_node, inorder_node, il, List.erase_append_left _ mem]
    · rename_i missing
      rw [inorder_node, List.erase_append_right _ missing]
      split
      · rename_i here
        rw [here, List.erase_cons_head, inorder_join]
      · rename_i other
        rw [List.erase_cons_tail (by simpa using other), inorder_node, ir]

/-- The scheme that never rotates. On a tree of two levels there is nothing to rotate. -/
def Balance.unbalanced : Balance α where
  insertColor t _ := t.blacken
  erase t x := (t.remove x).blacken
  inorder_insertColor t _ := t.inorder_blacken
  inorder_erase t x _ := by rw [inorder_blacken, inorder_remove]

end Unbalanced

variable [LinearOrder β] (key : α → β)

/-- A new leaf behind all entries with a smaller or the same key. -/
def link (x : α) : OrderedTree α → OrderedTree α
  | .leaf => .node true .leaf x .leaf
  | .node red left y right =>
    if key x < key y then .node red (left.link x) y right else .node red left y (right.link x)

def insert [DecidableEq α] (b : Balance α) (t : OrderedTree α) (x : α) : OrderedTree α :=
  b.insertColor (t.link key x) x

/-- Linking puts the new entry somewhere and moves no other one. -/
theorem inorder_link (t : OrderedTree α) (x : α) :
    ∃ l r, t.inorder = l ++ r ∧ (t.link key x).inorder = l ++ x :: r := by
  induction t with
  | leaf => exact ⟨[], [], rfl, rfl⟩
  | node red left y right il ir =>
    unfold link
    split
    · obtain ⟨l, r, before, after⟩ := il
      exact ⟨l, r ++ y :: right.inorder, by simp [before], by simp [after]⟩
    · obtain ⟨l, r, before, after⟩ := ir
      exact ⟨left.inorder ++ y :: l, r, by simp [before], by simp [after]⟩

theorem mem_inorder_link {t : OrderedTree α} {x y : α} :
    y ∈ (t.link key x).inorder ↔ y = x ∨ y ∈ t.inorder := by
  obtain ⟨l, r, before, after⟩ := t.inorder_link key x
  rw [before, after]
  simp only [List.mem_append, List.mem_cons]
  tauto

theorem Sorted.link {t : OrderedTree α} (sorted : t.Sorted key) (x : α) :
    (t.link key x).Sorted key := by
  induction t with
  | leaf => exact List.pairwise_singleton _ _
  | node red left y right il ir =>
    obtain ⟨before, after, across⟩ := List.pairwise_append.mp sorted
    obtain ⟨bound, after⟩ := List.pairwise_cons.mp after
    unfold OrderedTree.link
    split
    · rename_i smaller
      refine List.pairwise_append.mpr ⟨il before, List.pairwise_cons.mpr ⟨bound, after⟩, ?_⟩
      intro a ha b hb
      rcases (mem_inorder_link key).mp ha with rfl | old
      · rcases List.mem_cons.mp hb with rfl | later
        · exact smaller.le
        · exact smaller.le.trans (bound b later)
      · exact across a old b hb
    · rename_i larger
      refine List.pairwise_append.mpr ⟨before, List.pairwise_cons.mpr ⟨?_, ir after⟩, ?_⟩
      · intro b hb
        rcases (mem_inorder_link key).mp hb with rfl | old
        · exact not_lt.mp larger
        · exact bound b old
      · intro a ha b hb
        have first := across a ha y List.mem_cons_self
        rcases List.mem_cons.mp hb with rfl | later
        · exact first
        · rcases (mem_inorder_link key).mp later with rfl | old
          · exact first.trans (not_lt.mp larger)
          · exact across a ha b (List.mem_cons_of_mem _ old)

variable [DecidableEq α] (b : Balance α)

theorem inorder_insert (t : OrderedTree α) (x : α) :
    ∃ l r, t.inorder = l ++ r ∧ (t.insert key b x).inorder = l ++ x :: r := by
  obtain ⟨l, r, before, after⟩ := t.inorder_link key x
  exact ⟨l, r, before, by rw [insert, b.inorder_insertColor, after]⟩

theorem Sorted.insert {t : OrderedTree α} (sorted : t.Sorted key) (x : α) :
    (t.insert key b x).Sorted key := by
  unfold Sorted OrderedTree.insert
  rw [b.inorder_insertColor]
  exact sorted.link key x

theorem Sorted.erase {t : OrderedTree α} (sorted : t.Sorted key) (mem : x ∈ t.inorder) :
    (b.erase t x).Sorted key := by
  unfold Sorted
  rw [b.inorder_erase t x mem]
  exact sorted.sublist List.erase_sublist

section Backwards
variable {α : Type} [DecidableEq α]

/-- The element that stands before `x`. -/
def before? (x : α) : List α → Option α
  | y :: z :: rest => if z = x then some y else before? x (z :: rest)
  | _ => none

/-- `rb_last` -/
def last? (t : OrderedTree α) : Option α := t.inorder.getLast?

/-- `rb_prev` -/
def prev? (t : OrderedTree α) (x : α) : Option α := before? x t.inorder

/-- At most `n` entries, going backwards. -/
def backwards (t : OrderedTree α) : Nat → Option α → List α
  | 0, _ => []
  | _ + 1, none => []
  | n + 1, some x => x :: t.backwards n (t.prev? x)

theorem before?_cons (missing : x ∉ l) (y : α) : before? x (y :: l) = none := by
  induction l generalizing y with
  | nil => rfl
  | cons z l ih =>
    rw [List.mem_cons, not_or] at missing
    rw [before?, if_neg (Ne.symm missing.1), ih missing.2]

theorem before?_append {l r : List α} (nodup : (l ++ x :: r).Nodup) :
    before? x (l ++ x :: r) = l.getLast? := by
  induction l with
  | nil => exact before?_cons (List.nodup_cons.mp nodup).1 x
  | cons y l ih =>
    cases l with
    | nil => simp [before?]
    | cons z l =>
      have other : z ≠ x := by
        rintro rfl
        simp at nodup
      have later := ih (List.nodup_cons.mp nodup).2
      rw [List.cons_append] at later
      rw [List.cons_append, List.cons_append, before?, if_neg other, later]
      simp

/-- Going back from the last entry visits the entries in reverse order. -/
theorem backwards_last (t : OrderedTree α) (nodup : t.inorder.Nodup) (n : Nat) :
    t.backwards n t.last? = t.inorder.reverse.take n := by
  have below : ∀ l r, t.inorder = l ++ r → t.backwards n l.getLast? = l.reverse.take n := by
    induction n with
    | zero => exact fun _ _ _ => rfl
    | succ n ih =>
      intro l r split
      rcases List.eq_nil_or_concat l with rfl | ⟨l, x, rfl⟩
      · rfl
      · rw [List.concat_eq_append] at split ⊢
        rw [List.append_assoc] at split
        have here : t.prev? x = l.getLast? := by
          rw [prev?, split]
          rw [split] at nodup
          exact before?_append nodup
        rw [List.getLast?_concat, backwards, here, ih l _ split]
        simp
  exact below _ [] (List.append_nil _).symm

end Backwards

section Stable
variable {α β : Type} [LinearOrder β] (key : α → β) (older : α → α → Prop)

/-- The entries come in the order of their keys, those with the same key from old to new. -/
def Stable (t : OrderedTree α) : Prop :=
  t.inorder.Pairwise fun x y => key x < key y ∨ key x = key y ∧ older x y

variable {key older} {t : OrderedTree α}

theorem Stable.sorted (stable : t.Stable key older) : t.Sorted key :=
  stable.imp fun order => order.elim le_of_lt fun same => same.1.le

/-- A new leaf comes after the entries with a smaller or the same key, and before all others. -/
theorem Sorted.inorder_link (sorted : t.Sorted key) (x : α) :
    ∃ l r, t.inorder = l ++ r ∧ (t.link key x).inorder = l ++ x :: r ∧
      (∀ y ∈ l, key y ≤ key x) ∧ ∀ y ∈ r, key x < key y := by
  induction t with
  | leaf => exact ⟨[], [], rfl, rfl, by simp, by simp⟩
  | node red left y right il ir =>
    obtain ⟨before, after, across⟩ := List.pairwise_append.mp sorted
    obtain ⟨bound, after⟩ := List.pairwise_cons.mp after
    unfold OrderedTree.link
    split
    · rename_i smaller
      obtain ⟨l, r, whole, linked, low, high⟩ := il before
      refine ⟨l, r ++ y :: right.inorder, by simp [whole], by simp [linked], low, ?_⟩
      intro z mem
      cases List.mem_append.mp mem with
      | inl here => exact high z here
      | inr here =>
        cases List.mem_cons.mp here with
        | inl same => exact same ▸ smaller
        | inr later => exact smaller.trans_le (bound z later)
    · rename_i larger
      obtain ⟨l, r, whole, linked, low, high⟩ := ir after
      refine ⟨left.inorder ++ y :: l, r, by simp [whole], by simp [linked], ?_, high⟩
      intro z mem
      cases List.mem_append.mp mem with
      | inl here => exact (across z here y List.mem_cons_self).trans (not_lt.mp larger)
      | inr here =>
        cases List.mem_cons.mp here with
        | inl same => exact same ▸ not_lt.mp larger
        | inr later => exact low z later

variable [DecidableEq α] (b : Balance α)

theorem perm_insert (t : OrderedTree α) (x : α) :
    (t.insert key b x).inorder.Perm (x :: t.inorder) := by
  obtain ⟨l, r, before, after⟩ := t.inorder_insert key b x
  rw [before, after]
  exact List.perm_middle

theorem Stable.insert (stable : t.Stable key older) (newest : ∀ y ∈ t.inorder, older y x) :
    (t.insert key b x).Stable key older := by
  obtain ⟨l, r, before, after, low, high⟩ := stable.sorted.inorder_link x
  unfold Stable OrderedTree.insert at *
  rw [before] at stable newest
  obtain ⟨left, right, across⟩ := List.pairwise_append.mp stable
  rw [b.inorder_insertColor, after]
  refine List.pairwise_append.mpr ⟨left, List.pairwise_cons.mpr ⟨?_, right⟩, ?_⟩
  · intro y mem
    exact .inl (high y mem)
  · intro y mem z mem'
    cases List.mem_cons.mp mem' with
    | inl same =>
      have old := newest y (List.mem_append_left r mem)
      rw [same]
      exact (low y mem).lt_or_eq.imp id fun keys => ⟨keys, old⟩
    | inr later => exact across y mem z later

/-- Insertion of several entries, the older ones first. -/
theorem Stable.foldl_insert (l : List α) (stable : t.Stable key older) (ages : l.Pairwise older)
    (newer : ∀ x ∈ l, ∀ y ∈ t.inorder, older y x) :
    (l.foldl (fun t x => t.insert key b x) t).Stable key older ∧
      (l.foldl (fun t x => t.insert key b x) t).inorder.Perm (l ++ t.inorder) := by
  induction l generalizing t with
  | nil => exact ⟨stable, List.Perm.refl _⟩
  | cons x l ih =>
    obtain ⟨first, ages⟩ := List.pairwise_cons.mp ages
    have inserted : (t.insert key b x).inorder.Perm (x :: t.inorder) := t.perm_insert b x
    have next := ih (stable.insert b (newer x List.mem_cons_self)) ages ?_
    · refine ⟨next.1, next.2.trans ((inserted.append_left l).trans ?_)⟩
      exact List.perm_middle
    · intro z mem y there
      cases List.mem_cons.mp (inserted.mem_iff.mp there) with
      | inl same => exact same ▸ first z mem
      | inr old => exact newer z (List.mem_cons_of_mem x mem) y old

end Stable

section Forwards
variable {α : Type} [DecidableEq α]

/-- The element that stands after `x`. -/
def after? (x : α) : List α → Option α
  | [] => none
  | y :: rest => if y = x then rest.head? else after? x rest

/-- `rb_first` -/
def first? (t : OrderedTree α) : Option α := t.inorder.head?

/-- `rb_next` -/
def next? (t : OrderedTree α) (x : α) : Option α := after? x t.inorder

theorem next?_first {t : OrderedTree α} (whole : t.inorder = x :: rest) :
    t.next? x = rest.head? := by
  rw [next?, whole, after?, if_pos rfl]

end Forwards

end OrderedTree
end CSE306
