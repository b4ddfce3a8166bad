import Mathlib.Data.List.Nodup
import Mathlib.Logic.Function.Basic

/-! Rings of entries linked in both directions through a head, in memory that can become
invalid. Each operation is given with what it reads and writes, in order. -/
namespace CSE306.CircularList

/-- `struct list_head` -/
structure ListHead (P : Type) where
  next : P
  prev : P

/-- The list heads in memory. Other memory can neither be read nor written. -/
abbrev Memory (P : Type) := P → Option (ListHead P)

namespace Memory
variable {P : Type}

def next (m : Memory P) (p : P) : Option P := (m p).map ListHead.next

def prev (m : Memory P) (p : P) : Option P := (m p).map ListHead.prev

theorem isSome_of_next {m : Memory P} (next : m.next p = some q) : (m p).isSome := by
  obtain ⟨l, here, _⟩ := Option.map_eq_some_iff.mp next
  simp [here]

/-- The entries between `a` and `b`, in order, linked in both directions. -/
def Segment (m : Memory P) (a : P) : List P → P → Prop
  | [], b => m.next a = some b ∧ m.prev b = some a
  | x :: l, b => m.next a = some x ∧ m.prev x = some a ∧ Segment m x l b

/-- The last entry, or where the segment starts. -/
def lastOf (a : P) : List P → P
  | [] => a
  | x :: l => lastOf x l

/-- The first entry, or where the segment ends. -/
def firstOf (b : P) : List P → P
  | [] => b
  | x :: _ => x

theorem lastOf_mem (a : P) (l : List P) : lastOf a l ∈ a :: l := by
  induction l generalizing a with
  | nil => exact List.mem_singleton_self a
  | cons x l ih => exact List.mem_cons_of_mem a (ih x)

theorem firstOf_mem (b : P) (l : List P) : firstOf b l ∈ b :: l := by
  cases l with
  | nil => exact List.mem_singleton_self b
  | cons x l => exact List.mem_cons_of_mem b List.mem_cons_self

theorem lastOf_concat (a : P) (l : List P) (x : P) : lastOf a (l ++ [x]) = x := by
  induction l generalizing a with
  | nil => rfl
  | cons y l ih => exact ih y

namespace Segment
variable {m m' : Memory P}

theorem first (segment : m.Segment a l b) : m.next a = some (firstOf b l) := by
  cases l with
  | nil => exact segment.1
  | cons x l => exact segment.1

theorem last (segment : m.Segment a l b) : m.prev b = some (lastOf a l) := by
  induction l generalizing a with
  | nil => exact segment.2
  | cons x l ih => exact ih segment.2.2

theorem valid (segment : m.Segment a l b) : ∀ p ∈ a :: l, (m p).isSome := by
  induction l generalizing a with
  | nil =>
    intro p mem
    rw [List.mem_singleton.mp mem]
    exact isSome_of_next segment.1
  | cons x l ih =>
    intro p mem
    rcases List.mem_cons.mp mem with rfl | mem
    · exact isSome_of_next segment.1
    · exact ih segment.2.2 p mem

theorem congr (segment : m.Segment a l b) (next : ∀ p ∈ a :: l, m'.next p = m.next p)
    (prev : ∀ p, p ∈ l ∨ p = b → m'.prev p = m.prev p) : m'.Segment a l b := by
  induction l generalizing a with
  | nil =>
    obtain ⟨forth, back⟩ := segment
    exact ⟨(next a List.mem_cons_self).trans forth, (prev b (.inr rfl)).trans back⟩
  | cons x l ih =>
    obtain ⟨forth, back, rest⟩ := segment
    refine ⟨(next a List.mem_cons_self).trans forth, (prev x (.inl List.mem_cons_self)).trans back,
      ih rest (fun p mem => next p (List.mem_cons_of_mem a mem)) fun p mem => prev p ?_⟩
    exact mem.imp_left (List.mem_cons_of_mem x)

theorem split (segment : m.Segment a (l ++ x :: k) b) : m.Segment a l x ∧ m.Segment x k b := by
  induction l generalizing a with
  | nil => exact ⟨⟨segment.1, segment.2.1⟩, segment.2.2⟩
  | cons y l ih =>
    obtain ⟨before, after⟩ := ih segment.2.2
    exact ⟨⟨segment.1, segment.2.1, before⟩, after⟩

theorem redirect (segment : m.Segment a l b) (next : m'.next a' = some (firstOf b l))
    (prev : m'.prev (firstOf b l) = some a') (nexts : ∀ p ∈ l, m'.next p = m.next p)
    (prevs : ∀ p, p ∈ l ∨ p = b → p ≠ firstOf b l → m'.prev p = m.prev p)
    (distinct : (b :: l).Nodup) : m'.Segment a' l b := by
  obtain ⟨away, distinct⟩ := List.nodup_cons.mp distinct
  cases l with
  | nil => exact ⟨next, prev⟩
  | cons x l =>
    refine ⟨next, prev, segment.2.2.congr nexts fun p mem => ?_⟩
    refine prevs p (mem.imp_left (List.mem_cons_of_mem x)) ?_
    rintro rfl
    rcases mem with mem | rfl
    · exact (List.nodup_cons.mp distinct).1 mem
    · exact away List.mem_cons_self

/-- Two segments are joined without the entry between them. -/
theorem bypass (before : m.Segment a l x) (after : m.Segment x k b)
    (next : m'.next (lastOf a l) = some (firstOf b k))
    (prev : m'.prev (firstOf b k) = some (lastOf a l))
    (nexts : ∀ p, p ∈ a :: l ∨ p ∈ k → p ≠ lastOf a l → m'.next p = m.next p)
    (prevs : ∀ p, p ∈ l ∨ p ∈ k ∨ p = b → p ≠ firstOf b k → m'.prev p = m.prev p)
    (distinct : (a :: l).Nodup) (apart : ∀ p ∈ a :: l, p ∉ k) (distinct' : (b :: k).Nodup)
    (away : b ∉ l) : m'.Segment a (l ++ k) b := by
  induction l generalizing a with
  | nil =>
    refine after.redirect next prev (fun p mem => nexts p (.inr mem) ?_)
      (fun p mem => prevs p (.inr mem)) distinct'
    rintro rfl
    exact apart p List.mem_cons_self mem
  | cons y l ih =>
    obtain ⟨forth, back, rest⟩ := before
    obtain ⟨notLater, distinct⟩ := List.nodup_cons.mp distinct
    have notLast : a ≠ lastOf y l := fun same => notLater (same ▸ lastOf_mem y l)
    have notFirst : y ≠ firstOf b k := fun same => by
      rcases List.mem_cons.mp (firstOf_mem b k) with end_ | mem
      · exact away (by simp [same.trans end_])
      · exact apart y (by simp) (same ▸ mem)
    refine ⟨(nexts a (by simp) notLast).trans forth, (prevs y (by simp) notFirst).trans back, ?_⟩
    refine ih rest next prev (fun p mem => nexts p (mem.imp_left (List.mem_cons_of_mem a)))
      (fun p mem => prevs p (mem.imp_left (List.mem_cons_of_mem y))) distinct
      (fun p mem => apart p (List.mem_cons_of_mem a mem))
      fun mem => away (List.mem_cons_of_mem y mem)

end Segment

/-- The entries of a list, in order from the head on. -/
structure Ring (m : Memory P) (head : P) (l : List P) : Prop where
  links : m.Segment head l head
  nodup : (head :: l).Nodup

theorem Ring.congr {m m' : Memory P} (ring : m.Ring head l) (same : ∀ p ∈ head :: l, m' p = m p) :
    m'.Ring head l := by
  refine ⟨ring.links.congr (fun p mem => ?_) (fun p mem => ?_), ring.nodup⟩
  · rw [Memory.next, same p mem, ← Memory.next]
  · have known : p ∈ head :: l := by
      rcases mem with mem | rfl
      · exact List.mem_cons_of_mem _ mem
      · exact List.mem_cons_self
    rw [Memory.prev, same p known, ← Memory.prev]

/-- One memory after a write to another: the links there, and the rest as before. -/
structure Stores (m m' : Memory P) (p : P) (next prev : Option P) : Prop where
  next : m'.next p = next
  prev : m'.prev p = prev
  frame : ∀ q, q ≠ p → m' q = m q
  valid : ∀ q, (m' q).isSome = (m q).isSome

theorem Stores.next_of_ne {m m' : Memory P} (stores : m.Stores m' p a b) (other : q ≠ p) :
    m'.next q = m.next q := by
  rw [Memory.next, stores.frame q other, ← Memory.next]

theorem Stores.prev_of_ne {m m' : Memory P} (stores : m.Stores m' p a b) (other : q ≠ p) :
    m'.prev q = m.prev q := by
  rw [Memory.prev, stores.frame q other, ← Memory.prev]

variable [DecidableEq P]

def setNext (m : Memory P) (p q : P) : Option (Memory P) :=
  (m p).map fun l => Function.update m p (some { l with next := q })

def setPrev (m : Memory P) (p q : P) : Option (Memory P) :=
  (m p).map fun l => Function.update m p (some { l with prev := q })

/-- Memory that becomes valid with anything in it, or that is given back. -/
def replace (m : Memory P) (p : P) (contents : Option (ListHead P)) : Memory P :=
  Function.update m p contents

/-- `INIT_LIST_HEAD` -/
def initListHead (m : Memory P) (list : P) : Option (Memory P) := do
  let m ← m.setNext list list
  m.setPrev list list

/-- `list_add`, with the links written in the order of `__list_add` -/
def listAdd (m : Memory P) (new head : P) : Option (Memory P) := do
  let next ← m.next head
  let m ← m.setPrev next new
  let m ← m.setNext new next
  let m ← m.setPrev new head
  m.setNext head new

/-- `list_del`, which leaves two addresses in the entry that point to no memory -/
def listDel (poison : ListHead P) (m : Memory P) (entry : P) : Option (Memory P) := do
  let prev ← m.prev entry
  let next ← m.next entry
  let m ← m.setPrev next prev
  let m ← m.setNext prev next
  let m ← m.setNext entry poison.next
  m.setPrev entry poison.prev

theorem setNext_stores {m : Memory P} (valid : (m p).isSome) (q : P) :
    ∃ m', m.setNext p q = some m' ∧ m.Stores m' p (some q) (m.prev p) := by
  obtain ⟨l, here⟩ := Option.isSome_iff_exists.mp valid
  refine ⟨_, by rw [setNext, here]; rfl, ?_, ?_, ?_, ?_⟩
  · simp [Memory.next]
  · simp [Memory.prev, here]
  · exact fun r other => Function.update_of_ne other _ _
  · intro r
    by_cases same : r = p
    · simp [same, here]
    · simp [Function.update_of_ne same]

theorem setPrev_stores {m : Memory P} (valid : (m p).isSome) (q : P) :
    ∃ m', m.setPrev p q = some m' ∧ m.Stores m' p (m.next p) (some q) := by
  obtain ⟨l, here⟩ := Option.isSome_iff_exists.mp valid
  refine ⟨_, by rw [setPrev, here]; rfl, ?_, ?_, ?_, ?_⟩
  · simp [Memory.next, here]
  · simp [Memory.prev]
  · exact fun r other => Function.update_of_ne other _ _
  · intro r
    by_cases same : r = p
    · simp [same, here]
    · simp [Function.update_of_ne same]

theorem initListHead_stores {m : Memory P} (valid : (m p).isSome) :
    ∃ m', m.initListHead p = some m' ∧ m.Stores m' p (some p) (some p) := by
  obtain ⟨m₁, first, forth⟩ := setNext_stores valid p
  obtain ⟨m₂, second, back⟩ := setPrev_stores (m := m₁) (p := p) (by rw [forth.valid, valid]) p
  refine ⟨m₂, by simp [initListHead, first, second], by rw [back.next, forth.next], back.prev,
    ?_, ?_⟩
  · exact fun q other => (back.frame q other).trans (forth.frame q other)
  · exact fun q => (back.valid q).trans (forth.valid q)

/-- A new entry comes first. -/
theorem Ring.listAdd {m : Memory P} (ring : m.Ring head l) (fresh : new ∉ head :: l)
    (valid : (m new).isSome) : ∃ m', m.listAdd new head = some m' ∧ m'.Ring head (new :: l) ∧
      (∀ p, p ∉ head :: new :: l → m' p = m p) ∧ ∀ p, (m' p).isSome = (m p).isSome := by
  have known := firstOf_mem head l
  have apart : new ≠ firstOf head l := fun same => fresh (same ▸ known)
  have notHead : new ≠ head := fun same => fresh (same ▸ List.mem_cons_self)
  obtain ⟨m₁, first, s₁⟩ := setPrev_stores (ring.links.valid _ known) new
  obtain ⟨m₂, second, s₂⟩ := setNext_stores (m := m₁) (p := new) (by rw [s₁.valid, valid])
    (firstOf head l)
  obtain ⟨m₃, third, s₃⟩ := setPrev_stores (m := m₂) (p := new)
    (by rw [s₂.valid, s₁.valid, valid]) head
  obtain ⟨m₄, fourth, s₄⟩ := setNext_stores (m := m₃) (p := head)
    (by rw [s₃.valid, s₂.valid, s₁.valid, ring.links.valid head List.mem_cons_self]) new
  have nexts : ∀ p, p ≠ head → p ≠ new → m₄.next p = m.next p := by
    intro p other other'
    rw [s₄.next_of_ne other, s₃.next_of_ne other', s₂.next_of_ne other']
    by_cases same : p = firstOf head l
    · rw [same, s₁.next]
    · rw [s₁.next_of_ne same]
  have prevs : ∀ p, p ≠ firstOf head l → p ≠ new → m₄.prev p = m.prev p := by
    intro p other other'
    have kept : m₄.prev p = m₃.prev p := by
      by_cases same : p = head
      · rw [same, s₄.prev]
      · rw [s₄.prev_of_ne same]
    rw [kept, s₃.prev_of_ne other', s₂.prev_of_ne other', s₁.prev_of_ne other]
  refine ⟨m₄, by simp [Memory.listAdd, ring.links.first, first, second, third, fourth],
    ⟨⟨s₄.next, ?_, ring.links.redirect ?_ ?_ ?_ ?_ ring.nodup⟩, ?_⟩, ?_, ?_⟩
  · rw [s₄.prev_of_ne notHead, s₃.prev]
  · rw [s₄.next_of_ne notHead, s₃.next, s₂.next]
  · have kept : m₄.prev (firstOf head l) = m₃.prev (firstOf head l) := by
      by_cases same : firstOf head l = head
      · rw [same, s₄.prev]
      · rw [s₄.prev_of_ne same]
    rw [kept, s₃.prev_of_ne apart.symm, s₂.prev_of_ne apart.symm, s₁.prev]
  · intro p mem
    refine nexts p ?_ ?_
    · rintro rfl
      exact (List.nodup_cons.mp ring.nodup).1 mem
    · rintro rfl
      exact fresh (List.mem_cons_of_mem _ mem)
  · intro p mem other
    refine prevs p other ?_
    rintro rfl
    rcases mem with mem | rfl
    · exact fresh (List.mem_cons_of_mem _ mem)
    · exact notHead rfl
  · obtain ⟨away, distinct⟩ := List.nodup_cons.mp ring.nodup
    refine List.nodup_cons.mpr ⟨?_, List.nodup_cons.mpr ⟨?_, distinct⟩⟩
    · intro mem
      exact (List.mem_cons.mp mem).elim (fun same => notHead same.symm) away
    · exact fun mem => fresh (List.mem_cons_of_mem _ mem)
  · intro p away
    simp only [List.mem_cons, not_or] at away
    rw [s₄.frame p away.1, s₃.frame p away.2.1, s₂.frame p away.2.1, s₁.frame p]
    rintro rfl
    rcases List.mem_cons.mp known with same | mem
    · exact away.1 same
    · exact away.2.2 mem
  · intro p
    rw [s₄.valid, s₃.valid, s₂.valid, s₁.valid]

/-- An entry is taken out; its own links are gone, its memory is not. -/
theorem Ring.listDel {m : Memory P} (ring : m.Ring head (l ++ x :: k)) (poison : ListHead P) :
    ∃ m', m.listDel poison x = some m' ∧ m'.Ring head (l ++ k) ∧
      (∀ p, p ∉ head :: (l ++ x :: k) → m' p = m p) ∧ ∀ p, (m' p).isSome = (m p).isSome := by
  obtain ⟨before, after⟩ := ring.links.split
  obtain ⟨away, distinct⟩ := List.nodup_cons.mp ring.nodup
  obtain ⟨left, right, cross⟩ := List.nodup_append.mp distinct
  obtain ⟨notRight, right⟩ := List.nodup_cons.mp right
  have mem_left : lastOf head l ∈ head :: l := lastOf_mem head l
  have notLast : x ≠ lastOf head l := fun same => by
    rcases List.mem_cons.mp (same ▸ mem_left) with rfl | mem
    · exact away (by simp)
    · exact cross x mem x List.mem_cons_self rfl
  have notFirst : x ≠ firstOf head k := fun same => by
    rcases List.mem_cons.mp (firstOf_mem head k) with end_ | mem
    · exact away (by simp [same.trans end_])
    · exact notRight (same ▸ mem)
  have valid := ring.links.valid
  have validFirst : (m (firstOf head k)).isSome := by
    apply valid
    rcases List.mem_cons.mp (firstOf_mem head k) with end_ | mem
    · simp [end_]
    · simp [mem]
  have validLast : (m (lastOf head l)).isSome := by
    apply valid
    rcases List.mem_cons.mp mem_left with same | mem
    · simp [same]
    · simp [mem]
  have validSelf : (m x).isSome := valid x (by simp)
  obtain ⟨m₁, first, s₁⟩ := setPrev_stores validFirst (lastOf head l)
  obtain ⟨m₂, second, s₂⟩ := setNext_stores (m := m₁) (p := lastOf head l)
    (by rw [s₁.valid, validLast]) (firstOf head k)
  obtain ⟨m₃, third, s₃⟩ := setNext_stores (m := m₂) (p := x)
    (by rw [s₂.valid, s₁.valid, validSelf]) poison.next
  obtain ⟨m₄, fourth, s₄⟩ := setPrev_stores (m := m₃) (p := x)
    (by rw [s₃.valid, s₂.valid, s₁.valid, validSelf]) poison.prev
  have nexts : ∀ p, p ≠ x → p ≠ lastOf head l → m₄.next p = m.next p := by
    intro p other other'
    rw [s₄.next_of_ne other, s₃.next_of_ne other, s₂.next_of_ne other']
    by_cases same : p = firstOf head k
    · rw [same, s₁.next]
    · rw [s₁.next_of_ne same]
  have prevs : ∀ p, p ≠ x → p ≠ firstOf head k → m₄.prev p = m.prev p := by
    intro p other other'
    rw [s₄.prev_of_ne other, s₃.prev_of_ne other]
    have kept : m₂.prev p = m₁.prev p := by
      by_cases same : p = lastOf head l
      · rw [same, s₂.prev]
      · rw [s₂.prev_of_ne same]
    rw [kept, s₁.prev_of_ne other']
  refine ⟨m₄, by simp [Memory.listDel, before.last, after.first, first, second, third, fourth],
    ⟨before.bypass after ?_ ?_ ?_ ?_ ?_ ?_ ?_ ?_, ?_⟩, ?_, ?_⟩
  · rw [s₄.next_of_ne notLast.symm, s₃.next_of_ne notLast.symm, s₂.next]
  · rw [s₄.prev_of_ne notFirst.symm, s₃.prev_of_ne notFirst.symm]
    by_cases same : firstOf head k = lastOf head l
    · rw [same, s₂.prev, ← same, s₁.prev, same]
    · rw [s₂.prev_of_ne same, s₁.prev]
  · rintro p mem other
    refine nexts p ?_ other
    rintro rfl
    rcases mem with mem | mem
    · rcases List.mem_cons.mp mem with rfl | mem
      · exact away (by simp)
      · exact cross p mem p List.mem_cons_self rfl
    · exact notRight mem
  · rintro p mem other
    refine prevs p ?_ other
    rintro rfl
    rcases mem with mem | mem | rfl
    · exact cross p mem p List.mem_cons_self rfl
    · exact notRight mem
    · exact away (by simp)
  · exact List.nodup_cons.mpr ⟨fun mem => away (by simp [mem]), left⟩
  · intro p mem there
    rcases List.mem_cons.mp mem with rfl | mem
    · exact away (by simp [there])
    · exact cross p mem p (List.mem_cons_of_mem x there) rfl
  · exact List.nodup_cons.mpr ⟨fun mem => away (by simp [mem]), right⟩
  · exact fun mem => away (by simp [mem])
  · refine ring.nodup.sublist (List.Sublist.cons_cons head ?_)
    exact List.Sublist.append_left (List.sublist_cons_self x k) l
  · intro p outside
    simp only [List.mem_cons, List.mem_append, not_or] at outside
    rw [s₄.frame p outside.2.2.1, s₃.frame p outside.2.2.1, s₂.frame p, s₁.frame p]
    · rintro rfl
      rcases List.mem_cons.mp (firstOf_mem head k) with end_ | mem
      · exact outside.1 end_
      · exact outside.2.2.2 mem
    · rintro rfl
      rcases List.mem_cons.mp mem_left with same | mem
      · exact outside.1 same
      · exact outside.2.1 mem
  · intro p
    rw [s₄.valid, s₃.valid, s₂.valid, s₁.valid]

end Memory
end CSE306.CircularList
