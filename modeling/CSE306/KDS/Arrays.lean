import CSE306.KDS.Kernel
import CSE306.MarkedArray
import Mathlib.Algebra.Ring.Int.Parity
import Mathlib.Data.List.Sort

/-! The radix tree and the xarray of the numbers. In both, a number is its own index, and the
odd numbers are marked. They differ in what becomes of a number that is there already. -/
namespace CSE306.KDS
open MarkedArray

abbrev NumArray := MarkedArray Nat Item

/-- A number as an `unsigned long`. -/
def index (n : BitVec 32) : Nat := (n.signExtend 64).toNat

/-- `radix_tree_insert`, which fails where there is an entry. -/
def radixTreeInsert (t : NumArray) (x : Item) : NumArray := t.put (index x.data) x id

/-- `xa_store`, which replaces the entry. -/
def xaStore (t : NumArray) (x : Item) : NumArray := t.put (index x.data) x fun _ => x

/-- The condition under which a number is marked. -/
def isOdd (n : BitVec 32) : Bool := n.srem 2 = 1

/-- The loop that looks up each number, marks it if it is odd, and prints it. -/
def lookUpEach (line : BitVec 32 → Line) :
    List (BitVec 32) → Kernel → NumArray → Option (Kernel × NumArray)
  | [], k, t => some (k, t)
  | n :: rest, k, t => do
    let ret := t.lookup (index n)
    let t := if isOdd n then t.setMark (index n) else t
    let k ← k.printData line ret
    lookUpEach line rest k t

/-- The loop that deletes each number, and frees it. -/
def freeEach : List (BitVec 32) → Kernel → NumArray → Option (Kernel × NumArray)
  | [], k, t => some (k, t)
  | n :: rest, k, t => do
    let ret := t.lookup (index n)
    let k ← k.kfree (ret.map Item.cell)
    freeEach rest k (t.delete (index n))

def playRadixTree (fails : Cell → Bool) (nums : List (BitVec 32)) (k : Kernel) :
    Option (Done NumArray) := do
  match ← allocate fails .radixNum (fun t x => some (radixTreeInsert t x)) 0 nums k .empty with
  | (k, .error t) => return ⟨k, einval, t⟩
  | (k, .ok t) =>
    let (k, t) ← lookUpEach .radixTree nums k t
    match k.kmalloc fails .results with
    | (k, none) => return ⟨k, einval, t⟩
    | (k, some array) =>
      let k ← printEach .gangLookupTag (t.markedEntries.take nums.length) k
      let k ← k.kfree (some array)
      let (k, t) ← freeEach nums k t
      return ⟨k, 0, t⟩

def playXarray (fails : Cell → Bool) (nums : List (BitVec 32)) (k : Kernel) :
    Option (Done NumArray) := do
  match ← allocate fails .xarrayNum (fun t x => some (xaStore t x)) 0 nums k .empty with
  | (k, .error t) => return ⟨k, einval, t⟩
  | (k, .ok t) =>
    let (k, t) ← lookUpEach .xarray nums k t
    let k ← printEach .xaForEachMarked t.markedEntries k
    let (k, t) ← freeEach nums k t
    return ⟨k, 0, t⟩

theorem index_injective : Function.Injective index := by
  intro n m same
  have wide : n.signExtend 64 = m.signExtend 64 := BitVec.eq_of_toNat_eq same
  apply BitVec.eq_of_toInt_eq
  rw [← BitVec.toInt_signExtend_of_le (v := 64) (by decide), wide,
    BitVec.toInt_signExtend_of_le (by decide)]

/-- The entries of an array that the allocated numbers were put in, where the odd ones of
some numbers have been marked. -/
structure Filled (l : List Item) (looked : List (BitVec 32)) (t : NumArray) : Prop where
  held : ∀ s ∈ t.slots, s.entry ∈ l ∧ s.index = index s.entry.data
  marked : ∀ s ∈ t.slots, s.marked = true ↔ s.entry.data ∈ looked ∧ isOdd s.entry.data = true
  present : ∀ x ∈ l, ∃ s ∈ t.slots, s.index = index x.data

namespace Filled
variable {l : List Item} {looked nums : List (BitVec 32)} {t : NumArray} {x : Item}

theorem empty : Filled [] [] .empty where
  held s mem := by cases mem
  marked s mem := by cases mem
  present x mem := by cases mem

/-- A number that is put where there is one is dropped, or takes its place. -/
theorem put (filled : Filled l [] t) (x : Item) {occupied : Item → Item}
    (one : ∀ old, occupied old = old ∨ occupied old = x) :
    Filled (l ++ [x]) [] (t.put (index x.data) x occupied) where
  held s mem := by
    rcases mem_putSlot mem with rfl | old | ⟨old, there, here, rfl⟩
    · exact ⟨List.mem_append_right l List.mem_cons_self, rfl⟩
    · exact ⟨List.mem_append_left [x] (filled.held s old).1, (filled.held s old).2⟩
    · cases one old.entry with
      | inl same =>
        simp only [same]
        exact ⟨List.mem_append_left [x] (filled.held old there).1, (filled.held old there).2⟩
      | inr new =>
        simp only [new]
        exact ⟨List.mem_append_right l List.mem_cons_self, here⟩
  marked s mem := by
    have unmarked : s.marked ≠ true := by
      rcases mem_putSlot mem with rfl | old | ⟨old, there, _, rfl⟩
      · exact Bool.false_ne_true
      · simpa using filled.marked s old
      · simpa using filled.marked old there
    simp [unmarked]
  present y mem := by
    have old : y = x ∨ index y.data ∈ t.slots.map MarkedArray.Slot.index := by
      cases List.mem_append.mp mem with
      | inl old =>
        obtain ⟨s, there, same⟩ := filled.present y old
        exact .inr (List.mem_map.mpr ⟨s, there, same⟩)
      | inr new => exact .inl (List.mem_singleton.mp new)
    apply List.mem_map.mp
    exact (mem_map_index_putSlot _).mpr (old.imp (fun same => by rw [same]) id)

theorem foldl {add : NumArray → Item → NumArray}
    (keeps : ∀ {l t}, Filled l [] t → ∀ x, Filled (l ++ [x]) [] (add t x)) (later : List Item)
    (filled : Filled l [] t) : Filled (l ++ later) [] (later.foldl add t) := by
  induction later generalizing l t with
  | nil => rwa [List.append_nil]
  | cons x later ih =>
    have next := ih (keeps filled x)
    rwa [List.append_assoc] at next

theorem lookup (filled : Filled l looked t) (mem : x ∈ l) :
    ∃ s ∈ t.slots, t.lookup (index x.data) = some s.entry ∧ s.entry ∈ l ∧
      s.entry.data = x.data := by
  obtain ⟨s, there, same⟩ := filled.present x mem
  obtain ⟨held, own⟩ := filled.held s there
  exact ⟨s, there, by rw [← same, lookup_slot there], held, index_injective (own.symm.trans same)⟩

theorem lookUp (filled : Filled l looked t) (n : BitVec 32) :
    Filled l (looked ++ [n]) (if isOdd n then t.setMark (index n) else t) := by
  split
  · rename_i odd
    constructor
    · intro s mem
      obtain ⟨old, there, index, entry, _⟩ := mem_setMark mem
      rw [index, entry]
      exact filled.held old there
    · intro s mem
      obtain ⟨old, there, sameIndex, entry, marked⟩ := mem_setMark mem
      have here : s.index = index n ↔ old.entry.data = n := by
        rw [sameIndex, (filled.held old there).2]
        exact index_injective.eq_iff
      rw [marked, here, filled.marked old there, entry, List.mem_append, List.mem_singleton]
      constructor
      · rintro (⟨before, isOdd⟩ | rfl)
        · exact ⟨.inl before, isOdd⟩
        · exact ⟨.inr rfl, odd⟩
      · rintro ⟨before | now, isOdd⟩
        · exact .inl ⟨before, isOdd⟩
        · exact .inr now
    · intro x mem
      obtain ⟨s, there, same⟩ := filled.present x mem
      obtain ⟨s', there', same'⟩ := setMark_present there (index n)
      exact ⟨s', there', same'.trans same⟩
  · rename_i notOdd
    refine ⟨filled.held, fun s mem => ?_, filled.present⟩
    rw [filled.marked s mem, List.mem_append, List.mem_singleton]
    constructor
    · exact And.imp_left .inl
    · rintro ⟨before | rfl, isOdd⟩
      · exact ⟨before, isOdd⟩
      · exact (notOdd isOdd).elim

theorem slot_eq_of_cell (filled : Filled l looked t) (distinct : (l.map Item.cell).Nodup) :
    ∀ s ∈ t.slots, ∀ s' ∈ t.slots, s.entry.cell = s'.entry.cell → s = s' := by
  intro s mem s' mem' same
  obtain ⟨held, own⟩ := filled.held s mem
  obtain ⟨held', own'⟩ := filled.held s' mem'
  have entry := List.inj_on_of_nodup_map distinct held held' same
  exact slot_eq mem mem' (by rw [own, own', entry])

end Filled

section
variable {l : List Item} {looked : List (BitVec 32)} {t : NumArray} {k : Kernel}

theorem lookUpEach_eq (filled : Filled l looked t) (line : BitVec 32 → Line)
    (nums : List (BitVec 32)) (known : ∀ n ∈ nums, n ∈ l.map Item.data)
    (live : ∀ x ∈ l, x.cell ∈ k.live) :
    ∃ t', ∃ found : List Item, lookUpEach line nums k t =
        some ({ k with trace := k.trace ++ found.flatMap (shown line) }, t') ∧
      Filled l (looked ++ nums) t' ∧ found.map Item.data = nums := by
  induction nums generalizing looked t k with
  | nil =>
    refine ⟨t, [], ?_, by rwa [List.append_nil], rfl⟩
    rw [List.flatMap_nil, List.append_nil]
    rfl
  | cons n nums ih =>
    obtain ⟨here, later⟩ := List.forall_mem_cons.mp known
    obtain ⟨x, mem, rfl⟩ := List.mem_map.mp here
    obtain ⟨s, _, found, there, same⟩ := filled.lookup mem
    obtain ⟨t', rest, looked', filled', all⟩ := ih (k := { k with
      trace := k.trace ++ shown line s.entry }) (filled.lookUp x.data) later live
    refine ⟨t', s.entry :: rest, ?_, by rwa [List.append_assoc] at filled', ?_⟩
    · rw [lookUpEach, found, k.printData_live line (live s.entry there), List.flatMap_cons,
        ← List.append_assoc]
      exact looked'
    · rw [List.map_cons, all, same]

/-- Each entry at the index of one of the numbers is freed, when its number comes first. -/
theorem freeEach_eq (nums : List (BitVec 32))
    (one : ∀ s ∈ t.slots, ∀ s' ∈ t.slots, s.entry.cell = s'.entry.cell → s = s') :
    ∃ t', ∃ freed : List Cell, (∀ k : Kernel, (∀ s ∈ t.slots, s.entry.cell ∈ k.live) →
        freeEach nums k t =
          some (⟨k.live \ freed.toFinset, k.trace ++ freed.map .kfree⟩, t')) ∧ freed.Nodup ∧
      (∀ c, c ∈ freed ↔ ∃ s ∈ t.slots, s.entry.cell = c ∧ s.index ∈ nums.map index) ∧
      ∀ s, s ∈ t'.slots ↔ s ∈ t.slots ∧ s.index ∉ nums.map index := by
  induction nums generalizing t with
  | nil =>
    refine ⟨t, [], fun k _ => ?_, List.nodup_nil, by simp, by simp⟩
    rw [List.map_nil, List.append_nil, List.toFinset_nil, Finset.sdiff_empty]
    rfl
  | cons n nums ih =>
    have fewer : ∀ s ∈ (t.delete (index n)).slots, s ∈ t.slots := fun s mem => (mem_delete.mp mem).1
    obtain ⟨t', freed, freeing, nodup, which, slots⟩ := ih
      fun s mem s' mem' => one s (fewer s mem) s' (fewer s' mem')
    have left : ∀ s, s ∈ t'.slots ↔ s ∈ t.slots ∧ s.index ∉ (n :: nums).map index := by
      intro s
      rw [slots, mem_delete, List.map_cons, List.mem_cons, not_or, and_assoc]
    by_cases present : ∃ s ∈ t.slots, s.index = index n
    · obtain ⟨s, mem, here⟩ := present
      have other : ∀ s' ∈ (t.delete (index n)).slots, s'.entry.cell ≠ s.entry.cell := by
        intro s' mem' same
        apply (mem_delete.mp mem').2
        rw [one s' (fewer s' mem') s mem same, here]
      refine ⟨t', s.entry.cell :: freed, fun k live => ?_, ?_, ?_, left⟩
      · have rest := freeing ⟨k.live.erase s.entry.cell, k.trace ++ [.kfree s.entry.cell]⟩
          fun s' mem' => Finset.mem_erase.mpr ⟨other s' mem', live s' (fewer s' mem')⟩
        rw [freeEach, ← here, lookup_slot mem, here]
        simp only [Option.map_some, Kernel.kfree_live (live s mem), Option.bind_eq_bind,
          Option.bind_some, rest, sdiff_toFinset_cons, List.map_cons, List.append_assoc,
          List.singleton_append]
      · refine List.nodup_cons.mpr ⟨fun again => ?_, nodup⟩
        obtain ⟨s', mem', same, _⟩ := (which _).mp again
        exact other s' mem' same
      · intro c
        rw [List.mem_cons, which]
        constructor
        · rintro (rfl | ⟨s', mem', same, later⟩)
          · exact ⟨s, mem, rfl, here ▸ List.mem_cons_self⟩
          · exact ⟨s', fewer s' mem', same, List.mem_cons_of_mem _ later⟩
        · rintro ⟨s', mem', rfl, there⟩
          by_cases same : s'.index = index n
          · exact .inl (by rw [slot_eq mem' mem (same.trans here.symm)])
          · refine .inr ⟨s', mem_delete.mpr ⟨mem', same⟩, rfl, ?_⟩
            exact (List.mem_cons.mp there).resolve_left same
    · have absent : ∀ s ∈ t.slots, s.index ≠ index n := fun s mem same => present ⟨s, mem, same⟩
      refine ⟨t', freed, fun k live => ?_, nodup, ?_, left⟩
      · rw [freeEach, lookup_absent absent]
        exact freeing k fun s mem => live s (fewer s mem)
      · intro c
        rw [which]
        constructor
        · rintro ⟨s, mem, same, later⟩
          exact ⟨s, fewer s mem, same, List.mem_cons_of_mem _ later⟩
        · rintro ⟨s, mem, same, there⟩
          refine ⟨s, mem_delete.mpr ⟨mem, absent s mem⟩, same, ?_⟩
          exact (List.mem_cons.mp there).resolve_left (absent s mem)

/-- The marked entries, once all numbers have been looked up. -/
structure Marked (l : List Item) (marked : List Item) : Prop where
  held : ∀ x ∈ marked, x ∈ l
  ascending : (marked.map Item.data).Pairwise (index · < index ·)
  odd : ∀ n, n ∈ marked.map Item.data ↔ n ∈ l.map Item.data ∧ isOdd n = true

theorem Filled.markedEntries (filled : Filled l (l.map Item.data) t) :
    Marked l t.markedEntries where
  held x mem := by
    obtain ⟨s, there, rfl⟩ := List.mem_map.mp mem
    exact (filled.held s (List.mem_of_mem_filter there)).1
  ascending := by
    apply List.pairwise_map.mpr
    apply List.pairwise_map.mpr
    apply (t.ascending.sublist List.filter_sublist).imp_of_mem
    intro s s' mem mem' before
    rwa [← (filled.held s (List.mem_of_mem_filter mem)).2,
      ← (filled.held s' (List.mem_of_mem_filter mem')).2]
  odd n := by
    constructor
    · intro mem
      obtain ⟨x, entry, rfl⟩ := List.mem_map.mp mem
      obtain ⟨s, slot, rfl⟩ := List.mem_map.mp entry
      obtain ⟨there, marked⟩ := List.mem_filter.mp slot
      exact (filled.marked s there).mp marked
    · rintro ⟨mem, odd⟩
      obtain ⟨x, there, rfl⟩ := List.mem_map.mp mem
      obtain ⟨s, held, _, _, same⟩ := filled.lookup there
      have marked := (filled.marked s held).mpr (same.symm ▸ ⟨mem, odd⟩)
      exact List.mem_map.mpr
        ⟨s.entry, List.mem_map_of_mem (List.mem_filter.mpr ⟨held, marked⟩), same⟩

theorem Marked.length_le {marked : List Item} (all : Marked l marked) :
    marked.length ≤ l.length := by
  have distinct : (marked.map Item.data).Nodup :=
    all.ascending.imp fun before same => (same ▸ before).false
  have few := (distinct.subperm fun n mem => ((all.odd n).mp mem).1).length_le
  rwa [List.length_map, List.length_map] at few

/-- One of the allocated numbers that are equal. -/
structure OneOfEach (l : List Item) (kept : Finset Cell) : Prop where
  known : kept ⊆ cells l
  some : ∀ x ∈ l, ∃ y ∈ l, y.data = x.data ∧ y.cell ∈ kept
  one : ∀ x ∈ l, ∀ y ∈ l, x.data = y.data → x.cell ∈ kept → y.cell ∈ kept → x = y

theorem Filled.oneOfEach (filled : Filled l looked t) (distinct : (l.map Item.cell).Nodup)
    {kept : List Cell} (which : ∀ c, c ∈ kept ↔
      ∃ s ∈ t.slots, s.entry.cell = c ∧ s.index ∈ (l.map Item.data).map index) :
    OneOfEach l kept.toFinset where
  known c mem := by
    obtain ⟨s, there, same, _⟩ := (which c).mp (List.mem_toFinset.mp mem)
    exact mem_cells.mpr ⟨s.entry, (filled.held s there).1, same⟩
  some x mem := by
    obtain ⟨s, there, _, held, same⟩ := filled.lookup mem
    refine ⟨s.entry, held, same, ?_⟩
    have looked : s.index ∈ (l.map Item.data).map index := by
      rw [(filled.held s there).2, same]
      exact List.mem_map_of_mem (List.mem_map_of_mem mem)
    exact List.mem_toFinset.mpr ((which _).mpr ⟨s, there, rfl, looked⟩)
  one x mem y mem' same kept kept' := by
    rw [List.mem_toFinset, which] at kept kept'
    obtain ⟨s, there, here, _⟩ := kept
    obtain ⟨s', there', here', _⟩ := kept'
    have entry := List.inj_on_of_nodup_map distinct (filled.held s there).1 mem here
    have entry' := List.inj_on_of_nodup_map distinct (filled.held s' there').1 mem' here'
    subst entry entry'
    have slot := slot_eq there there' (by
      rw [(filled.held s there).2, (filled.held s' there').2, same])
    rw [slot]

theorem OneOfEach.all_iff {kept : Finset Cell} (each : OneOfEach l kept)
    (distinct : (l.map Item.cell).Nodup) :
    (∀ x ∈ l, x.cell ∈ kept) ↔ (l.map Item.data).Nodup := by
  rw [List.nodup_map_iff_inj_on (List.Nodup.of_map _ distinct)]
  constructor
  · intro all x mem y mem' same
    exact each.one x mem y mem' same (all x mem) (all y mem')
  · intro inj x mem
    obtain ⟨y, mem', same, kept⟩ := each.some x mem
    rwa [inj y mem' x mem same] at kept

/-- What a function has done that allocated these numbers, printed them and the odd ones, and
freed those that it found. -/
structure Completes (l : List Item) (look mark : BitVec 32 → Line) (scratch : Finset Cell)
    (k : Kernel) (done : Done NumArray) : Prop where
  ret : done.ret = 0
  emptied : done.left.slots = []
  passes : ∃ marked, ∃ kept : Finset Cell, ∃ events, Marked l marked ∧ OneOfEach l kept ∧
    done.kernel = ⟨((k.live ∪ cells l) \ scratch) \ kept, k.trace ++ events⟩ ∧
    lines events = (l.map Item.data).map look ++ (marked.map Item.data).map mark ∧
    ∀ x ∈ l, events.count (.kfree x.cell) = if x.cell ∈ kept then 1 else 0

theorem count_kfree_passes (look mark : BitVec 32 → Line) (found marked : List Item)
    {between : List Event} (other : between.count (.kfree c) = 0) {freed : List Cell}
    (nodup : freed.Nodup) :
    (found.flatMap (shown look) ++ marked.flatMap (shown mark) ++ between ++
      freed.map Event.kfree).count (.kfree c) = if c ∈ freed.toFinset then 1 else 0 := by
  have once : (freed.map Event.kfree).count (.kfree c) = freed.count c :=
    List.count_map_of_injective freed Event.kfree (fun _ _ same => by cases same; rfl) c
  rw [List.count_append, List.count_append, List.count_append, count_kfree_shown,
    count_kfree_shown, other, once, nodup.count]
  simp

theorem lines_passes (look mark : BitVec 32 → Line) (found marked : List Item)
    {between : List Event} (quiet : lines between = []) (freed : List Cell) :
    lines (found.flatMap (shown look) ++ marked.flatMap (shown mark) ++ between ++
      freed.map Event.kfree) =
        (found.map Item.data).map look ++ (marked.map Item.data).map mark := by
  rw [lines_append, lines_append, lines_append, lines_shown, lines_shown, quiet, lines_kfree,
    List.append_nil, List.append_nil]

theorem completes_of {found marked : List Item} {freed : List Cell} (look mark : BitVec 32 → Line)
    (scratch : Finset Cell) (between : List Event) (k : Kernel) (none : t.slots = [])
    (all : found.map Item.data = l.map Item.data) (odd : Marked l marked)
    (each : OneOfEach l freed.toFinset) (nodup : freed.Nodup) (quiet : lines between = [])
    (other : ∀ x ∈ l, between.count (.kfree x.cell) = 0) :
    Completes l look mark scratch k ⟨⟨((k.live ∪ cells l) \ scratch) \ freed.toFinset,
      k.trace ++ (found.flatMap (shown look) ++ marked.flatMap (shown mark) ++ between ++
        freed.map Event.kfree)⟩, 0, t⟩ where
  ret := rfl
  emptied := none
  passes := ⟨marked, freed.toFinset, _, odd, each, rfl,
    by rw [lines_passes look mark found marked quiet, all],
    fun x mem => count_kfree_passes look mark found marked (other x mem) nodup⟩

theorem Filled.none_left (filled : Filled l looked t) {left : List (MarkedArray.Slot Nat Item)}
    (slots : ∀ s, s ∈ left ↔ s ∈ t.slots ∧ s.index ∉ (l.map Item.data).map index) :
    left = [] := by
  apply List.eq_nil_iff_forall_not_mem.mpr
  intro s mem
  obtain ⟨there, other⟩ := (slots s).mp mem
  obtain ⟨held, own⟩ := filled.held s there
  rw [own] at other
  exact other (List.mem_map_of_mem (List.mem_map_of_mem held))

/-- The three loops after the allocations, with what the kernel does between them. -/
theorem Filled.passes (filled : Filled l [] t) (distinct : (l.map Item.cell).Nodup)
    (look mark : BitVec 32 → Line) (live : ∀ x ∈ l, x.cell ∈ k.live) :
    ∃ t1 t2, ∃ found : List Item, ∃ freed : List Cell,
      lookUpEach look (l.map Item.data) k t =
        some ({ k with trace := k.trace ++ found.flatMap (shown look) }, t1) ∧
      found.map Item.data = l.map Item.data ∧ Marked l t1.markedEntries ∧
      (∀ k : Kernel, (∀ x ∈ l, x.cell ∈ k.live) → printEach mark t1.markedEntries k =
        some { k with trace := k.trace ++ t1.markedEntries.flatMap (shown mark) }) ∧
      (∀ k : Kernel, (∀ x ∈ l, x.cell ∈ k.live) → freeEach (l.map Item.data) k t1 =
        some (⟨k.live \ freed.toFinset, k.trace ++ freed.map .kfree⟩, t2)) ∧
      freed.Nodup ∧ OneOfEach l freed.toFinset ∧ t2.slots = [] := by
  obtain ⟨t1, found, looked, filled, all⟩ :=
    lookUpEach_eq filled look (l.map Item.data) (fun n mem => mem) live
  have marked := filled.markedEntries
  obtain ⟨t2, freed, freeing, nodup, which, slots⟩ :=
    freeEach_eq (l.map Item.data) (filled.slot_eq_of_cell distinct)
  refine ⟨t1, t2, found, freed, looked, all, marked, fun k live => ?_, fun k live => ?_, nodup,
    filled.oneOfEach distinct which, filled.none_left slots⟩
  · exact printEach_eq mark _ fun x mem => live x (marked.held x mem)
  · exact freeing k fun s mem => live s.entry (filled.held s mem).1

end

section
variable {fails : Cell → Bool} {nums : List (BitVec 32)}

theorem radixNum_injective : Function.Injective Cell.radixNum := fun _ _ same => by cases same; rfl

theorem xarrayNum_injective : Function.Injective Cell.xarrayNum :=
  fun _ _ same => by cases same; rfl

theorem filled_radix (nums : List (BitVec 32)) :
    Filled (items .radixNum 0 nums) [] ((items .radixNum 0 nums).foldl radixTreeInsert .empty) :=
  Filled.foldl (fun filled x => filled.put x fun _ => .inl rfl) _ .empty

theorem filled_xarray (nums : List (BitVec 32)) :
    Filled (items .xarrayNum 0 nums) [] ((items .xarrayNum 0 nums).foldl xaStore .empty) :=
  Filled.foldl (fun filled x => filled.put x fun _ => .inr rfl) _ .empty

theorem playRadixTree_completes (all : ∀ x ∈ items .radixNum 0 nums, fails x.cell = false)
    (array : fails .results = false) (k : Kernel) : ∃ done, playRadixTree fails nums k = some done ∧
      Completes (items .radixNum 0 nums) .radixTree .gangLookupTag {.results} k done := by
  have data := map_data_items .radixNum 0 nums
  have length := length_items .radixNum 0 nums
  have apart : ∀ x ∈ items .radixNum 0 nums, x.cell ≠ .results := by
    intro x mem same
    obtain ⟨i, _, rfl⟩ := mem_items.mp mem
    cases same
  obtain ⟨t1, t2, found, freed, looked, foundAll, marked, printed, freeing, nodup, each, none⟩ :=
    (filled_radix nums).passes (nodup_cells radixNum_injective 0 nums) .radixTree .gangLookupTag
      (k := { k with live := k.live ∪ cells (items .radixNum 0 nums) }) mem_live_cells
  rw [data] at looked freeing
  rw [playRadixTree, allocate_all radixTreeInsert all]
  generalize items .radixNum 0 nums = l at *
  have short : t1.markedEntries.take nums.length = t1.markedEntries :=
    List.take_of_length_le (length ▸ marked.length_le)
  refine ⟨_, ?_, completes_of .radixTree .gangLookupTag {.results} [.kfree .results] k
    none foundAll marked each nodup rfl ?_⟩
  · have live : ∀ x ∈ l, x.cell ∈ (k.live ∪ cells l) ∪ {.results} :=
      fun x mem => Finset.mem_union_left _ (mem_live_cells x mem)
    simp only [Option.bind_eq_bind, Option.bind_some, looked, Kernel.kmalloc_succeeds array, short]
    rw [printed _ live]
    simp only [Option.bind_some]
    rw [Kernel.kfree_live (Finset.mem_union_right _ (Finset.mem_singleton_self _))]
    simp only [Option.bind_some]
    rw [freeing _ fun x mem => Finset.mem_erase.mpr ⟨apart x mem, live x mem⟩]
    have erased : ((k.live ∪ cells l) ∪ {.results}).erase .results =
        (k.live ∪ cells l) \ {.results} := by
      rw [Finset.erase_eq, Finset.union_sdiff_right]
    simp only [Option.bind_some, erased, List.append_assoc]
    rfl
  · intro x mem
    simp [Ne.symm (apart x mem)]

theorem playXarray_completes (all : ∀ x ∈ items .xarrayNum 0 nums, fails x.cell = false)
    (k : Kernel) : ∃ done, playXarray fails nums k = some done ∧
      Completes (items .xarrayNum 0 nums) .xarray .xaForEachMarked ∅ k done := by
  have data := map_data_items .xarrayNum 0 nums
  obtain ⟨t1, t2, found, freed, looked, foundAll, marked, printed, freeing, nodup, each, none⟩ :=
    (filled_xarray nums).passes (nodup_cells xarrayNum_injective 0 nums) .xarray .xaForEachMarked
      (k := { k with live := k.live ∪ cells (items .xarrayNum 0 nums) }) mem_live_cells
  rw [data] at looked freeing
  rw [playXarray, allocate_all xaStore all]
  generalize items .xarrayNum 0 nums = l at *
  refine ⟨_, ?_, completes_of .xarray .xaForEachMarked ∅ [] k none foundAll marked each nodup
    rfl fun x _ => List.count_nil⟩
  simp only [Option.bind_eq_bind, Option.bind_some, looked]
  rw [printed _ mem_live_cells]
  simp only [Option.bind_some]
  rw [freeing _ mem_live_cells]
  simp only [Option.bind_some, Finset.sdiff_empty, List.append_nil, List.append_assoc]
  rfl

theorem playRadixTree_without_results (all : ∀ x ∈ items .radixNum 0 nums, fails x.cell = false)
    (array : fails .results = true) (k : Kernel) : ∃ trace t, playRadixTree fails nums k =
      some ⟨⟨k.live ∪ cells (items .radixNum 0 nums), trace⟩, einval, t⟩ := by
  obtain ⟨t1, _, found, _, looked, _⟩ :=
    (filled_radix nums).passes (nodup_cells radixNum_injective 0 nums) .radixTree .gangLookupTag
      (k := { k with live := k.live ∪ cells (items .radixNum 0 nums) }) mem_live_cells
  rw [map_data_items] at looked
  refine ⟨k.trace ++ found.flatMap (shown .radixTree), t1, ?_⟩
  rw [playRadixTree, allocate_all radixTreeInsert all]
  simp only [Option.bind_eq_bind, Option.bind_some, looked, Kernel.kmalloc_fails array]
  rfl

theorem playRadixTree_stops (some_ : ¬ ∀ x ∈ items .radixNum 0 nums, fails x.cell = false)
    (k : Kernel) : ∃ t, playRadixTree fails nums k = some ⟨{ k with
      live := k.live ∪ cells (allocated fails (items .radixNum 0 nums)) }, einval, t⟩ := by
  rw [playRadixTree, allocate_eq, if_neg some_]
  exact ⟨_, rfl⟩

theorem playXarray_stops (some_ : ¬ ∀ x ∈ items .xarrayNum 0 nums, fails x.cell = false)
    (k : Kernel) : ∃ t, playXarray fails nums k = some ⟨{ k with
      live := k.live ∪ cells (allocated fails (items .xarrayNum 0 nums)) }, einval, t⟩ := by
  rw [playXarray, allocate_eq, if_neg some_]
  exact ⟨_, rfl⟩

theorem Marked.unique {l l' marked marked' : List Item} (same : l.map Item.data = l'.map Item.data)
    (all : Marked l marked) (all' : Marked l' marked') :
    marked.map Item.data = marked'.map Item.data := by
  have irrefl : Std.Irrefl fun n m => index n < index m := ⟨fun n => lt_irrefl (index n)⟩
  have antisymm : Std.Antisymm fun n m => index n < index m :=
    ⟨fun n m before after => (lt_asymm before after).elim⟩
  refine List.Pairwise.eq_of_mem_iff all.ascending all'.ascending fun n => ?_
  rw [all.odd, all'.odd, same]

/-- The remainder of a negative number is not positive, so that 1 means positive and odd. -/
theorem isOdd_iff (n : BitVec 32) : isOdd n = true ↔ Odd n.toInt ∧ 0 ≤ n.toInt := by
  have one : n.srem 2 = 1 ↔ n.toInt.tmod 2 = 1 := by
    rw [← BitVec.toInt_inj, BitVec.toInt_srem]
    rfl
  rw [isOdd, decide_eq_true_eq, one, Int.odd_iff, Int.tmod_eq_emod]
  split <;> omega

end

/-- Both functions print the same numbers, whichever of two equal numbers each keeps. -/
theorem radix_tree_and_xarray_agree (fails : Cell → Bool) (nums : List (BitVec 32))
    (radix : ∀ i < nums.length, fails (.radixNum i) = false) (array : fails .results = false)
    (xarray : ∀ i < nums.length, fails (.xarrayNum i) = false) (k k' : Kernel) :
    ∃ done done' shown shown', playRadixTree fails nums k = some done ∧
      playXarray fails nums k' = some done' ∧ done.kernel.printed = k.printed ++ shown ∧
      done'.kernel.printed = k'.printed ++ shown' ∧
      shown.map Line.number = shown'.map Line.number := by
  obtain ⟨done, played, _, _, marked, _, events, all, _, kernel, shown, _⟩ :=
    playRadixTree_completes (all_succeed radix) array k
  obtain ⟨done', played', _, _, marked', _, events', all', _, kernel', shown', _⟩ :=
    playXarray_completes (all_succeed xarray) k'
  refine ⟨done, done', _, _, played, played', by rw [kernel]; exact lines_append .., by
    rw [kernel']; exact lines_append .., ?_⟩
  have same : (items .radixNum 0 nums).map Item.data = (items .xarrayNum 0 nums).map Item.data := by
    rw [map_data_items, map_data_items]
  have numbers : ∀ (l m : List (BitVec 32)) (look mark : BitVec 32 → Line),
      (∀ n, (look n).number = n) → (∀ n, (mark n).number = n) →
      (l.map look ++ m.map mark).map Line.number = l ++ m := by
    intro l m look mark look' mark'
    rw [List.map_append, List.map_map, List.map_map]
    exact congrArg₂ _ ((List.map_congr_left fun n _ => look' n).trans (List.map_id l))
      ((List.map_congr_left fun n _ => mark' n).trans (List.map_id m))
  rw [shown, shown', numbers _ _ _ _ (fun _ => rfl) (fun _ => rfl),
    numbers _ _ _ _ (fun _ => rfl) (fun _ => rfl), same, all.unique same all']

theorem radix_tree_and_xarray_agree_three : ∃ done done' shown shown',
    playRadixTree (fun _ => false) [3, -1, 3] ⟨∅, []⟩ = some done ∧
      playXarray (fun _ => false) [3, -1, 3] ⟨∅, []⟩ = some done' ∧
      done.kernel.printed = shown ∧ done'.kernel.printed = shown' ∧
      shown.map Line.number = shown'.map Line.number :=
  radix_tree_and_xarray_agree (fun _ => false) [3, -1, 3] (fun _ _ => rfl) rfl (fun _ _ => rfl)
    ⟨∅, []⟩ ⟨∅, []⟩

/-- The distinct odd numbers, in ascending order of their indices. -/
structure AscendingOdds (nums odds : List (BitVec 32)) : Prop where
  ascending : odds.Pairwise (index · < index ·)
  mem : ∀ n, n ∈ odds ↔ n ∈ nums ∧ Odd n.toInt

theorem Marked.ascendingOdds_iff {l marked : List Item} (all : Marked l marked) :
    AscendingOdds (l.map Item.data) (marked.map Item.data) ↔
      ∀ n ∈ l.map Item.data, Odd n.toInt → 0 ≤ n.toInt := by
  constructor
  · intro odds n mem odd
    have marked := (odds.mem n).mpr ⟨mem, odd⟩
    exact ((isOdd_iff n).mp ((all.odd n).mp marked).2).2
  · intro positive
    refine ⟨all.ascending, fun n => ?_⟩
    rw [all.odd, isOdd_iff]
    constructor
    · rintro ⟨mem, odd, _⟩
      exact ⟨mem, odd⟩
    · rintro ⟨mem, odd⟩
      exact ⟨mem, odd, positive n mem odd⟩

theorem Completes.odds {l : List Item} {look mark : BitVec 32 → Line}
    (completes : Completes l look mark scratch k done) : ∃ odds,
      done.kernel.printed = k.printed ++ (l.map Item.data).map look ++ odds.map mark ∧
      (AscendingOdds (l.map Item.data) odds ↔
        ∀ n ∈ l.map Item.data, Odd n.toInt → 0 ≤ n.toInt) := by
  obtain ⟨_, _, marked, _, events, all, _, kernel, shown, _⟩ := completes
  refine ⟨marked.map Item.data, ?_, all.ascendingOdds_iff⟩
  rw [kernel, Kernel.printed, lines_append, shown, List.append_assoc]
  rfl

/-- The second pass of each function prints the odd numbers where none of them is negative. -/
theorem odd_numbers_printed_iff (fails : Cell → Bool) (nums : List (BitVec 32))
    (radix : ∀ i < nums.length, fails (.radixNum i) = false) (array : fails .results = false)
    (xarray : ∀ i < nums.length, fails (.xarrayNum i) = false) (k : Kernel) :
    (∃ done odds, playRadixTree fails nums k = some done ∧
      done.kernel.printed = k.printed ++ nums.map .radixTree ++ odds.map .gangLookupTag ∧
      (AscendingOdds nums odds ↔ ∀ n ∈ nums, Odd n.toInt → 0 ≤ n.toInt)) ∧
    ∃ done odds, playXarray fails nums k = some done ∧
      done.kernel.printed = k.printed ++ nums.map .xarray ++ odds.map .xaForEachMarked ∧
      (AscendingOdds nums odds ↔ ∀ n ∈ nums, Odd n.toInt → 0 ≤ n.toInt) := by
  constructor
  · obtain ⟨done, played, completes⟩ := playRadixTree_completes (all_succeed radix) array k
    obtain ⟨odds, printed⟩ := completes.odds
    rw [map_data_items] at printed
    exact ⟨done, odds, played, printed⟩
  · obtain ⟨done, played, completes⟩ := playXarray_completes (all_succeed xarray) k
    obtain ⟨odds, printed⟩ := completes.odds
    rw [map_data_items] at printed
    exact ⟨done, odds, played, printed⟩

theorem odd_numbers_printed_iff_four :
    (∃ done odds, playRadixTree (fun _ => false) [7, -4, 3, 7] ⟨∅, []⟩ = some done ∧
      done.kernel.printed = [7, -4, 3, 7].map .radixTree ++ odds.map .gangLookupTag ∧
      AscendingOdds [7, -4, 3, 7] odds) ∧
    ∃ done odds, playXarray (fun _ => false) [7, -4, 3, 7] ⟨∅, []⟩ = some done ∧
      done.kernel.printed = [7, -4, 3, 7].map .xarray ++ odds.map .xaForEachMarked ∧
      AscendingOdds [7, -4, 3, 7] odds := by
  have positive : ∀ n ∈ ([7, -4, 3, 7] : List (BitVec 32)), Odd n.toInt → 0 ≤ n.toInt := by
    simp [Int.odd_iff]
  obtain ⟨⟨done, odds, played, printed, iff⟩, done', odds', played', printed', iff'⟩ :=
    odd_numbers_printed_iff (fun _ => false) [7, -4, 3, 7] (fun _ _ => rfl) rfl (fun _ _ => rfl)
      ⟨∅, []⟩
  exact ⟨⟨done, odds, played, printed, iff.mpr positive⟩, done', odds', played', printed',
    iff'.mpr positive⟩

/-- `-3 % 2` is -1, so that -3 is not marked. -/
theorem odd_number_not_printed :
    ∃ done done', playRadixTree (fun _ => false) [-3] ⟨∅, []⟩ = some done ∧
      playXarray (fun _ => false) [-3] ⟨∅, []⟩ = some done' ∧
      done.kernel.printed = [.radixTree (-3)] ∧ done'.kernel.printed = [.xarray (-3)] ∧
      ¬ AscendingOdds [-3] [] := by
  have radix : (playRadixTree (fun _ => false) [-3] ⟨∅, []⟩).map (·.kernel.printed) =
      some [.radixTree (-3)] := by decide +kernel
  have xarray : (playXarray (fun _ => false) [-3] ⟨∅, []⟩).map (·.kernel.printed) =
      some [.xarray (-3)] := by decide +kernel
  obtain ⟨done, played, printed⟩ := Option.map_eq_some_iff.mp radix
  obtain ⟨done', played', printed'⟩ := Option.map_eq_some_iff.mp xarray
  refine ⟨done, done', played, played', printed, printed', fun odds => ?_⟩
  have there := (odds.mem (-3)).mpr ⟨List.mem_singleton_self _, by decide⟩
  cases there

/-- All numbers that were allocated have been freed, each of them once. -/
def FreesEach (cell : Nat → Cell) (nums : List (BitVec 32)) (events : List Event)
    (live : Finset Cell) : Prop :=
  ∀ i < nums.length, events.count (.kfree (cell i)) = 1 ∧ cell i ∉ live

theorem Completes.freesEach_iff {cell : Nat → Cell} {nums : List (BitVec 32)}
    (distinct : Function.Injective cell)
    (completes : Completes (items cell 0 nums) look mark scratch k done) : ∃ events,
      done.kernel.trace = k.trace ++ events ∧ done.left.slots = [] ∧
      (FreesEach cell nums events done.kernel.live ↔ nums.Nodup) := by
  obtain ⟨_, empty, _, kept, events, _, each, kernel, _, count⟩ := completes
  refine ⟨events, by rw [kernel], empty, ?_⟩
  have all := each.all_iff (nodup_cells distinct 0 nums)
  rw [map_data_items] at all
  rw [← all, kernel]
  constructor
  · intro frees x mem
    obtain ⟨i, small, rfl⟩ := mem_items.mp mem
    have once := (frees i small).1
    rw [count _ mem] at once
    by_contra lost
    rw [if_neg lost] at once
    contradiction
  · intro all i small
    have mem : ⟨cell i, nums[i]⟩ ∈ items cell 0 nums := mem_items.mpr ⟨i, small, rfl⟩
    refine ⟨?_, fun live => (Finset.mem_sdiff.mp live).2 (all _ mem)⟩
    rw [count _ mem, if_pos (all _ mem)]

/-- Both functions empty their arrays. Of equal numbers they free one. -/
theorem numbers_freed_iff (fails : Cell → Bool) (nums : List (BitVec 32))
    (radix : ∀ i < nums.length, fails (.radixNum i) = false) (array : fails .results = false)
    (xarray : ∀ i < nums.length, fails (.xarrayNum i) = false) (k : Kernel) :
    (∃ done events, playRadixTree fails nums k = some done ∧
      done.kernel.trace = k.trace ++ events ∧
      (FreesEach .radixNum nums events done.kernel.live ∧ done.left.slots = [] ↔ nums.Nodup)) ∧
    ∃ done events, playXarray fails nums k = some done ∧
      done.kernel.trace = k.trace ++ events ∧
      (FreesEach .xarrayNum nums events done.kernel.live ∧ done.left.slots = [] ↔ nums.Nodup) := by
  constructor
  · obtain ⟨done, played, completes⟩ := playRadixTree_completes (all_succeed radix) array k
    obtain ⟨events, trace, empty, iff⟩ := completes.freesEach_iff radixNum_injective
    exact ⟨done, events, played, trace, by rw [iff, and_iff_left empty]⟩
  · obtain ⟨done, played, completes⟩ := playXarray_completes (all_succeed xarray) k
    obtain ⟨events, trace, empty, iff⟩ := completes.freesEach_iff xarrayNum_injective
    exact ⟨done, events, played, trace, by rw [iff, and_iff_left empty]⟩

theorem numbers_freed_iff_two :
    (∃ done events, playRadixTree (fun _ => false) [5, -1] ⟨∅, []⟩ = some done ∧
      done.kernel.trace = events ∧ FreesEach .radixNum [5, -1] events done.kernel.live) ∧
    ∃ done events, playXarray (fun _ => false) [5, -1] ⟨∅, []⟩ = some done ∧
      done.kernel.trace = events ∧ FreesEach .xarrayNum [5, -1] events done.kernel.live := by
  obtain ⟨⟨done, events, played, trace, iff⟩, done', events', played', trace', iff'⟩ :=
    numbers_freed_iff (fun _ => false) [5, -1] (fun _ _ => rfl) rfl (fun _ _ => rfl) ⟨∅, []⟩
  exact ⟨⟨done, events, played, trace, (iff.mpr (by decide)).1⟩, done', events', played', trace',
    (iff'.mpr (by decide)).1⟩

/-- Of two fives the radix tree loses the second, and the xarray the first. -/
theorem equal_number_not_freed :
    (∃ done, playRadixTree (fun _ => false) [5, 5] ⟨∅, []⟩ = some done ∧ done.ret = 0 ∧
      done.kernel.live = {.radixNum 1} ∧
      ¬ FreesEach .radixNum [5, 5] done.kernel.trace done.kernel.live) ∧
    ∃ done, playXarray (fun _ => false) [5, 5] ⟨∅, []⟩ = some done ∧ done.ret = 0 ∧
      done.kernel.live = {.xarrayNum 0} ∧
      ¬ FreesEach .xarrayNum [5, 5] done.kernel.trace done.kernel.live := by
  constructor
  · refine ⟨_, rfl, rfl, by decide +kernel, fun frees => ?_⟩
    exact absurd (frees 1 (by decide)).2 (by decide +kernel)
  · refine ⟨_, rfl, rfl, by decide +kernel, fun frees => ?_⟩
    exact absurd (frees 0 (by decide)).2 (by decide +kernel)

end CSE306.KDS
