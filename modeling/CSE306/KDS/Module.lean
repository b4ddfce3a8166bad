import CSE306.KDS.Arrays
import CSE306.KDS.Bitmap
import CSE306.KDS.HashTable
import CSE306.KDS.RbTree

/-! The whole of `mymodule_init`: which of its memory is in use when it returns, for any
calls of `kmalloc` that fail. -/
namespace CSE306.KDS
open Perftop OrderedTree

/-- The loop from the end of the list to its start, over the entries that are left. -/
def emptyList : List Item → Kernel → Option Kernel
  | [], k => some k
  | position :: next, k => do
    let k ← k.printData .linkedList (some position)
    let k ← k.kfree (some position.cell)
    emptyList next k

/-- `list_add` puts an entry at the start of the list. -/
def playLinkedList (fails : Cell → Bool) (nums : List (BitVec 32)) (k : Kernel) :
    Option (Done (List Item)) := do
  match ← allocate fails .listNode (fun t x => some (x :: t)) 0 nums k [] with
  | (k, .error t) => return ⟨k, einval, t⟩
  | (k, .ok t) =>
    let k ← emptyList t.reverse k
    return ⟨k, 0, []⟩

/-- What the module is loaded with: `kstrtol`, the calls of `kmalloc` that fail, the way the
kernel balances trees, and what is in the memory of the hash table and around the bitmap. -/
structure Environment where
  kstrtol : Kstrtol
  fails : Cell → Bool
  balance : Balance Item
  table : IntTable
  bits : Int → Bool

/-- If the table comes to be read, with this many entries in it, its memory has NULL heads. -/
def Environment.TableCleared (e : Environment) (n : Nat) : Prop :=
  e.fails .hashTable = false → (∀ i < n, e.fails (.hashNode i) = false) →
    ∀ b, e.table.first b = none

namespace Module

/-- A number is inserted in the array. If `kstrtol` fails the function returns; if the array
is full, it frees the array first. The array that is NULL cannot be written to. -/
def insert (kstrtol : Kstrtol) (array : Option Cell) (k : Kernel) (nums : List (BitVec 32))
    (token : Bytes) : Except (Option (Kernel × Int)) (List (BitVec 32)) :=
  match kstrtol token 10 with
  | .error ret => .error (some (k, ret))
  | .ok parsedRes =>
    if maxSize ≤ nums.length then .error ((k.kfree array).map fun k => (k, einval))
    else
      match array with
      | none => .error none
      | some _ => .ok (nums ++ [parsedRes.setWidth 32])

/-- The `play_` functions. What they return is not looked at. -/
def play (e : Environment) (fuel : Nat) (nums : List (BitVec 32)) (k : Kernel) :
    Option Kernel := do
  let k := (← playLinkedList e.fails nums k).kernel
  let k := (← playRbTree e.balance e.fails nums k).kernel
  let k := (← playHashTable fuel e.fails nums e.table k).kernel
  let k := (← playRadixTree e.fails nums k).kernel
  let k := (← playXarray e.fails nums k).kernel
  return (playBitmap nums e.bits k).kernel

/-- `mymodule_init`, with the array and the memory that it uses. -/
def mymoduleInit (e : Environment) (fuel : Nat) (intStr : Bytes) (k : Kernel) :
    Option (Kernel × Int) := do
  let (k, array) := k.kmalloc e.fails .nums
  match ← scanWith (insert e.kstrtol array k) fuel ⟨intStr, 0, 0, []⟩ with
  | .error returned => returned
  | .ok nums =>
    let k ← play e fuel nums k
    let k ← k.kfree array
    return (k, 0)

end Module

theorem emptyList_eq {l : List Item} (distinct : (l.map Item.cell).Nodup) {k : Kernel}
    (live : ∀ x ∈ l, x.cell ∈ k.live) : ∃ trace,
      emptyList l k = some ⟨k.live \ cells l, trace⟩ := by
  induction l generalizing k with
  | nil => exact ⟨k.trace, by rw [cells_nil, Finset.sdiff_empty]; rfl⟩
  | cons x l ih =>
    have here := live x List.mem_cons_self
    have freed := Kernel.kfree_live
      (k := { k with trace := k.trace ++ [.read x.cell, .printk (.linkedList x.data)] }) here
    obtain ⟨trace, rest⟩ := ih (List.nodup_cons.mp distinct).2
      (k := ⟨k.live.erase x.cell, k.trace ++ [.read x.cell, .printk (.linkedList x.data)] ++
        [.kfree x.cell]⟩) (live_erase distinct live)
    refine ⟨trace, ?_⟩
    rw [emptyList, k.printData_live .linkedList here, sdiff_cells_cons]
    simp only [Option.bind_eq_bind, Option.bind_some, freed, rest]

/-- The function that a call of `kmalloc` is in. -/
def Cell.site : Cell → Nat
  | .nums => 0
  | .listNode _ => 1
  | .rbNode _ => 2
  | .hashTable | .hashNode _ => 3
  | .radixNum _ | .results => 4
  | .xarrayNum _ => 5
  | .other _ => 6

/-- A function with memory of its own, which leaves the other memory alone. It leaves none of
its own in use, and uses no NULL, under a condition and only then. -/
structure Stage where
  site : Nat
  releases : Prop
  run : Kernel → Option Kernel
  frame : ∀ k, (∀ c ∈ k.live, c.site ≠ site) → run k = none ∧ ¬ releases ∨
    ∃ k' leaked, run k = some k' ∧ k'.live = k.live ∪ leaked ∧ (∀ c ∈ leaked, c.site = site) ∧
      (leaked = ∅ ↔ releases)

theorem Stage.foldlM {stages : List Stage} (distinct : (stages.map Stage.site).Nodup) (k : Kernel)
    (own : ∀ c ∈ k.live, c.site ∉ stages.map Stage.site) :
    stages.foldlM (fun k s => s.run k) k = none ∧ ¬ (∀ s ∈ stages, s.releases) ∨
      ∃ k' leaked, stages.foldlM (fun k s => s.run k) k = some k' ∧ k'.live = k.live ∪ leaked ∧
        (∀ c ∈ leaked, c.site ∈ stages.map Stage.site) ∧
        (leaked = ∅ ↔ ∀ s ∈ stages, s.releases) := by
  induction stages generalizing k with
  | nil => exact .inr ⟨k, ∅, rfl, (Finset.union_empty _).symm, by simp, by simp⟩
  | cons stage stages ih =>
    obtain ⟨notLater, distinct⟩ := List.nodup_cons.mp distinct
    rw [List.foldlM_cons]
    rcases stage.frame k fun c mem same => own c mem (same ▸ List.mem_cons_self) with
      ⟨crashed, not⟩ | ⟨k1, leaked, ran, live, where_, iff⟩
    · left
      rw [crashed]
      exact ⟨rfl, fun all => not (all stage List.mem_cons_self)⟩
    · have own1 : ∀ c ∈ k1.live, c.site ∉ stages.map Stage.site := by
        intro c mem
        rw [live, Finset.mem_union] at mem
        cases mem with
        | inl old => exact fun there => own c old (List.mem_cons_of_mem _ there)
        | inr new => exact where_ c new ▸ notLater
      have rest := ih distinct k1 own1
      rw [ran]
      rcases rest with ⟨crashed, not⟩ | ⟨k2, leaked2, ran2, live2, where2, iff2⟩
      · left
        exact ⟨crashed, fun all => not (List.forall_mem_cons.mp all).2⟩
      · right
        refine ⟨k2, leaked ∪ leaked2, ran2, ?_, ?_, ?_⟩
        · rw [live2, live, Finset.union_assoc]
        · intro c mem
          rw [List.map_cons, List.mem_cons]
          exact (Finset.mem_union.mp mem).imp (where_ c) (where2 c)
        · rw [Finset.union_eq_empty, iff, iff2, List.forall_mem_cons]

/-- The calls of one loop: all succeed, or the first one fails. -/
def ReleasesEach (fails : Cell → Bool) (cell : Nat → Cell) (n : Nat) : Prop :=
  (∀ i < n, fails (cell i) = false) ∨ 0 < n ∧ fails (cell 0) = true

section
variable {fails : Cell → Bool} {cell : Nat → Cell} {site : Nat} {nums : List (BitVec 32)}
  {k : Kernel}

theorem all_iff : (∀ x ∈ items cell 0 nums, fails x.cell = false) ↔
    ∀ i < nums.length, fails (cell i) = false := by
  constructor
  · intro all i small
    exact all _ (mem_items.mpr ⟨i, small, rfl⟩)
  · exact all_succeed

theorem releasesEach_of_not (some_ : ¬ ∀ x ∈ items cell 0 nums, fails x.cell = false) :
    cells (allocated fails (items cell 0 nums)) = ∅ ↔ ReleasesEach fails cell nums.length := by
  rw [all_iff] at some_
  have nonempty : 0 < nums.length := by
    rcases Nat.eq_zero_or_pos nums.length with none | pos
    · exact (some_ fun i small => absurd small (by omega)).elim
    · exact pos
  rw [cells_eq_empty, allocated_eq_nil, ReleasesEach, or_iff_right some_, and_iff_right nonempty,
    or_iff_right (List.ne_nil_of_length_pos nonempty)]

variable (onSite : ∀ i, (cell i).site = site)
include onSite

theorem site_allocated : ∀ c ∈ cells (allocated fails (items cell 0 nums)), c.site = site := by
  intro c mem
  obtain ⟨x, there, rfl⟩ := mem_cells.mp mem
  obtain ⟨i, same⟩ := mem_allocated there
  rw [same, onSite]

theorem site_items : ∀ c ∈ cells (items cell 0 nums), c.site = site := by
  intro c mem
  obtain ⟨x, there, rfl⟩ := mem_cells.mp mem
  obtain ⟨i, _, rfl⟩ := mem_items.mp there
  exact onSite i

theorem union_sdiff_items (own : ∀ c ∈ k.live, c.site ≠ site) :
    (k.live ∪ cells (items cell 0 nums)) \ cells (items cell 0 nums) = k.live := by
  apply Finset.union_sdiff_cancel_right
  rw [Finset.disjoint_left]
  exact fun c mem mem' => own c mem (site_items onSite c mem')

variable (cell) in
/-- A loop that gives up what it has allocated in the loops after it, or nothing of it. -/
theorem frame_each {result : Option Kernel} (own : ∀ c ∈ k.live, c.site ≠ site)
    (succeeds : (∀ x ∈ items cell 0 nums, fails x.cell = false) → ∃ k', result = some k' ∧
      k'.live = (k.live ∪ cells (items cell 0 nums)) \ cells (items cell 0 nums))
    (stops : ¬ (∀ x ∈ items cell 0 nums, fails x.cell = false) → ∃ k', result = some k' ∧
      k'.live = k.live ∪ cells (allocated fails (items cell 0 nums))) :
    ∃ k' leaked, result = some k' ∧ k'.live = k.live ∪ leaked ∧ (∀ c ∈ leaked, c.site = site) ∧
      (leaked = ∅ ↔ ReleasesEach fails cell nums.length) := by
  by_cases all : ∀ x ∈ items cell 0 nums, fails x.cell = false
  · obtain ⟨k', ran, live⟩ := succeeds all
    refine ⟨k', ∅, ran, ?_, by simp, iff_of_true rfl (.inl (all_iff.mp all))⟩
    rw [live, union_sdiff_items onSite own, Finset.union_empty]
  · obtain ⟨k', ran, live⟩ := stops all
    exact ⟨k', _, ran, live, site_allocated onSite, releasesEach_of_not all⟩

end

section
variable (e : Environment) (nums : List (BitVec 32))

def linkedListStage : Stage where
  site := 1
  releases := ReleasesEach e.fails .listNode nums.length
  run k := (playLinkedList e.fails nums k).map Done.kernel
  frame k own := by
    right
    refine frame_each .listNode (fun _ => rfl) own (fun all => ?_) (fun some_ => ?_)
    · have added : (items .listNode 0 nums).foldl (fun t x => x :: t) [] =
          (items .listNode 0 nums).reverse := by simp
      obtain ⟨trace, emptied⟩ := emptyList_eq (k := { k with
        live := k.live ∪ cells (items .listNode 0 nums) })
        (nodup_cells (fun _ _ same => by cases same; rfl) 0 nums) mem_live_cells
      refine ⟨⟨_, trace⟩, ?_, rfl⟩
      rw [playLinkedList, allocate_all _ all, added]
      simp only [Option.bind_eq_bind, Option.bind_some, List.reverse_reverse, emptied]
      rfl
    · rw [playLinkedList, allocate_eq, if_neg some_]
      exact ⟨_, rfl, rfl⟩

def rbTreeStage : Stage where
  site := 2
  releases := ReleasesEach e.fails .rbNode nums.length
  run k := (playRbTree e.balance e.fails nums k).map Done.kernel
  frame k own := by
    right
    refine frame_each .rbNode (fun _ => rfl) own (fun all => ?_) (fun some_ => ?_)
    · obtain ⟨_, t, order, _, perm, _, done⟩ | ⟨failed, _⟩ :=
        playRbTree_eq e.balance e.fails nums k
      · have same : cells order = cells (items .rbNode 0 nums) := by
          ext c
          simp only [mem_cells, perm.mem_iff]
        rw [same] at done
        rw [done]
        exact ⟨_, rfl, rfl⟩
      · exact (failed all).elim
    · obtain ⟨all, _⟩ | ⟨_, t, done⟩ := playRbTree_eq e.balance e.fails nums k
      · exact (some_ all).elim
      · rw [done]
        exact ⟨_, rfl, rfl⟩

theorem OneOfEach.eq_cells {l : List Item} {kept : Finset Cell} (each : OneOfEach l kept)
    (distinct : (l.map Item.cell).Nodup) (apart : (l.map Item.data).Nodup) : kept = cells l := by
  apply Finset.Subset.antisymm each.known
  intro c mem
  obtain ⟨x, there, rfl⟩ := mem_cells.mp mem
  exact (each.all_iff distinct).mpr apart x there

def xarrayStage (apart : nums.Nodup) : Stage where
  site := 5
  releases := ReleasesEach e.fails .xarrayNum nums.length
  run k := (playXarray e.fails nums k).map Done.kernel
  frame k own := by
    right
    refine frame_each .xarrayNum (fun _ => rfl) own (fun all => ?_) (fun some_ => ?_)
    · obtain ⟨done, played, _, _, _, kept, _, _, each, kernel, _⟩ := playXarray_completes all k
      have whole := each.eq_cells (nodup_cells xarrayNum_injective 0 nums)
        (by rwa [map_data_items])
      rw [played]
      refine ⟨done.kernel, rfl, ?_⟩
      rw [kernel, whole, Finset.sdiff_empty]
    · obtain ⟨t, played⟩ := playXarray_stops some_ k
      rw [played]
      exact ⟨_, rfl, rfl⟩

/-- The numbers of the table and its wrapper, or nothing of both. -/
def HashTableReleases (fails : Cell → Bool) (n : Nat) : Prop :=
  fails .hashTable = false ∧ (∀ i < n, fails (.hashNode i) = false) ∨
    fails .hashTable = true ∧ 0 < n ∧ fails (.hashNode 0) = true

theorem playHashTable_without_table (fuel : Nat) (failed : e.fails .hashTable = true)
    (k : Kernel) : playHashTable fuel e.fails nums e.table k = none ∧
        ¬ HashTableReleases e.fails nums.length ∨
      playHashTable fuel e.fails nums e.table k = some ⟨k, einval, e.table⟩ ∧
        HashTableReleases e.fails nums.length := by
  rw [playHashTable_noTable failed]
  by_cases first : 0 < nums.length ∧ e.fails (.hashNode 0) = true
  · right
    exact ⟨if_pos first, .inr ⟨failed, first⟩⟩
  · left
    refine ⟨if_neg first, ?_⟩
    rintro (⟨allocated, _⟩ | ⟨_, both⟩)
    · rw [failed] at allocated
      cases allocated
    · exact first both

theorem playHashTable_frees_all {fuel : Nat} (enough : nums.length < fuel)
    (cleared : ∀ b, e.table.first b = none) (apart : (nums.map hash32).Nodup)
    (table : e.fails .hashTable = false)
    (all : ∀ x ∈ items .hashNode 0 nums, e.fails x.cell = false) (own : ∀ c ∈ k.live, c.site ≠ 3) :
    ∃ done, playHashTable fuel e.fails nums e.table k = some done ∧ done.kernel.live = k.live := by
  obtain ⟨_, x, _, start, _, filled, _, _, live, _, played⟩ :=
    playHashTable_completes e.fails enough table all cleared k
  have buckets : ((items .hashNode 0 nums).map fun y => hash32 y.data).Nodup := by
    have data := map_data_items .hashNode 0 nums
    rw [← data, List.map_map] at apart
    exact apart
  have heads : cells (heads x CSE306.buckets) = cells (items .hashNode 0 nums) := by
    ext c
    simp only [mem_cells]
    constructor
    · rintro ⟨y, mem, same⟩
      exact ⟨y, filled.heads_subset y mem, same⟩
    · rintro ⟨y, mem, same⟩
      exact ⟨y, filled.heads_all buckets y mem, same⟩
  refine ⟨_, played, ?_⟩
  ext c
  rw [heads, live, Finset.mem_erase, Finset.mem_sdiff, Finset.mem_union, Finset.mem_union,
    Finset.mem_singleton]
  constructor
  · rintro ⟨notTable, (old | table) | new, notFreed⟩
    · exact old
    · exact (notTable table).elim
    · exact (notFreed new).elim
  · intro mem
    have onSite : ∀ i, (Cell.hashNode i).site = 3 := fun _ => rfl
    refine ⟨fun same => own c mem (same ▸ rfl), .inl (.inl mem), fun there => ?_⟩
    exact own c mem (site_items onSite c there)

theorem playHashTable_stops (fuel : Nat) (table : e.fails .hashTable = false)
    (some_ : ¬ ∀ x ∈ items .hashNode 0 nums, e.fails x.cell = false) (k : Kernel) :
    ∃ done, playHashTable fuel e.fails nums e.table k = some done ∧ done.kernel.live =
      k.live ∪ ({.hashTable} ∪ cells (allocated e.fails (items .hashNode 0 nums))) :=
  ⟨_, playHashTable_einval table some_ fuel e.table k, Finset.union_assoc ..⟩

def hashTableStage {fuel : Nat} (enough : nums.length < fuel)
    (cleared : e.TableCleared nums.length) (apart : (nums.map hash32).Nodup) : Stage where
  site := 3
  releases := HashTableReleases e.fails nums.length
  run k := (playHashTable fuel e.fails nums e.table k).map Done.kernel
  frame k own := by
    cases table : e.fails .hashTable with
    | true =>
      obtain ⟨crashed, not⟩ | ⟨stopped, releases⟩ :=
        playHashTable_without_table e nums fuel table k
      · exact .inl ⟨by rw [crashed]; rfl, not⟩
      · right
        refine ⟨k, ∅, by rw [stopped]; rfl, (Finset.union_empty _).symm, by simp, ?_⟩
        exact iff_of_true rfl releases
    | false =>
      right
      by_cases all : ∀ x ∈ items .hashNode 0 nums, e.fails x.cell = false
      · obtain ⟨done, played, live⟩ :=
          playHashTable_frees_all e nums enough (cleared table (all_iff.mp all)) apart table all own
        refine ⟨done.kernel, ∅, by rw [played]; rfl, ?_, by simp, ?_⟩
        · rw [live, Finset.union_empty]
        · exact iff_of_true rfl (.inl ⟨table, all_iff.mp all⟩)
      · obtain ⟨done, stopped, live⟩ := playHashTable_stops e nums fuel table all k
        refine ⟨done.kernel, _, by rw [stopped]; rfl, live, ?_, ?_⟩
        · intro c mem
          have onSite : ∀ i, (Cell.hashNode i).site = 3 := fun _ => rfl
          cases Finset.mem_union.mp mem with
          | inl same => exact congrArg Cell.site (Finset.mem_singleton.mp same)
          | inr node => exact site_allocated onSite c node
        · rw [Finset.union_eq_empty]
          simp [HashTableReleases, table, mt all_iff.mpr all]

def radixTreeStage (apart : nums.Nodup) : Stage where
  site := 4
  releases := (∀ i < nums.length, e.fails (.radixNum i) = false) ∧
      (nums.length = 0 ∨ e.fails .results = false) ∨
    0 < nums.length ∧ e.fails (.radixNum 0) = true
  run k := (playRadixTree e.fails nums k).map Done.kernel
  frame k own := by
    right
    by_cases all : ∀ x ∈ items .radixNum 0 nums, e.fails x.cell = false
    · have first : 0 < nums.length → e.fails (.radixNum 0) = false := all_iff.mp all 0
      cases array : e.fails .results with
      | true =>
        obtain ⟨trace, t, played⟩ := playRadixTree_without_results all array k
        refine ⟨_, cells (items .radixNum 0 nums), by rw [played]; rfl, rfl,
          site_items fun _ => rfl, ?_⟩
        rw [cells_eq_empty, ← List.length_eq_zero_iff, length_items]
        constructor
        · exact fun none => .inl ⟨all_iff.mp all, .inl none⟩
        · rintro (⟨_, none | fine⟩ | ⟨some_, failed⟩)
          · exact none
          · cases fine
          · cases (first some_).symm.trans failed
      | false =>
        obtain ⟨done, played, _, _, _, kept, _, _, each, kernel, _⟩ :=
          playRadixTree_completes all array k
        have whole := each.eq_cells (nodup_cells radixNum_injective 0 nums)
          (by rwa [map_data_items])
        refine ⟨done.kernel, ∅, by rw [played]; rfl, ?_, by simp, ?_⟩
        · have onSite : ∀ i, (Cell.radixNum i).site = 4 := fun _ => rfl
          rw [kernel, whole, sdiff_right_comm, union_sdiff_items onSite own, Finset.union_empty]
          rw [Finset.sdiff_singleton_eq_erase]
          exact Finset.erase_eq_of_notMem fun mem => own _ mem rfl
        · exact iff_of_true rfl (.inl ⟨all_iff.mp all, .inr rfl⟩)
    · obtain ⟨t, played⟩ := playRadixTree_stops all k
      refine ⟨_, _, by rw [played]; rfl, rfl, site_allocated fun _ => rfl, ?_⟩
      rw [releasesEach_of_not all, ReleasesEach]
      have some_ := mt all_iff.mpr all
      simp only [some_, false_and, false_or]

variable {nums} in
/-- The `play_` functions that allocate, in their order. -/
def stages {fuel : Nat} (enough : nums.length < fuel) (cleared : e.TableCleared nums.length)
    (apart : (nums.map hash32).Nodup) : List Stage :=
  [linkedListStage e nums, rbTreeStage e nums, hashTableStage e nums enough cleared apart,
    radixTreeStage e nums (.of_map _ apart), xarrayStage e nums (.of_map _ apart)]

end

theorem live_playBitmap (nums : List (BitVec 32)) (bit : Int → Bool) (k : Kernel) :
    (playBitmap nums bit k).kernel.live = k.live := by
  have logged : ∀ (l : List Nat) (k : Kernel), (l.foldl (fun k i =>
      k.log (.printk (.bitmap (BitVec.ofNat 32 i)))) k).live = k.live := by
    intro l
    induction l with
    | nil => exact fun _ => rfl
    | cons i l ih => exact fun k => ih _
  exact logged _ k

/-- For this many numbers the `play_` functions release all of their memory. -/
structure PlaysRelease (fails : Cell → Bool) (n : Nat) : Prop where
  linkedList : ReleasesEach fails .listNode n
  rbTree : ReleasesEach fails .rbNode n
  hashTable : HashTableReleases fails n
  radixTree : (∀ i < n, fails (.radixNum i) = false) ∧ (n = 0 ∨ fails .results = false) ∨
    0 < n ∧ fails (.radixNum 0) = true
  xarray : ReleasesEach fails .xarrayNum n

section
variable {e : Environment} {nums : List (BitVec 32)} {fuel : Nat}

theorem stages_release_iff (enough : nums.length < fuel) (cleared : e.TableCleared nums.length)
    (apart : (nums.map hash32).Nodup) :
    (∀ s ∈ stages e enough cleared apart, s.releases) ↔ PlaysRelease e.fails nums.length := by
  rw [stages, List.forall_mem_cons, List.forall_mem_cons, List.forall_mem_cons,
    List.forall_mem_cons, List.forall_mem_singleton]
  constructor
  · rintro ⟨list, tree, table, radix, xarray⟩
    exact ⟨list, tree, table, radix, xarray⟩
  · rintro ⟨list, tree, table, radix, xarray⟩
    exact ⟨list, tree, table, radix, xarray⟩

theorem play_eq (enough : nums.length < fuel) (cleared : e.TableCleared nums.length)
    (apart : (nums.map hash32).Nodup) (k : Kernel) : Module.play e fuel nums k =
      ((stages e enough cleared apart).foldlM (fun k (s : Stage) => s.run k) k).map fun k =>
        (playBitmap nums e.bits k).kernel := by
  simp only [Module.play, stages, List.foldlM_cons, List.foldlM_nil, linkedListStage, rbTreeStage,
    hashTableStage, radixTreeStage, xarrayStage, Option.bind_eq_bind, Option.pure_def,
    Option.map_bind, Function.comp_def, Option.bind_map, Option.map_some]

theorem play_leaks (enough : nums.length < fuel) (cleared : e.TableCleared nums.length)
    (apart : (nums.map hash32).Nodup) (k : Kernel) (own : ∀ c ∈ k.live, c.site = 0 ∨ c.site = 6) :
    Module.play e fuel nums k = none ∧ ¬ PlaysRelease e.fails nums.length ∨
      ∃ k' leaked, Module.play e fuel nums k = some k' ∧ k'.live = k.live ∪ leaked ∧
        (∀ c ∈ leaked, c.site ≠ 0 ∧ c.site ≠ 6) ∧
        (leaked = ∅ ↔ PlaysRelease e.fails nums.length) := by
  have sites : (stages e enough cleared apart).map Stage.site = [1, 2, 3, 4, 5] := rfl
  rw [play_eq enough cleared apart, ← stages_release_iff enough cleared apart]
  have distinct : ((stages e enough cleared apart).map Stage.site).Nodup := by
    rw [sites]
    decide
  have others : ∀ c ∈ k.live, c.site ∉ (stages e enough cleared apart).map Stage.site := by
    intro c mem
    rw [sites]
    rcases own c mem with here | here <;> rw [here] <;> decide
  rcases Stage.foldlM distinct k others with
    ⟨crashed, not⟩ | ⟨k', leaked, ran, live, where_, iff⟩
  · left
    rw [crashed]
    exact ⟨rfl, not⟩
  · right
    rw [ran]
    refine ⟨_, leaked, rfl, (live_playBitmap ..).trans live, fun c mem => ?_, iff⟩
    have here := where_ c mem
    rw [sites] at here
    constructor
    · exact fun same => absurd (same ▸ here) (by decide)
    · exact fun same => absurd (same ▸ here) (by decide)

end

/-- The first rejected token, or one too many, decides how the function returns. -/
def Releases (e : Environment) (tokens : List Bytes) : Prop :=
  e.fails .nums = true ∧ (tokens = [] ∧ PlaysRelease e.fails 0 ∧ e.TableCleared 0 ∨
    ∃ t rest, tokens = t :: rest ∧ ¬ Accepted e.kstrtol t) ∨
  e.fails .nums = false ∧ (∀ t ∈ tokens.take (maxSize + 1), Accepted e.kstrtol t) ∧
    (maxSize < tokens.length ∨
      PlaysRelease e.fails tokens.length ∧ e.TableCleared tokens.length)

section
variable {kstrtol : Kstrtol} {c : Cell} {k : Kernel}

theorem foldlM_insert_ok {l : List Bytes} {values : List (BitVec 64)}
    (accepted : l.map (kstrtol · 10) = values.map .ok) (space : l.length ≤ maxSize) :
    l.foldlM (Module.insert kstrtol (some c) k) [] = .ok (values.map (BitVec.setWidth 32)) := by
  refine foldlM_inserts (fun nums t v known space => ?_) [] accepted (by simpa using space)
  rw [Module.insert, known]
  exact if_neg (Nat.not_le.mpr space)

theorem foldlM_insert_stops {before after : List Bytes} {t : Bytes}
    (accepted : ∀ u ∈ before, Accepted kstrtol u) (reached : before.length ≤ maxSize)
    (stops : ∀ nums : List (BitVec 32), nums.length = before.length →
      Module.insert kstrtol (some c) k nums t = .error result) :
    (before ++ t :: after).foldlM (Module.insert kstrtol (some c) k) [] = .error result := by
  obtain ⟨values, known⟩ := exists_values accepted
  have count : values.length = before.length := by simpa using (congrArg List.length known).symm
  have stopped := stops (values.map (BitVec.setWidth 32)) (by simpa using count)
  rw [List.foldlM_append, foldlM_insert_ok known reached]
  simp only [List.foldlM_cons, bind, Except.bind, stopped]

end

/-- The function returns, and no memory that it has allocated is in use. -/
def Released (k : Kernel) (result : Option (Kernel × Int)) : Prop :=
  ∃ k' ret, result = some (k', ret) ∧ k'.live = k.live

section
variable {e : Environment} {fuel : Nat} {k : Kernel} {text junk : Bytes}

theorem nums_free (elsewhere : ∀ c ∈ k.live, c.site = 6) : .nums ∉ k.live :=
  fun mem => absurd (elsewhere _ mem) (by decide)

theorem not_released_array (elsewhere : ∀ c ∈ k.live, c.site = 6) :
    ¬Released k (some ({ k with live := k.live ∪ {.nums} }, ret)) := by
  rintro ⟨k', ret, result, live⟩
  cases result
  have there : .nums ∈ k.live := live ▸ Finset.mem_union_right _ (Finset.mem_singleton_self _)
  exact nums_free elsewhere there

theorem released_array (elsewhere : ∀ c ∈ k.live, c.site = 6) :
    Released k ((Kernel.kfree { k with live := k.live ∪ {.nums} } (some .nums)).map
      fun k => (k, einval)) := by
  have here : .nums ∈ Kernel.live { k with live := k.live ∪ {.nums} } :=
    Finset.mem_union_right _ (Finset.mem_singleton_self _)
  refine ⟨⟨(k.live ∪ {.nums}).erase .nums, k.trace ++ [.kfree .nums]⟩, einval, ?_, ?_⟩
  · exact congrArg (Option.map fun k => (k, einval)) (Kernel.kfree_live here)
  · have erased := erase_own (nums_free elsewhere) (Finset.notMem_empty Cell.nums)
    rwa [Finset.union_empty, Finset.union_empty] at erased

theorem released_play {array : Option Cell} {nums : List (BitVec 32)} (enough : nums.length < fuel)
    (cleared : e.TableCleared nums.length) (apart : (nums.map hash32).Nodup)
    (elsewhere : ∀ c ∈ k.live, c.site = 6) {k1 : Kernel}
    (allocated : array = none ∧ k1 = k ∨
      array = some .nums ∧ k1.live = k.live ∪ {.nums}) :
    Released k (do
      let k ← Module.play e fuel nums k1
      let k ← k.kfree array
      return (k, 0)) ↔ PlaysRelease e.fails nums.length := by
  have own : ∀ c ∈ k1.live, c.site = 0 ∨ c.site = 6 := by
    intro c mem
    rcases allocated with ⟨_, rfl⟩ | ⟨_, live⟩
    · exact .inr (elsewhere c mem)
    · rw [live, Finset.mem_union, Finset.mem_singleton] at mem
      exact (mem.imp (elsewhere c) (congrArg Cell.site)).symm
  rcases play_leaks enough cleared apart k1 own with
    ⟨crashed, not⟩ | ⟨k2, leaked, ran, live, where_, iff⟩
  · rw [crashed]
    refine iff_of_false ?_ not
    rintro ⟨k', ret, some_, _⟩
    cases some_
  · rw [← iff, ran]
    obtain ⟨k3, freed, live3⟩ : ∃ k3, k2.kfree array = some k3 ∧ k3.live = k.live ∪ leaked := by
      rcases allocated with ⟨rfl, rfl⟩ | ⟨rfl, live1⟩
      · exact ⟨k2, rfl, live⟩
      · have here : .nums ∈ k2.live := by
          rw [live, live1]
          simp
        refine ⟨_, Kernel.kfree_live here, ?_⟩
        have notLeaked : .nums ∉ leaked := fun mem => (where_ _ mem).1 rfl
        rw [live, live1]
        exact erase_own (nums_free elsewhere) notLeaked
    have apart : Disjoint k.live leaked := by
      rw [Finset.disjoint_left]
      exact fun c mem mem' => (where_ c mem').2 (elsewhere c mem)
    simp only [Option.bind_eq_bind, Option.bind_some, freed]
    constructor
    · rintro ⟨k', ret, same, live'⟩
      cases same
      rw [live3, Finset.union_eq_left] at live'
      exact Finset.eq_empty_of_forall_notMem fun c mem =>
        Finset.disjoint_left.mp apart (live' mem) mem
    · rintro rfl
      exact ⟨k3, 0, rfl, live3.trans (Finset.union_empty _)⟩

theorem releases_without_array (failed : e.fails .nums = true) (terminated : 0 ∉ text)
    (enough : text.length < fuel) (room : maxSize < fuel)
    (cleared : tokens text = [] → e.TableCleared 0) (elsewhere : ∀ c ∈ k.live, c.site = 6) :
    Released k (Module.mymoduleInit e fuel (text ++ 0 :: junk) k) ↔
      tokens text = [] ∧ PlaysRelease e.fails 0 ∨
        ∃ t rest, tokens text = t :: rest ∧ ¬ Accepted e.kstrtol t := by
  rw [Module.mymoduleInit, k.kmalloc_fails failed]
  simp only [scanWith_eq text junk terminated enough]
  cases split : tokens text with
  | nil =>
    have few : ([] : List (BitVec 32)).length < fuel := Nat.zero_lt_of_lt room
    exact (released_play few (cleared split) List.nodup_nil elsewhere (.inl ⟨rfl, rfl⟩)).trans
      (by simp)
  | cons t rest =>
    rw [List.foldlM_cons, Module.insert]
    cases known : e.kstrtol t 10 with
    | error ret =>
      refine iff_of_true ⟨k, ret, rfl, rfl⟩ (.inr ⟨t, rest, rfl, ?_⟩)
      rintro ⟨v, accepted⟩
      cases known.symm.trans accepted
    | ok v =>
      apply iff_of_false
      · rintro ⟨k', ret, result, _⟩
        cases result
      · rintro (⟨none, _⟩ | ⟨_, _, same, rejected⟩)
        · cases none
        · cases same
          exact rejected ⟨v, known⟩

theorem releases_with_array (allocated : e.fails .nums = false) (terminated : 0 ∉ text)
    (enough : text.length < fuel) (room : maxSize < fuel)
    (cleared : (∀ t ∈ tokens text, Accepted e.kstrtol t) → (tokens text).length ≤ maxSize →
      e.TableCleared (tokens text).length)
    (apart : ∀ nums, parse e.kstrtol [] (tokens text) = .plays nums → (nums.map hash32).Nodup)
    (elsewhere : ∀ c ∈ k.live, c.site = 6) :
    Released k (Module.mymoduleInit e fuel (text ++ 0 :: junk) k) ↔
      (∀ t ∈ (tokens text).take (maxSize + 1), Accepted e.kstrtol t) ∧
        (maxSize < (tokens text).length ∨ PlaysRelease e.fails (tokens text).length) := by
  rw [Module.mymoduleInit, k.kmalloc_succeeds allocated]
  simp only [scanWith_eq text junk terminated enough]
  by_cases all : (∀ t ∈ tokens text, Accepted e.kstrtol t) ∧ (tokens text).length ≤ maxSize
  · obtain ⟨values, known⟩ := exists_values all.1
    have count : (values.map (BitVec.setWidth 32)).length = (tokens text).length := by
      simpa using (congrArg List.length known).symm
    have plays := parse_accepted known all.2
    rw [foldlM_insert_ok known all.2]
    have live : Kernel.live { k with live := k.live ∪ {.nums} } = k.live ∪ {.nums} := rfl
    have read : e.TableCleared (values.map (BitVec.setWidth 32)).length :=
      count ▸ cleared all.1 all.2
    have played := released_play (count ▸ all.2.trans_lt room) read (apart _ plays) elsewhere
      (.inr ⟨rfl, live⟩)
    rw [count] at played
    apply played.trans
    rw [or_iff_right (Nat.not_lt.mpr all.2), and_iff_right]
    exact fun t mem => all.1 t (List.mem_of_mem_take mem)
  · obtain ⟨before, t, after, split, reached, accepted, stop⟩ := exists_stop all
    rw [split]
    cases stop with
    | inl rejected =>
      obtain ⟨ret, known⟩ := rejected
      rw [foldlM_insert_stops accepted reached fun nums _ => by rw [Module.insert, known]]
      apply iff_of_false (not_released_array elsewhere)
      rintro ⟨all, _⟩
      obtain ⟨v, accepted⟩ := all t (by
        rw [List.mem_take_iff_getElem]
        exact ⟨before.length, by simp; omega, by simp⟩)
      cases known.symm.trans accepted
    | inr full =>
      obtain ⟨⟨v, known⟩, count⟩ := full
      rw [foldlM_insert_stops accepted reached fun nums same => by
        rw [Module.insert, known]
        exact if_pos (by omega)]
      refine iff_of_true (released_array elsewhere) ⟨?_, .inl ?_⟩
      · rw [List.take_append, count, Nat.add_sub_cancel_left, List.take_of_length_le (by omega)]
        intro u mem
        cases List.mem_append.mp mem with
        | inl earlier => exact accepted u earlier
        | inr this =>
          obtain rfl := List.mem_singleton.mp this
          exact ⟨v, known⟩
      · rw [List.length_append, List.length_cons, count]
        omega

/-- Where the numbers are played, `play_hash_table` may come to read its table. -/
theorem cleared_of_plays
    (cleared : ∀ nums, parse e.kstrtol [] (tokens text) = .plays nums →
      e.TableCleared nums.length) (accepted : ∀ t ∈ tokens text, Accepted e.kstrtol t)
    (few : (tokens text).length ≤ maxSize) : e.TableCleared (tokens text).length := by
  obtain ⟨values, known⟩ := exists_values accepted
  have count : values.length = (tokens text).length := by
    simpa using (congrArg List.length known).symm
  have read := cleared _ (parse_accepted known few)
  rwa [List.length_map, count] at read

/-- Memory is lost when a token is rejected after the array was allocated, and when an
allocation fails after others of the same function. NULL is used for the array and for the
table. All other runs release everything, if a table that is read has NULL heads. -/
theorem mymodule_init_releases_iff (e : Environment) (text junk : Bytes) (terminated : 0 ∉ text)
    (fuel : Nat) (enough : text.length < fuel) (room : maxSize < fuel)
    (apart : ∀ nums, parse e.kstrtol [] (tokens text) = .plays nums → (nums.map hash32).Nodup)
    (k : Kernel) (elsewhere : ∀ c ∈ k.live, ∃ addr, c = .other addr) :
    (Releases e (tokens text) →
      Released k (Module.mymoduleInit e fuel (text ++ 0 :: junk) k)) ∧
    ((∀ nums, parse e.kstrtol [] (tokens text) = .plays nums → e.TableCleared nums.length) →
      Released k (Module.mymoduleInit e fuel (text ++ 0 :: junk) k) →
      Releases e (tokens text)) := by
  have others : ∀ c ∈ k.live, c.site = 6 := by
    intro c mem
    obtain ⟨addr, rfl⟩ := elsewhere c mem
    rfl
  cases failed : e.fails .nums with
  | true =>
    constructor
    · rintro (⟨_, early⟩ | ⟨allocated, _⟩)
      · apply (releases_without_array failed terminated enough room (fun none => ?_) others).mpr
        · exact early.imp_left fun played => ⟨played.1, played.2.1⟩
        · rcases early with played | ⟨t, rest, some_, _⟩
          · exact played.2.2
          · cases none.symm.trans some_
      · cases failed.symm.trans allocated
    · intro cleared released
      have empty : tokens text = [] → e.TableCleared 0 := by
        intro none
        have read := cleared_of_plays cleared
        rw [none] at read
        exact read (fun _ mem => absurd mem List.not_mem_nil) (Nat.zero_le _)
      have early := (releases_without_array failed terminated enough room empty others).mp released
      exact .inl ⟨failed, early.imp_left fun played => ⟨played.1, played.2, empty played.1⟩⟩
  | false =>
    constructor
    · rintro (⟨lost, _⟩ | ⟨_, accepted, long⟩)
      · cases failed.symm.trans lost
      · apply (releases_with_array failed terminated enough room (fun _ few => ?_) apart
          others).mpr
        · exact ⟨accepted, long.imp_right And.left⟩
        · exact (long.resolve_left (Nat.not_lt.mpr few)).2
    · intro cleared released
      have read := cleared_of_plays cleared
      obtain ⟨accepted, long⟩ :=
        (releases_with_array failed terminated enough room read apart others).mp released
      refine .inr ⟨failed, accepted, ?_⟩
      by_cases few : (tokens text).length ≤ maxSize
      · rw [List.take_of_length_le (Nat.le_succ_of_le few)] at accepted
        exact long.imp_right fun plays => ⟨plays, read accepted few⟩
      · exact .inl (Nat.not_le.mp few)

end

/-- A kernel that reads digits, and has these calls of `kmalloc` fail. -/
def digitsOnly (fails : Cell → Bool) : Environment :=
  ⟨digits, fails, .unbalanced, .empty, fun _ => false⟩

/-- The parameter "7", when nothing fails. -/
theorem mymodule_init_releases_iff_seven : Released ⟨∅, []⟩
    (Module.mymoduleInit (digitsOnly fun _ => false) 65538 [55, 0] ⟨∅, []⟩) := by
  have split : tokens [55] = [[55]] := by decide +kernel
  have plays : parse digits [] [[55]] = .plays [7] := by decide +kernel
  refine (mymodule_init_releases_iff (digitsOnly fun _ => false) [55] [] (by decide) 65538
    (by decide) (by decide) (fun nums played => ?_) ⟨∅, []⟩ (by simp)).1 ?_
  · rw [split] at played
    cases plays.symm.trans played
    decide
  · rw [split]
    refine .inr ⟨rfl, fun t mem => ?_, .inr ⟨⟨.inl fun _ _ => rfl, .inl fun _ _ => rfl,
      .inl ⟨rfl, fun _ _ => rfl⟩, .inl ⟨fun _ _ => rfl, .inr rfl⟩, .inl fun _ _ => rfl⟩,
      fun _ _ _ => rfl⟩⟩
    obtain rfl := List.mem_singleton.mp (List.mem_of_mem_take mem)
    exact ⟨7, by decide +kernel⟩

/-- The parameter "x" is rejected, and the array is lost. With "1", and no array, there is a
store to NULL. -/
theorem array_not_released :
    Module.mymoduleInit (digitsOnly fun _ => false) 2 [120, 0] ⟨∅, []⟩ =
      some (⟨{.nums}, []⟩, einval) ∧
    ¬ Released ⟨∅, []⟩ (Module.mymoduleInit (digitsOnly fun _ => false) 2 [120, 0] ⟨∅, []⟩) ∧
    Module.mymoduleInit (digitsOnly fun _ => true) 2 [49, 0] ⟨∅, []⟩ = none ∧
    ¬ Released ⟨∅, []⟩ (Module.mymoduleInit (digitsOnly fun _ => true) 2 [49, 0] ⟨∅, []⟩) := by
  have leaks : Module.mymoduleInit (digitsOnly fun _ => false) 2 [120, 0] ⟨∅, []⟩ =
      some (⟨{.nums}, []⟩, einval) := rfl
  have crashes : Module.mymoduleInit (digitsOnly fun _ => true) 2 [49, 0] ⟨∅, []⟩ = none := rfl
  refine ⟨leaks, ?_, crashes, ?_⟩
  · rw [leaks]
    rintro ⟨k', ret, same, live⟩
    cases same
    exact absurd live (by decide)
  · rw [crashes]
    rintro ⟨k', ret, same, _⟩
    cases same

end CSE306.KDS
