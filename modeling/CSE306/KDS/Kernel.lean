import CSE306.KDS.Parse
import Mathlib.Data.Finset.Basic
import Mathlib.Data.Finset.Lattice.Lemmas

/-! What the module asks of the kernel: memory, and lines in the log. The memory that is in
use is a set, so that what is freed twice, used too late or never freed can be seen. -/
namespace CSE306.KDS

/-- A call of `kmalloc`, by its place in the source and the turn of its loop. It stands for
the memory it returns, too. Memory from elsewhere has an address only. -/
inductive Cell where
  | nums
  | listNode (turn : Nat)
  | rbNode (turn : Nat)
  | hashTable
  | hashNode (turn : Nat)
  | radixNum (turn : Nat)
  | results
  | xarrayNum (turn : Nat)
  | other (addr : Nat)
  deriving DecidableEq

/-- The turn of its loop. -/
def Cell.turn : Cell → Nat
  | .listNode i | .rbNode i | .hashNode i | .radixNum i | .xarrayNum i => i
  | .nums | .hashTable | .results | .other _ => 0

/-- An allocated structure, or an allocated `int`, with the number stored in it. -/
structure Item where
  cell : Cell
  data : BitVec 32
  deriving DecidableEq

/-- The lines that the `play_` functions print, each with its number. -/
inductive Line where
  | linkedList (data : BitVec 32)
  | rbTree (data : BitVec 32)
  | hashForEach (data : BitVec 32)
  | hashForEachPossible (data : BitVec 32)
  | radixTree (data : BitVec 32)
  | gangLookupTag (data : BitVec 32)
  | xarray (data : BitVec 32)
  | xaForEachMarked (data : BitVec 32)
  | bitmap (data : BitVec 32)
  deriving DecidableEq

def Line.number : Line → BitVec 32
  | .linkedList n | .rbTree n | .hashForEach n | .hashForEachPossible n | .radixTree n
  | .gangLookupTag n | .xarray n | .xaForEachMarked n | .bitmap n => n

inductive Event where
  | read (cell : Cell)
  | printk (line : Line)
  | rbErase (cell : Cell)
  | kfree (cell : Cell)
  deriving DecidableEq

/-- The lines printed. -/
def lines (events : List Event) : List Line :=
  events.filterMap fun
    | .printk line => some line
    | _ => none

theorem lines_append (events later : List Event) :
    lines (events ++ later) = lines events ++ lines later := List.filterMap_append

/-- The memory in use, and what has happened so far. -/
structure Kernel where
  live : Finset Cell
  trace : List Event

/-- What a `play_` function returns, and the structure that it leaves behind. -/
structure Done (T : Type) where
  kernel : Kernel
  ret : Int
  left : T

namespace Kernel

/-- A result without memory stands for NULL. -/
def kmalloc (fails : Cell → Bool) (k : Kernel) (c : Cell) : Kernel × Option Cell :=
  if fails c then (k, none) else ({ k with live := k.live ∪ {c} }, some c)

/-- NULL is left alone. Memory that is not in use cannot be freed. -/
def kfree (k : Kernel) : Option Cell → Option Kernel
  | none => some k
  | some c =>
    if c ∈ k.live then some ⟨k.live.erase c, k.trace ++ [.kfree c]⟩ else none

def log (k : Kernel) (e : Event) : Kernel := { k with trace := k.trace ++ [e] }

/-- Print the number in a structure. NULL and freed memory cannot be read. -/
def printData (line : BitVec 32 → Line) (k : Kernel) : Option Item → Option Kernel
  | none => none
  | some x =>
    if x.cell ∈ k.live then some ((k.log (.read x.cell)).log (.printk (line x.data))) else none

/-- The lines in the log. -/
def printed (k : Kernel) : List Line := lines k.trace

variable {k : Kernel} {fails : Cell → Bool}

theorem kmalloc_fails (failed : fails c = true) : k.kmalloc fails c = (k, none) := if_pos failed

theorem kmalloc_succeeds (allocated : fails c = false) :
    k.kmalloc fails c = ({ k with live := k.live ∪ {c} }, some c) :=
  if_neg (by simp [allocated])

theorem kfree_live (live : c ∈ k.live) :
    k.kfree (some c) = some ⟨k.live.erase c, k.trace ++ [.kfree c]⟩ := if_pos live

theorem printData_live (line : BitVec 32 → Line) {x : Item} (live : x.cell ∈ k.live) :
    k.printData line (some x) =
      some { k with trace := k.trace ++ [.read x.cell, .printk (line x.data)] } := by
  rw [printData, if_pos live, log, log]
  simp

end Kernel

/-- A loop over structures that prints their numbers. -/
def printEach (line : BitVec 32 → Line) (found : List Item) (k : Kernel) : Option Kernel :=
  found.foldlM (fun k x => k.printData line (some x)) k

/-- What happens to a number that is printed. -/
def shown (line : BitVec 32 → Line) (x : Item) : List Event := [.read x.cell, .printk (line x.data)]

theorem lines_shown (line : BitVec 32 → Line) (found : List Item) :
    lines (found.flatMap (shown line)) = (found.map Item.data).map line := by
  induction found with
  | nil => rfl
  | cons x found ih =>
    rw [List.flatMap_cons, lines_append, ih]
    rfl

theorem count_kfree_shown (line : BitVec 32 → Line) (found : List Item) (c : Cell) :
    (found.flatMap (shown line)).count (.kfree c) = 0 := by
  apply List.count_eq_zero.mpr
  intro mem
  obtain ⟨x, _, there⟩ := List.mem_flatMap.mp mem
  simp [shown] at there

theorem printEach_eq (line : BitVec 32 → Line) (found : List Item) {k : Kernel}
    (live : ∀ x ∈ found, x.cell ∈ k.live) : printEach line found k =
      some { k with trace := k.trace ++ found.flatMap (shown line) } := by
  induction found generalizing k with
  | nil => rw [List.flatMap_nil, List.append_nil]; rfl
  | cons x found ih =>
    obtain ⟨here, later⟩ := List.forall_mem_cons.mp live
    rw [printEach, List.foldlM_cons, k.printData_live line here, List.flatMap_cons,
      ← List.append_assoc]
    exact ih later

/-- The loop that allocates a structure for each number and adds it to `t`. A failure ends
it, with what was added so far. -/
def allocate (fails : Cell → Bool) (cell : Nat → Cell) (add : T → Item → Option T) :
    Nat → List (BitVec 32) → Kernel → T → Option (Kernel × Except T T)
  | _, [], k, t => some (k, .ok t)
  | turn, n :: rest, k, t =>
    match k.kmalloc fails (cell turn) with
    | (k, none) => some (k, .error t)
    | (k, some toAdd) => do
      let t ← add t ⟨toAdd, n⟩
      allocate fails cell add (turn + 1) rest k t

/-- The structures for the numbers, if all are allocated. -/
def items (cell : Nat → Cell) (turn : Nat) (nums : List (BitVec 32)) : List Item :=
  (nums.zipIdx turn).map fun (n, i) => ⟨cell i, n⟩

/-- Their memory. -/
def cells (l : List Item) : Finset Cell := (l.map Item.cell).toFinset

/-- Those before the first failure. -/
def allocated (fails : Cell → Bool) (l : List Item) : List Item := l.takeWhile (!fails ·.cell)

section
variable {fails : Cell → Bool} {cell : Nat → Cell} {turn : Nat} {nums : List (BitVec 32)}

theorem cells_nil : cells [] = ∅ := rfl

theorem cells_cons (x : Item) (l : List Item) : cells (x :: l) = {x.cell} ∪ cells l := by
  rw [cells, List.map_cons, List.toFinset_cons]
  rfl

theorem mem_cells {l : List Item} : c ∈ cells l ↔ ∃ x ∈ l, x.cell = c := by
  rw [cells, List.mem_toFinset, List.mem_map]

theorem sdiff_toFinset_cons (live : Finset Cell) (c : Cell) (l : List Cell) :
    live \ (c :: l).toFinset = live.erase c \ l.toFinset := by
  ext d
  rw [Finset.mem_sdiff, Finset.mem_sdiff, Finset.mem_erase, List.mem_toFinset, List.mem_toFinset,
    List.mem_cons]
  tauto

theorem sdiff_cells_cons (live : Finset Cell) (x : Item) (l : List Item) :
    live \ cells (x :: l) = live.erase x.cell \ cells l := sdiff_toFinset_cons ..

theorem erase_own {live leaked : Finset Cell} (notOld : c ∉ live) (notLeaked : c ∉ leaked) :
    (live ∪ {c} ∪ leaked).erase c = live ∪ leaked := by
  rw [Finset.erase_union_distrib, Finset.erase_union_distrib, Finset.erase_singleton,
    Finset.union_empty, Finset.erase_eq_of_notMem notOld, Finset.erase_eq_of_notMem notLeaked]

/-- The others are still in use when one of them has been freed. -/
theorem live_erase {live : Finset Cell} (distinct : ((x :: l).map Item.cell).Nodup)
    (all : ∀ y ∈ x :: l, y.cell ∈ live) : ∀ y ∈ l, y.cell ∈ live.erase x.cell := by
  intro y mem
  rw [Finset.mem_erase]
  refine ⟨fun same => ?_, all y (List.mem_cons_of_mem x mem)⟩
  apply (List.nodup_cons.mp distinct).1
  rw [← same]
  exact List.mem_map_of_mem mem

theorem lines_kfree (freed : List Cell) : lines (freed.map .kfree) = [] := by
  induction freed with
  | nil => rfl
  | cons c freed ih => exact ih

theorem lines_kfree_cells (l : List Item) : lines (l.map (.kfree ·.cell)) = [] := by
  have freed := lines_kfree (l.map Item.cell)
  rwa [List.map_map] at freed

/-- Structures that are in use can be freed one after the other. -/
theorem foldlM_kfree {l : List Item} (distinct : (l.map Item.cell).Nodup) {k : Kernel}
    (live : ∀ x ∈ l, x.cell ∈ k.live) : l.foldlM (fun k x => k.kfree (some x.cell)) k =
      some ⟨k.live \ cells l, k.trace ++ l.map (.kfree ·.cell)⟩ := by
  induction l generalizing k with
  | nil => rw [cells_nil, Finset.sdiff_empty, List.map_nil, List.append_nil]; rfl
  | cons x l ih =>
    rw [List.foldlM_cons, Kernel.kfree_live (live x List.mem_cons_self)]
    have rest := ih (k := ⟨k.live.erase x.cell, k.trace ++ [.kfree x.cell]⟩)
      (List.nodup_cons.mp distinct).2 (live_erase distinct live)
    rw [List.append_assoc] at rest
    rw [sdiff_cells_cons]
    exact rest

theorem items_cons (n : BitVec 32) (rest : List (BitVec 32)) :
    items cell turn (n :: rest) = ⟨cell turn, n⟩ :: items cell (turn + 1) rest := rfl

theorem map_data_items (cell : Nat → Cell) (turn : Nat) (nums : List (BitVec 32)) :
    (items cell turn nums).map Item.data = nums := by
  rw [items, List.map_map]
  exact List.zipIdx_map_fst turn nums

theorem length_items (cell : Nat → Cell) (turn : Nat) (nums : List (BitVec 32)) :
    (items cell turn nums).length = nums.length := by
  rw [items, List.length_map, List.length_zipIdx]

theorem mem_items : x ∈ items cell 0 nums ↔
    ∃ i, ∃ small : i < nums.length, x = ⟨cell i, nums[i]⟩ := by
  rw [items, List.mem_map]
  constructor
  · rintro ⟨⟨n, i⟩, mem, rfl⟩
    obtain ⟨small, same⟩ := List.mem_zipIdx' mem
    exact ⟨i, small, by rw [same]⟩
  · rintro ⟨i, small, rfl⟩
    exact ⟨(nums[i], i), List.mk_mem_zipIdx_iff_getElem?.mpr (List.getElem?_eq_getElem small), rfl⟩

theorem nodup_cells (distinct : Function.Injective cell) (turn : Nat) (nums : List (BitVec 32)) :
    ((items cell turn nums).map Item.cell).Nodup := by
  have cells : (items cell turn nums).map Item.cell =
      ((nums.zipIdx turn).map Prod.snd).map cell := by
    rw [items, List.map_map, List.map_map]
    rfl
  rw [cells, List.zipIdx_map_snd]
  exact (List.nodup_range' ..).map distinct

/-- What the loop allocates and adds, for a structure that can always be added to. -/
theorem allocate_eq (f : T → Item → T) (turn : Nat) (nums : List (BitVec 32)) (k : Kernel)
    (t : T) : allocate fails cell (fun t x => some (f t x)) turn nums k t =
      some ({ k with
          live := k.live ∪ cells (allocated fails (items cell turn nums)) },
        if ∀ x ∈ items cell turn nums, fails x.cell = false then
          .ok ((items cell turn nums).foldl f t)
        else .error ((allocated fails (items cell turn nums)).foldl f t)) := by
  induction nums generalizing turn k t with
  | nil =>
    have none : cells (allocated fails (items cell turn [])) = ∅ := rfl
    rw [none, Finset.union_empty]
    rfl
  | cons n rest ih =>
    rw [items_cons, allocated]
    cases failed : fails (cell turn) with
    | true =>
      rw [allocate, k.kmalloc_fails failed, List.takeWhile_cons_of_neg (by simp [failed]),
        cells_nil, Finset.union_empty, if_neg (by simp [failed])]
      rfl
    | false =>
      rw [allocate, k.kmalloc_succeeds failed, List.takeWhile_cons_of_pos (by simp [failed]),
        cells_cons, ← Finset.union_assoc]
      simp only [Option.bind_eq_bind, Option.bind_some, ih, List.foldl_cons, List.forall_mem_cons,
        failed, true_and, allocated]

theorem all_succeed (each : ∀ i < nums.length, fails (cell i) = false) :
    ∀ x ∈ items cell 0 nums, fails x.cell = false := by
  intro x mem
  obtain ⟨i, small, rfl⟩ := mem_items.mp mem
  exact each i small

theorem mem_live_cells {l : List Item} {live : Finset Cell} : ∀ x ∈ l, x.cell ∈ live ∪ cells l :=
  fun x mem => Finset.mem_union_right live (mem_cells.mpr ⟨x, mem, rfl⟩)

theorem allocate_all (f : T → Item → T)
    (all : ∀ x ∈ items cell 0 nums, fails x.cell = false) (k : Kernel) (t : T) :
    allocate fails cell (fun t x => some (f t x)) 0 nums k t =
      some ({ k with live := k.live ∪ cells (items cell 0 nums) },
        .ok ((items cell 0 nums).foldl f t)) := by
  have whole : allocated fails (items cell 0 nums) = items cell 0 nums :=
    List.takeWhile_eq_self_iff.mpr fun x mem => by simp [all x mem]
  rw [allocate_eq, whole, if_pos all]

theorem cells_eq_empty {l : List Item} : cells l = ∅ ↔ l = [] := by
  rw [cells, List.toFinset_eq_empty_iff, List.map_eq_nil_iff]

theorem allocated_eq_nil : allocated fails (items cell 0 nums) = [] ↔
    nums = [] ∨ fails (cell 0) = true := by
  cases nums with
  | nil => exact iff_of_true rfl (.inl rfl)
  | cons n rest =>
    rw [items_cons, allocated]
    cases failed : fails (cell 0) with
    | true => rw [List.takeWhile_cons_of_neg (by simp [failed])]; simp
    | false => rw [List.takeWhile_cons_of_pos (by simp [failed])]; simp

theorem mem_allocated (mem : x ∈ allocated fails (items cell 0 nums)) : ∃ i, x.cell = cell i := by
  obtain ⟨i, _, rfl⟩ := mem_items.mp ((List.takeWhile_sublist _).subset mem)
  exact ⟨i, rfl⟩

end
end CSE306.KDS
