import CSE306.KDS.Kernel
import CSE306.Teardown

/-! The hash table of the numbers. Its buckets are in memory that `kmalloc` has returned, and
they hold what that memory holds: nothing clears them. -/
namespace CSE306.KDS
open Hlist Perftop

abbrev IntTable := Hlist (BitVec 10) Item

/-- A walk over a chain that prints its entries. No result where it has more than `fuel`. -/
def printChain (line : BitVec 32 → Line) : Nat → IntTable → Option Item → Kernel → Option Kernel
  | _, _, none, k => some k
  | 0, _, some _, _ => none
  | fuel + 1, s, some position, k => do
    let k ← k.printData line (some position)
    printChain line fuel s (s.load (.next position)) k

/-- `hash_add`, which needs a table. -/
def hashAdd (htWrapper : Option Cell) (s : IntTable) (x : Item) : Option IntTable :=
  htWrapper.map fun _ => s.add (hash32 x.data) x

/-- The loop with `hash_for_each`. -/
def printTable (fuel : Nat) (s : IntTable) (k : Kernel) : Option Kernel :=
  buckets.foldlM (fun k b => printChain .hashForEach fuel s (s.first b) k) k

/-- `hash_for_each_possible` for one number. -/
def printPossible (fuel : Nat) (s : IntTable) (k : Kernel) (n : BitVec 32) : Option Kernel :=
  printChain .hashForEachPossible fuel s (s.first (hash32 n)) k

/-- What the loop that frees the entries does to the memory. Its read of a link that is in freed
memory by then uses none: that link is taken to be the NULL that `hash_del` left there. -/
def release (k : Kernel) : Access Item → Option Kernel
  | .kfree x => k.kfree (some x.cell)
  | .del _ | .next _ => some k

/-- The table is made of what the memory of the wrapper holds. -/
def playHashTable (fuel : Nat) (fails : Cell → Bool) (nums : List (BitVec 32)) (memory : IntTable)
    (k : Kernel) : Option (Done IntTable) := do
  let (k, htWrapper) := k.kmalloc fails .hashTable
  match ← allocate fails .hashNode (hashAdd htWrapper) 0 nums k memory with
  | (k, .error s) => return ⟨k, einval, s⟩
  | (k, .ok s) =>
    let table ← htWrapper
    let k ← printTable fuel s k
    let k ← nums.foldlM (printPossible fuel s) k
    let (s, accesses) ← playHashTableTeardown fuel s
    let k ← accesses.foldlM release k
    let k ← k.kfree (some table)
    return ⟨k, 0, s⟩

theorem hashNode_injective : Function.Injective Cell.hashNode :=
  fun _ _ same => by cases same; rfl

section
variable {s : IntTable} {x : Chains (BitVec 10) Item} {k : Kernel}

theorem printChain_eq (line : BitVec 32 → Line) {slot : Slot (BitVec 10) Item} {l : List Item}
    (path : s.Path slot l) (enough : l.length ≤ fuel) (live : ∀ x ∈ l, x.cell ∈ k.live) :
    printChain line fuel s (s.load slot) k =
      some { k with trace := k.trace ++ l.flatMap (shown line) } := by
  rw [← printEach_eq line l live]
  induction l generalizing slot fuel k with
  | nil =>
    rw [path.load]
    cases fuel <;> rfl
  | cons x l ih =>
    obtain ⟨fuel, rfl⟩ := Nat.exists_eq_succ_of_ne_zero (Nat.ne_zero_of_lt enough)
    obtain ⟨here, _, rest⟩ := path
    obtain ⟨first, later⟩ := List.forall_mem_cons.mp live
    rw [here, printChain, printEach, List.foldlM_cons, k.printData_live line first]
    exact ih rest (Nat.le_of_succ_le_succ enough) later

/-- The chains are short, and their entries are in use. -/
structure Walkable (x : Chains (BitVec 10) Item) (fuel : Nat) (live : Finset Cell) : Prop where
  short : ∀ b, (x.chain b).length ≤ fuel
  live : ∀ b, ∀ y ∈ x.chain b, y.cell ∈ live

theorem printTable_eq (held : s.Represents x) (walkable : Walkable x fuel k.live) :
    printTable fuel s k = some { k with
      trace := k.trace ++ (buckets.flatMap x.chain).flatMap (shown .hashForEach) } := by
  rw [printTable]
  generalize buckets = order
  induction order generalizing k with
  | nil => rw [List.flatMap_nil, List.flatMap_nil, List.append_nil]; rfl
  | cons b order ih =>
    have first := printChain_eq .hashForEach (held b) (walkable.short b) (walkable.live b)
    have rest := ih (k := { k with
      trace := k.trace ++ (x.chain b).flatMap (shown .hashForEach) }) walkable
    rw [List.append_assoc, ← List.flatMap_append] at rest
    rw [List.foldlM_cons, List.flatMap_cons]
    exact (congrArg (· >>= _) first).trans rest

theorem printPossible_eq (held : s.Represents x) (walkable : Walkable x fuel k.live)
    (n : BitVec 32) : printPossible fuel s k n = some { k with
      trace := k.trace ++ (x.chain (hash32 n)).flatMap (shown .hashForEachPossible) } :=
  printChain_eq .hashForEachPossible (held _) (walkable.short _) (walkable.live _)

theorem foldlM_printPossible (held : s.Represents x) (walkable : Walkable x fuel k.live)
    (nums : List (BitVec 32)) : nums.foldlM (printPossible fuel s) k = some { k with
      trace := k.trace ++ (nums.flatMap fun n => x.chain (hash32 n)).flatMap
        (shown .hashForEachPossible) } := by
  induction nums generalizing k with
  | nil => rw [List.flatMap_nil, List.flatMap_nil, List.append_nil]; rfl
  | cons n nums ih =>
    have first := printPossible_eq held walkable n
    have rest := ih (k := { k with
      trace := k.trace ++ (x.chain (hash32 n)).flatMap (shown .hashForEachPossible) }) walkable
    rw [List.append_assoc, ← List.flatMap_append] at rest
    rw [List.foldlM_cons, List.flatMap_cons]
    exact (congrArg (· >>= _) first).trans rest

/-- The first entries of the chains. -/
def heads (x : Chains (BitVec 10) Item) (order : List (BitVec 10)) : List Item :=
  order.filterMap fun b => (x.chain b).head?

theorem foldlM_release (x : Chains (BitVec 10) Item) (order : List (BitVec 10)) (k : Kernel) :
    (order.flatMap (freed x)).foldlM release k =
      (heads x order).foldlM (fun k y => k.kfree (some y.cell)) k := by
  induction order generalizing k with
  | nil => rfl
  | cons b order ih =>
    rw [List.flatMap_cons, List.foldlM_append, heads, List.filterMap_cons, freed]
    cases (x.chain b).head? with
    | none => exact ih k
    | some y =>
      rw [List.foldlM_cons]
      simp only [List.foldlM_cons, release, List.foldlM_nil, Option.bind_eq_bind,
        Option.pure_def, Option.bind_some, Option.bind_fun_some]
      exact congrArg _ (funext ih)

theorem mem_heads {order : List (BitVec 10)} (mem : y ∈ heads x order) :
    ∃ b ∈ order, y ∈ x.chain b := by
  obtain ⟨b, there, first⟩ := List.mem_filterMap.mp mem
  exact ⟨b, there, List.mem_of_head? first⟩

theorem nodup_heads {order : List (BitVec 10)} (distinct : order.Nodup) :
    (heads x order).Nodup := by
  induction order with
  | nil => exact List.nodup_nil
  | cons b order ih =>
    obtain ⟨notLater, distinct⟩ := List.nodup_cons.mp distinct
    rw [heads, List.filterMap_cons]
    cases first : (x.chain b).head? with
    | none => exact ih distinct
    | some y =>
      refine List.nodup_cons.mpr ⟨fun again => ?_, ih distinct⟩
      obtain ⟨c, later, mem⟩ := mem_heads again
      exact notLater (x.apart c b y mem (List.mem_of_head? first) ▸ later)

/-- The table after all numbers were added to an empty one. -/
structure FilledTable (l : List Item) (s : IntTable) (x : Chains (BitVec 10) Item) : Prop where
  held : s.Represents x
  chain : ∀ b, x.chain b = (l.filter (hash32 ·.data = b)).reverse

theorem exists_filled {memory : IntTable} (held : memory.Represents x) {l : List Item}
    (distinct : (l.map Item.cell).Nodup) (fresh : ∀ y ∈ l, ∀ b, y ∉ x.chain b) :
    ∃ z, (l.foldl (fun s y => s.add (hash32 y.data) y) memory).Represents z ∧
      ∀ b, z.chain b = (l.filter (hash32 ·.data = b)).reverse ++ x.chain b := by
  have nodup : (l.map id).Nodup := by
    rw [List.map_id]
    exact List.Nodup.of_map _ distinct
  obtain ⟨z, represents, chains⟩ := held.foldl_add (hash32 ·.data) id l fresh nodup
  refine ⟨z, represents, fun b => ?_⟩
  rw [chains, List.map_id]

theorem exists_filledTable {memory : IntTable} (empty : ∀ b, memory.first b = none) {l : List Item}
    (distinct : (l.map Item.cell).Nodup) :
    ∃ x, FilledTable l (l.foldl (fun s y => s.add (hash32 y.data) y) memory) x := by
  have held : memory.Represents .empty := fun b => empty b
  obtain ⟨x, represents, chains⟩ := exists_filled held distinct fun _ _ _ => List.not_mem_nil
  refine ⟨x, represents, fun b => ?_⟩
  rw [chains]
  exact List.append_nil _

namespace FilledTable
variable {l : List Item}

theorem mem_chain (filled : FilledTable l s x) : y ∈ x.chain b ↔ y ∈ l ∧ hash32 y.data = b := by
  rw [filled.chain, List.mem_reverse, List.mem_filter, decide_eq_true_eq]

theorem walkable (filled : FilledTable l s x) (enough : l.length ≤ fuel) {live : Finset Cell}
    (all : ∀ y ∈ l, y.cell ∈ live) : Walkable x fuel live where
  short b := by
    rw [filled.chain, List.length_reverse]
    exact (List.length_filter_le _ _).trans enough
  live b y mem := all y (filled.mem_chain.mp mem).1

theorem heads_subset (filled : FilledTable l s x) : ∀ y ∈ heads x buckets, y ∈ l := by
  intro y mem
  obtain ⟨b, _, there⟩ := mem_heads mem
  exact (filled.mem_chain.mp there).1

theorem nodup_cells_heads (filled : FilledTable l s x) (distinct : (l.map Item.cell).Nodup) :
    ((heads x buckets).map Item.cell).Nodup := by
  apply List.Nodup.map_on _ (nodup_heads nodup_buckets)
  intro y mem z mem' same
  exact List.inj_on_of_nodup_map distinct (filled.heads_subset y mem) (filled.heads_subset z mem')
    same

theorem heads_all (filled : FilledTable l s x)
    (apart : (l.map fun y => hash32 y.data).Nodup) : ∀ y ∈ l, y ∈ heads x buckets := by
  intro y mem
  have only : ∀ z ∈ x.chain (hash32 y.data), z = y := by
    intro z there
    obtain ⟨mem', same⟩ := filled.mem_chain.mp there
    exact List.inj_on_of_nodup_map apart mem' mem same
  refine List.mem_filterMap.mpr ⟨hash32 y.data, mem_buckets _, ?_⟩
  have here : y ∈ x.chain (hash32 y.data) := filled.mem_chain.mpr ⟨mem, rfl⟩
  cases chain : x.chain (hash32 y.data) with
  | nil =>
    rw [chain] at here
    cases here
  | cons z rest =>
    rw [List.head?_cons, only z (chain ▸ List.mem_cons_self)]

end FilledTable

theorem playHashTable_noTable {fails : Cell → Bool} (failed : fails .hashTable = true)
    (fuel : Nat) (nums : List (BitVec 32)) (memory : IntTable) (k : Kernel) :
    playHashTable fuel fails nums memory k =
      if 0 < nums.length ∧ fails (.hashNode 0) = true then some ⟨k, einval, memory⟩ else none := by
  rw [playHashTable, Kernel.kmalloc_fails failed]
  cases nums with
  | nil =>
    rw [if_neg fun both => absurd both.1 (Nat.lt_irrefl 0)]
    simp only [allocate, Option.bind_eq_bind, Option.bind_some, Option.bind_none]
  | cons n rest =>
    cases first : fails (.hashNode 0) with
    | true =>
      rw [if_pos ⟨Nat.succ_pos _, rfl⟩]
      simp only [allocate, Kernel.kmalloc_fails first, Option.bind_eq_bind, Option.bind_some]
      rfl
    | false =>
      rw [if_neg fun both => Bool.false_ne_true both.2]
      simp only [allocate, Kernel.kmalloc_succeeds first, hashAdd, Option.map_none,
        Option.bind_eq_bind, Option.bind_none]

theorem playHashTable_einval {fails : Cell → Bool} (table : fails .hashTable = false)
    {nums : List (BitVec 32)} (missing : ¬∀ y ∈ items .hashNode 0 nums, fails y.cell = false)
    (fuel : Nat) (memory : IntTable) (k : Kernel) : playHashTable fuel fails nums memory k =
      some ⟨{ k with
          live := k.live ∪ {.hashTable} ∪ cells (allocated fails (items .hashNode 0 nums)) },
        einval, (allocated fails (items .hashNode 0 nums)).foldl
          (fun s y => s.add (hash32 y.data) y) memory⟩ := by
  have filling : allocate fails .hashNode (hashAdd (some .hashTable)) 0 nums
      { k with live := k.live ∪ {.hashTable} } memory = _ :=
    allocate_eq (fun s y => s.add (hash32 y.data) y) 0 nums _ memory
  rw [if_neg missing] at filling
  rw [playHashTable, Kernel.kmalloc_succeeds table]
  simp only [Option.bind_eq_bind, filling, Option.bind_some]
  rfl

/-- What the function does once the chains of its table are in order. -/
theorem playHashTable_eq {fails : Cell → Bool} (table : fails .hashTable = false)
    {nums : List (BitVec 32)} {memory : IntTable} {k' : Kernel}
    (filling : allocate fails .hashNode (hashAdd (some .hashTable)) 0 nums
      { k with live := k.live ∪ {.hashTable} } memory = some (k', .ok s))
    (held : s.Represents x) (walkable : Walkable x fuel k'.live) (room : 0 < fuel)
    (distinct : ((heads x buckets).map Item.cell).Nodup)
    (apart : ∀ y ∈ heads x buckets, y.cell ≠ .hashTable) (inUse : .hashTable ∈ k'.live) :
    ∃ t, playHashTable fuel fails nums memory k = some ⟨⟨(k'.live \ cells (heads x buckets)).erase
      .hashTable, k'.trace ++ (buckets.flatMap x.chain).flatMap (shown .hashForEach) ++
        (nums.flatMap fun n => x.chain (hash32 n)).flatMap (shown .hashForEachPossible) ++
        (heads x buckets).map (.kfree ·.cell) ++ [.kfree .hashTable]⟩, 0, t⟩ := by
  have printed := printTable_eq held walkable
  have looked := foldlM_printPossible (k := { k' with
    trace := k'.trace ++ (buckets.flatMap x.chain).flatMap (shown .hashForEach) })
    held walkable nums
  obtain ⟨fuel, rfl⟩ := Nat.exists_eq_succ_of_ne_zero room.ne'
  obtain ⟨t, accesses, torn, emptied⟩ :=
    hashForEach_emptied fuel nodup_buckets mem_buckets held
  rw [emptied.shown] at torn
  have released : ∀ trace, (buckets.flatMap (freed x)).foldlM release ⟨k'.live, trace⟩ =
      some ⟨k'.live \ cells (heads x buckets),
        trace ++ (heads x buckets).map (.kfree ·.cell)⟩ := by
    intro trace
    rw [foldlM_release]
    refine foldlM_kfree distinct fun y mem => ?_
    obtain ⟨b, _, there⟩ := mem_heads mem
    exact walkable.live b y there
  have tableLive : .hashTable ∈ k'.live \ cells (heads x buckets) := by
    refine Finset.mem_sdiff.mpr ⟨inUse, fun mem => ?_⟩
    obtain ⟨y, there, same⟩ := mem_cells.mp mem
    exact apart y there same
  refine ⟨t, ?_⟩
  rw [playHashTable, Kernel.kmalloc_succeeds table]
  simp only [Option.bind_eq_bind, filling, Option.bind_some, printed, looked,
    playHashTableTeardown, torn, released]
  rw [Kernel.kfree_live tableLive]
  rfl

/-- What the function does when nothing fails and the memory of the table is cleared. -/
theorem playHashTable_completes (fails : Cell → Bool) {nums : List (BitVec 32)}
    (enough : nums.length < fuel) (table : fails .hashTable = false)
    (all : ∀ y ∈ items .hashNode 0 nums, fails y.cell = false) {memory : IntTable}
    (empty : ∀ b, memory.first b = none) (k : Kernel) :
    ∃ s x t start looked, FilledTable (items .hashNode 0 nums) s x ∧
      allocate fails .hashNode (hashAdd (some .hashTable)) 0 nums
        { k with live := k.live ∪ {.hashTable} } memory =
          some ({ k with live := k.live ∪ {.hashTable} ∪ cells (items .hashNode 0 nums) }, .ok s) ∧
      printTable fuel s { k with
        live := k.live ∪ {.hashTable} ∪ cells (items .hashNode 0 nums) } = some start ∧
      start.live = k.live ∪ {.hashTable} ∪ cells (items .hashNode 0 nums) ∧
      nums.foldlM (printPossible fuel s) start = some looked ∧
      playHashTable fuel fails nums memory k = some ⟨⟨(start.live \ cells (heads x buckets)).erase
        .hashTable, looked.trace ++ (heads x buckets).map (.kfree ·.cell) ++
          [.kfree .hashTable]⟩, 0, t⟩ := by
  have distinct : ((items .hashNode 0 nums).map Item.cell).Nodup :=
    nodup_cells hashNode_injective 0 nums
  have length := length_items .hashNode 0 nums
  have apart : ∀ y ∈ items .hashNode 0 nums, y.cell ≠ .hashTable := by
    intro y mem same
    obtain ⟨i, _, rfl⟩ := mem_items.mp mem
    cases same
  have filling := allocate_all (fun s y => s.add (hash32 y.data) y) all
    { k with live := k.live ∪ {.hashTable} } memory
  generalize items .hashNode 0 nums = l at *
  obtain ⟨x, filled⟩ := exists_filledTable empty distinct
  generalize l.foldl (fun s y => s.add (hash32 y.data) y) memory = s at filled filling
  have walkable : Walkable x fuel (k.live ∪ {.hashTable} ∪ cells l) :=
    filled.walkable (length ▸ enough.le) mem_live_cells
  obtain ⟨t, played⟩ := playHashTable_eq table filling filled.held walkable
    (Nat.zero_lt_of_lt enough) (filled.nodup_cells_heads distinct)
    (fun y mem => apart y (filled.heads_subset y mem))
    (Finset.mem_union_left _ (Finset.mem_union_right _ (Finset.mem_singleton_self _)))
  exact ⟨s, x, t, _, _, filled, filling, printTable_eq filled.held walkable, rfl,
    foldlM_printPossible filled.held walkable nums, played⟩

/-- Each lookup prints its number as often as it was inserted, and nothing else. -/
def LookupsExact (fuel : Nat) (s : IntTable) (start : Kernel) (nums : List (BitVec 32)) : Prop :=
  ∀ i, ∀ small : i < nums.length, ∃ before after,
    (nums.take i).foldlM (printPossible fuel s) start = some before ∧
    printPossible fuel s before nums[i] = some after ∧
    after.printed = before.printed ++
      List.replicate (nums.count nums[i]) (.hashForEachPossible nums[i])

theorem filter_bucket_iff (bucket : BitVec 32 → BitVec 10) (nums : List (BitVec 32)) :
    (∀ n ∈ nums, (nums.filter (bucket · = bucket n)).reverse = List.replicate (nums.count n) n) ↔
      ∀ a ∈ nums, ∀ b ∈ nums, bucket a = bucket b → a = b := by
  constructor
  · intro exact_ a mem b mem' same
    have there : a ∈ (nums.filter (bucket · = bucket b)).reverse := by
      rw [List.mem_reverse, List.mem_filter]
      exact ⟨mem, decide_eq_true same⟩
    rw [exact_ b mem'] at there
    exact List.eq_of_mem_replicate there
  · intro apart n mem
    have own : nums.filter (bucket · = bucket n) = nums.filter (· == n) := by
      apply List.filter_congr
      intro m mem'
      by_cases same : m = n
      · simp [same]
      · have elsewhere : bucket m ≠ bucket n := fun collide => same (apart m mem' n mem collide)
        simp [same, elsewhere]
    rw [own, List.filter_beq, List.reverse_replicate]

theorem FilledTable.data_chain {nums : List (BitVec 32)}
    (filled : FilledTable (items .hashNode 0 nums) s x) (b : BitVec 10) :
    (x.chain b).map Item.data = (nums.filter (hash32 · = b)).reverse := by
  have data := map_data_items .hashNode 0 nums
  rw [filled.chain, List.map_reverse]
  conv_rhs => rw [← data, List.filter_map]
  rfl

theorem FilledTable.lookupsExact_iff {nums : List (BitVec 32)} {start : Kernel}
    (filled : FilledTable (items .hashNode 0 nums) s x) (walkable : Walkable x fuel start.live) :
    LookupsExact fuel s start nums ↔ ∀ a ∈ nums, ∀ b ∈ nums, hash32 a = hash32 b → a = b := by
  rw [← filter_bucket_iff]
  have turn : ∀ (n : BitVec 32) (k : Kernel), k.live = start.live →
      ∃ after, printPossible fuel s k n = some after ∧ (after.printed = k.printed ++
        List.replicate (nums.count n) (.hashForEachPossible n) ↔
          (nums.filter (hash32 · = hash32 n)).reverse = List.replicate (nums.count n) n) := by
    intro n k same
    refine ⟨_, printPossible_eq filled.held (same ▸ walkable) n, ?_⟩
    have injective : Function.Injective Line.hashForEachPossible :=
      fun _ _ same => by cases same; rfl
    rw [Kernel.printed, lines_append, lines_shown, filled.data_chain, ← List.map_replicate]
    exact List.append_right_inj _ |>.trans (List.map_injective_iff.mpr injective).eq_iff
  constructor
  · intro exact_ n mem
    obtain ⟨i, small, rfl⟩ := List.getElem_of_mem mem
    obtain ⟨before, after, looked, now, printed⟩ := exact_ i small
    rw [foldlM_printPossible filled.held walkable, Option.some_inj] at looked
    obtain ⟨after', now', iff⟩ := turn nums[i] before (by rw [← looked])
    rw [now, Option.some_inj] at now'
    exact iff.mp (now' ▸ printed)
  · intro exact_ i small
    obtain ⟨before, looked, live⟩ : ∃ before,
        (nums.take i).foldlM (printPossible fuel s) start = some before ∧
          before.live = start.live := ⟨_, foldlM_printPossible filled.held walkable _, rfl⟩
    obtain ⟨after, now, iff⟩ := turn nums[i] before live
    exact ⟨before, after, looked, now, iff.mpr (exact_ _ (List.getElem_mem small))⟩

end

/-- The lookups print the numbers that were looked up where no two of the numbers that
differ are in one bucket: the walk prints the whole bucket. -/
theorem lookups_exact_iff (fails : Cell → Bool) (nums : List (BitVec 32)) (fuel : Nat)
    (enough : nums.length < fuel) (table : fails .hashTable = false)
    (nodes : ∀ i < nums.length, fails (.hashNode i) = false) (memory : IntTable)
    (empty : ∀ b, memory.first b = none) (k : Kernel) :
    ∃ filled s start looked done, allocate fails .hashNode (hashAdd (some .hashTable)) 0 nums
        { k with live := k.live ∪ {.hashTable} } memory = some (filled, .ok s) ∧
      printTable fuel s filled = some start ∧
      nums.foldlM (printPossible fuel s) start = some looked ∧
      playHashTable fuel fails nums memory k = some done ∧
      done.kernel.printed = looked.printed ∧
      (LookupsExact fuel s start nums ↔
        ∀ a ∈ nums, ∀ b ∈ nums, hash32 a = hash32 b → a = b) := by
  obtain ⟨s, x, t, start, looked, filled, filling, printed, live, lookups, played⟩ :=
    playHashTable_completes fails enough table (all_succeed nodes) empty k
  have walkable := filled.walkable (length_items .hashNode 0 nums ▸ enough.le)
    (fun y mem => live ▸ mem_live_cells y mem)
  refine ⟨_, s, start, looked, _, filling, printed, lookups, played, ?_,
    filled.lookupsExact_iff walkable⟩
  rw [Kernel.printed, lines_append, lines_append, lines_kfree_cells]
  exact (List.append_nil _).trans (List.append_nil _)

theorem lookups_exact_iff_three : ∃ filled s start,
    allocate (fun _ => false) .hashNode (hashAdd (some .hashTable)) 0 [3, 5, 3]
        ⟨{.hashTable}, []⟩ .empty = some (filled, .ok s) ∧
      printTable 4 s filled = some start ∧ LookupsExact 4 s start [3, 5, 3] := by
  obtain ⟨filled, s, start, _, _, filling, printed, _, _, _, iff⟩ :=
    lookups_exact_iff (fun _ => false) [3, 5, 3] 4 (by decide) rfl (fun _ _ => rfl) .empty
      (fun _ => rfl) ⟨∅, []⟩
  exact ⟨filled, s, start, filling, printed, iff.mpr (by simp [hash32])⟩

/-- 6 and 616 are in one bucket, and the lookup of each prints both. -/
theorem lookup_prints_another_number :
    hash32 6 = hash32 616 ∧ ∃ filled s start done,
      allocate (fun _ => false) .hashNode (hashAdd (some .hashTable)) 0 [6, 616]
        ⟨{.hashTable}, []⟩ .empty = some (filled, .ok s) ∧
      printTable 3 s filled = some start ∧
      playHashTable 3 (fun _ => false) [6, 616] .empty ⟨∅, []⟩ = some done ∧
      done.kernel.printed = [.hashForEach 616, .hashForEach 6, .hashForEachPossible 616,
        .hashForEachPossible 6, .hashForEachPossible 616, .hashForEachPossible 6] ∧
      ¬ LookupsExact 3 s start [6, 616] := by
  refine ⟨by decide, ?_⟩
  have none : ∀ b, (empty : IntTable).first b = none := fun _ => rfl
  have short : ([6, 616] : List (BitVec 32)).length < 3 := by decide
  have length : (items .hashNode 0 [6, 616]).length ≤ 3 := by decide
  obtain ⟨s, x, t, start, _, filled, filling, printed, live, _, played⟩ :=
    playHashTable_completes (fun _ => false) short rfl (fun _ _ => rfl) none ⟨∅, []⟩
  have lines : (playHashTable 3 (fun _ => false) [6, 616] .empty ⟨∅, []⟩).map (·.kernel.printed) =
      some [.hashForEach 616, .hashForEach 6, .hashForEachPossible 616,
        .hashForEachPossible 6, .hashForEachPossible 616, .hashForEachPossible 6] := by
    decide +kernel
  rw [played] at lines
  refine ⟨_, s, start, _, filling, printed, played, Option.some.inj lines, ?_⟩
  rw [filled.lookupsExact_iff (filled.walkable length fun y mem => live ▸ mem_live_cells y mem)]
  exact fun apart => absurd (apart 6 (by decide) 616 (by decide) (by decide)) (by decide)

end CSE306.KDS
