import CSE306.KDS.HashTable
import CSE306.Perftop.Stale
import Mathlib.Algebra.Order.BigOperators.Group.List
import Mathlib.Algebra.Order.Group.Nat

/-! The two hash tables in memory that holds what was there before. -/
namespace CSE306.KDS
open Hlist Perftop Transition

/-- The lines printed, where the memory of the wrapper holds these links. -/
def linesWith (fuel : Nat) (fails : Cell → Bool) (nums : List (BitVec 32)) (k : Kernel)
    (memory : IntTable) : Option (List Line) :=
  (playHashTable fuel fails nums memory k).map (·.kernel.printed)

section
variable {s : IntTable} {x : Chains (BitVec 10) Item} {k : Kernel}

/-- A walk does not get past an entry that was freed. -/
theorem printChain_dangling (line : BitVec 32 → Line) {slot : Slot (BitVec 10) Item}
    {l : List Item} (path : s.Path slot l) (dangling : ∃ y ∈ l, y.cell ∉ k.live) :
    printChain line fuel s (s.load slot) k = none := by
  induction l generalizing slot fuel k with
  | nil =>
    obtain ⟨_, mem, _⟩ := dangling
    cases mem
  | cons y l ih =>
    obtain ⟨here, _, rest⟩ := path
    rw [here]
    cases fuel with
    | zero => rfl
    | succ fuel =>
      by_cases live : y.cell ∈ k.live
      · rw [printChain, k.printData_live line live]
        apply ih rest
        obtain ⟨z, mem, freed⟩ := dangling
        cases mem with
        | head => exact absurd live freed
        | tail _ mem => exact ⟨z, mem, freed⟩
      · rw [printChain, Kernel.printData, if_neg live]
        rfl

theorem printTable_dangling (held : s.Represents x) (short : ∀ b, (x.chain b).length ≤ fuel)
    (dangling : ∃ b, ∃ y ∈ x.chain b, y.cell ∉ k.live) : printTable fuel s k = none := by
  obtain ⟨b, there⟩ := dangling
  have mem := mem_buckets b
  rw [printTable]
  generalize buckets = order at mem
  induction order generalizing k with
  | nil => cases mem
  | cons c order ih =>
    rw [List.foldlM_cons]
    by_cases here : ∃ y ∈ x.chain c, y.cell ∉ k.live
    · have stops : printChain .hashForEach fuel s (s.first c) k = none :=
        printChain_dangling .hashForEach (held c) here
      exact congrArg (· >>= _) stops
    · have live : ∀ y ∈ x.chain c, y.cell ∈ k.live := by simpa using here
      have first := printChain_eq .hashForEach (held c) (short c) live
      refine (congrArg (· >>= _) first).trans (ih there ?_)
      cases mem with
      | head => exact absurd there here
      | tail _ mem => exact mem

/-- Chains that were in the memory before, of entries that the function has not made. -/
structure Stale (x : Chains (BitVec 10) Item) : Prop where
  other : ∀ b, ∀ y ∈ x.chain b, ∃ addr, y.cell = .other addr
  apart : ∀ b c, ∀ y ∈ x.chain b, ∀ z ∈ x.chain c, y.cell = z.cell → y = z

theorem Stale.notHashNode (stale : Stale x) (mem : y ∈ x.chain b) : y.cell ≠ .hashNode i := by
  obtain ⟨addr, other⟩ := stale.other b y mem
  rw [other]
  exact Cell.noConfusion

theorem Stale.notHashTable (stale : Stale x) (mem : y ∈ x.chain b) : y.cell ≠ .hashTable := by
  obtain ⟨addr, other⟩ := stale.other b y mem
  rw [other]
  exact Cell.noConfusion

theorem stale_empty : Stale Chains.empty where
  other _ _ mem := by cases mem
  apart _ _ _ mem := by cases mem

/-- An entry of another table, which a bucket still has. -/
def leftOverItem : Item := ⟨.other 0, 7⟩

def leftOverTable : IntTable := Hlist.empty.add 0 leftOverItem

def leftOver : Chains (BitVec 10) Item :=
  Chains.empty.push 0 leftOverItem fun _ => List.not_mem_nil

theorem represents_leftOver : leftOverTable.Represents leftOver := represents_empty.add 0 _

theorem leftOver_chain (b : BitVec 10) :
    leftOver.chain b = if b = 0 then [leftOverItem] else [] := Chains.push_chain ..

theorem mem_leftOver : y ∈ leftOver.chain b ↔ b = 0 ∧ y = leftOverItem := by
  rw [leftOver_chain]
  split
  · rename_i here
    rw [List.mem_singleton, and_iff_right here]
  · rename_i elsewhere
    exact iff_of_false List.not_mem_nil fun mem => elsewhere mem.1

theorem stale_leftOver : Stale leftOver where
  other b y mem := ⟨0, by rw [(mem_leftOver.mp mem).2]; rfl⟩
  apart b c y mem z mem' _ := (mem_leftOver.mp mem).2.trans (mem_leftOver.mp mem').2.symm

/-- All lines for chains that can be walked. -/
def allLines (nums : List (BitVec 32)) (x : Chains (BitVec 10) Item) : List Line :=
  ((buckets.flatMap x.chain).map Item.data).map .hashForEach ++
    ((nums.flatMap fun n => x.chain (hash32 n)).map Item.data).map .hashForEachPossible

theorem playHashTable_dangling {fails : Cell → Bool} (table : fails .hashTable = false)
    {nums : List (BitVec 32)} {memory : IntTable} {k' : Kernel}
    (filling : allocate fails .hashNode (hashAdd (some .hashTable)) 0 nums
      { k with live := k.live ∪ {.hashTable} } memory = some (k', .ok s))
    (stops : printTable fuel s k' = none) : playHashTable fuel fails nums memory k = none := by
  rw [playHashTable, Kernel.kmalloc_succeeds table]
  simp only [Option.bind_eq_bind, filling, Option.bind_some, stops, Option.bind_none]

/-- The chains `z` have the numbers `l` in front of the stale chains `x`. -/
structure Overlaid (l : List Item) (x z : Chains (BitVec 10) Item) : Prop where
  stale : Stale x
  node : ∀ y ∈ l, ∃ i, y.cell = .hashNode i
  distinct : (l.map Item.cell).Nodup
  chain : ∀ b, z.chain b = (l.filter (hash32 ·.data = b)).reverse ++ x.chain b

namespace Overlaid
variable {l : List Item} {z : Chains (BitVec 10) Item}

theorem mem_chain (overlaid : Overlaid l x z) (mem : y ∈ z.chain b) : y ∈ l ∨ y ∈ x.chain b := by
  rw [overlaid.chain, List.mem_append, List.mem_reverse, List.mem_filter] at mem
  exact mem.imp And.left id

theorem length_le (overlaid : Overlaid l x z) (b : BitVec 10) :
    (z.chain b).length ≤ l.length + (x.chain b).length := by
  rw [overlaid.chain, List.length_append, List.length_reverse]
  exact Nat.add_le_add_right (List.length_filter_le _ _) _

/-- An entry is known by where it is. -/
theorem eq_of_cell (overlaid : Overlaid l x z) (mem : y ∈ z.chain b) (mem' : y' ∈ z.chain c)
    (same : y.cell = y'.cell) : y = y' := by
  cases overlaid.mem_chain mem with
  | inl new =>
    cases overlaid.mem_chain mem' with
    | inl new' => exact List.inj_on_of_nodup_map overlaid.distinct new new' same
    | inr old' =>
      obtain ⟨i, cell⟩ := overlaid.node y new
      exact absurd (same.symm.trans cell) (overlaid.stale.notHashNode old')
  | inr old =>
    cases overlaid.mem_chain mem' with
    | inl new' =>
      obtain ⟨i, cell⟩ := overlaid.node y' new'
      exact absurd (same.trans cell) (overlaid.stale.notHashNode old)
    | inr old' => exact overlaid.stale.apart b c y old y' old' same

theorem nodup_heads (overlaid : Overlaid l x z) :
    ((heads z buckets).map Item.cell).Nodup := by
  apply List.Nodup.map_on _ (KDS.nodup_heads nodup_buckets)
  intro y mem y' mem' same
  obtain ⟨b, _, there⟩ := mem_heads mem
  obtain ⟨c, _, there'⟩ := mem_heads mem'
  exact overlaid.eq_of_cell there there' same

theorem notHashTable (overlaid : Overlaid l x z) (mem : y ∈ z.chain b) : y.cell ≠ .hashTable := by
  cases overlaid.mem_chain mem with
  | inl new =>
    obtain ⟨i, cell⟩ := overlaid.node y new
    rw [cell]
    exact Cell.noConfusion
  | inr old => exact overlaid.stale.notHashTable old

theorem live (overlaid : Overlaid l x z) (inUse : ∀ b, ∀ y ∈ x.chain b, y.cell ∈ k.live) :
    ∀ b, ∀ y ∈ z.chain b, y.cell ∈ k.live ∪ {.hashTable} ∪ cells l := by
  intro b y mem
  cases overlaid.mem_chain mem with
  | inl new => exact mem_live_cells y new
  | inr old => exact Finset.mem_union_left _ (Finset.mem_union_left _ (inUse b y old))

/-- What is allocated now is not what a stale entry points to. -/
theorem dangling (overlaid : Overlaid l x z) (freed : ∃ b, ∃ y ∈ x.chain b, y.cell ∉ k.live) :
    ∃ b, ∃ y ∈ z.chain b, y.cell ∉ k.live ∪ {.hashTable} ∪ cells l := by
  obtain ⟨b, y, old, freed⟩ := freed
  refine ⟨b, y, by rw [overlaid.chain]; exact List.mem_append_right _ old, fun mem => ?_⟩
  rcases Finset.mem_union.mp mem with mem | mem
  · rcases Finset.mem_union.mp mem with mem | mem
    · exact freed mem
    · exact overlaid.stale.notHashTable old (Finset.mem_singleton.mp mem)
  · obtain ⟨y', new, same⟩ := mem_cells.mp mem
    obtain ⟨i, cell⟩ := overlaid.node y' new
    exact overlaid.stale.notHashNode old (same.symm.trans cell)

end Overlaid

theorem exists_overlaid {memory : IntTable} (held : memory.Represents x) (stale : Stale x)
    (nums : List (BitVec 32)) : ∃ z, Overlaid (items .hashNode 0 nums) x z ∧
      ((items .hashNode 0 nums).foldl (fun s y => s.add (hash32 y.data) y)
        memory).Represents z := by
  have node : ∀ y ∈ items .hashNode 0 nums, ∃ i, y.cell = .hashNode i := by
    intro y mem
    obtain ⟨i, _, rfl⟩ := mem_items.mp mem
    exact ⟨i, rfl⟩
  have distinct := nodup_cells hashNode_injective 0 nums
  obtain ⟨z, filled, chain⟩ := exists_filled held distinct (by
    intro y mem b old
    obtain ⟨i, new⟩ := node y mem
    exact stale.notHashNode old new)
  exact ⟨z, ⟨stale, node, distinct, chain⟩, filled⟩

/-- What is printed over stale chains: they follow the numbers of their buckets. -/
theorem linesWith_stale {fails : Cell → Bool} (table : fails .hashTable = false)
    {nums : List (BitVec 32)} (all : ∀ y ∈ items .hashNode 0 nums, fails y.cell = false)
    {memory : IntTable} (held : memory.Represents x) (stale : Stale x)
    (short : ∀ b, nums.length + (x.chain b).length ≤ fuel) (room : 0 < fuel) (k : Kernel) :
    ∃ z, Overlaid (items .hashNode 0 nums) x z ∧
      ((∀ b, ∀ y ∈ x.chain b, y.cell ∈ k.live) →
        linesWith fuel fails nums k memory = some (k.printed ++ allLines nums z)) ∧
      ((∃ b, ∃ y ∈ x.chain b, y.cell ∉ k.live) → linesWith fuel fails nums k memory = none) := by
  obtain ⟨z, overlaid, filled⟩ := exists_overlaid held stale nums
  have filling := allocate_all (fun s y => s.add (hash32 y.data) y) all
    { k with live := k.live ∪ {.hashTable} } memory
  have short' : ∀ b, (z.chain b).length ≤ fuel := by
    intro b
    have within := overlaid.length_le b
    rw [length_items] at within
    exact within.trans (short b)
  refine ⟨z, overlaid, fun live => ?_, fun freed => ?_⟩
  · obtain ⟨t, played⟩ := playHashTable_eq table filling filled ⟨short', overlaid.live live⟩ room
      overlaid.nodup_heads (fun y mem => by
        obtain ⟨b, _, there⟩ := mem_heads mem
        exact overlaid.notHashTable there)
      (Finset.mem_union_left _ (Finset.mem_union_right _ (Finset.mem_singleton_self _)))
    have last : lines [.kfree .hashTable] = [] := rfl
    rw [linesWith, played, Option.map_some, Kernel.printed, allLines, Kernel.printed]
    simp only [lines_append, lines_shown, lines_kfree_cells, last, List.append_nil,
      List.append_assoc]
  · rw [linesWith, playHashTable_dangling table filling]
    · rfl
    · exact printTable_dangling filled short' (overlaid.dangling freed)

theorem length_allLines_lt {z : Chains (BitVec 10) Item} (nums : List (BitVec 32))
    (longer : ∀ b, (x.chain b).length ≤ (z.chain b).length)
    (strictly : (x.chain b).length < (z.chain b).length) :
    (allLines nums x).length < (allLines nums z).length := by
  simp only [allLines, List.length_append, List.length_map, List.length_flatMap]
  apply Nat.add_lt_add_of_lt_of_le
  · exact List.sum_lt_sum _ _ (fun b _ => longer b) ⟨b, mem_buckets b, strictly⟩
  · exact List.sum_le_sum fun n _ => longer (hash32 n)

/-- Where an allocation fails, nothing is printed. -/
theorem linesWith_fails {fails : Cell → Bool} {nums : List (BitVec 32)}
    (failed : fails .hashTable = true ∨ ∃ i < nums.length, fails (.hashNode i) = true)
    (fuel : Nat) (k : Kernel) : Independent (linesWith fuel fails nums k) := by
  intro memory memory'
  cases table : fails .hashTable with
  | true =>
    rw [linesWith, linesWith, playHashTable_noTable table, playHashTable_noTable table]
    split <;> rfl
  | false =>
    obtain ⟨i, small, node⟩ := failed.resolve_left (by simp [table])
    have missing : ¬∀ y ∈ items .hashNode 0 nums, fails y.cell = false := by
      intro all
      have here := all ⟨.hashNode i, nums[i]⟩ (mem_items.mpr ⟨i, small, rfl⟩)
      simp [node] at here
    rw [linesWith, linesWith, playHashTable_einval table missing,
      playHashTable_einval table missing]
    rfl

/-- The lines are the same for all contents of the memory only where an allocation fails. -/
theorem independent_lines_iff {fails : Cell → Bool} {nums : List (BitVec 32)}
    (enough : nums.length < fuel) (k : Kernel) : Independent (linesWith fuel fails nums k) ↔
      fails .hashTable = true ∨ ∃ i < nums.length, fails (.hashNode i) = true := by
  refine ⟨fun independent => ?_, fun failed => linesWith_fails failed fuel k⟩
  by_contra succeed
  simp only [not_or, not_exists, not_and, Bool.not_eq_true] at succeed
  obtain ⟨table, nodes⟩ := succeed
  have all := all_succeed nodes
  obtain ⟨x, overlaid, printed, _⟩ := linesWith_stale table all represents_empty stale_empty
    (fun _ => enough.le) (Nat.zero_lt_of_lt enough) k
  have short (b : BitVec 10) : nums.length + (leftOver.chain b).length ≤ fuel := by
    have one : (leftOver.chain b).length ≤ 1 := by
      rw [leftOver_chain]
      split <;> simp
    exact (Nat.add_le_add_left one _).trans enough
  obtain ⟨z, overlaid', printed', dangling⟩ := linesWith_stale table all represents_leftOver
    stale_leftOver short (Nat.zero_lt_of_lt enough) k
  have same := independent Hlist.empty leftOverTable
  rw [printed fun _ _ mem => by cases mem] at same
  by_cases live : leftOverItem.cell ∈ k.live
  · have old : ∀ b, ∀ y ∈ leftOver.chain b, y.cell ∈ k.live := by
      intro b y mem
      rwa [(mem_leftOver.mp mem).2]
    have longer (b : BitVec 10) :
        (z.chain b).length = (x.chain b).length + (leftOver.chain b).length := by
      rw [overlaid.chain, overlaid'.chain, List.length_append, List.length_append]
      rfl
    have more := length_allLines_lt (x := x) (z := z) (b := 0) nums
      (fun b => by rw [longer]; exact Nat.le_add_right ..)
      (by rw [longer]; exact Nat.lt_succ_self _)
    rw [printed' old, Option.some_inj, List.append_right_inj] at same
    rw [same] at more
    exact Nat.lt_irrefl _ more
  · rw [dangling ⟨0, leftOverItem, mem_leftOver.mpr ⟨rfl, rfl⟩, live⟩] at same
    cases same

end

section
open Profiler

/-- Nothing clears the buckets. `play_hash_table` prints the same lines whatever the memory
holds only if it fails before it walks the table, and the handler finds and reports the same
only if it never looks anything up. -/
theorem results_independent_iff (fails : Cell → Bool) (nums : List (BitVec 32))
    (enough : nums.length < fuel) (k : Kernel) (b : OrderedTree.Balance Node) (h : List Call)
    (preCount : BitVec 32) :
    (Independent (linesWith fuel fails nums k) ↔
      fails .hashTable = true ∨ ∃ i < nums.length, fails (.hashNode i) = true) ∧
    (Independent (fun table => lookups b { Profiler.empty with table } h) ↔
      ∀ c ∈ h, c.switch = none) ∧
    ((∃ s, Runs b h s) →
      (Independent (fun table => reported b preCount { Profiler.empty with table } h) ↔
        ∀ c ∈ h, c.switch = none)) := by
  refine ⟨independent_lines_iff enough k, independent_lookups_iff _ h, ?_⟩
  rintro ⟨s, run⟩
  apply independent_reported_iff preCount Profiler.empty rfl h
  exact Option.isSome_iff_exists.mpr ⟨s, run.completes⟩

theorem results_depend_three_switches :
    ¬Independent (linesWith 2 (fun _ => false) [3] ⟨∅, []⟩) ∧
    ¬Independent (fun table => lookups .unbalanced { Profiler.empty with table } threeSwitches) ∧
    ¬Independent (fun table => reported .unbalanced 3 { Profiler.empty with table }
      threeSwitches) := by
  obtain ⟨lines, found, report⟩ := results_independent_iff (fun _ => false) [3]
    (show [(3 : BitVec 32)].length < 2 by decide) ⟨∅, []⟩ .unbalanced threeSwitches 3
  have switches : ¬∀ c ∈ threeSwitches, c.switch = none := by decide
  have followed : (exec (step .unbalanced) Profiler.empty threeSwitches).any (fun r =>
      r.2 = threeSwitches) := by
    decide +kernel
  obtain ⟨s, h, run, known⟩ := exec_any followed step_sound
  obtain rfl : h = threeSwitches := known
  rw [lines, found, report ⟨s, run⟩]
  exact ⟨by simp, switches, switches⟩

/-- A task is switched out twice. The switch to it between was one from a kernel thread, which
is not seen, so the time is counted from what its entry held. -/
def switchedOutTwice : List Call :=
  [switchCall ⟨4096, 1⟩ ⟨1024, 0⟩ 100 64, switchCall ⟨4096, 1⟩ ⟨8192, 2⟩ 150 128]

theorem stale_entry_changes_results :
    linesWith 2 (fun _ => false) [3] ⟨{.other 0}, []⟩ .empty =
      some [.hashForEach 3, .hashForEachPossible 3] ∧
    linesWith 2 (fun _ => false) [3] ⟨{.other 0}, []⟩ leftOverTable =
      some [.hashForEach 7, .hashForEach 3, .hashForEachPossible 3] ∧
    reported .unbalanced 2 { Profiler.empty with table := .empty } switchedOutTwice =
      some ⟨2, 2, 2, [⟨1, 50⟩]⟩ ∧
    reported .unbalanced 2 { Profiler.empty with table := stale ⟨0, 1, none⟩ } switchedOutTwice =
      some ⟨2, 2, 2, [⟨1, 150⟩]⟩ ∧
    ¬Independent (linesWith 2 (fun _ => false) [3] ⟨{.other 0}, []⟩) ∧
    ¬Independent (fun table => reported .unbalanced 2 { Profiler.empty with table }
      switchedOutTwice) := by
  have cleared : linesWith 2 (fun _ => false) [3] ⟨{.other 0}, []⟩ .empty =
      some [.hashForEach 3, .hashForEachPossible 3] := by decide +kernel
  have left_ : linesWith 2 (fun _ => false) [3] ⟨{.other 0}, []⟩ leftOverTable =
      some [.hashForEach 7, .hashForEach 3, .hashForEachPossible 3] := by decide +kernel
  have since : reported .unbalanced 2 { Profiler.empty with table := .empty } switchedOutTwice =
      some ⟨2, 2, 2, [⟨1, 50⟩]⟩ := by decide +kernel
  have since' : reported .unbalanced 2 { Profiler.empty with table := stale ⟨0, 1, none⟩ }
      switchedOutTwice = some ⟨2, 2, 2, [⟨1, 150⟩]⟩ := by decide +kernel
  refine ⟨cleared, left_, since, since', fun same => ?_, fun same => ?_⟩
  · have lines := same .empty leftOverTable
    rw [cleared, left_] at lines
    exact absurd lines (by decide)
  · have report := since.symm.trans ((same .empty (stale ⟨0, 1, none⟩)).trans since')
    exact absurd report (by decide)

end
end CSE306.KDS
