import CSE306.KDS.LinkedList

/-! What one load of the module prints when no memory runs out: the numbers of the
parameter, once for each structure they were put in, in the order of that structure. -/
namespace CSE306.KDS
open Perftop

/-- The chains of the table hold the numbers, each once. -/
theorem FilledTable.perm {l : List Item} (filled : FilledTable l s x)
    (distinct : (l.map Item.cell).Nodup) : (buckets.flatMap x.chain).Perm l := by
  have chained : (buckets.flatMap x.chain).Nodup := by
    rw [List.nodup_flatMap]
    refine ⟨fun b _ => x.nodup b, nodup_buckets.imp fun {b c} other => ?_⟩
    exact fun y mem mem' => other (x.apart b c y mem mem')
  rw [List.perm_ext_iff_of_nodup chained (List.Nodup.of_map _ distinct)]
  intro y
  rw [List.mem_flatMap]
  constructor
  · rintro ⟨b, _, mem⟩
    exact (filled.mem_chain.mp mem).1
  · exact fun mem => ⟨hash32 y.data, mem_buckets _, filled.mem_chain.mpr ⟨mem, rfl⟩⟩

section
variable {fails : Cell → Bool} {nums : List (BitVec 32)}

theorem nums_kept (cell : Nat → Cell) {k : Kernel} (other : ∀ i, cell i ≠ .nums)
    (freed : Finset Cell) (own : freed ⊆ cells (items cell 0 nums)) (here : .nums ∈ k.live) :
    .nums ∈ (k.live ∪ cells (items cell 0 nums)) \ freed := by
  refine Finset.mem_sdiff.mpr ⟨Finset.mem_union_left _ here, fun mem => ?_⟩
  obtain ⟨x, there, same⟩ := mem_cells.mp (own mem)
  obtain ⟨i, _, rfl⟩ := mem_items.mp there
  exact other i same

theorem Completes.prints {cell : Nat → Cell} {look mark : BitVec 32 → Line}
    {scratch : Finset Cell} {k : Kernel} {done : Done NumArray}
    (completes : Completes (items cell 0 nums) look mark scratch k done)
    (other : ∀ i, cell i ≠ .nums) (away : .nums ∉ scratch) :
    ∃ marked, Marked (items cell 0 nums) marked ∧ done.kernel.printed =
        k.printed ++ nums.map look ++ (marked.map Item.data).map mark ∧
      (.nums ∈ k.live → .nums ∈ done.kernel.live) := by
  obtain ⟨marked, kept, events, all, each, kernel, shown, _⟩ := completes.passes
  refine ⟨marked, all, ?_, fun here => ?_⟩
  · rw [kernel, Kernel.printed, lines_append, shown, map_data_items, List.append_assoc]
    rfl
  · have left := nums_kept cell other kept each.known here
    rw [kernel]
    simp only [Finset.mem_sdiff] at left ⊢
    exact ⟨⟨left.1, away⟩, left.2⟩

end

end CSE306.KDS
