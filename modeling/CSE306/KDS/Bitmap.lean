import CSE306.KDS.Kernel

/-! The bitmap of the numbers. The numbers that the parameter may hold, and those that the
bitmap has a bit for, are fixed in different places. -/
namespace CSE306.KDS

/-- `MAX_BITS`: 0 to 1000 inclusive -/
def maxBits : Nat := 1001

/-- Memory, by the distance of a bit from the start of the bitmap, and the bits set so far. -/
structure BitMemory where
  bit : Int → Bool
  set : List Int

/-- `bitmap_zero` clears whole words. -/
def bitmapZero (nbits : Nat) (m : BitMemory) : BitMemory :=
  { m with bit := fun i => if 0 ≤ i ∧ i < 64 * ((nbits + 63) / 64) then false else m.bit i }

/-- `set_bit` takes a `long`, and does not know how long the bitmap is. -/
def setBit (m : BitMemory) (nr : Int) : BitMemory :=
  ⟨Function.update m.bit nr true, m.set ++ [nr]⟩

/-- The bits that `for_each_set_bit` visits. -/
def setBits (m : BitMemory) (nbits : Nat) : List Nat := (List.range nbits).filter (m.bit ·)

def playBitmap (nums : List (BitVec 32)) (bit : Int → Bool) (k : Kernel) : Done BitMemory :=
  let m := bitmapZero maxBits ⟨bit, []⟩
  let m := nums.foldl (fun m n => setBit m n.toInt) m
  let k := (setBits m maxBits).foldl (fun k i => k.log (.printk (.bitmap (BitVec.ofNat 32 i)))) k
  ⟨k, 0, bitmapZero maxBits m⟩

/-- Only bits of the bitmap are set, and the distinct numbers are printed in order. -/
structure BitmapExact (nums : List (BitVec 32)) (set : List Int) (printed : List (BitVec 32)) :
    Prop where
  inside : ∀ i ∈ set, 0 ≤ i ∧ i < maxBits
  ascending : printed.Pairwise (·.toInt < ·.toInt)
  distinct : ∀ n, n ∈ printed ↔ n ∈ nums

theorem set_foldl (l : List Int) (m : BitMemory) : (l.foldl setBit m).set = m.set ++ l := by
  induction l generalizing m with
  | nil => rw [List.append_nil]; rfl
  | cons i l ih =>
    rw [List.foldl_cons, ih, setBit, List.append_assoc]
    rfl

theorem bit_foldl (l : List Int) (m : BitMemory) (i : Int) :
    (l.foldl setBit m).bit i = true ↔ i ∈ l ∨ m.bit i = true := by
  induction l generalizing m with
  | nil => simp
  | cons j l ih =>
    rw [List.foldl_cons, ih, setBit, List.mem_cons]
    by_cases here : i = j
    · simp [here]
    · simp [here]

theorem printed_foldl_log (line : Nat → Line) (l : List Nat) (k : Kernel) :
    (l.foldl (fun k i => k.log (.printk (line i))) k).printed = k.printed ++ l.map line := by
  induction l generalizing k with
  | nil => rw [List.map_nil, List.append_nil]; rfl
  | cons i l ih =>
    rw [List.foldl_cons, ih, Kernel.printed, Kernel.log, lines_append, List.append_assoc]
    rfl

theorem toInt_small (small : i < maxBits) : (BitVec.ofNat 32 i).toInt = i := by
  rw [BitVec.toInt_ofNat']
  apply Int.bmod_eq_of_le_mul_two <;> unfold maxBits at small <;> omega

theorem bit_bitmapZero (small : i < nbits) (m : BitMemory) :
    (bitmapZero nbits m).bit i = false := by
  refine if_pos ⟨Int.natCast_nonneg i, ?_⟩
  omega

theorem mem_setBits (nbits : Nat) (l : List Int) (bit : Int → Bool) (i : Nat) :
    i ∈ setBits (l.foldl setBit (bitmapZero nbits ⟨bit, []⟩)) nbits ↔
      i < nbits ∧ (i : Int) ∈ l := by
  rw [setBits, List.mem_filter, List.mem_range]
  refine and_congr_right fun small => ?_
  rw [bit_foldl, bit_bitmapZero small]
  simp

/-- Where each number has a bit, the bits that are visited are the numbers. -/
theorem bitmapExact_shown {nums : List (BitVec 32)} {shown : List Nat}
    (visited : ∀ i, i ∈ shown ↔ i < maxBits ∧ (i : Int) ∈ nums.map BitVec.toInt)
    (rising : shown.Pairwise (· < ·)) (small : ∀ n ∈ nums, 0 ≤ n.toInt ∧ n.toInt < maxBits) :
    BitmapExact nums (nums.map BitVec.toInt) (shown.map (BitVec.ofNat 32)) := by
  constructor
  case inside =>
    intro i mem
    obtain ⟨n, there, rfl⟩ := List.mem_map.mp mem
    exact small n there
  case ascending =>
    apply List.pairwise_map.mpr
    apply rising.imp_of_mem
    intro i j mem mem' before
    rw [toInt_small ((visited i).mp mem).1, toInt_small ((visited j).mp mem').1]
    exact Int.ofNat_lt.mpr before
  case distinct =>
    intro n
    rw [List.mem_map]
    constructor
    · rintro ⟨i, mem, rfl⟩
      obtain ⟨inside, there⟩ := (visited i).mp mem
      obtain ⟨n, there, same⟩ := List.mem_map.mp there
      rwa [← BitVec.eq_of_toInt_eq (same.trans (toInt_small inside).symm)]
    · intro mem
      obtain ⟨least, most⟩ := small n mem
      obtain ⟨i, same⟩ := Int.eq_ofNat_of_zero_le least
      have inside : i < maxBits := Int.ofNat_lt.mp (same ▸ most)
      refine ⟨i, (visited i).mpr ⟨inside, List.mem_map.mpr ⟨n, mem, same⟩⟩, ?_⟩
      exact BitVec.eq_of_toInt_eq ((toInt_small inside).trans same.symm)

theorem playBitmap_exact_iff (nums : List (BitVec 32)) (bit : Int → Bool) (k : Kernel) :
    ∃ printed, (playBitmap nums bit k).kernel.printed = k.printed ++ printed.map .bitmap ∧
      (BitmapExact nums (playBitmap nums bit k).left.set printed ↔
        ∀ n ∈ nums, 0 ≤ n.toInt ∧ n.toInt < maxBits) := by
  have folded : nums.foldl (fun m n => setBit m n.toInt) (bitmapZero maxBits ⟨bit, []⟩) =
      (nums.map BitVec.toInt).foldl setBit (bitmapZero maxBits ⟨bit, []⟩) := List.foldl_map.symm
  have set : (playBitmap nums bit k).left.set = nums.map BitVec.toInt := by
    rw [playBitmap, folded]
    exact set_foldl _ _
  have visited := mem_setBits maxBits (nums.map BitVec.toInt) bit
  have rising : (setBits ((nums.map BitVec.toInt).foldl setBit
      (bitmapZero maxBits ⟨bit, []⟩)) maxBits).Pairwise (· < ·) :=
    List.pairwise_lt_range.sublist List.filter_sublist
  rw [set, playBitmap, folded]
  generalize setBits _ _ = shown at visited rising ⊢
  refine ⟨shown.map (BitVec.ofNat 32), ?_, ?_⟩
  · rw [printed_foldl_log, List.map_map]
    rfl
  constructor
  · intro exact_ n mem
    exact exact_.inside _ (List.mem_map_of_mem mem)
  · exact bitmapExact_shown visited rising

/-- A parameter is shown by its bits where each of its numbers has one. The parser does not
look at that. -/
theorem bitmap_exact_iff (kstrtol : Kstrtol) (text junk : Bytes) (terminated : 0 ∉ text)
    (fuel : Nat) (enough : text.length < fuel) (nums : List (BitVec 32))
    (accepted : mymoduleInit kstrtol fuel (text ++ 0 :: junk) = some (.plays nums))
    (bit : Int → Bool) (k : Kernel) :
    ∃ printed, (playBitmap nums bit k).kernel.printed = k.printed ++ printed.map .bitmap ∧
      (BitmapExact nums (playBitmap nums bit k).left.set printed ↔
        ∀ t ∈ tokens text, ∀ v, kstrtol t 10 = .ok v →
          0 ≤ (v.setWidth 32).toInt ∧ (v.setWidth 32).toInt < maxBits) := by
  rw [mymoduleInit_eq_parse text junk terminated enough, Option.some_inj] at accepted
  obtain ⟨values, known, rfl, _⟩ := parse_plays accepted
  obtain ⟨printed, shown, iff⟩ := playBitmap_exact_iff (values.map (BitVec.setWidth 32)) bit k
  refine ⟨printed, shown, iff.trans ?_⟩
  rw [List.forall_mem_map]
  exact forall_values_iff known

theorem bitmap_exact_iff_seven_twelve : ∃ printed,
    (playBitmap [7, 12, 7] (fun _ => true) ⟨∅, []⟩).kernel.printed = printed.map .bitmap ∧
      BitmapExact [7, 12, 7] (playBitmap [7, 12, 7] (fun _ => true) ⟨∅, []⟩).left.set printed := by
  obtain ⟨printed, shown, iff⟩ := bitmap_exact_iff digits [55, 32, 49, 50, 32, 55] [] (by decide) 7
    (by decide) [7, 12, 7] (by decide +kernel) (fun _ => true) ⟨∅, []⟩
  refine ⟨printed, shown, iff.mpr ?_⟩
  have split : tokens [55, 32, 49, 50, 32, 55] = [[55], [49, 50], [55]] := by decide +kernel
  rw [split]
  intro t mem v read
  simp only [List.mem_cons, List.not_mem_nil, or_false] at mem
  rcases mem with rfl | rfl | rfl <;> cases read <;> exact ⟨by decide, by decide⟩

/-- The parser takes 1001, which has no bit, and the bit after the last one is set. -/
theorem bitmap_misses_number :
    mymoduleInit digits 5 [49, 48, 48, 49, 0] = some (.plays [1001]) ∧
      (playBitmap [1001] (fun _ => false) ⟨∅, []⟩).left.set = [1001] ∧
      (playBitmap [1001] (fun _ => false) ⟨∅, []⟩).kernel.printed = [] ∧
      ¬ BitmapExact [1001] (playBitmap [1001] (fun _ => false) ⟨∅, []⟩).left.set [] := by
  refine ⟨by decide +kernel, by decide +kernel, by decide +kernel, fun exact_ => ?_⟩
  have inside := exact_.inside 1001 (by decide +kernel)
  exact absurd inside.2 (by decide)

end CSE306.KDS
