import CSE306.S2DSM.Startup
import CSE306.Words

/-! How the number typed at the page prompt becomes the length of the mapping, the entries
of `msi_array` and the bound of the page numbers. -/
namespace CSE306.S2DSM.Startup

/-- `malloc`, which has no more than 2^63 bytes to give. -/
def malloc (size : BitVec 64) : Option Nat := if size.toNat < 2 ^ 63 then some size.toNat else none

theorem malloc_small (small : size.toNat < 2 ^ 63) : malloc size = some size.toNat := if_pos small

/-- What `main` computes from the `long` that `strtol` returns. -/
structure Sizes where
  pages : BitVec 32
  len : BitVec 64
  /-- the entries allocated in each process -/
  msiArray : Option Nat
  secondArray : Option Nat
  /-- the entries each initialisation loop writes -/
  filled : Nat
  maxPage : BitVec 32
  deriving DecidableEq

def sizes (pageSize : BitVec 32) (typed : BitVec 64) : Sizes :=
  let pages := typed.setWidth 32
  let len := (pageSize * pages).signExtend 64
  let numPages := len / pageSize.signExtend 64
  { pages
    len
    msiArray := malloc (pages.signExtend 64)
    secondArray := malloc numPages
    filled := numPages.toNat
    maxPage := numPages.setWidth 32 }

theorem sizes_launch (l : Launch) (typed : BitVec 64) (same : l.pages = typed.setWidth 32) :
    (sizes l.pageSize typed).len = l.len ∧ (sizes l.pageSize typed).maxPage = l.maxPage l.len ∧
      (sizes l.pageSize typed).filled = (l.numPages l.len).toNat := by
  simp only [sizes, Launch.len, Launch.maxPage, Launch.numPages, same, and_self]

/-- `mmap` fails for no bytes and for 2^47 or more. -/
def MayMap (len : BitVec 64) : Prop := 0 < len.toNat ∧ len.toNat < 2 ^ 47

instance (len : BitVec 64) : Decidable (MayMap len) := inferInstanceAs (Decidable (_ ∧ _))

/-- The mapping has the pages that were asked for, and no index or address leaves it. -/
structure Sized (pageSize : BitVec 32) (typed : BitVec 64) (x : Sizes) : Prop where
  noOverflow : -2 ^ 31 ≤ pageSize.toInt * x.pages.toInt ∧ pageSize.toInt * x.pages.toInt < 2 ^ 31
  len : (x.len.toNat : Int) = pageSize.toInt * typed.toInt
  msiArray : ∃ entries, x.msiArray = some entries ∧ x.filled ≤ entries
  secondArray : ∃ entries, x.secondArray = some entries ∧ x.filled ≤ entries
  inside : ∀ i : BitVec 32, 0 ≤ i.toInt → i.toInt < x.maxPage.toInt →
    0 ≤ i.toInt * pageSize.toInt ∧ i.toInt * pageSize.toInt < 2 ^ 31 ∧
      (i.toInt + 1) * pageSize.toInt ≤ x.len.toNat

variable {pageSize : BitVec 32} {typed : BitVec 64}

theorem toInt_product (pageSize : BitVec 32) (typed : BitVec 64) :
    (pageSize * typed.setWidth 32).toInt = (pageSize.toInt * typed.toInt).bmod (2 ^ 32) := by
  rw [BitVec.toInt_mul, toInt_narrow, Int.mul_bmod_bmod]

theorem mayMap_iff : MayMap (sizes pageSize typed).len ↔
    0 < (pageSize.toInt * typed.toInt).bmod (2 ^ 32) := by
  have wide := toNat_widen (pageSize * typed.setWidth 32)
  have least := BitVec.le_two_mul_toInt (x := pageSize * typed.setWidth 32)
  have most := BitVec.two_mul_toInt_lt (x := pageSize * typed.setWidth 32)
  rw [← toInt_product, MayMap]
  simp only [sizes]
  generalize (pageSize * typed.setWidth 32).toInt = p at *
  split at wide <;> omega

section
variable {k n : Nat}

theorem toInt_pages (count : typed.toInt = n) (few : n < 2 ^ 31) :
    (typed.setWidth 32).toInt = n := by
  rw [toInt_narrow_of_fits (by omega) (by omega), count]

theorem sizes_len (size : pageSize.toInt = k) (count : typed.toInt = n) (small : k * n < 2 ^ 31) :
    ((pageSize * typed.setWidth 32).signExtend 64).toNat = k * n := by
  have whole : ((k * n : Nat) : Int) = (k : Int) * n := Int.natCast_mul k n
  apply toNat_widen_of_eq
  rw [toInt_product, size, count, ← whole, bmod_of_fits (by omega) (by omega)]

theorem sizes_numPages (positive : 0 < k) (size : pageSize.toInt = k) (count : typed.toInt = n)
    (small : k * n < 2 ^ 31) : ((pageSize * typed.setWidth 32).signExtend 64 /
      pageSize.signExtend 64).toNat = n := by
  rw [BitVec.toNat_udiv, sizes_len size count small, toNat_widen_of_eq size,
    Nat.mul_div_cancel_left n positive]

theorem page_inside {i : Int} (nonneg : 0 ≤ i) (below : i < n) :
    0 ≤ i * k ∧ (i + 1) * k = i * k + k ∧ (i + 1) * k ≤ (k * n : Nat) := by
  have last : (i + 1) * k ≤ n * k := Int.mul_le_mul_of_nonneg_right (by omega) (by omega)
  have step : (i + 1) * k = i * k + k := by rw [Int.add_mul, Int.one_mul]
  have swap : ((k * n : Nat) : Int) = n * k := by rw [Int.natCast_mul, Int.mul_comm]
  have least : 0 ≤ i * k := Int.mul_nonneg nonneg (by omega)
  exact ⟨least, step, swap ▸ last⟩

end

theorem sized_of_small (positive : 0 < pageSize.toInt)
    (some_ : 0 < pageSize.toInt * typed.toInt) (small : pageSize.toInt * typed.toInt < 2 ^ 31) :
    Sized pageSize typed (sizes pageSize typed) := by
  have pages : 0 < typed.toInt := pos_of_mul_pos_right some_ positive.le
  obtain ⟨k, size⟩ := Int.eq_ofNat_of_zero_le positive.le
  obtain ⟨n, count⟩ := Int.eq_ofNat_of_zero_le pages.le
  rw [size] at positive some_ small
  rw [count] at pages some_ small
  have whole : ((k * n : Nat) : Int) = (k : Int) * n := Int.natCast_mul k n
  have fewPages : n ≤ k * n := Nat.le_mul_of_pos_left n (by omega)
  have fewBytes : k ≤ k * n := Nat.le_mul_of_pos_right k (by omega)
  have narrowed := toInt_pages count (by omega)
  have length := sizes_len size count (by omega)
  have quotient := sizes_numPages (by omega) size count (by omega)
  constructor
  case noOverflow =>
    simp only [sizes, narrowed, size]
    omega
  case len =>
    simp only [sizes, length, size, count]
    exact whole
  case msiArray =>
    refine ⟨n, ?_, quotient.le⟩
    have widePages := toNat_widen_of_eq narrowed
    have fits : ((typed.setWidth 32).signExtend 64).toNat < 2 ^ 63 := by
      rw [widePages]
      omega
    simp only [sizes, malloc_small fits, widePages]
  case secondArray =>
    refine ⟨n, ?_, quotient.le⟩
    have fits : ((pageSize * typed.setWidth 32).signExtend 64 /
        pageSize.signExtend 64).toNat < 2 ^ 63 := by
      rw [quotient]
      omega
    simp only [sizes, malloc_small fits, quotient]
  case inside =>
    intro i nonneg below
    have bound : (((pageSize * typed.setWidth 32).signExtend 64 /
        pageSize.signExtend 64).setWidth 32).toInt = n := by
      rw [BitVec.toInt_setWidth, quotient, bmod_of_fits (by omega) (by omega)]
    simp only [sizes, bound] at below
    simp only [sizes, length, size]
    obtain ⟨least, step, last⟩ := page_inside (k := k) nonneg below
    omega

/-- Once `mmap` may succeed, everything fits together exactly if the length that was asked
for is positive and an `int` holds it; a wrapped length that is not positive is refused. -/
theorem sized_iff_small (pageSize : BitVec 32) (positive : 0 < pageSize.toInt)
    (typed : BitVec 64) :
    (MayMap (sizes pageSize typed).len → Sized pageSize typed (sizes pageSize typed)) ↔
      0 < pageSize.toInt * typed.toInt ∧ pageSize.toInt * typed.toInt < 2 ^ 31 ∨
        (pageSize.toInt * typed.toInt).bmod (2 ^ 32) ≤ 0 := by
  rw [mayMap_iff]
  constructor
  · intro sized
    by_cases accepted : 0 < (pageSize.toInt * typed.toInt).bmod (2 ^ 32)
    · left
      have len := (sized accepted).len
      have wide := toNat_widen (pageSize * typed.setWidth 32)
      rw [toInt_product, if_neg (by omega)] at wide
      have same : (sizes pageSize typed).len = (pageSize * typed.setWidth 32).signExtend 64 := rfl
      rw [same] at len
      have most := Int.bmod_lt (x := pageSize.toInt * typed.toInt) (m := 2 ^ 32) (by decide)
      omega
    · exact .inr (by omega)
  · rintro (⟨some_, small⟩ | refused) accepted
    · exact sized_of_small positive some_ small
    · omega

theorem sized_iff_small_three : MayMap (sizes 4096 3).len ∧ Sized 4096 3 (sizes 4096 3) := by
  have accepted : MayMap (sizes 4096 3).len := by decide
  exact ⟨accepted, (sized_iff_small 4096 (by decide) 3).mpr (.inl (by decide)) accepted⟩

/-- 1048577 pages of 4096 bytes become a mapping of 4096 bytes. -/
theorem sized_fails : MayMap (sizes 4096 1048577).len ∧ (sizes 4096 1048577).len = 4096 ∧
    ¬ Sized 4096 1048577 (sizes 4096 1048577) := by
  refine ⟨by decide, by decide, fun sized => ?_⟩
  exact absurd sized.len (by decide)

end CSE306.S2DSM.Startup
