import CSE306.KDS.Arrays
import CSE306.KDS.Parse
import CSE306.Strtol
import Mathlib.Data.List.Forall2

/-! Which numbers of the module parameter reach the `play_` functions as they were written. A
number is parsed as a `long`, stored in an `int`, and then used as an `unsigned long`. -/
namespace CSE306.KDS
open Strtol

def erange : Int := -34

/-- `kstrtol` in base 10: the integer that a string is, if it is one and a `long` holds it. -/
structure ReadsDecimal (kstrtol : Kstrtol) : Prop where
  number : ∀ {token v}, kstrtol token 10 = .ok v ↔ Numeral token v.toInt
  error : ∀ {token ret}, kstrtol token 10 = .error ret → ret = erange ∨ ret = einval

def kstrtolDecimal (token : Bytes) (_base : Nat) : Except Int (BitVec 64) :=
  match numeral token with
  | none => .error einval
  | some k =>
    if -9223372036854775808 ≤ k ∧ k ≤ 9223372036854775807 then .ok (.ofInt 64 k)
    else .error erange

theorem readsDecimal_kstrtolDecimal : ReadsDecimal kstrtolDecimal := by
  constructor
  case number =>
    intro token v
    rw [← numeral_iff, kstrtolDecimal]
    constructor
    · intro known
      cases read : numeral token with
      | none =>
        rw [read] at known
        cases known
      | some k =>
        simp only [read] at known
        split at known
        · rename_i fits
          cases known
          rw [BitVec.toInt_ofInt_eq_self (by decide) (by omega) (by omega)]
        · cases known
    · intro read
      have least := BitVec.le_two_mul_toInt (x := v)
      have most := BitVec.two_mul_toInt_lt (x := v)
      simp only [read]
      rw [if_pos (by omega), BitVec.ofInt_toInt]
  case error =>
    intro token ret failed
    rw [kstrtolDecimal] at failed
    split at failed
    · cases failed
      exact .inr rfl
    · split at failed
      · cases failed
      · cases failed
        exact .inl rfl

/-- No number is another one than its token says, and one that an `int` does not hold makes
the initialisation fail. -/
structure Unaltered (kstrtol : Kstrtol) (text : Bytes) (outcome : Option Outcome) : Prop where
  values : ∀ nums, outcome = some (.plays nums) →
    List.Forall₂ Numeral (tokens text) (nums.map BitVec.toInt)
  refused : ∀ t ∈ tokens text, ∀ v, kstrtol t 10 = .ok v → ¬ FitsInt v →
    ∃ ret < 0, outcome = some (.returns ret)

theorem index_narrow_iff (v : BitVec 64) : index (v.setWidth 32) = v.toNat ↔ FitsInt v := by
  have wide : ((v.setWidth 32).signExtend 64).toInt = (v.setWidth 32).toInt :=
    BitVec.toInt_signExtend_of_le (by decide)
  rw [FitsInt, ← toInt_narrow_iff, ← wide, index]
  constructor
  · intro same
    rw [BitVec.eq_of_toNat_eq same]
  · intro same
    rw [BitVec.eq_of_toInt_eq same]

section
variable {kstrtol : Kstrtol}

theorem forall₂_numeral (reads : ReadsDecimal kstrtol) {l : List Bytes}
    {values : List (BitVec 64)} (accepted : l.map (kstrtol · 10) = values.map .ok) :
    List.Forall₂ Numeral l (values.map BitVec.toInt) := by
  have same : List.Forall₂ (· = ·) (l.map (kstrtol · 10)) (values.map .ok) := by
    rw [accepted]
    exact List.forall₂_refl _
  rw [List.forall₂_map_left_iff, List.forall₂_map_right_iff] at same
  rw [List.forall₂_map_right_iff]
  exact same.imp fun t v read => reads.number.mp read

theorem map_toInt_narrow_iff (values : List (BitVec 64)) :
    (values.map (BitVec.setWidth 32)).map BitVec.toInt = values.map BitVec.toInt ↔
      ∀ v ∈ values, FitsInt v := by
  rw [List.map_map, List.map_inj_left]
  exact forall₂_congr fun v _ => toInt_narrow_iff v

variable {text : Bytes}

theorem unaltered_played (reads : ReadsDecimal kstrtol) {values : List (BitVec 64)}
    (accepted : (tokens text).map (kstrtol · 10) = values.map .ok) :
    Unaltered kstrtol text (some (.plays (values.map (BitVec.setWidth 32)))) ↔
      ∀ v ∈ values, FitsInt v := by
  have read := forall₂_numeral reads accepted
  constructor
  · intro unaltered
    have unique : Relator.RightUnique Numeral := fun _ _ _ => Numeral.unique
    rw [← map_toInt_narrow_iff]
    exact List.right_unique_forall₂' unique (unaltered.values _ rfl) read
  · intro fits
    constructor
    case values =>
      rintro nums ⟨⟩
      rw [(map_toInt_narrow_iff values).mpr fits]
      exact read
    case refused =>
      intro t mem v known outside
      exact (outside ((forall_values_iff accepted).mp fits t mem v known)).elim

/-- The radix tree and the xarray have the numbers at the indices that were parsed if and only
if no number is altered. -/
theorem played_indices_iff (reads : ReadsDecimal kstrtol)
    (plays : parse kstrtol [] (tokens text) = .plays nums) :
    ∃ values : List (BitVec 64), (tokens text).map (kstrtol · 10) = values.map .ok ∧
      (nums.map index = values.map BitVec.toNat ↔
        Unaltered kstrtol text (some (.plays nums))) := by
  obtain ⟨values, accepted, rfl, _⟩ := parse_plays plays
  refine ⟨values, accepted, ?_⟩
  rw [unaltered_played reads accepted, List.map_map, List.map_inj_left]
  exact forall₂_congr fun v _ => index_narrow_iff v

theorem unaltered_returns (negative : ret < 0) :
    Unaltered kstrtol text (some (.returns ret)) := by
  constructor
  case values =>
    intro nums played
    cases played
  case refused =>
    intro t mem v known outside
    exact ⟨ret, negative, rfl⟩

end

/-- A number is altered where all tokens are numbers, the array has space for them, and an `int`
does not hold one of them; in all other cases no number is. -/
theorem numbers_unaltered_iff (kstrtol : Kstrtol) (reads : ReadsDecimal kstrtol)
    (text junk : Bytes) (terminated : 0 ∉ text) (fuel : Nat) (enough : text.length < fuel) :
    Unaltered kstrtol text (mymoduleInit kstrtol fuel (text ++ 0 :: junk)) ↔
      (∃ t ∈ tokens text, ∀ v : BitVec 64, ¬ Numeral t v.toInt) ∨
        maxSize < (tokens text).length ∨
        ∀ t ∈ tokens text, ∀ v : BitVec 64, Numeral t v.toInt → FitsInt v := by
  rw [mymoduleInit_eq_parse text junk terminated enough]
  by_cases all : (∀ t ∈ tokens text, Accepted kstrtol t) ∧ (tokens text).length ≤ maxSize
  · obtain ⟨values, known⟩ := exists_values all.1
    have numbers : ¬ ∃ t ∈ tokens text, ∀ v : BitVec 64, ¬ Numeral t v.toInt := by
      rintro ⟨t, mem, none⟩
      obtain ⟨v, accepted⟩ := all.1 t mem
      exact none v (reads.number.mp accepted)
    rw [parse_accepted known all.2, unaltered_played reads known, or_iff_right numbers,
      or_iff_right (Nat.not_lt.mpr all.2)]
    simp only [forall_values_iff known, reads.number]
  · obtain ⟨before, t, after, split, _, _, stop⟩ := parse_returns all
    have member : t ∈ tokens text := by simp [split]
    rcases stop with ⟨ret, rejected, returns⟩ | ⟨_, full, returns⟩
    · have negative : ret < 0 := by
        rcases reads.error rejected with rfl | rfl <;> decide
      rw [returns]
      apply iff_of_true (unaltered_returns negative)
      refine .inl ⟨t, member, fun v spelled => ?_⟩
      rw [reads.number.mpr spelled] at rejected
      cases rejected
    · have count := congrArg List.length split
      rw [List.length_append, List.length_cons] at count
      rw [returns]
      apply iff_of_true (unaltered_returns (by decide))
      exact .inr (.inl (by omega))

/-- "-2147483648 2147483647" -/
def extremes : Bytes :=
  [45, 50, 49, 52, 55, 52, 56, 51, 54, 52, 56, 32, 50, 49, 52, 55, 52, 56, 51, 54, 52, 55]

theorem numbers_unaltered_extremes :
    Unaltered kstrtolDecimal extremes (mymoduleInit kstrtolDecimal 23 (extremes ++ [0])) := by
  have split : tokens extremes = [extremes.take 11, extremes.drop 12] := by decide +kernel
  have least : numeral (extremes.take 11) = some (-2147483648) := by decide +kernel
  have most : numeral (extremes.drop 12) = some 2147483647 := by decide +kernel
  apply (numbers_unaltered_iff kstrtolDecimal readsDecimal_kstrtolDecimal extremes [] (by decide)
    23 (by decide)).mpr
  refine .inr (.inr fun t mem v spelled => ?_)
  rw [split] at mem
  rw [FitsInt]
  rcases List.mem_cons.mp mem with rfl | mem
  · rw [spelled.unique (numeral_iff.mp least)]
    decide
  · rw [List.mem_singleton.mp mem] at spelled
    rw [spelled.unique (numeral_iff.mp most)]
    decide

/-- "4294967301" -/
def beyondInt : Bytes := [52, 50, 57, 52, 57, 54, 55, 51, 48, 49]

theorem number_altered :
    ReadsDecimal kstrtolDecimal ∧ kstrtolDecimal beyondInt 10 = .ok 4294967301 ∧
      mymoduleInit kstrtolDecimal 11 (beyondInt ++ [0]) = some (.plays [5]) ∧
      ¬ Unaltered kstrtolDecimal beyondInt (mymoduleInit kstrtolDecimal 11 (beyondInt ++ [0])) := by
  have accepted : kstrtolDecimal beyondInt 10 = .ok 4294967301 := rfl
  have plays : mymoduleInit kstrtolDecimal 11 (beyondInt ++ [0]) = some (.plays [5]) := by
    decide +kernel
  refine ⟨readsDecimal_kstrtolDecimal, accepted, plays, fun unaltered => ?_⟩
  have member : beyondInt ∈ tokens beyondInt := by decide +kernel
  have outside : ¬ FitsInt 4294967301 := by
    rw [FitsInt]
    decide
  obtain ⟨ret, _, returns⟩ := unaltered.refused beyondInt member 4294967301 accepted outside
  rw [plays] at returns
  cases returns

end CSE306.KDS
