import Mathlib.Algebra.GroupWithZero.Nat
import Mathlib.Data.List.Basic

/-! Fixed-size records on a reliable byte stream. One read stores what it returns at
the start of the buffer and leaves the rest of the buffer as it was. -/
namespace CSE306.ByteStream

/-- The bytes of a number, least significant first. -/
def littleEndian : Nat → Nat → List UInt8
  | 0, _ => []
  | width + 1, value => UInt8.ofNat (value % 256) :: littleEndian width (value / 256)

def ofLittleEndian : List UInt8 → Nat
  | [] => 0
  | b :: rest => b.toNat + 256 * ofLittleEndian rest

@[simp] theorem length_littleEndian (width value : Nat) :
    (littleEndian width value).length = width := by
  induction width generalizing value with
  | zero => rfl
  | succ width ih => simp only [littleEndian, List.length_cons, ih]

theorem ofLittleEndian_littleEndian (fits : value < 256 ^ width) :
    ofLittleEndian (littleEndian width value) = value := by
  induction width generalizing value with
  | zero =>
    have zero : value = 0 := by simpa using fits
    simp [littleEndian, ofLittleEndian, zero]
  | succ width ih =>
    have shorter : value / 256 < 256 ^ width := by
      rw [Nat.pow_succ] at fits
      exact Nat.div_lt_of_lt_mul (by omega)
    have byte : (UInt8.ofNat (value % 256)).toNat = value % 256 :=
      UInt8.toNat_ofNat_of_lt' (Nat.mod_lt _ (by decide))
    simp only [littleEndian, ofLittleEndian, ih shorter, byte]
    omega

/-- The buffer and the stream after a read that returns `count` bytes. -/
def read (buffer stream : List UInt8) (count : Nat) : List UInt8 × List UInt8 :=
  (stream.take count ++ buffer.drop count, stream.drop count)

theorem read_whole (buffer record rest : List UInt8) (size : buffer.length = record.length) :
    read buffer (record ++ rest) record.length = (record, rest) := by
  simp [read, ← size]

/-- The contents of one buffer after each read. -/
def reads (buffer stream : List UInt8) : List Nat → List (List UInt8)
  | [] => []
  | count :: counts =>
    let (buffer, rest) := read buffer stream count
    buffer :: reads buffer rest counts

/-- Reads that are never short return the records that were sent. -/
theorem reads_whole {records : List (List UInt8)} (sized : ∀ r ∈ records, r.length = size)
    (buffer : List UInt8) (fits : buffer.length = size) :
    reads buffer records.flatten (List.replicate records.length size) = records := by
  induction records generalizing buffer with
  | nil => rfl
  | cons record records ih =>
    have here : record.length = size := sized record List.mem_cons_self
    have whole := read_whole buffer record records.flatten (fits.trans here.symm)
    rw [here] at whole
    simp only [List.flatten_cons, List.length_cons, List.replicate_succ, reads, whole]
    rw [ih (fun r mem => sized r (List.mem_cons_of_mem _ mem)) record here]

/-- How the reads of `total` records of `size` bytes may split the stream. -/
def Splits (size total : Nat) (counts : List Nat) : Prop :=
  (∀ k ∈ counts, 1 ≤ k ∧ k ≤ size) ∧ counts.sum = size * total

theorem Splits.whole (positive : 0 < size) (splits : Splits size total counts)
    (full : ∀ k ∈ counts, k = size) :
    counts = List.replicate total size := by
  have same := List.eq_replicate_of_mem full
  have sum := splits.2
  rw [same, List.sum_replicate_nat, Nat.mul_comm] at sum
  rw [same, Nat.eq_of_mul_eq_mul_left positive sum]

end CSE306.ByteStream
