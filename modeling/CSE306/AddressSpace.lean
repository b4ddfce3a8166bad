import CSE306.CString
import Mathlib.Data.BitVec

/-! The bytes of an address space. An access to an address without a byte has no result:
a thread that makes it is stopped. -/
namespace CSE306

abbrev AddressSpace := BitVec 64 → Option UInt8

namespace AddressSpace
variable {memory : AddressSpace} {loc : BitVec 64}

/-- The bytes from an address on, all of which are read. -/
def peek (memory : AddressSpace) (loc : BitVec 64) : Nat → Option (List UInt8)
  | 0 => some []
  | size + 1 => do
    let b ← memory loc
    let rest ← peek memory (loc + 1) size
    return b :: rest

def stringAt (memory : AddressSpace) (loc : BitVec 64) : Nat → Option (List UInt8)
  | 0 => none
  | size + 1 => do
    let b ← memory loc
    if b = 0 then return [] else
      let rest ← stringAt memory (loc + 1) size
      return b :: rest

/-- What `strncpy` leaves in a buffer of `size` bytes. It reads no byte behind the first NUL. -/
def strncpy (memory : AddressSpace) (loc : BitVec 64) : Nat → Option (List UInt8)
  | 0 => some []
  | size + 1 => do
    let b ← memory loc
    if b = 0 then return List.replicate (size + 1) 0 else
      let rest ← strncpy memory (loc + 1) size
      return b :: rest

/-- The address is one of `size` from `loc` on. -/
def Within (loc : BitVec 64) (size : Nat) (address : BitVec 64) : Prop :=
  loc.toNat ≤ address.toNat ∧ address.toNat < loc.toNat + size

instance (loc : BitVec 64) (size : Nat) (address : BitVec 64) :
    Decidable (Within loc size address) := inferInstanceAs (Decidable (_ ∧ _))

/-- The space with other bytes from `loc` on. -/
def copy (memory : AddressSpace) (loc : BitVec 64) (bytes : List UInt8) : AddressSpace :=
  fun address =>
    if Within loc bytes.length address then bytes[address.toNat - loc.toNat]? else memory address

/-- The space without the bytes from `loc` on. -/
def discard (memory : AddressSpace) (loc : BitVec 64) (size : Nat) : AddressSpace :=
  fun address => if Within loc size address then none else memory address

/-- These bytes are there from `loc` on. -/
def Shows (memory : AddressSpace) : BitVec 64 → List UInt8 → Prop
  | _, [] => True
  | loc, b :: rest => memory loc = some b ∧ Shows memory (loc + 1) rest

theorem shows_of_get {bytes : List UInt8}
    (each : ∀ k < bytes.length, memory (loc + BitVec.ofNat 64 k) = bytes[k]?) :
    memory.Shows loc bytes := by
  induction bytes generalizing loc with
  | nil => trivial
  | cons b rest ih =>
    refine ⟨by simpa using each 0 (Nat.succ_pos _), ih fun k below => ?_⟩
    have next : loc + 1 + BitVec.ofNat 64 k = loc + BitVec.ofNat 64 (k + 1) := by
      rw [BitVec.ofNat_add, BitVec.add_assoc, BitVec.add_comm 1]
      rfl
    rw [next, each (k + 1) (Nat.succ_lt_succ below), List.getElem?_cons_succ]

namespace Shows

theorem peek {bytes : List UInt8} (held : memory.Shows loc bytes) :
    memory.peek loc bytes.length = some bytes := by
  induction bytes generalizing loc with
  | nil => rfl
  | cons b rest ih =>
    rw [List.length_cons, AddressSpace.peek, held.1, Option.bind_eq_bind, Option.bind_some,
      ih held.2]
    rfl

theorem stringAt {bytes : List UInt8} (held : memory.Shows loc bytes) :
    memory.stringAt loc bytes.length = if 0 ∈ bytes then some (cstring bytes) else none := by
  induction bytes generalizing loc with
  | nil => rfl
  | cons b rest ih =>
    rw [List.length_cons, AddressSpace.stringAt, held.1, Option.bind_eq_bind, Option.bind_some]
    by_cases zero : b = 0
    · subst zero
      rw [if_pos rfl, if_pos List.mem_cons_self, cstring, List.takeWhile_cons_of_neg (by simp)]
      rfl
    · have first : cstring (b :: rest) = b :: cstring rest :=
        List.takeWhile_cons_of_pos (by simpa using zero)
      have later : 0 ∈ b :: rest ↔ 0 ∈ rest := by simp [Ne.symm zero]
      simp only [if_neg zero, ih held.2, later, first]
      split <;> rfl

theorem strncpy {bytes : List UInt8} (held : memory.Shows loc bytes) :
    memory.strncpy loc bytes.length = some (cstring bytes ++
      List.replicate (bytes.length - (cstring bytes).length) 0) := by
  induction bytes generalizing loc with
  | nil => rfl
  | cons b rest ih =>
    rw [List.length_cons, AddressSpace.strncpy, held.1, Option.bind_eq_bind, Option.bind_some]
    by_cases zero : b = 0
    · subst zero
      rw [if_pos rfl, cstring, List.takeWhile_cons_of_neg (by simp)]
      rfl
    · have first : cstring (b :: rest) = b :: cstring rest :=
        List.takeWhile_cons_of_pos (by simpa using zero)
      simp only [if_neg zero, ih held.2, first, List.length_cons, Nat.add_sub_add_right]
      rfl

theorem take {bytes : List UInt8} (held : memory.Shows loc bytes) (k : Nat) :
    memory.Shows loc (bytes.take k) := by
  induction bytes generalizing loc k with
  | nil => simpa using held
  | cons b rest ih =>
    cases k with
    | zero => trivial
    | succ k => exact ⟨held.1, ih held.2 k⟩

end Shows

theorem absent (missing : memory loc = none) (positive : 0 < size) :
    memory.peek loc size = none ∧ memory.stringAt loc size = none ∧
      memory.strncpy loc size = none := by
  obtain ⟨size, rfl⟩ := Nat.exists_eq_succ_of_ne_zero positive.ne'
  simp [AddressSpace.peek, AddressSpace.stringAt, AddressSpace.strncpy, missing]

end AddressSpace
end CSE306
