import CSE306.S2DSM.Process
import CSE306.S2DSM.Startup

/-! The two numbers that the fault handler computes from the address of a page fault: the
index of the page in `msi_array`, and the address its content is copied to. -/
namespace CSE306.S2DSM

/-- `page_faulted` -/
def pageFaulted (pageSize : BitVec 32) (mmapAddr address : BitVec 64) : BitVec 32 :=
  ((address - mmapAddr).sdiv (pageSize.signExtend 64)).setWidth 32

/-- `uffdio_copy.dst` -/
def copyDst (pageSize : BitVec 32) (address : BitVec 64) : BitVec 64 :=
  address &&& (~~~(pageSize - 1)).signExtend 64

theorem pageFaulted_launch (l : Startup.Launch) (mmapAddr address : BitVec 64) :
    l.pageFaulted (address - mmapAddr) = pageFaulted l.pageSize mmapAddr address := rfl

/-- `n` pages from the boundary of a page on, which do not wrap. -/
structure Mapping (n : Nat) where
  pageSize : BitVec 32
  mmapAddr : BitVec 64
  len : BitVec 64
  power : ∃ k ≤ 30, pageSize.toNat = 2 ^ k
  aligned : pageSize.toNat ∣ mmapAddr.toNat
  whole : len.toNat = pageSize.toNat * n
  few : n < 2 ^ 31
  noWrap : mmapAddr.toNat + len.toNat ≤ 2 ^ 64

namespace Mapping
variable {n : Nat} (m : Mapping n)

def Holds (address : BitVec 64) : Prop :=
  m.mmapAddr.toNat ≤ address.toNat ∧ address.toNat < m.mmapAddr.toNat + m.len.toNat

instance (address : BitVec 64) : Decidable (m.Holds address) :=
  inferInstanceAs (Decidable (_ ∧ _))

theorem pageSize_bounds : 0 < m.pageSize.toNat ∧ m.pageSize.toNat ≤ 2 ^ 30 := by
  obtain ⟨k, small, power⟩ := m.power
  rw [power]
  exact ⟨Nat.two_pow_pos k, Nat.pow_le_pow_right (by decide) small⟩

theorem toInt_pageSize : m.pageSize.toInt = m.pageSize.toNat := by
  have bounds := m.pageSize_bounds
  exact BitVec.toInt_eq_toNat_of_lt (by omega)

theorem toNat_pageSize : (m.pageSize.signExtend 64).toNat = m.pageSize.toNat :=
  toNat_widen_of_eq m.toInt_pageSize

variable {m} {address : BitVec 64}

theorem Holds.page_lt (held : m.Holds address) :
    (address.toNat - m.mmapAddr.toNat) / m.pageSize.toNat < n := by
  apply Nat.div_lt_of_lt_mul
  obtain ⟨least, below⟩ := held
  rw [m.whole] at below
  omega

variable (m) in
def page (address : BitVec 64) (held : m.Holds address) : Fin n :=
  ⟨(address.toNat - m.mmapAddr.toNat) / m.pageSize.toNat, held.page_lt⟩

theorem toInt_pageFaulted (held : m.Holds address) :
    (pageFaulted m.pageSize m.mmapAddr address).toInt = m.page address held := by
  have bounds := m.pageSize_bounds
  have few := m.few
  have fewBytes : m.pageSize.toNat * n ≤ 2 ^ 30 * 2 ^ 31 := Nat.mul_le_mul bounds.2 few.le
  have whole := m.whole
  have offset : (address - m.mmapAddr).toNat = address.toNat - m.mmapAddr.toNat :=
    BitVec.toNat_sub_of_le held.1
  have quotient : (address - m.mmapAddr).toNat / (m.pageSize.signExtend 64).toNat =
      m.page address held := by
    rw [offset, m.toNat_pageSize]
    rfl
  have dividend : (address - m.mmapAddr).toNat < 2 ^ 63 := by
    have below := held.2
    omega
  have divisor : (m.pageSize.signExtend 64).toNat < 2 ^ 63 := by
    rw [m.toNat_pageSize]
    omega
  rw [pageFaulted, sdiv_eq_udiv dividend divisor, toInt_quotient, quotient]
  have below := (m.page address held).isLt
  omega

theorem toNat_copyDst (held : m.Holds address) : (copyDst m.pageSize address).toNat =
    m.mmapAddr.toNat + m.page address held * m.pageSize.toNat := by
  obtain ⟨k, small, power⟩ := m.power
  obtain ⟨start, first⟩ := m.aligned
  have positive := m.pageSize_bounds.1
  have split : address.toNat =
      m.pageSize.toNat * start + (address.toNat - m.mmapAddr.toNat) := by
    have least := held.1
    omega
  calc (copyDst m.pageSize address).toNat
      = address.toNat / m.pageSize.toNat * m.pageSize.toNat := by
        rw [copyDst, toNat_and_mask address power, power]
    _ = (start + m.page address held) * m.pageSize.toNat := by
        rw [split, Nat.mul_add_div positive]
        rfl
    _ = m.mmapAddr.toNat + m.page address held * m.pageSize.toNat := by
        rw [Nat.add_mul, first, Nat.mul_comm start]

theorem page_eq_iff (held : m.Holds address) (p : Fin n) : m.page address held = p ↔
    m.mmapAddr.toNat + p * m.pageSize.toNat ≤ address.toNat ∧
      address.toNat < m.mmapAddr.toNat + p * m.pageSize.toNat + m.pageSize.toNat := by
  have positive := m.pageSize_bounds.1
  have least := held.1
  have next : (p + 1) * m.pageSize.toNat = p * m.pageSize.toNat + m.pageSize.toNat :=
    Nat.succ_mul ..
  rw [page, Fin.ext_iff, Nat.div_eq_iff positive]
  omega

/-- The bytes of the pages that are present. -/
def memory (m : Mapping n) (x : Process n m.pageSize.toNat) (address : BitVec 64) :
    Option UInt8 :=
  if held : m.Holds address then
    (x.mapping (m.page address held)).bind fun content =>
      content.bytes[(address.toNat - m.mmapAddr.toNat) % m.pageSize.toNat]?
  else none

end Mapping

/-- `UFFDIO_COPY` -/
def uffdioCopy (memory : BitVec 64 → Option UInt8) (dst : BitVec 64) (content : Page pageSize)
    (address : BitVec 64) : Option UInt8 :=
  if dst.toNat ≤ address.toNat ∧ address.toNat < dst.toNat + pageSize then
    content.bytes[address.toNat - dst.toNat]?
  else memory address

namespace Mapping
variable {n : Nat} {m : Mapping n} {address : BitVec 64}

theorem memory_setPage (held : m.Holds address) (x : Process n m.pageSize.toNat)
    (content : Page m.pageSize.toNat) :
    m.memory (x.setPage (m.page address held) (some content)) =
      uffdioCopy (m.memory x) (copyDst m.pageSize address) content := by
  have start := m.toNat_copyDst held
  have last := (m.page address held).isLt
  funext other
  by_cases held' : m.Holds other
  · have same := page_eq_iff held' (m.page address held)
    rw [memory, dif_pos held', uffdioCopy, start]
    by_cases here : m.page other held' = m.page address held
    · have quotient := congrArg Fin.val here
      have rest : (other.toNat - m.mmapAddr.toNat) % m.pageSize.toNat =
          other.toNat - (m.mmapAddr.toNat + m.page address held * m.pageSize.toNat) := by
        rw [Nat.mod_eq_sub_div_mul, Nat.sub_add_eq, ← quotient]
        rfl
      rw [if_pos (same.mp here), here, rest, Process.setPage]
      simp only [Function.update_self, Option.bind_some]
    · rw [if_neg (mt same.mpr here), memory, dif_pos held', Process.setPage]
      simp only [Function.update_of_ne here]
  · have outside : ¬ ((copyDst m.pageSize address).toNat ≤ other.toNat ∧
        other.toNat < (copyDst m.pageSize address).toNat + m.pageSize.toNat) := by
      have whole := m.whole
      have inside : (m.page address held + 1) * m.pageSize.toNat ≤ n * m.pageSize.toNat :=
        Nat.mul_le_mul_right _ last
      have next : (m.page address held + 1) * m.pageSize.toNat =
          m.page address held * m.pageSize.toNat + m.pageSize.toNat := Nat.succ_mul ..
      rw [Nat.mul_comm] at whole
      rw [Holds] at held'
      omega
    rw [memory, dif_neg held', uffdioCopy, if_neg outside, memory, dif_neg held']

/-- The last step of the handler for a fault at an address copies its buffer to the masked
address. -/
theorem faultHandlerThread_copies (held : m.Holds address) {x y : Process n m.pageSize.toNat}
    (resolving : x.handler = .resolving .install (m.page address held))
    (step : x.faultHandlerThread reply = some (y, l, e)) :
    m.memory y = uffdioCopy (m.memory x) (copyDst m.pageSize address) x.pageBuffer := by
  rw [Process.faultHandlerThread, resolving] at step
  cases absent : x.mapping (m.page address held) with
  | some content => simp only [absent, reduceCtorEq] at step
  | none =>
    simp only [absent, Option.some.injEq, Prod.mk.injEq] at step
    obtain ⟨rfl, _, _⟩ := step
    exact memory_setPage held x x.pageBuffer

end Mapping

/-- For every address of a mapping, the index is one of `msi_array`, and the content is copied
to the page with this index. -/
theorem fault_index_names_page {n : Nat} (m : Mapping n) (address : BitVec 64)
    (held : m.Holds address) :
    0 ≤ (pageFaulted m.pageSize m.mmapAddr address).toInt ∧
      (pageFaulted m.pageSize m.mmapAddr address).toInt < n ∧
      ((copyDst m.pageSize address).toNat : Int) = m.mmapAddr.toNat +
        (pageFaulted m.pageSize m.mmapAddr address).toInt * m.pageSize.toInt := by
  have below := (m.page address held).isLt
  rw [Mapping.toInt_pageFaulted held, Mapping.toNat_copyDst held, m.toInt_pageSize]
  refine ⟨Int.natCast_nonneg _, Int.ofNat_lt.mpr below, ?_⟩
  push_cast
  rfl

/-- Three pages of 4096 bytes. -/
def threePages : Mapping 3 where
  pageSize := 4096
  mmapAddr := 0x7f0000000000
  len := 12288
  power := ⟨12, by decide, by decide⟩
  aligned := by decide
  whole := by decide
  few := by decide
  noWrap := by decide

/-- The last byte of the second page. -/
theorem fault_index_names_page_second :
    threePages.Holds 0x7f0000001fff ∧
      (pageFaulted 4096 0x7f0000000000 0x7f0000001fff).toInt = 1 ∧
      ((copyDst 4096 0x7f0000001fff).toNat : Int) = 0x7f0000000000 + 1 * 4096 := by
  have held : threePages.Holds 0x7f0000001fff := by decide
  have index : (pageFaulted 4096 0x7f0000000000 0x7f0000001fff).toInt = 1 := by decide
  obtain ⟨_, _, dst⟩ := fault_index_names_page threePages 0x7f0000001fff held
  exact ⟨held, index, dst⟩

end CSE306.S2DSM
