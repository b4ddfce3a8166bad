import CSE306.S2DSM.Machine
import CSE306.S2DSM.Progress
import CSE306.S2DSM.Provenance
import CSE306.Transition.Simulation

/-! The pages in the address space: what the process does to the bytes at the addresses it
computes is what it does to its pages, and every other byte stays as it is. -/
namespace CSE306.S2DSM
open Transition Transition.Duplex

variable {n pageSize : Nat}

/-- A page number as the `int` it is in the program. -/
def index (p : Fin n) : BitVec 32 := BitVec.ofNat 32 p

namespace Mapping
variable {m : Mapping n}

theorem toNat_index (m : Mapping n) (p : Fin n) : (index p).toNat = p := by
  have few := m.few
  have below := p.isLt
  rw [index, BitVec.toNat_ofNat, Nat.mod_eq_of_lt (by omega)]

theorem toInt_ofNat (m : Mapping n) (le : k ≤ n) : (BitVec.ofNat 32 k).toInt = k := by
  have few := m.few
  have value : (BitVec.ofNat 32 k).toNat = k := by
    rw [BitVec.toNat_ofNat, Nat.mod_eq_of_lt (by omega)]
  rw [BitVec.toInt_eq_toNat_of_lt (by omega), value]

theorem index_inj (m : Mapping n) {p q : Fin n} (same : index p = index q) : p = q :=
  Fin.ext (by rw [← m.toNat_index p, same, m.toNat_index])

theorem toInt_index (m : Mapping n) (p : Fin n) : (index p).toInt = (p : Nat) := by
  have few := m.few
  have below := p.isLt
  rw [BitVec.toInt_eq_toNat_of_lt (by rw [m.toNat_index]; omega), m.toNat_index]

theorem index_pageFaulted (held : m.Holds address) :
    m.pageFaulted address = index (m.page address held) := by
  apply BitVec.eq_of_toInt_eq
  rw [m.toInt_index]
  exact toInt_pageFaulted held

theorem toInt_maxPage (m : Mapping n) : m.maxPage.toInt = n := by
  have positive := m.pageSize_bounds.1
  have quotient : m.len.toNat / (m.pageSize.signExtend 64).toNat = n := by
    rw [m.toNat_pageSize, m.whole, Nat.mul_div_cancel_left _ positive]
  rw [maxPage, toInt_quotient (by rw [quotient]; exact m.few), quotient]

/-- The whole mapping has less than 2 GiB, so that the offset of a page is an `int`. -/
def Fits (m : Mapping n) : Prop := m.len.toNat < 2 ^ 31

instance (m : Mapping n) : Decidable m.Fits := inferInstanceAs (Decidable (_ < _))

theorem page_end (m : Mapping n) (p : Fin n) :
    p * m.pageSize.toNat + m.pageSize.toNat ≤ m.len.toNat := by
  rw [m.whole, ← Nat.succ_mul, Nat.mul_comm]
  exact Nat.mul_le_mul_left _ p.isLt

theorem toNat_addressLoc (fits : m.Fits) (p : Fin n) :
    (m.addressLoc (index p)).toNat = m.mmapAddr.toNat + p * m.pageSize.toNat := by
  have last := m.page_end p
  have positive := m.pageSize_bounds.1
  have noWrap := m.noWrap
  rw [Fits] at fits
  have product : (index p * m.pageSize).toNat = p * m.pageSize.toNat := by
    rw [BitVec.toNat_mul, m.toNat_index, Nat.mod_eq_of_lt (by omega)]
  have offset : ((index p * m.pageSize).signExtend 64).toNat = p * m.pageSize.toNat := by
    rw [(toNat_signExtend _).1, product]
    rw [BitVec.toInt_eq_toNat_of_lt (by omega)]
    exact Int.natCast_nonneg _
  rw [addressLoc, BitVec.toNat_add, offset, Nat.mod_eq_of_lt (by omega)]

theorem holds_addressLoc (fits : m.Fits) (p : Fin n) : m.Holds (m.addressLoc (index p)) := by
  have last := m.page_end p
  have positive := m.pageSize_bounds.1
  have start := toNat_addressLoc fits p
  constructor <;> omega

theorem within_iff (fits : m.Fits) (held : m.Holds address) (p : Fin n) :
    AddressSpace.Within (m.addressLoc (index p)) m.pageSize.toNat address ↔
      m.page address held = p := by
  rw [page_eq_iff, AddressSpace.Within, toNat_addressLoc fits]

theorem page_addressLoc (fits : m.Fits) (p : Fin n) :
    m.page _ (holds_addressLoc fits p) = p := by
  have positive := m.pageSize_bounds.1
  exact (within_iff fits _ p).mp ⟨le_rfl, by omega⟩

theorem copyDst_eq (fits : m.Fits) (held : m.Holds address) :
    copyDst m.pageSize address = m.addressLoc (index (m.page address held)) := by
  apply BitVec.eq_of_toNat_eq
  rw [toNat_copyDst held, toNat_addressLoc fits]

/-- The space of a process: the bytes of its resident pages, and what is outside of them. -/
def space (m : Mapping n) (outside : AddressSpace) (mapping : Fin n → Option (Page pageSize)) :
    AddressSpace := fun address =>
  if held : m.Holds address then
    (mapping (m.page address held)).bind fun content =>
      content.bytes[(address.toNat - m.mmapAddr.toNat) % pageSize]?
  else outside address

variable {outside : AddressSpace} {mapping : Fin n → Option (Page pageSize)}

theorem space_within (sized : m.pageSize.toNat = pageSize) (fits : m.Fits) {p : Fin n}
    (within : AddressSpace.Within (m.addressLoc (index p)) pageSize address) :
    m.Holds address ∧ m.space outside mapping address = (mapping p).bind fun content =>
      content.bytes[address.toNat - (m.addressLoc (index p)).toNat]? := by
  subst sized
  have last := m.page_end p
  have start := toNat_addressLoc fits p
  have held : m.Holds address := by
    obtain ⟨least, below⟩ := within
    constructor <;> omega
  have here := (within_iff fits held p).mp within
  have quotient := congrArg Fin.val here
  have rest : (address.toNat - m.mmapAddr.toNat) % m.pageSize.toNat =
      address.toNat - (m.addressLoc (index p)).toNat := by
    rw [Nat.mod_eq_sub_div_mul, start, Nat.sub_add_eq, ← quotient]
    rfl
  rw [space, dif_pos held, here, rest]
  exact ⟨held, rfl⟩

theorem space_other (sized : m.pageSize.toNat = pageSize) (fits : m.Fits) {p : Fin n}
    (away : ¬AddressSpace.Within (m.addressLoc (index p)) pageSize address)
    (content : Option (Page pageSize)) :
    m.space outside (Function.update mapping p content) address =
      m.space outside mapping address := by
  subst sized
  unfold space
  split
  · rename_i held
    rw [Function.update_of_ne fun same => away ((within_iff fits held p).mpr same)]
  · rfl

theorem space_shows (outside : AddressSpace) (sized : m.pageSize.toNat = pageSize)
    (fits : m.Fits) {p : Fin n} {content : Page pageSize} (present : mapping p = some content) :
    (m.space outside mapping).Shows (m.addressLoc (index p)) content.bytes := by
  have last := m.page_end p
  have start := toNat_addressLoc fits p
  have noWrap := m.noWrap
  refine AddressSpace.shows_of_get fun k below => ?_
  rw [content.size] at below
  have address : (m.addressLoc (index p) + BitVec.ofNat 64 k).toNat =
      (m.addressLoc (index p)).toNat + k := by
    rw [BitVec.toNat_add, BitVec.toNat_ofNat, Nat.mod_eq_of_lt (a := k) (by omega),
      Nat.mod_eq_of_lt (by omega)]
  have within : AddressSpace.Within (m.addressLoc (index p)) pageSize
      (m.addressLoc (index p) + BitVec.ofNat 64 k) := by
    rw [AddressSpace.Within, address]
    omega
  rw [(space_within sized fits within).2, present, address, Option.bind_some,
    Nat.add_sub_cancel_left]

theorem space_absent (sized : m.pageSize.toNat = pageSize) (fits : m.Fits) {p : Fin n}
    (absent : mapping p = none) :
    m.space outside mapping (m.addressLoc (index p)) = none := by
  have positive := m.pageSize_bounds.1
  have within : AddressSpace.Within (m.addressLoc (index p)) pageSize (m.addressLoc (index p)) :=
    ⟨le_rfl, by omega⟩
  rw [(space_within sized fits within).2, absent, Option.bind_none]

theorem space_copy (sized : m.pageSize.toNat = pageSize) (fits : m.Fits) (p : Fin n)
    (content : Page pageSize) :
    m.space outside (Function.update mapping p (some content)) =
      (m.space outside mapping).copy (m.addressLoc (index p)) content.bytes := by
  funext address
  rw [AddressSpace.copy, content.size]
  split
  · rename_i within
    rw [(space_within sized fits within).2, Function.update_self, Option.bind_some]
  · rename_i away
    exact space_other sized fits away _

theorem space_discard (sized : m.pageSize.toNat = pageSize) (fits : m.Fits) (p : Fin n) :
    m.space outside (Function.update mapping p none) =
      (m.space outside mapping).discard (m.addressLoc (index p)) pageSize := by
  funext address
  rw [AddressSpace.discard]
  split
  · rename_i within
    rw [(space_within sized fits within).2, Function.update_self, Option.bind_none]
  · rename_i away
    exact space_other sized fits away _

end Mapping

/-- The cursor goes through these pages. -/
inductive Cursor.Covers : Cursor → List (Fin n) → Prop where
  | all (k : Nat) : k ≤ n → Covers (.all (BitVec.ofNat 32 k)) ((List.finRange n).drop k)
  | one (p : Fin n) : Covers (.one (index p)) [p]
  | done : Covers .done []

/-- The loop over all pages stops at `max_page`, the other one after its page. -/
theorem Cursor.Covers.next (m : Mapping n) {cursor : Cursor} {pages : List (Fin n)}
    (covers : cursor.Covers pages) : (pages = [] ∧ cursor.next m.maxPage = none) ∨
      ∃ p rest rest', pages = p :: rest ∧ cursor.next m.maxPage = some (index p, rest') ∧
        rest'.Covers rest := by
  cases covers with
  | all k most =>
    have small : (BitVec.ofNat 32 k).slt m.maxPage ↔ k < n := by
      rw [BitVec.slt_iff_toInt_lt, m.toInt_ofNat most, m.toInt_maxPage]
      omega
    by_cases more : k < n
    · refine .inr ⟨⟨k, more⟩, (List.finRange n).drop (k + 1), .all (BitVec.ofNat 32 (k + 1)),
        ?_, ?_, .all (k + 1) more⟩
      · rw [List.drop_eq_getElem_cons (by simpa using more), List.getElem_finRange]
        rfl
      · rw [Cursor.next, if_pos (small.mpr more)]
        simp [index, BitVec.ofNat_add]
    · refine .inl ⟨List.drop_eq_nil_of_le (by simpa using Nat.not_lt.mp more), ?_⟩
      rw [Cursor.next, if_neg (mt small.mp more)]
  | one p => exact .inr ⟨p, [], .done, rfl, rfl, .done⟩
  | done => exact .inl ⟨rfl, rfl⟩

/-- The `int` for the pages of a command. -/
def rawPage : Option (Fin n) → BitVec 32
  | none => -1
  | some p => index p

def Command.raw : Command n → RawCommand
  | .read whichPage => .read (rawPage whichPage)
  | .write typed whichPage => .write typed (rawPage whichPage)

def MsgRequest.raw : MsgRequest n → RawRequest
  | .fetch p => (.fetch, index p)
  | .invalidate p => (.invalidate, index p)

def Reply.raw : Reply n pageSize → RawReply pageSize
  | .absent _ => .response 48
  | .present _ => .response 49
  | .content _ c => .page c

/-- A page is shown as the string that it begins with. -/
def Event.raw : Event n pageSize → RawEvent
  | .command c => .command c.raw
  | .wrote p typed => .wrote (index p) typed
  | .read p content => .printed (index p) (cstring content.bytes)

inductive Main.Tracked : Main n → Machine.Main → Prop where
  | prompt : Tracked .prompt .prompt
  | loop (op : Op) : cursor.Covers pages → Tracked (.loop op pages) (.loop op cursor)
  | access (stage : Stage (List UInt8)) (p : Fin n) : cursor.Covers rest →
      Tracked (.access stage p rest) (.access stage (index p) cursor)

/-- Any address of the page that is resolved. -/
inductive Handler.Tracked (m : Mapping n) : Handler n → Machine.Handler → Prop where
  | poll : Tracked m .poll .poll
  | resolving (stage : Resolve) (held : m.Holds address) :
      Tracked m (.resolving stage (m.page address held)) (.resolving stage address)

def Server.raw : Server n → Machine.Server
  | .receive => .receive
  | .serving stage p => .serving stage (index p)

/-- The process in its address space: its pages and its entries are where the program has
them, and what is outside of the mapping is as it was. -/
structure Process.Placed (outside : AddressSpace) (x : Process n pageSize)
    (y : Machine n pageSize) : Prop where
  fits : y.layout.Fits
  memory : y.memory = y.layout.space outside x.mapping
  msiArray : y.msiArray = List.ofFn fun p => (x.msiArray p).code
  main : x.main.Tracked y.main
  handler : x.handler.Tracked y.layout y.handler
  page : y.page = x.pageBuffer
  server : y.server = x.server.raw

/-- Both have no step, or steps that show the same and place the process again. -/
def Placed.Both (outside : AddressSpace) :
    Option (Effect n pageSize) → Option (Machine.Effect n pageSize) → Prop :=
  Option.Rel fun r r' => r.1.Placed outside r'.1 ∧
    r'.2.1 = r.2.1.map MsgRequest.raw Reply.raw ∧ r'.2.2 = r.2.2.map Event.raw


/-- A buffer that `strncpy` has filled holds the string. -/
theorem cstring_padded {bytes : List UInt8} (ends : 0 ∈ bytes) :
    0 ∈ cstring bytes ++ List.replicate (bytes.length - (cstring bytes).length) 0 ∧
      cstring (cstring bytes ++ List.replicate (bytes.length - (cstring bytes).length) 0) =
        cstring bytes := by
  have away : 0 ∉ cstring bytes := fun mem => by simpa using List.mem_takeWhile_imp mem
  have shorter : (cstring bytes).length < bytes.length := by
    refine lt_of_le_of_ne (List.takeWhile_prefix _).length_le fun same => away ?_
    have whole : cstring bytes = bytes := (List.takeWhile_prefix _).eq_of_length same
    rwa [whole]
  obtain ⟨k, more⟩ := Nat.exists_eq_add_of_lt shorter
  have rest : bytes.length - (cstring bytes).length = k + 1 := by omega
  rw [rest, List.replicate_succ]
  exact ⟨by simp, cstring_terminated _ _ away⟩

section Access
variable {layout : Mapping n} {mapping : Fin n → Option (Page pageSize)} (outside : AddressSpace)

/-- Every resident page ends a string. -/
def Terminated (mapping : Fin n → Option (Page pageSize)) : Prop :=
  ∀ p c, mapping p = some c → 0 ∈ c.bytes

theorem space_peek (sized : layout.pageSize.toNat = pageSize) (fits : layout.Fits) (p : Fin n) :
    (layout.space outside mapping).peek (layout.addressLoc (index p)) pageSize =
      (mapping p).map Page.bytes := by
  cases present : mapping p with
  | none =>
    exact (AddressSpace.absent (Mapping.space_absent sized fits present)
      (sized ▸ layout.pageSize_bounds.1)).1
  | some content =>
    have shown := (Mapping.space_shows outside sized fits present).peek
    rwa [content.size] at shown

theorem space_stringAt (sized : layout.pageSize.toNat = pageSize) (fits : layout.Fits)
    (terminated : Terminated mapping) (p : Fin n) :
    (layout.space outside mapping).stringAt (layout.addressLoc (index p)) pageSize =
      (mapping p).map (cstring ·.bytes) := by
  cases present : mapping p with
  | none =>
    exact (AddressSpace.absent (Mapping.space_absent sized fits present)
      (sized ▸ layout.pageSize_bounds.1)).2.1
  | some content =>
    have shown := (Mapping.space_shows outside sized fits present).stringAt
    rwa [content.size, if_pos (terminated p content present)] at shown

theorem space_strncpy (sized : layout.pageSize.toNat = pageSize) (fits : layout.Fits)
    (p : Fin n) :
    (layout.space outside mapping).strncpy (layout.addressLoc (index p)) pageSize =
      (mapping p).map fun c =>
        cstring c.bytes ++ List.replicate (c.bytes.length - (cstring c.bytes).length) 0 := by
  cases present : mapping p with
  | none =>
    exact (AddressSpace.absent (Mapping.space_absent sized fits present)
      (sized ▸ layout.pageSize_bounds.1)).2.2
  | some content =>
    have shown := (Mapping.space_shows outside sized fits present).strncpy
    rw [content.size] at shown
    rw [shown, Option.map_some, content.size]

end Access

section Entries
variable {y : Machine n pageSize} {msiArray : Fin n → Msi}

theorem Machine.entry_index (same : y.msiArray = List.ofFn fun p => (msiArray p).code)
    (p : Fin n) : y.entry (index p) = some (msiArray p).code := by
  have value := y.layout.toInt_index p
  rw [Machine.entry, if_pos (by omega), same, value, Int.toNat_natCast, List.getElem?_ofFn,
    dif_pos p.isLt]

theorem Machine.setEntry_index (same : y.msiArray = List.ofFn fun p => (msiArray p).code)
    (p : Fin n) (state : Msi) : y.setEntry (index p) state.code = some { y with
      msiArray := List.ofFn fun q => (Function.update msiArray p state q).code } := by
  have value := y.layout.toInt_index p
  rw [Machine.setEntry, Machine.entry_index same, Option.map_some, value, Int.toNat_natCast, same]
  congr 2
  refine List.ext_getElem (by simp) fun k below below' => ?_
  rw [List.getElem_set, List.getElem_ofFn, List.getElem_ofFn, Function.update_apply]
  split
  · rename_i here
    rw [if_pos (Fin.ext here.symm)]
  · rename_i other
    rw [if_neg fun here => other (congrArg Fin.val here).symm]

end Entries

theorem code_invalid (state : Msi) : state.code = Msi.invalid.code ↔ state = .invalid := by
  cases state <;> decide


namespace Process.Placed
variable {outside : AddressSpace} {x : Process n pageSize} {y : Machine n pageSize}

theorem mainStep (placed : x.Placed outside y) (terminated : Terminated x.mapping) :
    Placed.Both outside x.mainStep y.mainStep := by
  have marking := fun p => Machine.setEntry_index placed.msiArray p .modified
  obtain ⟨msiArray, mapping, main, handler, pageBuffer, server⟩ := x
  obtain ⟨layout, sized, memory, rawMsi, rawMain, rawHandler, page, rawServer⟩ := y
  obtain ⟨fits, held, same, tracked, handler, buffer, serving⟩ := placed
  dsimp only at fits held same tracked handler buffer serving terminated
  subst held buffer serving
  have reading := space_stringAt outside sized fits terminated
  cases tracked with
  | prompt => exact .none
  | loop op covers =>
    rcases covers.next layout with ⟨rfl, last⟩ | ⟨p, rest, rest', rfl, next, covers⟩
    · simp only [Process.mainStep, Machine.mainStep, last]
      exact .some ⟨⟨fits, rfl, same, .prompt, handler, rfl, rfl⟩, rfl, rfl⟩
    · simp only [Process.mainStep, Machine.mainStep, next]
      exact .some ⟨⟨fits, rfl, same, .access _ p covers, handler, rfl, rfl⟩, rfl, rfl⟩
  | access stage p covers =>
    cases stage with
    | load again =>
      cases again with
      | false =>
        simp only [Process.mainStep, Machine.mainStep,
          space_strncpy outside sized fits p]
        cases present : mapping p with
        | none => exact .none
        | some c =>
          obtain ⟨ends, string⟩ := cstring_padded (terminated p c present)
          simp only [Option.map_some, Option.bind_eq_bind, Option.bind_some, if_pos ends, string]
          exact .some ⟨⟨fits, rfl, same, .loop _ covers, handler, rfl, rfl⟩, rfl, rfl⟩
      | true =>
        simp only [Process.mainStep, Machine.mainStep,
          space_strncpy outside sized fits p]
        cases mapping p with
        | none => exact .none
        | some c => exact .some ⟨⟨fits, rfl, same, .access _ p covers, handler, rfl, rfl⟩, rfl, rfl⟩
    | print =>
      simp only [Process.mainStep, Machine.mainStep, reading p]
      cases mapping p with
      | none => exact .none
      | some c => exact .some ⟨⟨fits, rfl, same, .loop _ covers, handler, rfl, rfl⟩, rfl, rfl⟩
    | store typed =>
      simp only [Process.mainStep, Machine.mainStep, Machine.storeMessage,
        space_peek outside sized fits p]
      cases mapping p with
      | none => exact .none
      | some c =>
        exact .some ⟨⟨fits, (Mapping.space_copy sized fits p _).symm, same, .access _ p covers,
          handler, rfl, rfl⟩, rfl, rfl⟩
    | mark typed =>
      simp only [Process.mainStep, Machine.mainStep, marking p]
      exact .some ⟨⟨fits, rfl, rfl, .access _ p covers, handler, rfl, rfl⟩, rfl, rfl⟩
    | echo typed =>
      simp only [Process.mainStep, Machine.mainStep, reading p]
      cases mapping p with
      | none => exact .none
      | some c => exact .some ⟨⟨fits, rfl, same, .access _ p covers, handler, rfl, rfl⟩, rfl, rfl⟩
    | notify typed =>
      exact .some ⟨⟨fits, rfl, same, .loop _ covers, handler, rfl, rfl⟩, rfl, rfl⟩

theorem faultHandlerThread (placed : x.Placed outside y) (reply : Option (Reply n pageSize)) :
    Placed.Both outside (x.faultHandlerThread reply)
      (y.faultHandlerThread (reply.map Reply.raw)) := by
  have entries := Machine.entry_index placed.msiArray
  have sharing := fun p => Machine.setEntry_index placed.msiArray p .shared
  obtain ⟨msiArray, mapping, main, handler, pageBuffer, server⟩ := x
  obtain ⟨layout, sized, memory, rawMsi, rawMain, rawHandler, page, rawServer⟩ := y
  obtain ⟨fits, held, same, main, tracked, buffer, serving⟩ := placed
  dsimp only at fits held same tracked main buffer serving
  subst held buffer serving
  cases tracked with
  | poll => exact .none
  | @resolving address stage inside =>
    have faulted := Mapping.index_pageFaulted inside
    cases stage with
    | test =>
      simp only [Process.faultHandlerThread, Machine.faultHandlerThread, faulted, entries,
        Option.map_some, code_invalid]
      exact .some ⟨⟨fits, rfl, same, main, .resolving _ inside, rfl, rfl⟩, rfl, rfl⟩
    | request =>
      simp only [Process.faultHandlerThread, Machine.faultHandlerThread, faulted]
      exact .some ⟨⟨fits, rfl, same, main, .resolving _ inside, rfl, rfl⟩, rfl, rfl⟩
    | response =>
      rcases reply with _ | ⟨q | q | q⟩
      · exact .none
      · exact .some ⟨⟨fits, rfl, same, main, .resolving _ inside, rfl, rfl⟩, rfl, rfl⟩
      · exact .some ⟨⟨fits, rfl, same, main, .resolving _ inside, rfl, rfl⟩, rfl, rfl⟩
      · exact .none
    | page =>
      rcases reply with _ | ⟨q | q | q⟩
      · exact .none
      · exact .none
      · exact .none
      · exact .some ⟨⟨fits, rfl, same, main, .resolving _ inside, rfl, rfl⟩, rfl, rfl⟩
    | share =>
      simp only [Process.faultHandlerThread, Machine.faultHandlerThread, faulted, sharing]
      exact .some ⟨⟨fits, rfl, rfl, main, .resolving _ inside, rfl, rfl⟩, rfl, rfl⟩
    | install =>
      have dst := Mapping.copyDst_eq fits inside
      have start := Mapping.holds_addressLoc fits (layout.page address inside)
      simp only [Process.faultHandlerThread, Machine.faultHandlerThread, dst]
      cases present : mapping (layout.page address inside) with
      | none =>
        rw [if_pos ⟨start, Mapping.space_absent sized fits present⟩]
        exact .some ⟨⟨fits, (Mapping.space_copy sized fits _ _).symm, same, main, .poll, rfl, rfl⟩,
          rfl, rfl⟩
      | some c =>
        have shown := Mapping.space_shows outside sized fits present
        have positive : 0 < c.bytes.length := by
          rw [c.size, ← sized]
          exact layout.pageSize_bounds.1
        obtain ⟨b, rest, split⟩ := List.exists_cons_of_length_pos positive
        rw [split] at shown
        rw [if_neg fun both => by simpa [both.2] using shown.1]
        exact .none

theorem serverThread (placed : x.Placed outside y) (request : Option (MsgRequest n)) :
    Placed.Both outside (x.serverThread request)
      (y.serverThread (request.map MsgRequest.raw)) := by
  have entries := Machine.entry_index placed.msiArray
  have setting := fun p state => Machine.setEntry_index placed.msiArray p state
  obtain ⟨msiArray, mapping, main, handler, pageBuffer, server⟩ := x
  obtain ⟨layout, sized, memory, rawMsi, rawMain, rawHandler, page, rawServer⟩ := y
  obtain ⟨fits, held, same, main, handler, buffer, serving⟩ := placed
  dsimp only at fits held same handler main buffer serving
  subst held buffer serving
  cases server with
  | receive =>
    rcases request with _ | ⟨q | q⟩
    · exact .none
    · exact .some ⟨⟨fits, rfl, same, main, handler, rfl, rfl⟩, rfl, rfl⟩
    · exact .some ⟨⟨fits, rfl, same, main, handler, rfl, rfl⟩, rfl, rfl⟩
  | serving stage p =>
    simp only [Server.raw] at entries setting
    cases stage with
    | test =>
      simp only [Process.serverThread, Machine.serverThread, Server.raw, entries,
        Option.map_some, code_invalid]
      exact .some ⟨⟨fits, rfl, same, main, handler, rfl, rfl⟩, rfl, rfl⟩
    | deny | grant => exact .some ⟨⟨fits, rfl, same, main, handler, rfl, rfl⟩, rfl, rfl⟩
    | copy =>
      simp only [Process.serverThread, Machine.serverThread, Server.raw,
        space_peek outside sized fits p]
      cases mapping p with
      | none => exact .none
      | some c =>
        simp only [Option.map_some, Option.bind_eq_bind, Option.bind_some, dif_pos c.size]
        exact .some ⟨⟨fits, rfl, same, main, handler, rfl, rfl⟩, rfl, rfl⟩
    | share | invalidate =>
      simp only [Process.serverThread, Machine.serverThread, Server.raw, setting]
      exact .some ⟨⟨fits, rfl, rfl, main, handler, rfl, rfl⟩, rfl, rfl⟩
    | drop =>
      have aligned : pageSize ∣ (layout.addressLoc (index p)).toNat := by
        rw [Mapping.toNat_addressLoc fits, ← sized]
        exact Nat.dvd_add layout.aligned (Nat.dvd_mul_left _ _)
      simp only [Process.serverThread, Machine.serverThread, Server.raw]
      rw [if_pos ⟨Mapping.holds_addressLoc fits p, aligned⟩]
      exact .some ⟨⟨fits, (Mapping.space_discard sized fits p).symm, same, main, handler, rfl,
        rfl⟩, rfl, rfl⟩

theorem faults_iff (placed : x.Placed outside y) (held : y.layout.Holds address) :
    y.Faults address ↔ x.Faults (y.layout.page address held) := by
  obtain ⟨msiArray, mapping, main, handler, pageBuffer, server⟩ := x
  obtain ⟨layout, sized, memory, rawMsi, rawMain, rawHandler, page, rawServer⟩ := y
  obtain ⟨fits, stored, same, tracked, handler, buffer, serving⟩ := placed
  dsimp only at fits held stored same tracked handler buffer serving
  subst stored buffer serving
  have within (p : Fin n) : AddressSpace.Within (layout.addressLoc (index p)) pageSize address ↔
      p = layout.page address held := by
    rw [← sized, Mapping.within_iff fits held, eq_comm]
  have absent : layout.space outside mapping address = none ↔
      mapping (layout.page address held) = none := by
    rw [Mapping.space, dif_pos held]
    cases mapping (layout.page address held) with
    | none => simp
    | some c =>
      have below : (address.toNat - layout.mmapAddr.toNat) % pageSize < c.bytes.length := by
        rw [c.size]
        exact Nat.mod_lt _ (sized ▸ layout.pageSize_bounds.1)
      simp [List.getElem?_eq_getElem below]
  unfold Machine.Faults Process.Faults
  refine (and_iff_right held).trans (and_congr absent (or_congr ?_ ?_))
  · cases tracked with
    | prompt | loop => exact Iff.rfl
    | access stage p covers =>
      dsimp only
      rw [within, and_comm]
  · cases server with
    | receive => exact Iff.rfl
    | serving stage p =>
      cases stage with
      | copy => exact within p
      | _ => exact Iff.rfl

theorem faultStep (placed : x.Placed outside y) (held : y.layout.Holds address) :
    Placed.Both outside (x.faultStep (y.layout.page address held)) (y.faultStep address) := by
  have faults := placed.faults_iff held
  obtain ⟨msiArray, mapping, main, handler, pageBuffer, server⟩ := x
  obtain ⟨layout, sized, memory, rawMsi, rawMain, rawHandler, page, rawServer⟩ := y
  obtain ⟨fits, stored, same, main, tracked, buffer, serving⟩ := placed
  cases tracked with
  | resolving => exact .none
  | poll =>
    by_cases stopped : Machine.Faults ⟨layout, sized, memory, rawMsi, rawMain, .poll, page,
        rawServer⟩ address
    · simp only [Process.faultStep, Machine.faultStep, if_pos stopped, if_pos (faults.mp stopped)]
      exact .some ⟨⟨fits, stored, same, main, .resolving _ held, rfl, serving⟩, rfl, rfl⟩
    · simp only [Process.faultStep, Machine.faultStep, if_neg stopped,
        if_neg (mt faults.mpr stopped)]
      exact .none

end Process.Placed

theorem index_ne (m : Mapping n) (p : Fin n) : index p ≠ -1 := by
  intro same
  have value := m.toInt_index p
  rw [same] at value
  have negative : (-1 : BitVec 32).toInt = -1 := rfl
  omega

theorem rawPage_in_range (m : Mapping n) (whichPage : Option (Fin n)) :
    ¬((rawPage whichPage).slt (-1) ∨ m.maxPage.sle (rawPage whichPage)) := by
  have negative : (-1 : BitVec 32).toInt = -1 := rfl
  rw [BitVec.slt_iff_toInt_lt, BitVec.sle_iff_toInt_le, m.toInt_maxPage]
  cases whichPage with
  | none =>
    simp only [rawPage]
    omega
  | some p =>
    have value := m.toInt_index p
    have below := p.isLt
    simp only [rawPage]
    omega

theorem exists_page (m : Mapping n) {whichPage : BitVec 32}
    (accepted : ¬(whichPage.slt (-1) ∨ m.maxPage.sle whichPage)) :
    ∃ p : Option (Fin n), rawPage p = whichPage := by
  have negative : (-1 : BitVec 32).toInt = -1 := rfl
  rw [BitVec.slt_iff_toInt_lt, BitVec.sle_iff_toInt_le, m.toInt_maxPage, negative] at accepted
  by_cases all : whichPage.toInt = -1
  · exact ⟨none, BitVec.eq_of_toInt_eq (negative.trans all.symm)⟩
  · have below : whichPage.toInt.toNat < n := by omega
    refine ⟨some ⟨whichPage.toInt.toNat, below⟩, BitVec.eq_of_toInt_eq ?_⟩
    rw [rawPage, m.toInt_index]
    exact Int.toNat_of_nonneg (by omega)

theorem Command.exists_raw (m : Mapping n) {c' : RawCommand}
    (accepted : ¬(c'.whichPage.slt (-1) ∨ m.maxPage.sle c'.whichPage)) :
    ∃ c : Command n, c.raw = c' := by
  obtain ⟨p, same⟩ := exists_page m accepted
  cases c' with
  | read => exact ⟨.read p, congrArg _ same⟩
  | write typed => exact ⟨.write typed p, congrArg _ same⟩

theorem Command.raw_whichPage (c : Command n) : c.raw.whichPage = rawPage c.whichPage := by
  cases c <;> rfl

theorem Command.raw_op (m : Mapping n) (c : Command n) : c.raw.op = c.op := by
  cases c with
  | write => rfl
  | read whichPage =>
    cases whichPage with
    | none => rfl
    | some p =>
      rw [Command.raw, RawCommand.op, rawPage, decide_eq_false (index_ne m p)]
      rfl

theorem Command.covers (m : Mapping n) (c : Command n) :
    (Cursor.start (rawPage c.whichPage)).Covers c.pages := by
  unfold Command.pages
  cases c.whichPage with
  | none => exact Cursor.Covers.all 0 (Nat.zero_le n)
  | some p =>
    rw [rawPage, Cursor.start, if_neg (index_ne m p)]
    exact .one p

namespace Process.Placed
variable {outside : AddressSpace} {x : Process n pageSize} {y : Machine n pageSize}

theorem command (placed : x.Placed outside y) (c : Command n)
    (request : Option (MsgRequest n)) (reply : Option (Reply n pageSize)) :
    Placed.Both outside (x.step request reply (.command c))
      (y.step (request.map MsgRequest.raw) (reply.map Reply.raw) (.command c.raw)) := by
  have accepted := rawPage_in_range y.layout c.whichPage
  have covers := Command.covers y.layout c
  have op := Command.raw_op y.layout c
  obtain ⟨msiArray, mapping, main, handler, pageBuffer, server⟩ := x
  obtain ⟨layout, sized, memory, rawMsi, rawMain, rawHandler, page, rawServer⟩ := y
  obtain ⟨fits, stored, same, tracked, handler, buffer, serving⟩ := placed
  cases tracked with
  | loop | access => exact .none
  | prompt =>
    simp only [Process.step, Machine.step, Command.raw_whichPage, if_neg accepted, op]
    exact .some ⟨⟨fits, stored, same, .loop _ covers, handler, buffer, serving⟩, rfl, rfl⟩

/-- Each step of the process has its step in the address space. -/
theorem step (placed : x.Placed outside y) (terminated : Terminated x.mapping)
    (moved : x.step request reply turn = some r) :
    ∃ turn' r', y.step (request.map MsgRequest.raw) (reply.map Reply.raw) turn' = some r' ∧
      r.1.Placed outside r'.1 ∧ r'.2.1 = r.2.1.map MsgRequest.raw Reply.raw ∧
      r'.2.2 = r.2.2.map Event.raw := by
  have found {b : Option (Machine.Effect n pageSize)}
      (both : Placed.Both outside (x.step request reply turn) b) : ∃ r', b = some r' ∧
        r.1.Placed outside r'.1 ∧ r'.2.1 = r.2.1.map MsgRequest.raw Reply.raw ∧
        r'.2.2 = r.2.2.map Event.raw := by
    rw [moved] at both
    cases both with
    | some same => exact ⟨_, rfl, same⟩
  cases turn with
  | command c => exact ⟨.command c.raw, found (placed.command c request reply)⟩
  | main => exact ⟨.main, found (placed.mainStep terminated)⟩
  | fault p =>
    have fault := placed.faultStep (Mapping.holds_addressLoc placed.fits p)
    rw [Mapping.page_addressLoc placed.fits] at fault
    exact ⟨.fault (y.layout.addressLoc (index p)), found fault⟩
  | handler => exact ⟨.handler, found (placed.faultHandlerThread reply)⟩
  | server => exact ⟨.server, found (placed.serverThread request)⟩

/-- Each step in the address space is one of the process. -/
theorem back (placed : x.Placed outside y) (terminated : Terminated x.mapping)
    (moved : y.step (request.map MsgRequest.raw) (reply.map Reply.raw) turn' = some r') :
    ∃ turn r, x.step request reply turn = some r ∧ r.1.Placed outside r'.1 ∧
      r'.2.1 = r.2.1.map MsgRequest.raw Reply.raw ∧ r'.2.2 = r.2.2.map Event.raw := by
  have found {a : Option (Effect n pageSize)} (both : Placed.Both outside a
      (y.step (request.map MsgRequest.raw) (reply.map Reply.raw) turn')) : ∃ r, a = some r ∧
        r.1.Placed outside r'.1 ∧ r'.2.1 = r.2.1.map MsgRequest.raw Reply.raw ∧
        r'.2.2 = r.2.2.map Event.raw := by
    rw [moved] at both
    cases both with
    | some same => exact ⟨_, rfl, same⟩
  cases turn' with
  | command c' =>
    have accepted : ¬(c'.whichPage.slt (-1) ∨ y.layout.maxPage.sle c'.whichPage) := by
      intro refused
      simp only [Machine.step, if_pos refused] at moved
      split at moved <;> cases moved
    obtain ⟨c, rfl⟩ := Command.exists_raw y.layout accepted
    exact ⟨.command c, found (placed.command c request reply)⟩
  | main => exact ⟨.main, found (placed.mainStep terminated)⟩
  | fault address =>
    by_cases held : y.layout.Holds address
    · exact ⟨.fault (y.layout.page address held), found (placed.faultStep held)⟩
    · have away : ¬y.Faults address := fun faults => held faults.1
      simp only [Machine.step, Machine.faultStep, if_neg away] at moved
      split at moved <;> cases moved
  | handler => exact ⟨.handler, found (placed.faultHandlerThread reply)⟩
  | server => exact ⟨.server, found (placed.serverThread request)⟩

end Process.Placed

namespace Machines
variable {m : Side → Mapping n} {sized : ∀ i, (m i).pageSize.toNat = pageSize}
  {outside : Side → AddressSpace}

/-- Both processes are placed in their address spaces, with the same messages in flight. -/
def Placed (m : Side → Mapping n) (outside : Side → AddressSpace) (s : System n pageSize)
    (t : Machines n pageSize) : Prop :=
  Net.Related (fun i x y => Process.Placed (outside i) x y ∧ y.layout = m i)
    MsgRequest.raw Reply.raw s t

theorem Placed.initial (fits : ∀ i, (m i).Fits) :
    Placed m outside (System.initial n pageSize) (initial m sized outside) := by
  refine fun i => ⟨⟨⟨fits i, ?_, ?_, .prompt, .poll, rfl, rfl⟩, rfl⟩, rfl, rfl⟩
  · funext address
    by_cases held : (m i).Holds address <;>
      simp [Machines.initial, Machine.initial, Mapping.space, System.initial, Process.initial,
        held]
  · exact (List.ofFn_const n Msi.invalid.code).symm

/-- A string ends in every page that a run leaves resident. -/
theorem terminated_of_runs (positive : 0 < pageSize) {s : System n pageSize}
    (run : System.Runs free h s) (i : Side) : Terminated (s i).party.mapping := by
  intro p c present
  rcases ((Runs.sourced run i).2 p).content present with rfl | ⟨typed, _, rfl⟩
  · exact List.mem_of_getElem? (zero_last pageSize positive)
  · exact List.mem_of_getElem? (stored_last pageSize positive typed)

variable {ok : Node n pageSize → Node n pageSize → Process n pageSize → Prop}
  {ok' : End (Machine n pageSize) RawRequest (RawReply pageSize) →
    End (Machine n pageSize) RawRequest (RawReply pageSize) → Machine n pageSize → Prop}
  {s : System n pageSize} {t : Machines n pageSize}

/-- A step in the address spaces is one on the pages. -/
theorem Placed.back (positive : 0 < pageSize) (run : System.Runs ok h s)
    (placed : Placed m outside s t)
    (admits : ∀ {i p p'}, ok' (t i) (t i.peer) p' →
      Process.Placed (outside i) p p' ∧ p'.layout = m i → ok (s i) (s i.peer) p)
    (step : Duplex.Step ok' Machine.Moves t e' t') :
    ∃ e s', System.Step ok s e s' ∧ e.map (Prod.map id Event.raw) = e' ∧
      Placed m outside s' t' := by
  refine Duplex.Step.back placed admits (fun {i l' e' p'} moves ready => ?_) step
  obtain ⟨turn', request, reply, moved⟩ := moves
  have moved := Machine.step_heads moved ready
  obtain ⟨⟨here, layout⟩, accepted, connect⟩ := placed i
  rw [accepted, connect, List.head?_map, List.head?_map] at moved
  obtain ⟨turn, ⟨x, l, e⟩, stepped, after, messages, shown⟩ :=
    here.back (terminated_of_runs positive run.unrestricted i) moved
  exact ⟨l, e, x, ⟨turn, _, _, stepped⟩, Process.step_enabled stepped, messages.symm,
    shown.symm, after, (Machine.step_layout moved).trans layout⟩

/-- A step on the pages can be taken in the address spaces. -/
theorem Placed.follow (positive : 0 < pageSize) (run : System.Runs ok h s)
    (placed : Placed m outside s t)
    (admits : ∀ {i p p'}, ok (s i) (s i.peer) p →
      Process.Placed (outside i) p p' ∧ p'.layout = m i → ok' (t i) (t i.peer) p')
    (step : System.Step ok s e s') :
    ∃ t', Duplex.Step ok' Machine.Moves t (e.map (Prod.map id Event.raw)) t' ∧
      Placed m outside s' t' := by
  refine Duplex.Step.follow placed admits (fun {i l e p} moves ready => ?_) step
  obtain ⟨turn, request, reply, moved⟩ := moves
  have moved := Process.step_heads moved ready
  obtain ⟨⟨here, layout⟩, accepted, connect⟩ := placed i
  obtain ⟨turn', ⟨y, l', e'⟩, stepped, after, messages, shown⟩ :=
    here.step (terminated_of_runs positive run.unrestricted i) moved
  cases messages
  cases shown
  exact ⟨y, ⟨turn', _, _, stepped⟩, after, (Machine.step_layout stepped).trans layout⟩

theorem Placed.frame (placed : Placed m outside s t) (i : Side) (away : ¬(m i).Holds address) :
    (t i).party.memory address = outside i address := by
  obtain ⟨here, layout⟩ := (placed i).party
  rw [here.memory, Mapping.space, layout]
  exact dif_neg away

/-- What the processes do in their address spaces is what they do to their pages: the runs
show the same, each entry, page and message is where the program looks for it, and no byte
outside the two mappings changes. -/
theorem runs_in_memory (m : Side → Mapping n) (sized : ∀ i, (m i).pageSize.toNat = pageSize)
    (outside : Side → AddressSpace) (fits : ∀ i, (m i).Fits) :
    (∀ h' t, Runs m sized outside h' t → ∃ h s, System.Runs free h s ∧
      h.map (Prod.map id Event.raw) = h' ∧ Placed m outside s t ∧
      ∀ i address, ¬(m i).Holds address → (t i).party.memory address = outside i address) ∧
    ∀ h (s : System n pageSize), System.Runs free h s → ∃ t,
      Runs m sized outside (h.map (Prod.map id Event.raw)) t ∧ Placed m outside s t := by
  have positive : 0 < pageSize := sized .first ▸ (m .first).pageSize_bounds.1
  constructor
  · intro h' t run
    have lifted : ∃ h s, System.Runs free h s ∧ h.map (Prod.map id Event.raw) = h' ∧
        Placed m outside s t := by
      refine run.lift (.initial fits) fun {h s t e' t'} below placed step => ?_
      exact placed.back positive below (fun _ _ => trivial) step
    obtain ⟨h, s, below, shown, placed⟩ := lifted
    exact ⟨h, s, below, shown, placed, fun i address away => placed.frame i away⟩
  · intro h s run
    refine run.simulate (.initial fits) fun {h s t e u} below placed step => ?_
    exact placed.follow positive below (fun _ _ => trivial) step

/-- One page of eight bytes. -/
def onePage : Mapping 1 where
  pageSize := 8
  mmapAddr := 0x1000
  len := 8
  power := ⟨3, by decide, by decide⟩
  aligned := by decide
  whole := by decide
  few := by decide
  noWrap := by decide

/-- The second process prints what the first one has typed, and the byte before its page stays
what it was. -/
theorem runs_in_memory_printed : ∃ h t,
    Runs (n := 1) (fun _ => onePage) (fun _ => rfl) (fun _ _ => some 7) h t ∧
      h.getLast? = some (.second, .printed 0 [72, 105]) ∧
      (t .second).party.memory 0xfff = some 7 := by
  have followed : (exec (System.step free) (System.initial 1 8)
      (System.writeThenRead 0)).any (fun r =>
        (r.2.map (Prod.map id Event.raw)).getLast? =
          some (Side.second, RawEvent.printed 0 [72, 105])) := by decide +kernel
  obtain ⟨s, h, run, shown⟩ := exec_any followed System.step_sound
  have placed := runs_in_memory (fun _ => onePage) (fun _ => rfl) (fun _ _ => some 7)
    fun _ => by decide
  obtain ⟨t, run', _⟩ := placed.2 h s run
  obtain ⟨_, _, _, _, _, frame⟩ := placed.1 _ t run'
  exact ⟨_, t, run', shown, frame .second 0xfff (by decide)⟩

end Machines
end CSE306.S2DSM
