import CSE306.Uffd.Loading

/-! What each thread of the program prints, whichever of them moves when. -/
namespace CSE306.Uffd
open Transition S2DSM

variable {n blocks : Nat}

/-- The `int` at which a loop comes to a block. -/
def offset (i : Nat) : BitVec 32 := BitVec.ofNat 32 (1024 * i)

theorem offset_succ (i : Nat) : offset i + 1024 = offset (i + 1) := by
  rw [offset, offset, Nat.mul_succ, BitVec.ofNat_add]
  rfl

/-- The block of an address. -/
def block (m : Mapping n) (address : BitVec 64) : Nat :=
  (address.toNat - m.mmapAddr.toNat) / 1024

section Blocks
variable {m : Mapping n} {address : BitVec 64}

theorem len_blocks (blocked : m.pageSize.toNat = 1024 * blocks) :
    m.len.toNat = 1024 * (n * blocks) := by
  rw [m.whole, blocked, Nat.mul_assoc, Nat.mul_comm blocks]

theorem toInt_offset (blocked : m.pageSize.toNat = 1024 * blocks) (fits : m.Fits)
    (most : i ≤ n * blocks) : (offset i).toInt = (1024 * i : Nat) := by
  have len := len_blocks blocked
  rw [Mapping.Fits] at fits
  have value : (offset i).toNat = 1024 * i := by
    rw [offset, BitVec.toNat_ofNat, Nat.mod_eq_of_lt (by omega)]
  rw [BitVec.toInt_eq_toNat_of_lt (by omega), value]

theorem toNat_offset (blocked : m.pageSize.toNat = 1024 * blocks) (fits : m.Fits)
    (most : i ≤ n * blocks) : ((offset i).signExtend 64).toNat = 1024 * i :=
  toNat_widen_of_eq (toInt_offset blocked fits most)

theorem toNat_addr (blocked : m.pageSize.toNat = 1024 * blocks) (fits : m.Fits)
    (below : i < n * blocks) : (addr m (offset i)).toNat = m.mmapAddr.toNat + 1024 * i := by
  have len := len_blocks blocked
  have noWrap := m.noWrap
  rw [addr, BitVec.toNat_add, toNat_offset blocked fits below.le, Nat.mod_eq_of_lt (by omega)]

theorem addr_offset (blocked : m.pageSize.toNat = 1024 * blocks) (fits : m.Fits)
    (below : i < n * blocks) :
    addr m (offset i) = m.mmapAddr + BitVec.ofNat 64 (1024 * i) := by
  have len := len_blocks blocked
  have noWrap := m.noWrap
  apply BitVec.eq_of_toNat_eq
  rw [toNat_addr blocked fits below, BitVec.toNat_add, BitVec.toNat_ofNat,
    Nat.mod_eq_of_lt (a := 1024 * i) (by omega), Nat.mod_eq_of_lt (by omega)]

theorem ult_offset (blocked : m.pageSize.toNat = 1024 * blocks) (fits : m.Fits)
    (most : i ≤ n * blocks) : ((offset i).signExtend 64).ult m.len ↔ i < n * blocks := by
  rw [BitVec.ult_iff_lt, BitVec.lt_def, toNat_offset blocked fits most, len_blocks blocked]
  omega

theorem within_block (blocked : m.pageSize.toNat = 1024 * blocks) (fits : m.Fits)
    (below : i < n * blocks) :
    AddressSpace.Within (addr m (offset i)) 1024 address ↔
      m.Holds address ∧ block m address = i := by
  have len := len_blocks blocked
  rw [AddressSpace.Within, toNat_addr blocked fits below, Mapping.Holds, block,
    Nat.div_eq_iff (by decide)]
  omega

theorem block_addr (blocked : m.pageSize.toNat = 1024 * blocks) (fits : m.Fits)
    (below : i < n * blocks) :
    m.Holds (addr m (offset i)) ∧ block m (addr m (offset i)) = i :=
  (within_block blocked fits below).mp ⟨le_rfl, Nat.lt_add_of_pos_right (by decide)⟩

theorem page_block (blocked : m.pageSize.toNat = 1024 * blocks) (address : BitVec 64) :
    (address.toNat - m.mmapAddr.toNat) / m.pageSize.toNat = block m address / blocks := by
  rw [block, Nat.div_div_eq_div_mul, blocked]

theorem within_page (blocked : m.pageSize.toNat = 1024 * blocks) (held : m.Holds address)
    (other : BitVec 64) :
    AddressSpace.Within (copyDst m.pageSize address) m.pageSize.toNat other ↔
      m.Holds other ∧ block m other / blocks = block m address / blocks := by
  rw [AddressSpace.Within, Mapping.toNat_copyDst held]
  constructor
  · intro within
    have last := m.page_end (m.page address held)
    have held' : m.Holds other := by
      obtain ⟨least, below⟩ := within
      constructor <;> omega
    rw [← page_block blocked, ← page_block blocked]
    exact ⟨held', congrArg Fin.val ((Mapping.page_eq_iff held' _).mpr within)⟩
  · rintro ⟨held', same⟩
    rw [← page_block blocked, ← page_block blocked] at same
    exact (Mapping.page_eq_iff held' (m.page address held)).mp (Fin.ext same)

end Blocks

namespace Loading
variable {m : Mapping n} {a : Loading} {outside : AddressSpace}

/-- The memory of the process. -/
def space (m : Mapping n) (blocks : Nat) (outside : AddressSpace) (a : Loading) : AddressSpace :=
  fun address =>
    if m.Holds address then
      if block m address / blocks < a.loaded then some (a.byte blocks (block m address)) else none
    else outside address

theorem space_write (blocked : m.pageSize.toNat = 1024 * blocks) (fits : m.Fits)
    (below : i < n * blocks) (present : i / blocks < a.loaded) (c : UInt8) :
    (a.write i c).space m blocks outside =
      (a.space m blocks outside).copy (addr m (offset i)) (List.replicate 1024 c) := by
  funext address
  rw [AddressSpace.copy, List.length_replicate]
  split
  · rename_i within
    obtain ⟨held, here⟩ := (within_block blocked fits below).mp within
    have byte : (a.write i c).byte blocks i = c := by simp [Loading.byte, Loading.write]
    have inside : address.toNat - (addr m (offset i)).toNat < 1024 := by
      have last := within.2
      omega
    rw [space, if_pos held, here, List.getElem?_replicate, if_pos inside, byte]
    exact if_pos present
  · rename_i away
    rw [space, space]
    split
    · rename_i held
      have other : block m address ≠ i := fun here =>
        away ((within_block blocked fits below).mpr ⟨held, here⟩)
      have byte : (a.write i c).byte blocks (block m address) =
          a.byte blocks (block m address) := by simp [Loading.byte, Loading.write, other]
      rw [byte]
      rfl
    · rfl

theorem space_load (blocked : m.pageSize.toNat = 1024 * blocks) (fresh : a.Fresh blocks)
    (held : m.Holds address) (next : block m address / blocks = a.loaded) :
    a.load.space m blocks outside = (a.space m blocks outside).copy
      (copyDst m.pageSize address)
      (List.replicate m.pageSize.toNat (letter (a.base + a.loaded))) := by
  funext other
  rw [AddressSpace.copy, List.length_replicate]
  split
  · rename_i within
    obtain ⟨held', same⟩ := (within_page blocked held other).mp within
    have here := same.trans next
    have byte : a.load.byte blocks (block m other) = letter (a.base + a.loaded) := by
      rw [Loading.byte, Loading.load, fresh _ here.ge, here]
      rfl
    have inside : other.toNat - (copyDst m.pageSize address).toNat < m.pageSize.toNat := by
      have last := within.2
      have positive := m.pageSize_bounds.1
      omega
    rw [space, if_pos held', List.getElem?_replicate, if_pos inside, byte, here]
    exact if_pos (Nat.lt_succ_self _)
  · rename_i away
    rw [space, space]
    split
    · rename_i held'
      have elsewhere : block m other / blocks ≠ a.loaded := fun here =>
        away ((within_page blocked held other).mpr ⟨held', here.trans next.symm⟩)
      have same : block m other / blocks < a.load.loaded ↔ block m other / blocks < a.loaded := by
        change _ < a.loaded + 1 ↔ _
        omega
      rw [if_congr same rfl rfl]
      rfl
    · rfl

theorem space_discard : a.discard.space m blocks outside =
    (a.space m blocks outside).discard m.mmapAddr m.len.toNat := by
  funext address
  rw [AddressSpace.discard, space, space]
  by_cases held : m.Holds address
  · rw [if_pos held, if_pos (show AddressSpace.Within _ _ _ from held)]
    exact if_neg (Nat.not_lt_zero _)
  · rw [if_neg held, if_neg held, if_neg (show ¬AddressSpace.Within _ _ _ from held)]

theorem space_present (blocked : m.pageSize.toNat = 1024 * blocks) (fits : m.Fits)
    (below : i < n * blocks) (present : i / blocks < a.loaded) :
    a.space m blocks outside (addr m (offset i)) = some (a.byte blocks i) := by
  obtain ⟨held, here⟩ := block_addr blocked fits below
  rw [space, if_pos held, here, if_pos present]

theorem space_absent (blocked : m.pageSize.toNat = 1024 * blocks) (fits : m.Fits)
    (below : i < n * blocks) (absent : ¬ i / blocks < a.loaded) :
    a.space m blocks outside (addr m (offset i)) = none := by
  obtain ⟨held, here⟩ := block_addr blocked fits below
  rw [space, if_pos held, here, if_neg absent]

theorem space_peek (blocked : m.pageSize.toNat = 1024 * blocks) (fits : m.Fits)
    (below : i < n * blocks) (present : i / blocks < a.loaded) :
    (a.space m blocks outside).peek (addr m (offset i)) 1024 =
      some (List.replicate 1024 (a.byte blocks i)) := by
  have len := len_blocks blocked
  have noWrap := m.noWrap
  have start := toNat_addr blocked fits below
  have shows : (a.space m blocks outside).Shows (addr m (offset i))
      (List.replicate 1024 (a.byte blocks i)) := by
    refine AddressSpace.shows_of_get fun k few => ?_
    rw [List.length_replicate] at few
    have there : (addr m (offset i) + BitVec.ofNat 64 k).toNat =
        (addr m (offset i)).toNat + k := by
      rw [BitVec.toNat_add, BitVec.toNat_ofNat, Nat.mod_eq_of_lt (a := k) (by omega),
        Nat.mod_eq_of_lt (by omega)]
    obtain ⟨held, here⟩ := (within_block blocked fits below).mp
      (show AddressSpace.Within _ _ (addr m (offset i) + BitVec.ofNat 64 k) from
        ⟨by omega, by omega⟩)
    rw [space, if_pos held, here, if_pos present, List.getElem?_replicate, if_pos few]
  have read := shows.peek
  rwa [List.length_replicate] at read

end Loading

/-- What is left of a loop, and of the loops after it. -/
def within (m : Mapping n) (blocks : Nat) (now : Pass) (a : Loading) (i : Nat)
    (rest : List Pass) : Owed :=
  let r := perform m blocks now a (List.range' i (n * blocks - i))
  let later := performAll m blocks r.1 rest
  (r.2.1 ++ later.1, r.2.2 ++ later.2)

/-- What the program has still to print where it is. -/
inductive Owes (m : Mapping n) (blocks : Nat) (a : Loading) : Main → Owed → Prop where
  | start (rest : List Pass) : Owes m blocks a (.start rest) (performAll m blocks a rest)
  | loop (now : Pass) (rest : List Pass) : i ≤ n * blocks → i / blocks ≤ a.loaded →
      Owes m blocks a (.loop now (offset i) rest) (within m blocks now a i rest)
  | access (now : Pass) (rest : List Pass) : i < n * blocks → i / blocks ≤ a.loaded →
      Owes m blocks a (.access now (offset i) rest) (within m blocks now a i rest)
  | print (now : Pass) (rest : List Pass) (c : Option UInt8) : i < n * blocks →
      i / blocks < a.loaded → (∀ b ∈ c, b = a.byte blocks i) →
      Owes m blocks a (.print now (offset i) c rest)
        (.heading now.number (addr m (offset i)) :: .byte (a.byte blocks i) ::
          (within m blocks now a (i + 1) rest).1, (within m blocks now a (i + 1) rest).2)
  | printByte (now : Pass) (rest : List Pass) (c : Option UInt8) : i < n * blocks →
      i / blocks < a.loaded → (∀ b ∈ c, b = a.byte blocks i) →
      Owes m blocks a (.printByte now (offset i) c rest)
        (.byte (a.byte blocks i) :: (within m blocks now a (i + 1) rest).1,
          (within m blocks now a (i + 1) rest).2)
  | exited : Owes m blocks a .exited ([], [])

/-- The lines of the handler for faults of these pages. -/
def faultLines (m : Mapping n) (pages : List Nat) : List (Nat ⊕ BitVec 32) :=
  pages.flatMap fun p => [.inl p, .inr m.pageSize]

/-- The line that the handler has still to print of a fault that it has resolved. -/
def Handler.owes (m : Mapping n) : Handler → List (Nat ⊕ BitVec 32)
  | .print => [.inr m.pageSize]
  | .poll | .copy _ => []

/-- The memory is loaded and filled so far, and the rest is owed. -/
structure Follows (m : Mapping n) (blocks : Nat) (outside : AddressSpace) (h : List Event)
    (x : Uffd n) (a : Loading) (owed : Owed) : Prop where
  layout : x.layout = m
  memory : x.memory = a.space m blocks outside
  fresh : a.Fresh blocks
  count : x.faultCnt = a.base + a.loaded
  owes : Owes m blocks a x.main owed
  resolves : ∀ address ∈ x.handler.resolving, x.Faults address
  printed : h.filterMap Event.main? ++ owed.1 = (performAll m blocks .start passes).1
  faulted : h.filterMap (Event.handler? m) ++ (x.handler.owes m ++ faultLines m owed.2) =
    faultLines m (performAll m blocks .start passes).2

/-- A block that is visited owes its line, and its page if it was missing. -/
theorem within_visit (m : Mapping n) (now : Pass) (a : Loading) (rest : List Pass)
    (below : i < n * blocks) : within m blocks now a i rest =
      let after := a.visit blocks now i
      (.heading now.number (m.mmapAddr + BitVec.ofNat 64 (1024 * i)) ::
          .byte (after.byte blocks i) :: (within m blocks now after (i + 1) rest).1,
        a.missing blocks i ++ (within m blocks now after (i + 1) rest).2) := by
  obtain ⟨k, left⟩ := Nat.exists_eq_add_of_lt below
  have more : n * blocks - i = (n * blocks - (i + 1)) + 1 := by omega
  simp only [within, more, List.range'_succ, perform, List.cons_append, List.append_assoc]

/-- A page that is loaded when its turn has come is not owed any more. -/
theorem within_load (m : Mapping n) (now : Pass) (a : Loading) (rest : List Pass)
    (below : i < n * blocks) (next : i / blocks = a.loaded) :
    within m blocks now a i rest = ((within m blocks now a.load i rest).1,
      a.loaded :: (within m blocks now a.load i rest).2) := by
  have same : a.load.visit blocks now i = a.visit blocks now i := by
    rw [Loading.visit, Loading.visit, Loading.load, next]
    simp
  have here : a.missing blocks i = [a.loaded] := by rw [Loading.missing, next, if_neg (by omega)]
  have there : a.load.missing blocks i = [] := by
    rw [Loading.missing, Loading.load, next, if_pos (Nat.lt_succ_self _)]
  rw [within_visit m now a rest below, within_visit m now a.load rest below, same, here, there]
  rfl

theorem visit_read (now : Pass) (a : Loading) (present : i / blocks < a.loaded)
    (fill : now.fill = none) : a.visit blocks now i = a := by
  rw [Loading.visit, if_pos fill, Nat.max_eq_left present]

theorem visit_write (now : Pass) (a : Loading) (present : i / blocks < a.loaded)
    (fill : now.fill = some b) : a.visit blocks now i = a.write i b := by
  rw [Loading.visit, if_neg (fill.trans_ne (Option.some_ne_none _)), Nat.max_eq_left present, fill]
  rfl

theorem missing_present (a : Loading) (present : i / blocks < a.loaded) :
    a.missing blocks i = [] := if_pos present

theorem within_end (m : Mapping n) (now : Pass) (a : Loading) (rest : List Pass) :
    within m blocks now a (n * blocks) rest = performAll m blocks a rest := by
  simp [within, perform]

theorem filterMap_concat {B : Type} (f : Event → Option B) (h : List Event) (e : Event)
    (later : List B) :
    (h ++ [e]).filterMap f ++ later = h.filterMap f ++ ((f e).toList ++ later) := by
  rw [List.filterMap_append, List.append_assoc]
  cases shown : f e with
  | none => rw [List.filterMap_cons_none shown]; rfl
  | some b => rw [List.filterMap_cons_some shown]; rfl

namespace Follows
variable {m : Mapping n} {outside : AddressSpace} {h : List Event} {x y : Uffd n} {a : Loading}
  {owed : Owed}

theorem initial (m : Mapping n) (blocks : Nat) (outside : AddressSpace) :
    Follows m blocks outside [] (Uffd.initial m outside) .start
      (performAll m blocks .start passes) where
  layout := rfl
  memory := by
    funext address
    rw [Loading.space]
    exact if_congr Iff.rfl (if_neg (Nat.not_lt_zero _)).symm rfl
  fresh := fun _ _ => rfl
  count := rfl
  owes := .start passes
  resolves := forall_mem_of_eq_none rfl
  printed := rfl
  faulted := rfl

theorem faults_block (follows : Follows m blocks outside h x a owed)
    (blocked : m.pageSize.toNat = 1024 * blocks) (fits : m.Fits) (faults : x.Faults address)
    (below : i < n * blocks) (needs : ∀ r ∈ x.main.touches, r.1 = offset i ∧ r.2 ≤ 1024) :
    m.Holds address ∧ block m address = i ∧ ¬ i / blocks < a.loaded := by
  obtain ⟨held, missing, r, touches, inside⟩ := faults
  obtain ⟨first, few⟩ := needs r touches
  rw [follows.layout] at held
  rw [follows.layout, first] at inside
  have here := ((within_block blocked fits below).mp
    ⟨inside.1, inside.2.trans_le (Nat.add_le_add_left few _)⟩).2
  refine ⟨held, here, fun present => ?_⟩
  rw [follows.memory, Loading.space, if_pos held, here, if_pos present] at missing
  cases missing

theorem access_needs (now : Pass) (i : Nat) (rest : List Pass) :
    ∀ r ∈ (Main.access now (offset i) rest).touches, r.1 = offset i ∧ r.2 ≤ 1024 := by
  rintro _ ⟨⟩
  dsimp only
  exact ⟨rfl, by split <;> decide⟩

theorem printByte_needs (now : Pass) (i : Nat) (c : Option UInt8) (rest : List Pass) :
    ∀ r ∈ (Main.printByte now (offset i) c rest).touches, r.1 = offset i ∧ r.2 ≤ 1024 := by
  intro r mem
  cases c with
  | none =>
    cases mem
    exact ⟨rfl, show 1 ≤ 1024 by decide⟩
  | some c => cases mem

theorem stopped (follows : Follows m blocks outside h x a owed)
    (blocked : m.pageSize.toNat = 1024 * blocks) (fits : m.Fits) (faults : x.Faults address) :
    ∃ now i rest, i < n * blocks ∧ x.main = .access now (offset i) rest ∧
      owed = within m blocks now a i rest ∧ m.Holds address ∧
        block m address = i ∧ i / blocks = a.loaded := by
  have owes := follows.owes
  have found {i : Nat} := follows.faults_block (i := i) blocked fits faults
  obtain ⟨_, _, r, touches, _⟩ := faults
  generalize x.main = main at owes touches found
  cases owes with
  | start | loop | print | exited => cases touches
  | @access i now rest below next =>
    obtain ⟨held, same, absent⟩ := found below (access_needs now i rest)
    exact ⟨now, i, rest, below, rfl, rfl, held, same, by omega⟩
  | @printByte i now rest c below present =>
    exact ((found below (printByte_needs now i c rest)).2.2 present).elim

theorem running (follows : Follows m blocks outside h x a owed)
    (able : ∀ address, ¬ x.Faults address) : x.handler.resolving = none :=
  Option.eq_none_iff_forall_not_mem.mpr fun address mem =>
    able address (follows.resolves address mem)

theorem fault (follows : Follows m blocks outside h x a owed)
    (moved : x.step (.fault address) = some (y, e)) :
    Follows m blocks outside (h ++ e.toList) y a owed := by
  simp only [step] at moved
  split at moved
  · rename_i stopped
    obtain ⟨polls, faults⟩ := stopped
    cases moved
    have faulted := follows.faulted
    rw [polls] at faulted
    rw [Option.toList_none, List.append_nil]
    refine { follows with resolves := ?_, faulted := faulted }
    rintro _ ⟨⟩
    exact faults
  · cases moved

theorem copy_eq (follows : Follows m blocks outside h x a owed)
    (blocked : m.pageSize.toNat = 1024 * blocks) (fits : m.Fits)
    (copying : x.handler = .copy address) :
    x.faultHandlerThread = some ({ x with
      memory := x.memory.copy (copyDst x.layout.pageSize address)
        (List.replicate x.layout.pageSize.toNat (letter x.faultCnt))
      handler := .print
      faultCnt := x.faultCnt + 1 }, some (.pageFault address)) := by
  obtain ⟨_, i, _, _, _, _, held, same, next⟩ :=
    follows.stopped blocked fits (follows.resolves address (congrArg Handler.resolving copying))
  obtain rfl := follows.layout
  have first : AddressSpace.Within (copyDst x.layout.pageSize address) x.layout.pageSize.toNat
      (copyDst x.layout.pageSize address) :=
    ⟨le_rfl, Nat.lt_add_of_pos_right x.layout.pageSize_bounds.1⟩
  obtain ⟨held', page⟩ := (within_page blocked held _).mp first
  have missing : x.memory (copyDst x.layout.pageSize address) = none := by
    rw [follows.memory, Loading.space, if_pos held', page, same, if_neg next.not_lt]
  simp only [faultHandlerThread, copying]
  exact if_pos ⟨held', missing⟩

theorem copy (follows : Follows m blocks outside h x a owed)
    (blocked : m.pageSize.toNat = 1024 * blocks) (fits : m.Fits)
    (copying : x.handler = .copy address) (moved : x.faultHandlerThread = some (y, e)) :
    ∃ owed, Follows m blocks outside (h ++ e.toList) y a.load owed := by
  obtain ⟨now, i, rest, below, here, owed_eq, held, same, next⟩ :=
    follows.stopped blocked fits (follows.resolves address (congrArg Handler.resolving copying))
  rw [follows.copy_eq blocked fits copying] at moved
  cases moved
  obtain ⟨layout, memory, fresh, count, owes, _, printed, faulted⟩ := follows
  subst layout owed_eq
  have page : Event.handler? x.layout (.pageFault address) = some (.inl a.loaded) := by
    rw [Event.handler?, page_block blocked, same, next]
  rw [within_load _ now a rest below next] at printed faulted
  rw [copying] at faulted
  refine ⟨within x.layout blocks now a.load i rest, rfl, ?_, ?_, ?_, ?_,
    forall_mem_of_eq_none rfl, ?_, ?_⟩
  · rw [Loading.space_load blocked fresh held (same ▸ next), memory, count]
  · exact fun j above => fresh j (Nat.le_of_succ_le above)
  · rw [count]
    rfl
  · rw [here]
    exact .access now rest below (next ▸ Nat.le_succ _)
  · exact (filterMap_concat Event.main? h _ _).trans printed
  · rw [Option.toList_some, filterMap_concat, page]
    exact faulted

theorem returned (follows : Follows m blocks outside h x a owed) (prints : x.handler = .print) :
    Follows m blocks outside (h ++ [.returned x.layout.pageSize]) { x with handler := .poll } a
      owed := by
  obtain ⟨layout, memory, fresh, count, owes, _, printed, faulted⟩ := follows
  subst layout
  rw [prints] at faulted
  refine ⟨rfl, memory, fresh, count, owes, forall_mem_of_eq_none rfl, ?_, ?_⟩
  · exact (filterMap_concat Event.main? h _ _).trans printed
  · exact (filterMap_concat (Event.handler? _) h _ _).trans faulted

theorem handler (follows : Follows m blocks outside h x a owed)
    (blocked : m.pageSize.toNat = 1024 * blocks) (fits : m.Fits)
    (moved : x.faultHandlerThread = some (y, e)) :
    ∃ a owed, Follows m blocks outside (h ++ e.toList) y a owed := by
  cases where_ : x.handler with
  | poll =>
    simp only [faultHandlerThread, where_] at moved
    cases moved
  | copy address => exact ⟨a.load, follows.copy blocked fits where_ moved⟩
  | print =>
    simp only [faultHandlerThread, where_] at moved
    cases moved
    exact ⟨a, owed, follows.returned where_⟩

theorem silent (follows : Follows m blocks outside h x a owed)
    (quiet : x.handler.resolving = none) {stage : Main} (owes : Owes m blocks a stage owed) :
    Follows m blocks outside (h ++ (none : Option Event).toList) { x with main := stage } a
      owed := by
  rw [Option.toList_none, List.append_nil]
  exact { follows with owes := owes, resolves := forall_mem_of_eq_none quiet }

theorem print {event : Event} (follows : Follows m blocks outside h x a (event :: later, pages))
    (quiet : x.handler.resolving = none) (shown : event.main? = some event)
    {stage : Main} (owes : Owes m blocks a stage (later, pages)) :
    Follows m blocks outside (h ++ [event]) { x with main := stage } a (later, pages) := by
  have none_ : event.handler? m = none := by
    cases event with
    | rule | heading | byte => rfl
    | pageFault | returned => cases shown
  obtain ⟨layout, memory, fresh, count, _, _, printed, faulted⟩ := follows
  refine ⟨layout, memory, fresh, count, owes, forall_mem_of_eq_none quiet, ?_, ?_⟩
  · rw [filterMap_concat, shown]
    exact printed
  · rw [filterMap_concat, none_]
    exact faulted

theorem enter (follows : Follows m blocks outside h x a (performAll m blocks a (now :: rest)))
    (quiet : x.handler.resolving = none) :
    Follows m blocks outside (h ++ [.rule]) { x with
      memory :=
        if now.discards then x.memory.discard x.layout.mmapAddr x.layout.len.toNat else x.memory
      main := .loop now 0 rest } (a.enter now) (within m blocks now (a.enter now) 0 rest) := by
  obtain ⟨layout, memory, fresh, count, _, _, printed, faulted⟩ := follows
  subst layout
  have whole : performAll x.layout blocks a (now :: rest) =
      (.rule :: (within x.layout blocks now (a.enter now) 0 rest).1,
        (within x.layout blocks now (a.enter now) 0 rest).2) := by
    rw [performAll, within, Nat.sub_zero, ← List.range_eq_range']
  rw [whole] at printed faulted
  refine ⟨rfl, ?_, ?_, ?_, ?_, forall_mem_of_eq_none quiet, ?_, ?_⟩
  · rw [memory, Loading.enter]
    split
    · exact Loading.space_discard.symm
    · rfl
  · rw [Loading.enter]
    split
    · exact fun _ _ => rfl
    · exact fresh
  · rw [Loading.enter]
    split
    · exact count
    · exact count
  · exact .loop now rest (Nat.zero_le _) (by simp)
  · exact (filterMap_concat Event.main? h _ _).trans printed
  · exact (filterMap_concat (Event.handler? _) h _ _).trans faulted

theorem succ_div_le (i blocks : Nat) : (i + 1) / blocks ≤ i / blocks + 1 := by
  rw [Nat.succ_div]
  split <;> omega

theorem write (follows : Follows m blocks outside h x a (within m blocks now a i rest))
    (blocked : m.pageSize.toNat = 1024 * blocks) (fits : m.Fits)
    (quiet : x.handler.resolving = none) (below : i < n * blocks)
    (present : i / blocks < a.loaded) (fill : now.fill = some b) :
    ∃ owed, Follows m blocks outside (h ++ (none : Option Event).toList)
      { x with
        memory := x.memory.copy (addr x.layout (offset i)) (List.replicate 1024 b)
        main := .print now (offset i) none rest } (a.write i b) owed := by
  rw [within_visit _ now a rest below, visit_write now a present fill, missing_present a present,
    ← addr_offset blocked fits below] at follows
  obtain ⟨layout, memory, fresh, count, _, _, printed, faulted⟩ := follows
  subst layout
  rw [Option.toList_none, List.append_nil]
  refine ⟨_, rfl, ?_, fun j above => ?_, count,
    .print now rest none below present (forall_mem_of_eq_none rfl),
    forall_mem_of_eq_none quiet, printed, faulted⟩
  · rw [Loading.space_write blocked fits below present, memory]
  · have other : j ≠ i := by
      rintro rfl
      exact Nat.not_lt.mpr above present
    exact (Function.update_of_ne other _ _).trans (fresh j above)

theorem read_eq (follows : Follows m blocks outside h x a owed)
    (blocked : m.pageSize.toNat = 1024 * blocks) (fits : m.Fits)
    (here : x.main = .access now (offset i) rest) (below : i < n * blocks)
    (present : i / blocks < a.loaded) (fill : now.fill = none) :
    x.mainStep = some ({ x with
      main := .print now (offset i) (some (a.byte blocks i)) rest }, none) := by
  obtain rfl := follows.layout
  have read : x.memory (addr x.layout (offset i)) = some (a.byte blocks i) :=
    follows.memory ▸ Loading.space_present blocked fits below present
  simp only [Uffd.mainStep, here, fill, read, Option.map_some]

theorem write_eq (follows : Follows m blocks outside h x a owed)
    (blocked : m.pageSize.toNat = 1024 * blocks) (fits : m.Fits)
    (here : x.main = .access now (offset i) rest) (below : i < n * blocks)
    (present : i / blocks < a.loaded) (fill : now.fill = some b) :
    x.mainStep = some ({ x with
      memory := x.memory.copy (addr x.layout (offset i)) (List.replicate 1024 b)
      main := .print now (offset i) none rest }, none) := by
  obtain rfl := follows.layout
  have peeked : x.memory.peek (addr x.layout (offset i)) 1024 = some _ :=
    follows.memory ▸ Loading.space_peek blocked fits below present
  simp only [Uffd.mainStep, here, fill, peeked, Option.map_some]

theorem printByte_eq (follows : Follows m blocks outside h x a owed)
    (blocked : m.pageSize.toNat = 1024 * blocks) (fits : m.Fits)
    (here : x.main = .printByte now (offset i) c rest) (below : i < n * blocks)
    (present : i / blocks < a.loaded) (known : ∀ b ∈ c, b = a.byte blocks i) :
    x.mainStep = some ({ x with main := .loop now (offset (i + 1)) rest },
      some (.byte (a.byte blocks i))) := by
  obtain rfl := follows.layout
  have read : x.memory (addr x.layout (offset i)) = some (a.byte blocks i) :=
    follows.memory ▸ Loading.space_present blocked fits below present
  have shown : c.or (x.memory (addr x.layout (offset i))) = some (a.byte blocks i) := by
    cases c with
    | none => exact read
    | some b => exact congrArg some (known b rfl)
  simp only [Uffd.mainStep, here, shown, Option.map_some, offset_succ]

theorem absent_eq (follows : Follows m blocks outside h x a owed)
    (blocked : m.pageSize.toNat = 1024 * blocks) (fits : m.Fits)
    (here : x.main = .access now (offset i) rest) (below : i < n * blocks)
    (absent : ¬ i / blocks < a.loaded) : x.mainStep = none := by
  obtain rfl := follows.layout
  have missing : x.memory (addr x.layout (offset i)) = none :=
    follows.memory ▸ Loading.space_absent blocked fits below absent
  have stopped := (AddressSpace.absent missing (show 0 < 1024 by decide)).1
  cases fill : now.fill with
  | none => simp only [Uffd.mainStep, here, fill, missing, Option.map_none]
  | some b => simp only [Uffd.mainStep, here, fill, stopped, Option.map_none]

theorem mainStep (follows : Follows m blocks outside h x a owed)
    (blocked : m.pageSize.toNat = 1024 * blocks) (fits : m.Fits)
    (moved : x.mainStep = some (y, e)) :
    ∃ a owed, Follows m blocks outside (h ++ e.toList) y a owed := by
  have owes := follows.owes
  obtain rfl := follows.layout
  have rests (idle : x.main.touches = none) : x.handler.resolving = none := follows.running
    fun address ⟨_, _, _, touches, _⟩ => by
      rw [idle] at touches
      cases touches
  have found {i : Nat} (below : i < n * blocks) (present : i / blocks < a.loaded)
      (needs : ∀ r ∈ x.main.touches, r.1 = offset i ∧ r.2 ≤ 1024) : x.handler.resolving = none :=
    follows.running fun address faults =>
      (follows.faults_block blocked fits faults below needs).2.2 present
  generalize here : x.main = main at owes rests found
  cases owes with
  | start rest =>
    have quiet := rests rfl
    cases rest with
    | nil =>
      simp only [Uffd.mainStep, here] at moved
      cases moved
      exact ⟨a, _, follows.silent quiet .exited⟩
    | cons now rest =>
      simp only [Uffd.mainStep, here] at moved
      cases moved
      exact ⟨_, _, follows.enter quiet⟩
  | @loop i now rest most next =>
    have quiet := rests rfl
    have more := ult_offset blocked fits most
    simp only [Uffd.mainStep, here] at moved
    split at moved
    · rename_i below
      cases moved
      exact ⟨a, _, follows.silent quiet (.access now rest (more.mp below) next)⟩
    · rename_i last
      cases moved
      obtain rfl : i = n * blocks := by
        have := mt more.mpr last
        omega
      rw [within_end] at follows
      exact ⟨a, _, follows.silent quiet (.start rest)⟩
  | @access i now rest below next =>
    by_cases present : i / blocks < a.loaded
    · have quiet := found below present (access_needs now i rest)
      cases fill : now.fill with
      | none =>
        rw [follows.read_eq blocked fits here below present fill] at moved
        cases moved
        rw [within_visit _ now a rest below, visit_read now a present fill,
          missing_present a present, ← addr_offset blocked fits below] at follows
        refine ⟨a, _, follows.silent quiet (.print now rest _ below present ?_)⟩
        rintro _ ⟨⟩
        rfl
      | some b =>
        rw [follows.write_eq blocked fits here below present fill] at moved
        cases moved
        exact ⟨_, follows.write blocked fits quiet below present fill⟩
    · rw [follows.absent_eq blocked fits here below present] at moved
      cases moved
  | @print i now rest c below present known =>
    have quiet := rests rfl
    simp only [Uffd.mainStep, here] at moved
    cases moved
    exact ⟨a, _, follows.print quiet rfl (.printByte now rest c below present known)⟩
  | @printByte i now rest c below present known =>
    have quiet := found below present (printByte_needs now i c rest)
    have after : (i + 1) / blocks ≤ a.loaded := (succ_div_le i blocks).trans present
    rw [follows.printByte_eq blocked fits here below present known] at moved
    cases moved
    exact ⟨a, _, follows.print quiet rfl (.loop now rest below after)⟩
  | exited =>
    simp only [Uffd.mainStep, here] at moved
    cases moved

theorem step (follows : Follows m blocks outside h x a owed)
    (blocked : m.pageSize.toNat = 1024 * blocks) (fits : m.Fits) (moved : x.Step e y) :
    ∃ a owed, Follows m blocks outside (h ++ e.toList) y a owed := by
  obtain ⟨turn, moved⟩ := moved
  cases turn with
  | main => exact follows.mainStep blocked fits moved
  | fault address => exact ⟨a, owed, follows.fault moved⟩
  | handler =>
    simp only [Uffd.step] at moved
    split at moved
    · cases moved
    · exact follows.handler blocked fits moved

theorem of_runs (blocked : m.pageSize.toNat = 1024 * blocks) (fits : m.Fits)
    (run : Runs m outside h x) : ∃ a owed, Follows m blocks outside h x a owed :=
  run.invariant (I := fun h x => ∃ a owed, Follows m blocks outside h x a owed)
    ⟨_, _, .initial m blocks outside⟩
    fun _ ⟨_, _, follows⟩ moved => follows.step blocked fits moved

end Follows

theorem blocks_of_pageSize (m : Mapping n) (large : 1024 ≤ m.pageSize.toNat) :
    m.pageSize.toNat = 1024 * (m.pageSize.toNat / 1024) := by
  obtain ⟨k, _, power⟩ := m.power
  rw [power] at large ⊢
  have more : 10 ≤ k := (Nat.pow_le_pow_iff_right (by decide : 1 < 2)).mp large
  obtain ⟨j, rfl⟩ := Nat.exists_eq_add_of_le more
  rw [Nat.pow_add]
  exact (congrArg _ (Nat.mul_div_cancel_left _ (by decide))).symm

/-- Two pages of 1024 bytes. -/
def twoPages : Mapping 2 where
  pageSize := 1024
  mmapAddr := 0x2000
  len := 2048
  power := ⟨10, by decide, by decide⟩
  aligned := by decide
  whole := by decide
  few := by decide
  noWrap := by decide

end CSE306.Uffd
