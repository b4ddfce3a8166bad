import CSE306.S2DSM.Addressed
import CSE306.S2DSM.Strings
import Mathlib.Data.Fintype.Card

/-! The process of the first part, which keeps its pages to itself: its fault handler always
installs a cleared page, and a message is copied with its terminator only. -/
namespace CSE306.S2DSM
open Transition

variable {n pageSize : Nat}

namespace Private

inductive Main where
  | prompt
  | loop (op : Op) (pages : Cursor)
  | access (op : Op) (whichPage : BitVec 32) (rest : Cursor)
  | print (op : Op) (whichPage : BitVec 32) (rest : Cursor)
  deriving DecidableEq

inductive Event where
  | command (c : RawCommand)
  | printed (whichPage : BitVec 32) (text : List UInt8)
  | pageFault
  deriving DecidableEq

inductive Turn where
  | command (c : RawCommand)
  | main
  | fault (address : BitVec 64)
  | handler
  deriving DecidableEq

end Private

/-- The process, with the address its handler resolves. -/
structure Private (n pageSize : Nat) where
  layout : Mapping n
  sized : layout.pageSize.toNat = pageSize
  memory : AddressSpace
  main : Private.Main
  resolving : Option (BitVec 64)

namespace Private

def initial (m : Mapping n) (sized : m.pageSize.toNat = pageSize) (outside : AddressSpace) :
    Private n pageSize where
  layout := m
  sized := sized
  memory := fun address => if m.Holds address then none else outside address
  main := .prompt
  resolving := none

/-- What `strcpy` writes of a typed message. -/
def copied (pageSize : Nat) (typed : List UInt8) : List UInt8 :=
  chomp (fgets pageSize typed) ++ [0]

def mainStep (x : Private n pageSize) : Option (Private n pageSize × Option Event) :=
  match x.main with
  | .prompt => none
  | .loop op pages =>
    match pages.next x.layout.maxPage with
    | none => some ({ x with main := .prompt }, none)
    | some (i, rest) => some ({ x with main := .access op i rest }, none)
  | .access (.read again) i rest => do
    let pageBuffer ← x.memory.strncpy (x.layout.addressLoc i) pageSize
    if 0 ∈ pageBuffer then
      return ({ x with main := .loop (.read again) rest }, some (.printed i (cstring pageBuffer)))
    else none
  | .access (.write typed) i rest => do
    let bytes := copied pageSize typed
    let _ ← x.memory.peek (x.layout.addressLoc i) bytes.length
    return ({ x with
      memory := x.memory.copy (x.layout.addressLoc i) bytes
      main := .print (.write typed) i rest }, none)
  | .print op i rest => (x.memory.stringAt (x.layout.addressLoc i) pageSize).map fun text =>
      ({ x with main := .loop op rest }, some (.printed i text))

/-- The page that the command loop reads or writes next. -/
def Main.touches : Main → Option (BitVec 32)
  | .access _ i _ | .print _ i _ => some i
  | _ => none

/-- The process is stopped at the address. -/
def Faults (x : Private n pageSize) (address : BitVec 64) : Prop :=
  x.layout.Holds address ∧ x.memory address = none ∧
    ∃ i ∈ x.main.touches, AddressSpace.Within (x.layout.addressLoc i) pageSize address

instance (x : Private n pageSize) (address : BitVec 64) : Decidable (x.Faults address) :=
  decidable_of_iff (x.layout.Holds address ∧ x.memory address = none ∧ x.main.touches.any
    fun i => decide (AddressSpace.Within (x.layout.addressLoc i) pageSize address))
    (by simp [Faults, Option.any_eq_true])

/-- The handler reads a fault event, and then copies its page, which nothing is written to. -/
def faultHandlerThread (x : Private n pageSize) : Option (Private n pageSize × Option Event) :=
  x.resolving.bind fun address =>
    let dst := copyDst x.layout.pageSize address
    if x.layout.Holds dst ∧ x.memory dst = none then
      some ({ x with
        memory := x.memory.copy dst (Page.zero pageSize).bytes
        resolving := none }, none)
    else none

def step (x : Private n pageSize) : Turn → Option (Private n pageSize × Option Event)
  | .command c =>
    match x.main with
    | .prompt =>
      if c.whichPage.slt (-1) ∨ x.layout.maxPage.sle c.whichPage then none
      else some ({ x with main := .loop c.op (.start c.whichPage) }, some (.command c))
    | _ => none
  | .main => x.mainStep
  | .fault address =>
    if x.resolving = none ∧ x.Faults address then
      some ({ x with resolving := some address }, some .pageFault)
    else none
  | .handler => x.faultHandlerThread

def Step (x : Private n pageSize) (e : Option Event) (y : Private n pageSize) : Prop :=
  ∃ turn, x.step turn = some (y, e)

theorem Step.layout {x y : Private n pageSize} (step : x.Step e y) : y.layout = x.layout := by
  obtain ⟨turn, moved⟩ := step
  cases turn with
  | command c =>
    simp only [Private.step] at moved
    split at moved
    · split at moved <;> cases moved
      rfl
    · cases moved
  | main =>
    simp only [Private.step, mainStep, Option.bind_eq_bind] at moved
    grind [Option.map_eq_some_iff, Option.bind_eq_some_iff]
  | fault address =>
    simp only [Private.step] at moved
    split at moved <;> cases moved
    rfl
  | handler =>
    obtain ⟨address, _, moved⟩ := Option.bind_eq_some_iff.mp moved
    simp only at moved
    split at moved <;> cases moved
    rfl

abbrev Runs (m : Mapping n) (sized : m.pageSize.toNat = pageSize) (outside : AddressSpace)
    (h : List Event) (x : Private n pageSize) : Prop :=
  Run Step (initial m sized outside) h x

end Private

/-- The page with other bytes at its start. What follows them stays. -/
def Page.overwrite (content : Page pageSize) (bytes : List UInt8)
    (short : bytes.length ≤ pageSize) : Page pageSize :=
  ⟨bytes ++ content.bytes.drop bytes.length, by
    rw [List.length_append, List.length_drop, content.size]
    omega⟩

theorem Mapping.space_overwrite {m : Mapping n} {mapping : Fin n → Option (Page pageSize)}
    (outside : AddressSpace) (sized : m.pageSize.toNat = pageSize) (fits : m.Fits) {p : Fin n}
    (present : mapping p = some content) {bytes : List UInt8} (short : bytes.length ≤ pageSize) :
    m.space outside (Function.update mapping p (some (content.overwrite bytes short))) =
      (m.space outside mapping).copy (m.addressLoc (index p)) bytes := by
  funext address
  rw [AddressSpace.copy]
  by_cases within : AddressSpace.Within (m.addressLoc (index p)) pageSize address
  · obtain ⟨least, below⟩ := within
    rw [(space_within sized fits ⟨least, below⟩).2, (space_within sized fits ⟨least, below⟩).2,
      Function.update_self, present, Option.bind_some, Option.bind_some, Page.overwrite]
    split
    · rename_i inside
      have first : address.toNat - (m.addressLoc (index p)).toNat < bytes.length := by
        have last := inside.2
        omega
      rw [List.getElem?_append_left first]
    · rename_i behind
      have later : bytes.length ≤ address.toNat - (m.addressLoc (index p)).toNat := by
        by_contra first
        exact behind ⟨least, by omega⟩
      rw [List.getElem?_append_right later, List.getElem?_drop, Nat.add_sub_cancel' later]
  · have behind : ¬AddressSpace.Within (m.addressLoc (index p)) bytes.length address :=
      fun inside => within ⟨inside.1, inside.2.trans_le (Nat.add_le_add_left short _)⟩
    rw [if_neg behind]
    exact space_other sized fits within _

namespace Private

theorem copied_eq (pageSize : Nat) (typed : List UInt8) :
    copied pageSize typed = message pageSize typed ++ [0] := by rw [copied, chomp_fgets]

theorem copied_short (positive : 0 < pageSize) (typed : List UInt8) :
    (copied pageSize typed).length ≤ pageSize := by
  have most := message_length pageSize typed
  rw [copied_eq, List.length_append, List.length_singleton]
  omega

/-- A message hides what was behind it. -/
theorem cstring_overwrite (content : Page pageSize) (typed : List UInt8)
    (short : (copied pageSize typed).length ≤ pageSize) :
    0 ∈ (content.overwrite (copied pageSize typed) short).bytes ∧
      cstring (content.overwrite (copied pageSize typed) short).bytes =
        message pageSize typed := by
  have away : 0 ∉ message pageSize typed := fun mem => message_nonzero mem rfl
  have split : (content.overwrite (copied pageSize typed) short).bytes =
      message pageSize typed ++ 0 :: content.bytes.drop (copied pageSize typed).length := by
    change copied pageSize typed ++ _ = _
    rw [copied_eq, List.append_assoc]
    rfl
  rw [split]
  exact ⟨by simp, cstring_terminated _ _ away⟩

def Event.command? : Event → Option RawCommand
  | .command c => some c
  | _ => none

def Event.printed? : Event → Option (BitVec 32 × List UInt8)
  | .printed i text => some (i, text)
  | _ => none

/-- How many lines say PAGEFAULT. -/
def pageFaults (h : List Event) : Nat := h.count .pageFault

theorem step_sound {x y : Private n pageSize} (moved : x.step turn = some (y, e)) : x.Step e y :=
  ⟨turn, moved⟩

/-- One page in memory, with bytes around it. -/
def onePage : Private 1 8 := initial Machines.onePage rfl fun _ => some 7

/-- A page is written, faulted in for the first byte of the message, and read. -/
def writeAndRead : List Turn :=
  [.command (.write [72, 105, 10] 0), .main, .fault 0x1000, .handler, .main, .main, .main,
    .command (.read (-1)), .main, .main, .main]

end Private
end CSE306.S2DSM
