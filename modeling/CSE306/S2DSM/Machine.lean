import CSE306.AddressSpace
import CSE306.S2DSM.Faulting
import CSE306.S2DSM.Framing
import CSE306.S2DSM.System

/-! The process in its address space: pages are bytes at computed addresses, page numbers are
`int`s and `msi_array` is an array of chars. An access outside the array has no result. -/
namespace CSE306.S2DSM
open Transition Transition.Duplex

variable {n pageSize : Nat}

/-- The char of `msi_array` that a value is. -/
def Msi.code : Msi → UInt8
  | .modified => 1
  | .shared => 2
  | .invalid => 3

/-- What the server writes back: one char, or the bytes of a page. -/
inductive RawReply (pageSize : Nat) where
  | response (c : UInt8)
  | page (content : Page pageSize)
  deriving DecidableEq

/-- A command as it was typed, with the `int` that `strtol` has found in its page field. -/
inductive RawCommand where
  | read (whichPage : BitVec 32)
  | write (typed : List UInt8) (whichPage : BitVec 32)
  deriving DecidableEq

namespace RawCommand

def whichPage : RawCommand → BitVec 32
  | .read whichPage | .write _ whichPage => whichPage

def op : RawCommand → Op
  | .read whichPage => .read (whichPage = -1)
  | .write typed _ => .write typed

end RawCommand

/-- What the process shows: the text that a read prints is a C string. -/
inductive RawEvent where
  | command (c : RawCommand)
  | wrote (whichPage : BitVec 32) (typed : List UInt8)
  | printed (whichPage : BitVec 32) (text : List UInt8)
  deriving DecidableEq

/-- The pages a command has still to go through: those from `i` on, the one it names, or
none. -/
inductive Cursor where
  | all (i : BitVec 32)
  | one (whichPage : BitVec 32)
  | done
  deriving DecidableEq

namespace Cursor

def start (whichPage : BitVec 32) : Cursor := if whichPage = -1 then .all 0 else .one whichPage

/-- The next page, if there is one. -/
def next (maxPage : BitVec 32) : Cursor → Option (BitVec 32 × Cursor)
  | .all i => if i.slt maxPage then some (i, .all (i + 1)) else none
  | .one whichPage => some (whichPage, .done)
  | .done => none

end Cursor

namespace Machine

inductive Main where
  | prompt
  | loop (op : Op) (pages : Cursor)
  | access (stage : Stage (List UInt8)) (whichPage : BitVec 32) (rest : Cursor)
  deriving DecidableEq

/-- The fault handler keeps the address of the fault. -/
inductive Handler where
  | poll
  | resolving (stage : Resolve) (address : BitVec 64)
  deriving DecidableEq

inductive Server where
  | receive
  | serving (stage : Serve) (whichPage : BitVec 32)
  deriving DecidableEq

/-- Who moves. `fault` is the handler reading the event of a thread stopped at an address. -/
inductive Turn where
  | command (c : RawCommand)
  | main
  | fault (address : BitVec 64)
  | handler
  | server
  deriving DecidableEq

end Machine

/-- A process in its address space, with where `mmap` has put its pages. -/
structure Machine (n pageSize : Nat) where
  layout : Mapping n
  sized : layout.pageSize.toNat = pageSize
  memory : AddressSpace
  msiArray : List UInt8
  main : Machine.Main
  handler : Machine.Handler
  page : Page pageSize
  server : Machine.Server

namespace Mapping
variable (m : Mapping n)

def maxPage : BitVec 32 := (m.len / m.pageSize.signExtend 64).setWidth 32

/-- `mmap_addr + (i * page_size)`, where the product is an `int`. -/
def addressLoc (i : BitVec 32) : BitVec 64 := m.mmapAddr + (i * m.pageSize).signExtend 64

/-- `page_faulted` -/
def pageFaulted (address : BitVec 64) : BitVec 32 :=
  S2DSM.pageFaulted m.pageSize m.mmapAddr address

end Mapping

namespace Machine

abbrev Effect (n pageSize : Nat) :=
  Machine n pageSize × Label RawRequest (RawReply pageSize) × Option RawEvent

def initial (m : Mapping n) (sized : m.pageSize.toNat = pageSize) (outside : AddressSpace) :
    Machine n pageSize where
  layout := m
  sized := sized
  memory := fun address => if m.Holds address then none else outside address
  msiArray := List.replicate n Msi.invalid.code
  main := .prompt
  handler := .poll
  page := .zero pageSize
  server := .receive

def entry (x : Machine n pageSize) (i : BitVec 32) : Option UInt8 :=
  if 0 ≤ i.toInt then x.msiArray[i.toInt.toNat]? else none

def setEntry (x : Machine n pageSize) (i : BitVec 32) (c : UInt8) : Option (Machine n pageSize) :=
  (x.entry i).map fun _ => { x with msiArray := x.msiArray.set i.toInt.toNat c }

/-- `strncpy` of the typed message to an address, all of whose bytes are written. -/
def storeMessage (x : Machine n pageSize) (loc : BitVec 64) (typed : List UInt8) :
    Option (Machine n pageSize) :=
  (x.memory.peek loc pageSize).map fun _ =>
    { x with memory := x.memory.copy loc (stored pageSize typed).bytes }

def mainStep (x : Machine n pageSize) : Option (Effect n pageSize) :=
  match x.main with
  | .prompt => none
  | .loop op pages =>
    match pages.next x.layout.maxPage with
    | none => some ({ x with main := .prompt }, .silent, none)
    | some (i, rest) => some ({ x with main := .access op.entry i rest }, .silent, none)
  | .access (.load false) i rest => do
    let pageBuffer ← x.memory.strncpy (x.layout.addressLoc i) pageSize
    -- `printf` reads beyond a buffer in which no string ends.
    if 0 ∈ pageBuffer then
      return ({ x with main := .loop (.read false) rest }, .silent,
        some (.printed i (cstring pageBuffer)))
    else none
  | .access (.load true) i rest => (x.memory.strncpy (x.layout.addressLoc i) pageSize).map fun _ =>
      ({ x with main := .access .print i rest }, .silent, none)
  | .access .print i rest => (x.memory.stringAt (x.layout.addressLoc i) pageSize).map fun text =>
      ({ x with main := .loop (.read true) rest }, .silent, some (.printed i text))
  | .access (.store typed) i rest => (x.storeMessage (x.layout.addressLoc i) typed).map fun x =>
      ({ x with main := .access (.mark typed) i rest }, .silent, some (.wrote i typed))
  | .access (.mark typed) i rest => (x.setEntry i Msi.modified.code).map fun x =>
      ({ x with main := .access (.echo typed) i rest }, .silent, none)
  | .access (.echo typed) i rest =>
    (x.memory.stringAt (x.layout.addressLoc i) pageSize).map fun _ =>
      ({ x with main := .access (.notify typed) i rest }, .silent, none)
  | .access (.notify typed) i rest =>
      some ({ x with main := .loop (.write typed) rest }, .request (.invalidate, i), none)

/-- Some thread of the process is stopped at the address. -/
def Faults (x : Machine n pageSize) (address : BitVec 64) : Prop :=
  x.layout.Holds address ∧ x.memory address = none ∧
    ((match x.main with
      | .access stage i _ =>
        stage.Touches ∧ AddressSpace.Within (x.layout.addressLoc i) pageSize address
      | _ => False) ∨
    (match x.server with
      | .serving .copy i => AddressSpace.Within (x.layout.addressLoc i) pageSize address
      | _ => False))

instance (x : Machine n pageSize) (address : BitVec 64) : Decidable (x.Faults address) := by
  unfold Faults
  refine @instDecidableAnd _ _ inferInstance (@instDecidableAnd _ _ inferInstance
    (@instDecidableOr _ _ ?_ ?_))
  · split <;> infer_instance
  · split <;> infer_instance

def faultStep (x : Machine n pageSize) (address : BitVec 64) :
    Option (Effect n pageSize) :=
  match x.handler with
  | .poll =>
    if x.Faults address then
      some ({ x with handler := .resolving .test address, page := .zero pageSize }, .silent, none)
    else none
  | .resolving _ _ => none

def faultHandlerThread (x : Machine n pageSize)
    (reply : Option (RawReply pageSize)) : Option (Effect n pageSize) :=
  match x.handler with
  | .poll => none
  | .resolving .test address =>
    (x.entry (x.layout.pageFaulted address)).map fun c =>
      let next := if c = Msi.invalid.code then Resolve.request else .install
      ({ x with handler := .resolving next address }, .silent, none)
  | .resolving .request address =>
      some ({ x with handler := .resolving .response address },
        .request (.fetch, x.layout.pageFaulted address), none)
  | .resolving .response address =>
    match reply with
    | some (.response c) =>
      -- Any other char leaves the entry as it is and installs the cleared buffer.
      let next := if c = 48 then Resolve.share else if c = 49 then .page else .install
      some ({ x with handler := .resolving next address }, .consume (.response c), none)
    | _ => none
  | .resolving .page address =>
    match reply with
    | some (.page content) =>
      some ({ x with handler := .resolving .share address, page := content },
        .consume (.page content), none)
    | _ => none
  | .resolving .share address =>
    (x.setEntry (x.layout.pageFaulted address) Msi.shared.code).map fun x =>
      ({ x with handler := .resolving .install address }, .silent, none)
  | .resolving .install address =>
    let dst := copyDst x.layout.pageSize address
    -- `UFFDIO_COPY` needs a page of the mapping that is absent.
    if x.layout.Holds dst ∧ x.memory dst = none then
      some ({ x with memory := x.memory.copy dst x.page.bytes, handler := .poll }, .silent, none)
    else none

def serverThread (x : Machine n pageSize) (request : Option RawRequest) :
    Option (Effect n pageSize) :=
  match x.server with
  | .receive =>
    match request with
    | some (.fetch, i) => some ({ x with server := .serving .test i }, .serve (.fetch, i), none)
    | some (.invalidate, i) =>
        some ({ x with server := .serving .drop i }, .serve (.invalidate, i), none)
    | none => none
  | .serving .test i => (x.entry i).map fun c =>
      let next := if c = Msi.invalid.code then Serve.deny else .grant
      ({ x with server := .serving next i }, .silent, none)
  | .serving .deny i =>
      some ({ x with server := .serving .share i }, .answer (.response 48), none)
  | .serving .grant i =>
      some ({ x with server := .serving .copy i }, .answer (.response 49), none)
  | .serving .copy i => do
    let bytes ← x.memory.peek (x.layout.addressLoc i) pageSize
    if size : bytes.length = pageSize then
      return ({ x with server := .serving .share i }, .answer (.page ⟨bytes, size⟩), none)
    else none
  | .serving .share i => (x.setEntry i Msi.shared.code).map fun x =>
      ({ x with server := .receive }, .silent, none)
  | .serving .drop i =>
    -- `madvise` fails outside the mapping and within a page.
    if x.layout.Holds (x.layout.addressLoc i) ∧ pageSize ∣ (x.layout.addressLoc i).toNat then
      some ({ x with
        memory := x.memory.discard (x.layout.addressLoc i) pageSize
        server := .serving .invalidate i }, .silent, none)
    else none
  | .serving .invalidate i => (x.setEntry i Msi.invalid.code).map fun x =>
      ({ x with server := .receive }, .silent, none)

/-- A page field that is out of range leaves the process at its prompt. -/
def step (x : Machine n pageSize) (request : Option RawRequest)
    (reply : Option (RawReply pageSize)) : Turn → Option (Effect n pageSize)
  | .command c =>
    match x.main with
    | .prompt =>
      if c.whichPage.slt (-1) ∨ x.layout.maxPage.sle c.whichPage then none
      else some ({ x with main := .loop c.op (.start c.whichPage) }, .silent,
        some (.command c))
    | _ => none
  | .main => x.mainStep
  | .fault address => x.faultStep address
  | .handler => x.faultHandlerThread reply
  | .server => x.serverThread request

def Moves (x : Machine n pageSize) (l : Label RawRequest (RawReply pageSize))
    (e : Option RawEvent) (y : Machine n pageSize) : Prop :=
  ∃ turn request reply, x.step request reply turn = some (y, l, e)

theorem step_layout {x : Machine n pageSize} (moved : x.step request reply turn = some (y, l, e)) :
    y.layout = x.layout := by
  have setting {i : BitVec 32} {c : UInt8} {z : Machine n pageSize}
      (set : x.setEntry i c = some z) : z.layout = x.layout := by
    obtain ⟨_, _, rfl⟩ := Option.map_eq_some_iff.mp set
    rfl
  have storing {loc : BitVec 64} {typed : List UInt8} {z : Machine n pageSize}
      (stored : x.storeMessage loc typed = some z) : z.layout = x.layout := by
    obtain ⟨_, _, rfl⟩ := Option.map_eq_some_iff.mp stored
    rfl
  cases turn with
  | command c =>
    simp only [step] at moved
    grind
  | main =>
    simp only [step, mainStep, Option.bind_eq_bind] at moved
    grind [Option.map_eq_some_iff, Option.bind_eq_some_iff]
  | fault address =>
    simp only [step, faultStep] at moved
    grind
  | handler =>
    simp only [step, faultHandlerThread] at moved
    grind [Option.map_eq_some_iff]
  | server =>
    simp only [step, serverThread, Option.bind_eq_bind] at moved
    grind [Option.map_eq_some_iff, Option.bind_eq_some_iff]

theorem step_heads {own : End (Machine n pageSize) RawRequest (RawReply pageSize)}
    (moved : own.party.step request reply turn = some (x, l, e)) (ready : own.Enabled l) :
    own.party.step own.accepted.head? own.connect.head? turn = some (x, l, e) := by
  cases turn with
  | command | main | fault => exact moved
  | handler =>
    simp only [step, faultHandlerThread] at moved ⊢
    split at moved
    · cases moved
    · exact moved
    · exact moved
    · split at moved
      · cases moved
        simp [show own.connect.head? = _ from ready]
      · cases moved
    · split at moved
      · cases moved
        simp [show own.connect.head? = _ from ready]
      · cases moved
    · exact moved
    · exact moved
  | server =>
    simp only [step, serverThread] at moved ⊢
    split at moved
    · split at moved
      · cases moved
        simp [show own.accepted.head? = _ from ready]
      · cases moved
        simp [show own.accepted.head? = _ from ready]
      · cases moved
    all_goals exact moved

end Machine

/-- The two processes, each in its address space. -/
abbrev Machines (n pageSize : Nat) :=
  Net (Machine n pageSize) RawRequest (RawReply pageSize)

namespace Machines

def initial (m : Side → Mapping n) (sized : ∀ i, (m i).pageSize.toNat = pageSize)
    (outside : Side → AddressSpace) : Machines n pageSize :=
  fun i => ⟨.initial (m i) (sized i) (outside i), [], []⟩

abbrev Step : Machines n pageSize → Option (Side × RawEvent) → Machines n pageSize → Prop :=
  Duplex.Step free Machine.Moves

abbrev Runs (m : Side → Mapping n) (sized : ∀ i, (m i).pageSize.toNat = pageSize)
    (outside : Side → AddressSpace) (h : List (Side × RawEvent)) (s : Machines n pageSize) : Prop :=
  Run Step (initial m sized outside) h s

end Machines
end CSE306.S2DSM
