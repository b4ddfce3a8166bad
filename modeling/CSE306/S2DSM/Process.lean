import CSE306.S2DSM.Control
import CSE306.S2DSM.Page
import CSE306.Transition.Duplex
import Mathlib.Data.List.FinRange

/-! One s2dsm process after startup: the command loop of `main`, the fault handler
and the server thread over `msi_array` and the mapping at `mmap_addr`. Each step
is one access to a shared location; page copies and messages are whole. -/
namespace CSE306.S2DSM
open Transition.Duplex

variable {n pageSize : Nat}

/-- `struct msg_request`, with its two request types. -/
inductive MsgRequest (n : Nat) where
  | fetch (whichPage : Fin n)
  | invalidate (whichPage : Fin n)
  deriving DecidableEq

/-- What the server writes back: the bytes "0" and "1", and a page. `whichPage`
is specification only: it records the request answered, and no step reads it. -/
inductive Reply (n pageSize : Nat) where
  | absent (whichPage : Fin n)
  | present (whichPage : Fin n)
  | content (whichPage : Fin n) (page : Page pageSize)
  deriving DecidableEq

/-- A command as typed; no page number stands for -1, all pages. -/
inductive Command (n : Nat) where
  | read (whichPage : Option (Fin n))
  | write (typed : List UInt8) (whichPage : Option (Fin n))
  deriving DecidableEq

/-- What the body of the page loop does. -/
inductive Op where
  | read (again : Bool)
  | write (typed : List UInt8)
  deriving DecidableEq

def Op.entry : Op → Stage (List UInt8)
  | .read again => .load again
  | .write typed => .store typed

namespace Command

def whichPage : Command n → Option (Fin n)
  | .read whichPage | .write _ whichPage => whichPage

def pages (c : Command n) : List (Fin n) :=
  match c.whichPage with
  | none => List.finRange n
  | some p => [p]

def op : Command n → Op
  | .read whichPage => .read whichPage.isNone
  | .write typed _ => .write typed

end Command

inductive Main (n : Nat) where
  | prompt
  | loop (op : Op) (pages : List (Fin n))
  | access (stage : Stage (List UInt8)) (page : Fin n) (rest : List (Fin n))
  deriving DecidableEq

inductive Handler (n : Nat) where
  | poll
  | resolving (stage : Resolve) (page : Fin n)
  deriving DecidableEq

inductive Server (n : Nat) where
  | receive
  | serving (stage : Serve) (page : Fin n)
  deriving DecidableEq

/-- `mapping` holds the resident pages only; `pageBuffer` is the static `page`
of the fault handler. -/
structure Process (n pageSize : Nat) where
  msiArray : Fin n → Msi
  mapping : Fin n → Option (Page pageSize)
  main : Main n
  handler : Handler n
  pageBuffer : Page pageSize
  server : Server n

/-- What a step shows: a command accepted at the prompt, a message stored to a
page, and a page printed by a read. -/
inductive Event (n pageSize : Nat) where
  | command (c : Command n)
  | wrote (page : Fin n) (typed : List UInt8)
  | read (page : Fin n) (content : Page pageSize)
  deriving DecidableEq

/-- Who moves: the user, or one of the three threads. `fault p` is the handler
reading the fault event of a thread stopped at the absent page `p`. -/
inductive Turn (n : Nat) where
  | command (c : Command n)
  | main
  | fault (p : Fin n)
  | handler
  | server
  deriving DecidableEq

abbrev Effect (n pageSize : Nat) :=
  Process n pageSize × Label (MsgRequest n) (Reply n pageSize) × Option (Event n pageSize)

namespace Process

def initial (n pageSize : Nat) : Process n pageSize where
  msiArray := fun _ => .invalid
  mapping := fun _ => none
  main := .prompt
  handler := .poll
  pageBuffer := .zero pageSize
  server := .receive

def setMsi (x : Process n pageSize) (p : Fin n) (state : Msi) : Process n pageSize :=
  { x with msiArray := Function.update x.msiArray p state }

def setPage (x : Process n pageSize) (p : Fin n) (content : Option (Page pageSize)) :
    Process n pageSize :=
  { x with mapping := Function.update x.mapping p content }

/-- The command loop. An access to an absent page is not enabled: the thread
waits for the handler. -/
def mainStep (x : Process n pageSize) : Option (Effect n pageSize) :=
  match x.main with
  | .prompt => none
  | .loop _ [] => some ({ x with main := .prompt }, .silent, none)
  | .loop op (p :: rest) => some ({ x with main := .access op.entry p rest }, .silent, none)
  | .access (.load false) p rest => (x.mapping p).map fun content =>
      ({ x with main := .loop (.read false) rest }, .silent, some (.read p content))
  | .access (.load true) p rest => (x.mapping p).map fun _ =>
      ({ x with main := .access .print p rest }, .silent, none)
  | .access .print p rest => (x.mapping p).map fun content =>
      ({ x with main := .loop (.read true) rest }, .silent, some (.read p content))
  | .access (.store typed) p rest => (x.mapping p).map fun _ =>
      ({ x.setPage p (some (stored pageSize typed)) with main := .access (.mark typed) p rest },
        .silent, some (.wrote p typed))
  | .access (.mark typed) p rest =>
      some ({ x.setMsi p .modified with main := .access (.echo typed) p rest }, .silent, none)
  | .access (.echo typed) p rest => (x.mapping p).map fun _ =>
      ({ x with main := .access (.notify typed) p rest }, .silent, none)
  | .access (.notify typed) p rest =>
      some ({ x with main := .loop (.write typed) rest }, .request (.invalidate p), none)

/-- Some thread of the process is stopped at page `p`. -/
def Faults (x : Process n pageSize) (p : Fin n) : Prop :=
  x.mapping p = none ∧
    ((match x.main with
      | .access stage q _ => q = p ∧ stage.Touches
      | _ => False) ∨
    (match x.server with
      | .serving .copy q => q = p
      | _ => False))

instance (x : Process n pageSize) (p : Fin n) : Decidable (x.Faults p) := by
  unfold Faults
  refine @instDecidableAnd _ _ inferInstance (@instDecidableOr _ _ ?_ ?_)
  · split <;> infer_instance
  · split <;> infer_instance

/-- Read the fault event of page `p`; the buffer is cleared before it is used. -/
def faultStep (x : Process n pageSize) (p : Fin n) : Option (Effect n pageSize) :=
  match x.handler with
  | .poll =>
    if x.Faults p then
      some ({ x with handler := .resolving .test p, pageBuffer := .zero pageSize }, .silent, none)
    else none
  | .resolving _ _ => none

/-- The body of `fault_handler_thread` after the fault event, with the next
reply waiting on `connect_socket`. -/
def faultHandlerThread (x : Process n pageSize) (reply : Option (Reply n pageSize)) :
    Option (Effect n pageSize) :=
  match x.handler with
  | .poll => none
  | .resolving .test p =>
      let next := if x.msiArray p = .invalid then Resolve.request else .install
      some ({ x with handler := .resolving next p }, .silent, none)
  | .resolving .request p =>
      some ({ x with handler := .resolving .response p }, .request (.fetch p), none)
  | .resolving .response p =>
    match reply with
    | some (.absent q) =>
        some ({ x with handler := .resolving .share p }, .consume (.absent q), none)
    | some (.present q) =>
        some ({ x with handler := .resolving .page p }, .consume (.present q), none)
    | _ => none
  | .resolving .page p =>
    match reply with
    | some (.content q content) =>
        some ({ x with handler := .resolving .share p, pageBuffer := content },
          .consume (.content q content), none)
    | _ => none
  | .resolving .share p =>
      some ({ x.setMsi p .shared with handler := .resolving .install p }, .silent, none)
  | .resolving .install p =>
    -- UFFDIO_COPY fails on a page that is present; see `Sound.gone`.
    match x.mapping p with
    | none => some ({ x.setPage p (some x.pageBuffer) with handler := .poll }, .silent, none)
    | some _ => none

/-- The body of `server_thread`, with the next request waiting on
`accepted_socket`. -/
def serverThread (x : Process n pageSize) (request : Option (MsgRequest n)) :
    Option (Effect n pageSize) :=
  match x.server with
  | .receive =>
    match request with
    | some (.fetch p) => some ({ x with server := .serving .test p }, .serve (.fetch p), none)
    | some (.invalidate p) =>
        some ({ x with server := .serving .drop p }, .serve (.invalidate p), none)
    | none => none
  | .serving .test p =>
      let next := if x.msiArray p = .invalid then Serve.deny else .grant
      some ({ x with server := .serving next p }, .silent, none)
  | .serving .deny p =>
      some ({ x with server := .serving .share p }, .answer (.absent p), none)
  | .serving .grant p =>
      some ({ x with server := .serving .copy p }, .answer (.present p), none)
  | .serving .copy p => (x.mapping p).map fun content =>
      ({ x with server := .serving .share p }, .answer (.content p content), none)
  | .serving .share p =>
      some ({ x.setMsi p .shared with server := .receive }, .silent, none)
  | .serving .drop p =>
      some ({ x.setPage p none with server := .serving .invalidate p }, .silent, none)
  | .serving .invalidate p =>
      some ({ x.setMsi p .invalid with server := .receive }, .silent, none)

def step (x : Process n pageSize) (request : Option (MsgRequest n))
    (reply : Option (Reply n pageSize)) : Turn n → Option (Effect n pageSize)
  | .command c =>
    match x.main with
    | .prompt => some ({ x with main := .loop c.op c.pages }, .silent, some (.command c))
    | _ => none
  | .main => x.mainStep
  | .fault p => x.faultStep p
  | .handler => x.faultHandlerThread reply
  | .server => x.serverThread request

/-- A move of the process when its sockets may deliver anything. -/
def Moves (x : Process n pageSize) (l : Label (MsgRequest n) (Reply n pageSize))
    (e : Option (Event n pageSize)) (y : Process n pageSize) : Prop :=
  ∃ turn request reply, x.step request reply turn = some (y, l, e)

/-- All three threads are between two pieces of work. -/
def Idle (x : Process n pageSize) : Prop :=
  x.main = .prompt ∧ x.handler = .poll ∧ x.server = .receive

instance (x : Process n pageSize) : Decidable x.Idle := by unfold Idle; infer_instance

end Process
end CSE306.S2DSM
