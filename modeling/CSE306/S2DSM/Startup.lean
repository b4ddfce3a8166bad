import CSE306.Transition.Duplex
import CSE306.S2DSM.Framing
import CSE306.Words

/-! Both programs from the start of `main` into their command loops. Whole records
pass over the two connections; three threads read what arrives on one socket. -/
namespace CSE306.S2DSM.Startup
open Transition Transition.Duplex

/-- What passes over a connection in the direction in which it was opened. -/
inductive Record where
  | pid (pid : BitVec 32)
  | initInfo (len : BitVec 64)
  | request (request : RawRequest)
  deriving DecidableEq

namespace Record

def pid? : Record → Option (BitVec 32)
  | .pid sent => some sent
  | _ => none

def initInfo? : Record → Option (BitVec 64)
  | .initInfo sent => some sent
  | _ => none

def request? : Record → Option RawRequest
  | .request sent => some sent
  | _ => none

end Record

/-- A read leaves the field of the record it expects, and anything if it takes a
record of another kind. -/
def Fits (sent : Option α) (found : α) : Prop := ∀ field ∈ sent, found = field

instance [DecidableEq α] (sent : Option α) (found : α) : Decidable (Fits sent found) := by
  unfold Fits
  infer_instance

/-- Where `main` is: at the statement it executes next. -/
inductive Main where
  | createHandshake
  | connect
  | sendPid
  | joinHandshake
  -- the first process
  | allocate
  | initialise
  | sendInitInfo
  | register
  | createHandler
  -- the second process
  | createReceive
  | joinReceive
  -- both
  | createServer
  | commandLoop (maxPage : BitVec 32)
  /-- `sent_request('I', page)`, in the loop over all pages or for one. -/
  | sendInvalidate (maxPage page : BitVec 32) (all : Bool)
  deriving DecidableEq

/-- The local variable `max_page`, once the command loop runs. -/
def Main.maxPage? : Main → Option (BitVec 32)
  | .commandLoop maxPage | .sendInvalidate maxPage _ _ => some maxPage
  | _ => none

def Main.command (maxPage whichPage : BitVec 32) : Option Main :=
  if whichPage.slt (-1) ∨ maxPage.sle whichPage then none
  else if whichPage = -1 then
    if (0 : BitVec 32).slt maxPage then some (.sendInvalidate maxPage 0 true) else none
  else some (.sendInvalidate maxPage whichPage false)

/-- Where `main` is after its 'I' for a page. -/
def Main.next (maxPage page : BitVec 32) (all : Bool) : Main :=
  if all ∧ (page + 1).slt maxPage then .sendInvalidate maxPage (page + 1) true
  else .commandLoop maxPage

inductive Handshake where
  | absent
  | listen
  | accept
  | read
  | exited
  deriving DecidableEq

inductive Receive where
  | absent
  | read
  | allocate (len : BitVec 64)
  | initialise
  | register
  | createHandler
  | exited
  deriving DecidableEq

inductive Handler where
  | absent
  | poll
  | sendFetch (pageFaulted : BitVec 32)
  deriving DecidableEq

inductive Server where
  | absent
  | read
  /-- The request it has read, or none where the type is neither 'F' nor 'I'. -/
  | handle (request : Option RawRequest)
  deriving DecidableEq

/-- What setting up the mapping sets: the global `len`, the entries of `msi_array`
that are initialised, and whether the mapping is registered with userfaultfd. -/
structure Region where
  len : BitVec 64
  msiArray : Option Nat
  registered : Bool
  deriving DecidableEq

/-- One process: its threads and the variables they share. -/
structure Program where
  currentPid : BitVec 32
  main : Main
  handshake : Handshake
  receive : Receive
  server : Server
  handler : Handler
  /-- none for the initial -1 -/
  firstProcess : Option Bool
  region : Region
  deriving DecidableEq

def Program.start (pid : BitVec 32) : Program :=
  ⟨pid, .createHandshake, .absent, .absent, .absent, .absent, none, ⟨0, none, false⟩⟩

inductive Thread where
  | handshake
  | receive
  | server
  deriving DecidableEq

/-- The thread a record is meant for. -/
def Record.reader : Record → Thread
  | .pid _ => .handshake
  | .initInfo _ => .receive
  | .request _ => .server

inductive Event where
  /-- `main` takes the branch of the first process, or the other one. -/
  | branch (first : Bool)
  | took (thread : Thread) (record : Record)
  | initialised
  | registered
  | handled (request : RawRequest)
  deriving DecidableEq

/-- Whose turn it is, with what that thread gets from outside: the page of a write
command, what a read leaves in its variable, the place of a page fault. -/
inductive Turn where
  | main (whichPage : BitVec 32)
  | handshake (pid : BitVec 32)
  | receive (len : BitVec 64)
  | handler (offset : BitVec 64)
  | server (request : Option RawRequest)
  deriving DecidableEq

/-- The processes and what the user of the first one enters. -/
structure Launch where
  pid : Side → BitVec 32
  pageSize : BitVec 32
  pages : BitVec 32
  distinct : pid .first ≠ pid .second
  positive : 0 < pageSize.toInt
  /-- `mmap` of the first process succeeds. -/
  mapped : 0 < (pageSize * pages).toInt
  whole : pageSize.toInt ∣ (pageSize * pages).toInt

namespace Launch

/-- `len = page_size * pages`, an `int` product in an `unsigned long`. -/
def len (l : Launch) : BitVec 64 := (l.pageSize * l.pages).signExtend 64

def numPages (l : Launch) (len : BitVec 64) : BitVec 64 := len / l.pageSize.signExtend 64

/-- `(int)(len / page_size)` -/
def maxPage (l : Launch) (len : BitVec 64) : BitVec 32 := (l.numPages len).setWidth 32

/-- `(address - mmap_addr) / page_size` in an `int` -/
def pageFaulted (l : Launch) (offset : BitVec 64) : BitVec 32 :=
  (offset.sdiv (l.pageSize.signExtend 64)).setWidth 32

variable (l : Launch)

/-- `0 <= which_page < max_page` -/
def InRange (page : BitVec 32) : Prop := 0 ≤ page.toInt ∧ page.toInt < (l.maxPage l.len).toInt

theorem toNat_len : (l.len.toNat : Int) = (l.pageSize * l.pages).toInt ∧ l.len.toNat < 2 ^ 31 := by
  obtain ⟨same, small⟩ := toNat_signExtend l.mapped.le
  rw [← same] at small
  refine ⟨?_, small⟩
  rw [len, same, BitVec.toInt_eq_toNat_of_lt (by omega)]

theorem toNat_pageSize :
    ((l.pageSize.signExtend 64).toNat : Int) = l.pageSize.toInt ∧
      (l.pageSize.signExtend 64).toNat < 2 ^ 31 ∧ 0 < (l.pageSize.signExtend 64).toNat := by
  obtain ⟨same, small⟩ := toNat_signExtend l.positive.le
  have value : ((l.pageSize.signExtend 64).toNat : Int) = l.pageSize.toInt := by
    rw [same, BitVec.toInt_eq_toNat_of_lt (by omega)]
  have := l.positive
  exact ⟨value, by omega, by omega⟩

theorem toInt_maxPage :
    (l.maxPage l.len).toInt = (l.len.toNat / (l.pageSize.signExtend 64).toNat : Nat) :=
  toInt_quotient ((Nat.div_le_self ..).trans_lt l.toNat_len.2)

theorem inRange_pageFaulted {offset : BitVec 64} (inside : offset < l.len) :
    l.InRange (l.pageFaulted offset) := by
  obtain ⟨size, small, positive⟩ := l.toNat_pageSize
  obtain ⟨total, bounded⟩ := l.toNat_len
  have below : offset.toNat < l.len.toNat := inside
  have quotient : l.pageFaulted offset = (offset / l.pageSize.signExtend 64).setWidth 32 := by
    rw [pageFaulted, sdiv_eq_udiv (by omega) (by omega)]
  have divides : (l.pageSize.signExtend 64).toNat ∣ l.len.toNat :=
    Int.natCast_dvd_natCast.mp (by rw [size, total]; exact l.whole)
  have few : offset.toNat / (l.pageSize.signExtend 64).toNat < 2 ^ 31 :=
    (Nat.div_le_self ..).trans_lt (by omega)
  rw [InRange, quotient, toInt_quotient few, toInt_maxPage]
  exact ⟨Int.natCast_nonneg _, by exact_mod_cast Nat.div_lt_div_of_lt_of_dvd divides below⟩

end Launch

abbrev Moved := Program × Label Record Empty × Option Event

namespace Program
variable (l : Launch)

/-- `msi_array[i] = INVALID` for each page of the mapping. -/
def fill (x : Program) : Region :=
  { x.region with msiArray := some (l.numPages x.region.len).toNat }

/-- `UFFDIO_REGISTER` -/
def watch (x : Program) : Region := { x.region with registered := true }

def mainStep (x : Program) (whichPage : BitVec 32) : Option Moved :=
  match x.main with
  | .createHandshake => some ({ x with main := .connect, handshake := .listen }, .silent, none)
  | .connect => some ({ x with main := .sendPid }, .silent, none)
  | .sendPid => some ({ x with main := .joinHandshake }, .request (.pid x.currentPid), none)
  | .joinHandshake =>
    if x.handshake = .exited then
      -- -1 would count as true
      if x.firstProcess = some false then
        some ({ x with main := .createReceive }, .silent, some (.branch false))
      else some ({ x with main := .allocate }, .silent, some (.branch true))
    else none
  | .allocate =>
    some ({ x with main := .initialise, region := { x.region with len := l.len } }, .silent, none)
  | .initialise =>
    some ({ x with main := .sendInitInfo, region := x.fill l }, .silent, some .initialised)
  | .sendInitInfo => some ({ x with main := .register }, .request (.initInfo x.region.len), none)
  | .register => some ({ x with main := .createHandler, region := x.watch }, .silent,
      some .registered)
  | .createHandler => some ({ x with main := .createServer, handler := .poll }, .silent, none)
  | .createReceive => some ({ x with main := .joinReceive, receive := .read }, .silent, none)
  | .joinReceive =>
    if x.receive = .exited then some ({ x with main := .createServer }, .silent, none) else none
  | .createServer =>
    let main := .commandLoop (l.maxPage x.region.len)
    some ({ x with main, server := .read }, .silent, none)
  | .commandLoop maxPage =>
    -- 'r' and 'v' send nothing from here and leave the loop where it is
    (Main.command maxPage whichPage).map ({ x with main := · }, .silent, none)
  | .sendInvalidate maxPage page all =>
    some ({ x with main := .next maxPage page all }, .request (.request (.invalidate, page)), none)

/-- A thread takes one record from the accepted socket and goes on as `y`. -/
def take [DecidableEq α] (thread : Thread) (record : Option Record)
    (field : Record → Option α) (found : α) (y : Program) : Option Moved :=
  match record with
  | some record =>
    if Fits (field record) found then some (y, .serve record, some (.took thread record)) else none
  | none => none

def handshakeStep (x : Program) (record : Option Record) (pid : BitVec 32) : Option Moved :=
  match x.handshake with
  | .absent | .exited => none
  | .listen => some ({ x with handshake := .accept }, .silent, none)
  | .accept => some ({ x with handshake := .read }, .silent, none)
  | .read =>
    let firstProcess := some (x.currentPid.slt pid)
    take .handshake record Record.pid? pid { x with handshake := .exited, firstProcess }

def receiveStep (x : Program) (record : Option Record) (len : BitVec 64) : Option Moved :=
  match x.receive with
  | .absent | .exited => none
  | .read => take .receive record Record.initInfo? len { x with receive := .allocate len }
  | .allocate len =>
    some ({ x with receive := .initialise, region := { x.region with len } }, .silent, none)
  | .initialise =>
    some ({ x with receive := .register, region := x.fill l }, .silent, some .initialised)
  | .register =>
    some ({ x with receive := .createHandler, region := x.watch }, .silent, some .registered)
  | .createHandler => some ({ x with receive := .exited, handler := .poll }, .silent, none)

/-- Faults are reported for the registered mapping only, whichever thread causes them.
An answer comes back the other way, past the threads that read here; the handler goes
on without waiting for it, which only adds runs. -/
def handlerStep (x : Program) (offset : BitVec 64) : Option Moved :=
  match x.handler with
  | .absent => none
  | .poll => if x.region.registered ∧ offset < x.region.len then
      some ({ x with handler := .sendFetch (l.pageFaulted offset) }, .silent, none) else none
  | .sendFetch page => some ({ x with handler := .poll }, .request (.request (.fetch, page)), none)

def serverStep (x : Program) (record : Option Record) (request : Option RawRequest) :
    Option Moved :=
  match x.server with
  | .absent => none
  | .read => take .server record (·.request?.map some) request { x with server := .handle request }
  | .handle request => some ({ x with server := .read }, .silent, request.map .handled)

def step (x : Program) (record : Option Record) : Turn → Option Moved
  | .main whichPage => x.mainStep l whichPage
  | .handshake pid => x.handshakeStep record pid
  | .receive len => x.receiveStep l record len
  | .handler offset => x.handlerStep l offset
  | .server request => x.serverStep record request

/-- A move of the program when its socket may deliver anything. -/
def Moves (x : Program) (label : Label Record Empty) (e : Option Event) (y : Program) : Prop :=
  ∃ record turn, x.step l record turn = some (y, label, e)

end Program

abbrev Party := End Program Record Empty

/-- `connect` succeeds once the other process listens, and `accept` once it has connected. -/
def Connected (own other : Party) (after : Program) : Prop :=
  (own.party.main = .connect → after.main ≠ .connect →
    other.party.handshake ≠ .absent ∧ other.party.handshake ≠ .listen) ∧
  (own.party.handshake = .accept → after.handshake ≠ .accept →
    other.party.main ≠ .createHandshake ∧ other.party.main ≠ .connect)

instance (own other : Party) (after : Program) : Decidable (Connected own other after) := by
  unfold Connected
  infer_instance

namespace Launch
variable (l : Launch)

def start : Net Program Record Empty := fun i => ⟨.start (l.pid i), [], []⟩

def step : Net Program Record Empty → Side × Turn →
    Option (Net Program Record Empty × Option (Side × Event)) :=
  play Connected fun x record _ turn => x.step l record turn

/-- The runs of the two programs from their starts. -/
abbrev Runs (h : List (Side × Event)) (s : Net Program Record Empty) : Prop :=
  Run (Duplex.Step Connected (Program.Moves l)) l.start h s

end Launch

namespace Program
variable {l : Launch} {own : Party}

theorem take_eq_some [DecidableEq α] {field : Record → Option α} :
    take thread record field found y = some (p, label, e) ↔
      ∃ r, record = some r ∧ Fits (field r) found ∧ p = y ∧ label = .serve r ∧
        e = some (.took thread r) := by
  cases record with
  | none => simp [take]
  | some r =>
    simp only [take]
    split <;> simp_all [eq_comm]

theorem step_enabled (moved : own.party.step l own.accepted.head? turn = some (p, label, e)) :
    own.Enabled label := by
  cases turn with
  | main whichPage =>
    simp only [step, mainStep] at moved
    split at moved <;> grind [End.Enabled, Option.map_eq_some_iff]
  | handshake pid =>
    simp only [step, handshakeStep] at moved
    split at moved <;> grind [End.Enabled, take_eq_some]
  | receive len =>
    simp only [step, receiveStep] at moved
    split at moved <;> grind [End.Enabled, take_eq_some]
  | handler offset =>
    simp only [step, handlerStep] at moved
    split at moved <;> grind [End.Enabled]
  | server request =>
    simp only [step, serverStep] at moved
    split at moved <;> grind [End.Enabled, take_eq_some]

end Program

theorem Launch.exec_runs {l : Launch} (executed : exec l.step l.start schedule = some (s, h)) :
    l.Runs h s :=
  exec_run (play_sound fun acted => ⟨⟨_, _, acted⟩, Program.step_enabled acted⟩) executed

end CSE306.S2DSM.Startup
