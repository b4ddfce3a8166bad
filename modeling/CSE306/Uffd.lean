import CSE306.S2DSM.Addressed

/-! The program that shows how a process handles its own page faults: eight loops over its
mapping, and a thread that fills each page that is missing with a letter of its own. -/
namespace CSE306
open Transition S2DSM

namespace Uffd

/-- One of the loops: whether the mapping is discarded before it, and what it writes to each
block. -/
structure Pass where
  number : Nat
  discards : Bool
  fill : Option UInt8
  deriving DecidableEq

/-- The loops `#1` to `#8`. -/
def passes : List Pass :=
  [⟨1, false, none⟩, ⟨2, false, none⟩, ⟨3, true, none⟩, ⟨4, false, none⟩, ⟨5, true, some 64⟩,
    ⟨6, false, none⟩, ⟨7, false, some 94⟩, ⟨8, false, none⟩]

/-- Where `main` is. A line takes two `printf`, of the address and of the byte, which the loops
that only read have in `c` by then. -/
inductive Main where
  | start (rest : List Pass)
  | loop (now : Pass) (l : BitVec 32) (rest : List Pass)
  | access (now : Pass) (l : BitVec 32) (rest : List Pass)
  | print (now : Pass) (l : BitVec 32) (c : Option UInt8) (rest : List Pass)
  | printByte (now : Pass) (l : BitVec 32) (c : Option UInt8) (rest : List Pass)
  | exited
  deriving DecidableEq

/-- Where the handler is: at `poll`, with a fault that it has read, or after `UFFDIO_COPY`. -/
inductive Handler where
  | poll
  | copy (address : BitVec 64)
  | print
  deriving DecidableEq

inductive Event where
  | rule
  | heading (number : Nat) (address : BitVec 64)
  | byte (c : UInt8)
  | pageFault (address : BitVec 64)
  | returned (copied : BitVec 32)
  deriving DecidableEq

inductive Turn where
  | main
  | fault (address : BitVec 64)
  | handler
  deriving DecidableEq

/-- `'A' + fault_cnt % 20` -/
def letter (faultCnt : Nat) : UInt8 := UInt8.ofNat (65 + faultCnt % 20)

def Main.touches : Main → Option (BitVec 32 × Nat)
  | .access now l _ => some (l, if now.fill = none then 1 else 1024)
  | .printByte _ l none _ => some (l, 1)
  | _ => none

def Handler.resolving : Handler → Option (BitVec 64)
  | .copy address => some address
  | .poll | .print => none

end Uffd

structure Uffd (n : Nat) where
  layout : Mapping n
  memory : AddressSpace
  main : Uffd.Main
  handler : Uffd.Handler
  faultCnt : Nat

namespace Uffd
variable {n : Nat}

def initial (m : Mapping n) (outside : AddressSpace) : Uffd n where
  layout := m
  memory := fun address => if m.Holds address then none else outside address
  main := .start passes
  handler := .poll
  faultCnt := 0

/-- `addr + l` -/
def addr (m : Mapping n) (l : BitVec 32) : BitVec 64 := m.mmapAddr + l.signExtend 64

/-- In the loop the `int` is compared with the `unsigned long`. -/
def mainStep (x : Uffd n) : Option (Uffd n × Option Event) :=
  match x.main with
  | .start [] => some ({ x with main := .exited }, none)
  | .start (now :: rest) => some ({ x with
      memory :=
        if now.discards then x.memory.discard x.layout.mmapAddr x.layout.len.toNat else x.memory
      main := .loop now 0 rest }, some .rule)
  | .loop now l rest =>
    if (l.signExtend 64).ult x.layout.len then some ({ x with main := .access now l rest }, none)
    else some ({ x with main := .start rest }, none)
  | .access now l rest =>
    match now.fill with
    | none => (x.memory (addr x.layout l)).map fun c =>
        ({ x with main := .print now l (some c) rest }, none)
    | some b => (x.memory.peek (addr x.layout l) 1024).map fun _ =>
        ({ x with
          memory := x.memory.copy (addr x.layout l) (List.replicate 1024 b)
          main := .print now l none rest }, none)
  | .print now l c rest =>
    some ({ x with main := .printByte now l c rest }, some (.heading now.number (addr x.layout l)))
  | .printByte now l c rest => (c.or (x.memory (addr x.layout l))).map fun c =>
      ({ x with main := .loop now (l + 1024) rest }, some (.byte c))
  | .exited => none

def Faults (x : Uffd n) (address : BitVec 64) : Prop :=
  x.layout.Holds address ∧ x.memory address = none ∧
    ∃ r ∈ x.main.touches, AddressSpace.Within (addr x.layout r.1) r.2 address

instance (x : Uffd n) (address : BitVec 64) : Decidable (x.Faults address) :=
  decidable_of_iff (x.layout.Holds address ∧ x.memory address = none ∧ x.main.touches.any
    fun r => decide (AddressSpace.Within (addr x.layout r.1) r.2 address))
    (by simp [Faults, Option.any_eq_true])

/-- The handler prints the address of the fault and copies a page of the next letter; `main`
may go on before it prints that. -/
def faultHandlerThread (x : Uffd n) : Option (Uffd n × Option Event) :=
  match x.handler with
  | .poll => none
  | .copy address =>
    let dst := copyDst x.layout.pageSize address
    if x.layout.Holds dst ∧ x.memory dst = none then
      some ({ x with
        memory := x.memory.copy dst
          (List.replicate x.layout.pageSize.toNat (letter x.faultCnt))
        handler := .print
        faultCnt := x.faultCnt + 1 }, some (.pageFault address))
    else none
  | .print => some ({ x with handler := .poll }, some (.returned x.layout.pageSize))

/-- `exit` ends both threads. -/
def step (x : Uffd n) : Turn → Option (Uffd n × Option Event)
  | .main => x.mainStep
  | .fault address =>
    if x.handler = .poll ∧ x.Faults address then
      some ({ x with handler := .copy address }, none)
    else none
  | .handler => if x.main = .exited then none else x.faultHandlerThread

def Step (x : Uffd n) (e : Option Event) (y : Uffd n) : Prop := ∃ turn, x.step turn = some (y, e)

abbrev Runs (m : Mapping n) (outside : AddressSpace) (h : List Event) (x : Uffd n) : Prop :=
  Run Step (initial m outside) h x

theorem step_sound {x y : Uffd n} (moved : x.step turn = some (y, e)) : x.Step e y :=
  ⟨turn, moved⟩

/-- What `main` prints. -/
def Event.main? : Event → Option Event
  | .pageFault _ | .returned _ => none
  | e => some e

/-- What the handler prints, with the page of a fault by its number in the mapping. -/
def Event.handler? (m : Mapping n) : Event → Option (Nat ⊕ BitVec 32)
  | .pageFault address => some (.inl ((address.toNat - m.mmapAddr.toNat) / m.pageSize.toNat))
  | .returned copied => some (.inr copied)
  | _ => none

end Uffd
end CSE306
