import CSE306.Uffd

/-! Which pages are loaded, and what their blocks say. A loop over the blocks in order loads
the missing pages in order. -/
namespace CSE306.Uffd
open S2DSM

variable {n : Nat}

/-- The pages below `loaded` are present. Their letters count on from `base`, except where a
block was filled. -/
structure Loading where
  base : Nat
  loaded : Nat
  fill : Nat → Option UInt8

namespace Loading

def start : Loading := ⟨0, 0, fun _ => none⟩

/-- The byte of a block, where a page has so many blocks. -/
def byte (blocks : Nat) (a : Loading) (j : Nat) : UInt8 :=
  (a.fill j).getD (letter (a.base + j / blocks))

def load (a : Loading) : Loading := { a with loaded := a.loaded + 1 }

def write (a : Loading) (j : Nat) (c : UInt8) : Loading :=
  { a with fill := Function.update a.fill j (some c) }

/-- Every page is missing, and the letters go on where they were. -/
def discard (a : Loading) : Loading := ⟨a.base + a.loaded, 0, fun _ => none⟩

/-- A loop begins. -/
def enter (now : Pass) (a : Loading) : Loading := if now.discards then a.discard else a

/-- The pages that are missing have not been written to. -/
def Fresh (blocks : Nat) (a : Loading) : Prop :=
  ∀ j, a.loaded ≤ j / blocks → a.fill j = none

/-- A loop has come to a block: its page is loaded, and the block is filled if the loop writes. -/
def visit (blocks : Nat) (now : Pass) (a : Loading) (j : Nat) : Loading where
  base := a.base
  loaded := max a.loaded (j / blocks + 1)
  fill := if now.fill = none then a.fill else Function.update a.fill j now.fill

/-- The page of a block, if it is missing. -/
def missing (blocks : Nat) (a : Loading) (j : Nat) : List Nat :=
  if j / blocks < a.loaded then [] else [j / blocks]

end Loading

/-- What is still to come: the lines of `main`, and the pages of the faults. -/
abbrev Owed := List Event × List Nat

/-- A loop over these blocks. -/
def perform (m : Mapping n) (blocks : Nat) (now : Pass) (a : Loading) :
    List Nat → Loading × Owed
  | [] => (a, [], [])
  | j :: js =>
    let after := a.visit blocks now j
    let later := perform m blocks now after js
    (later.1,
      .heading now.number (m.mmapAddr + BitVec.ofNat 64 (1024 * j)) ::
        .byte (after.byte blocks j) :: later.2.1,
      a.missing blocks j ++ later.2.2)

/-- The loops that are left. -/
def performAll (m : Mapping n) (blocks : Nat) (a : Loading) : List Pass → Owed
  | [] => ([], [])
  | now :: rest =>
    let r := perform m blocks now (a.enter now) (List.range (n * blocks))
    let later := performAll m blocks r.1 rest
    (.rule :: (r.2.1 ++ later.1), r.2.2 ++ later.2)

def pagesOf (blocks i : Nat) : Nat := (i + blocks - 1) / blocks

def line (m : Mapping n) (now : Pass) (j : Nat) (c : UInt8) : List Event :=
  [.heading now.number (m.mmapAddr + BitVec.ofNat 64 (1024 * j)), .byte c]

/-- What a loop has done after `i` blocks. -/
def Loading.visited (blocks : Nat) (now : Pass) (a : Loading) (i : Nat) : Loading where
  base := a.base
  loaded := max a.loaded (pagesOf blocks i)
  fill j := if now.fill ≠ none ∧ j < i then now.fill else a.fill j

def shown (n number p : Nat) : UInt8 :=
  if number ≤ 2 then letter p
  else if number ≤ 4 then letter (n + p)
  else if number ≤ 6 then 64
  else 94

def lines (m : Mapping n) (blocks : Nat) (now : Pass) : List Event :=
  (List.range (n * blocks)).flatMap fun j => line m now j (shown n now.number (j / blocks))

def Loading.after (n blocks : Nat) (now : Pass) (a : Loading) : Loading where
  base := a.base
  loaded := n
  fill j := if now.fill ≠ none ∧ j < n * blocks then now.fill else a.fill j

end CSE306.Uffd
