import CSE306.S2DSM.Execution
import CSE306.Strtol
import CSE306.Words

/-! The command loop on its standard input. Each field is what one `fgets` returns, and
the page number is what `strtol` finds at the start of its field. Line by line, the text
tells which fields are whole lines and which numbers are accepted as they stand. -/
namespace CSE306.S2DSM
open Strtol Transition

def maxSize : Nat := 50

/-- What the loop reads a field for. -/
inductive Entry where
  | op
  | msg
  | whichPage
  deriving DecidableEq

def Entry.size (pageSize : Nat) : Entry → Nat
  | .op | .whichPage => maxSize
  | .msg => pageSize

/-- A field that is read: what for, the size of its buffer, and the input there is. -/
structure Field where
  entry : Entry
  size : Nat
  stdin : List UInt8
  deriving DecidableEq

namespace Field

def raw (f : Field) : List UInt8 := fgets f.size f.stdin

def rest (f : Field) : List UInt8 := f.stdin.drop f.raw.length

/-- The whole line that the field begins. -/
def line (f : Field) : List UInt8 := firstLine f.stdin

end Field

/-- `fgets` returns NULL at the end of the input, unless it has nothing to read. -/
def fgetsNull (size : Nat) (stdin : List UInt8) : Bool := size = 0 ∨ size ≠ 1 ∧ stdin = []

/-- What one turn of the loop reads and what it is told to do. Nothing is left to read
where the loop or the program ends. -/
structure Round (n : Nat) where
  fields : List Field
  command : Option (Command n)
  rest : Option (List UInt8)
  deriving DecidableEq

inductive Operation where
  | read
  | write
  | view
  deriving DecidableEq

def letter (c : Char) : UInt8 := .ofNat c.toNat

/-- What `op[0]` stands for. -/
def operation (raw : List UInt8) : Option Operation :=
  let op0 := (chomp raw).headD 0
  if op0 = letter 'r' then some .read
  else if op0 = letter 'w' then some .write
  else if op0 = letter 'v' then some .view
  else none

abbrev numPages (maxPage : BitVec 32) : Nat := maxPage.toInt.toNat

theorem valid_page {maxPage whichPage : BitVec 32}
    (valid : ¬ (whichPage.slt (-1) ∨ maxPage.sle whichPage)) (one : whichPage ≠ -1) :
    0 ≤ whichPage.toInt ∧ whichPage.toInt.toNat < numPages maxPage := by
  have minusOne : (-1 : BitVec 32).toInt = -1 := rfl
  have other : whichPage.toInt ≠ -1 := fun same => one (BitVec.eq_of_toInt_eq same)
  rw [BitVec.slt_eq_decide, BitVec.sle_eq_decide, decide_eq_true_eq, decide_eq_true_eq, minusOne,
    not_or] at valid
  have least : 0 ≤ whichPage.toInt := by omega
  have most : whichPage.toInt < maxPage.toInt := by omega
  exact ⟨least, (Int.toNat_lt_toNat (by omega)).mpr most⟩

/-- The check of the page number; no page number stands for -1, all pages. -/
def checkPage (maxPage whichPage : BitVec 32) : Option (Option (Fin (numPages maxPage))) :=
  if valid : ¬ (whichPage.slt (-1) ∨ maxPage.sle whichPage) then
    if one : whichPage ≠ -1 then some (some ⟨whichPage.toInt.toNat, (valid_page valid one).2⟩)
    else some none
  else none

/-- The part of a turn that reads the page number. -/
def readPage (maxPage : BitVec 32) (fields : List Field)
    (command : Option (Fin (numPages maxPage)) → Command (numPages maxPage))
    (stdin : List UInt8) : Round (numPages maxPage) :=
  if fgetsNull maxSize stdin then ⟨fields, none, none⟩
  else
    let page : Field := ⟨.whichPage, maxSize, stdin⟩
    match strtol (cstring page.raw) with
    | none => ⟨fields ++ [page], none, none⟩
    | some value =>
      let whichPage := value.setWidth 32
      ⟨fields ++ [page], (checkPage maxPage whichPage).map command, some page.rest⟩

/-- One turn of the loop. -/
def readCommand (pageSize : Nat) (maxPage : BitVec 32) (stdin : List UInt8) :
    Round (numPages maxPage) :=
  if fgetsNull maxSize stdin then ⟨[], none, none⟩
  else
    let op : Field := ⟨.op, maxSize, stdin⟩
    match operation op.raw with
    | none | some .view => ⟨[op], none, some op.rest⟩
    | some .read => readPage maxPage [op] .read op.rest
    | some .write =>
      if fgetsNull pageSize op.rest then ⟨[op], none, none⟩
      else
        let msg : Field := ⟨.msg, pageSize, op.rest⟩
        readPage maxPage [op, msg] (.write msg.raw) msg.rest

/-- The turns of the loop, at most `fuel` of them. -/
def rounds (pageSize : Nat) (maxPage : BitVec 32) : Nat → List UInt8 →
    List (Round (numPages maxPage))
  | 0, _ => []
  | fuel + 1, stdin =>
    let round := readCommand pageSize maxPage stdin
    match round.rest with
    | none => [round]
    | some rest => round :: rounds pageSize maxPage fuel rest

/-- All turns on a text: each takes at least one byte of it. -/
def commandLoop (pageSize : Nat) (maxPage : BitVec 32) (stdin : List UInt8) :
    List (Round (numPages maxPage)) := rounds pageSize maxPage (stdin.length + 1) stdin

/-- The pages that a turn has read or written. -/
def Round.accessed (r : Round n) : List (Fin n) := (r.command.map Command.pages).getD []

/-- Where `main` goes on after a turn: to the pages of the command, or to its prompt. -/
def Round.start (r : Round n) : Main n :=
  match r.command with
  | none => .prompt
  | some c => .loop c.op c.pages

/-- From there, whatever the other threads and the other process do, `main` prints or stores
to the pages of the turn, each once and in order, and keeps to them. -/
def Round.Performed (pageSize : Nat) (r : Round n) : Prop :=
  ∀ (x : Process n pageSize) es y, x.main = r.start → Run Process.Works x es y →
    es.flatMap Event.pages ++ y.main.remaining = r.accessed ∧ y.Confined r.accessed

/-- The field that is given as page number, if the turn comes to it. -/
def Round.pageField (r : Round n) : Option Field := r.fields.find? (·.entry = .whichPage)

/-- A turn takes the operation, for a write the message, and the page number last. What it is
told to do is what the first two of them say. -/
structure Round.Told (r : Round n) : Prop where
  order : r.fields.map Field.entry <+: [.op, .whichPage] ∨
    r.fields.map Field.entry <+: [.op, .msg, .whichPage]
  command : ∀ c ∈ r.command,
    (∃ op page, r.fields = [op, page] ∧ operation op.raw = some .read ∧ c = .read c.whichPage) ∨
    ∃ op msg page, r.fields = [op, msg, page] ∧ operation op.raw = some .write ∧
      c = .write msg.raw c.whichPage

/-- Every field is one whole line, and pages are accessed just as the line given as page
number says, if it is one. -/
structure Round.WellRead (maxPage : Int) (r : Round n) : Prop where
  whole : ∀ f ∈ r.fields, f.raw = f.line
  accepted : ∀ f ∈ r.pageField, ∀ k, Decimal f.line k → -1 ≤ k → k < maxPage →
    r.accessed.map Fin.val = if k = -1 then List.range n else [k.toNat]
  refused : (∀ f ∈ r.pageField, ¬ ∃ k, Decimal f.line k ∧ -1 ≤ k ∧ k < maxPage) → r.accessed = []

/-- What is read after these bytes, unless the program ends. -/
def Entry.next (entry : Entry) (raw : List UInt8) : Option Entry :=
  match entry with
  | .op =>
    match operation raw with
    | some .read => some .whichPage
    | some .write => some .msg
    | some .view | none => some .op
  | .msg => some .whichPage
  | .whichPage => if (strtol (cstring raw)).isSome then some .op else none

/-- The first field starts the text, and each of the others starts where the one before it
ended, until the program ends or `fgets` returns NULL. -/
def Reads (pageSize : Nat) : Option Entry → List UInt8 → List Field → Prop
  | none, _, fields => fields = []
  | some entry, text, [] => fgetsNull (entry.size pageSize) text = true
  | some entry, text, f :: fields =>
    f = ⟨entry, entry.size pageSize, text⟩ ∧ fgetsNull f.size text = false ∧
      Reads pageSize (entry.next f.raw) f.rest fields

/-- The number at the start of a line, stored in an `int`, is that of a page or -1. -/
def Names (n : Nat) (line : List UInt8) : Prop :=
  (strtol (cstring line)).isSome ∧ 0 < n ∧
    -1 ≤ (numberAt (cstring line)).bmod (2 ^ 32) ∧ (numberAt (cstring line)).bmod (2 ^ 32) < n

/-- The line is the number of a page or -1, or names no page. -/
def Unmistaken (maxPage : BitVec 32) (line : List UInt8) : Prop :=
  (∃ k, Decimal line k ∧ -1 ≤ k ∧ k < maxPage.toInt) ∨ ¬ Names (numPages maxPage) line

/-- Taken one after the other for what comes next, all lines fit their buffers, and those that
are given as page numbers are such numbers or name no page. -/
def Clear (pageSize : Nat) (maxPage : BitVec 32) : Option Entry → List (List UInt8) → Prop
  | none, _ | some _, [] => True
  | some entry, line :: rest => entry.size pageSize ≠ 0 →
    line.length ≤ entry.size pageSize - 1 ∧ (entry = .whichPage → Unmistaken maxPage line) ∧
      Clear pageSize maxPage (entry.next line) rest

theorem strtol_narrow (parsed : strtol s = some long) :
    (long.setWidth 32).toInt = (numberAt s).bmod (2 ^ 32) := by
  unfold strtol at parsed
  split at parsed
  · cases parsed
    have same : (BitVec.ofInt 64 (numberAt s)).toInt = numberAt s := by
      rw [BitVec.toInt_ofInt]
      apply Int.bmod_eq_of_le_mul_two <;> omega
    rw [toInt_narrow, same]
  · cases parsed

section
variable {maxPage : BitVec 32}

/-- The pages that a number in an `int` stands for, none if it is refused. -/
def checked (maxPage whichPage : BitVec 32) : List (Fin (numPages maxPage)) :=
  ((checkPage maxPage whichPage).map fun p => (Command.read p).pages).getD []

theorem toInt_minusOne : (-1 : BitVec 32).toInt = -1 := rfl

theorem refused_iff {whichPage : BitVec 32} : (whichPage.slt (-1) ∨ maxPage.sle whichPage) ↔
    ¬ (-1 ≤ whichPage.toInt ∧ whichPage.toInt < maxPage.toInt) := by
  rw [BitVec.slt_eq_decide, BitVec.sle_eq_decide, decide_eq_true_eq, decide_eq_true_eq,
    toInt_minusOne]
  omega

theorem checked_val {whichPage : BitVec 32}
    (valid : -1 ≤ whichPage.toInt ∧ whichPage.toInt < maxPage.toInt) :
    (checked maxPage whichPage).map Fin.val =
      if whichPage.toInt = -1 then List.range (numPages maxPage) else [whichPage.toInt.toNat] := by
  rw [checked, checkPage, dif_pos (refused_iff.not.mpr (not_not.mpr valid))]
  by_cases all : whichPage = -1
  · rw [dif_neg (not_not.mpr all), all, toInt_minusOne, if_pos rfl]
    exact List.map_coe_finRange_eq_range
  · have other : whichPage.toInt ≠ -1 := fun same => all (BitVec.eq_of_toInt_eq same)
    rw [dif_pos all, if_neg other]
    rfl

theorem checked_refused {whichPage : BitVec 32}
    (refused : ¬ (-1 ≤ whichPage.toInt ∧ whichPage.toInt < maxPage.toInt)) :
    checked maxPage whichPage = [] := by
  rw [checked, checkPage, dif_neg (not_not.mpr (refused_iff.mpr refused))]
  rfl

theorem checked_eq_nil_iff (whichPage : BitVec 32) : checked maxPage whichPage = [] ↔
    ¬ (0 < numPages maxPage ∧ -1 ≤ whichPage.toInt ∧ whichPage.toInt < numPages maxPage) := by
  have size : numPages maxPage = maxPage.toInt.toNat := rfl
  by_cases valid : -1 ≤ whichPage.toInt ∧ whichPage.toInt < maxPage.toInt
  · rw [← List.map_eq_nil_iff (f := Fin.val), checked_val valid]
    split
    · rw [List.range_eq_nil]
      omega
    · apply iff_of_false (List.cons_ne_nil _ _)
      omega
  · apply iff_of_true (checked_refused valid)
    omega

/-- The pages that are accessed for a page line. -/
def pagesFor (maxPage : BitVec 32) (line : List UInt8) : List (Fin (numPages maxPage)) :=
  match strtol (cstring line) with
  | none => []
  | some long => checked maxPage (long.setWidth 32)

theorem pagesFor_decimal (decimal : Decimal line k) (least : -1 ≤ k) (most : k < maxPage.toInt) :
    (pagesFor maxPage line).map Fin.val =
      if k = -1 then List.range (numPages maxPage) else [k.toNat] := by
  have number := decimal.numberAt
  have small := BitVec.toInt_lt (x := maxPage)
  have fits : strtol (cstring line) = some (.ofInt 64 k) := by
    rw [strtol, number]
    exact if_pos (by omega)
  have narrow := strtol_narrow fits
  rw [number, bmod_of_fits (by omega) (by omega)] at narrow
  rw [pagesFor, fits, checked_val (by omega), narrow]

theorem pagesFor_eq_nil_iff (line : List UInt8) :
    pagesFor maxPage line = [] ↔ ¬ Names (numPages maxPage) line := by
  rw [pagesFor, Names]
  cases parsed : strtol (cstring line) with
  | none => simp
  | some long =>
    simp only [checked_eq_nil_iff, strtol_narrow parsed, Option.isSome_some, true_and]

theorem Field.raw_eq_line_iff (f : Field) : f.raw = f.line ↔ f.line.length ≤ f.size - 1 :=
  fgets_eq_firstLine_iff f.size f.stdin

/-- What a field must be for its turn to be well read. -/
structure Field.Clear (maxPage : BitVec 32) (f : Field) : Prop where
  fits : f.line.length ≤ f.size - 1
  number : f.entry = .whichPage → Unmistaken maxPage f.line

/-- The fields before the page number, the command they ask for, and what is left to read. -/
inductive Asks (pageSize : Nat) (stdin : List UInt8) :
    List Field → (Option (Fin n) → Command n) → List UInt8 → Prop where
  | read (op : Field) : op = ⟨.op, maxSize, stdin⟩ → operation op.raw = some .read →
      Asks pageSize stdin [op] .read op.rest
  | write (op msg : Field) : op = ⟨.op, maxSize, stdin⟩ → operation op.raw = some .write →
      msg = ⟨.msg, pageSize, op.rest⟩ → fgetsNull pageSize op.rest = false →
      Asks pageSize stdin [op, msg] (.write msg.raw) msg.rest

/-- All that a turn can come to. -/
inductive Takes (pageSize : Nat) (maxPage : BitVec 32) (stdin : List UInt8) :
    Round (numPages maxPage) → Prop where
  | ended : fgetsNull maxSize stdin = true → Takes pageSize maxPage stdin ⟨[], none, none⟩
  | other (op : Field) : fgetsNull maxSize stdin = false → op = ⟨.op, maxSize, stdin⟩ →
      op.entry.next op.raw = some .op → Takes pageSize maxPage stdin ⟨[op], none, some op.rest⟩
  | unsaid (op : Field) : fgetsNull maxSize stdin = false → op = ⟨.op, maxSize, stdin⟩ →
      operation op.raw = some .write → fgetsNull pageSize op.rest = true →
      Takes pageSize maxPage stdin ⟨[op], none, none⟩
  | unnumbered : fgetsNull maxSize stdin = false → Asks pageSize stdin fields command later →
      fgetsNull maxSize later = true → Takes pageSize maxPage stdin ⟨fields, none, none⟩
  | failed (page : Field) : fgetsNull maxSize stdin = false →
      Asks pageSize stdin fields command later → fgetsNull maxSize later = false →
      page = ⟨.whichPage, maxSize, later⟩ → strtol (cstring page.raw) = none →
      Takes pageSize maxPage stdin ⟨fields ++ [page], none, none⟩
  | numbered (page : Field) : fgetsNull maxSize stdin = false →
      Asks pageSize stdin fields command later → fgetsNull maxSize later = false →
      page = ⟨.whichPage, maxSize, later⟩ → strtol (cstring page.raw) = some long →
      Takes pageSize maxPage stdin ⟨fields ++ [page],
        (checkPage maxPage (long.setWidth 32)).map command, some page.rest⟩

theorem readPage_takes {pageSize : Nat} {stdin : List UInt8}
    (more : fgetsNull maxSize stdin = false) (asks : Asks pageSize stdin fields command later) :
    Takes pageSize maxPage stdin (readPage maxPage fields command later) := by
  rw [readPage]
  split
  · rename_i ended
    exact .unnumbered more asks ended
  · rename_i there
    have there := Bool.eq_false_of_not_eq_true there
    cases parsed : strtol (cstring (Field.raw ⟨.whichPage, maxSize, later⟩)) with
    | none =>
      simp only [parsed]
      exact .failed _ more asks there rfl parsed
    | some value =>
      simp only [parsed]
      exact .numbered _ more asks there rfl parsed

theorem readCommand_takes (pageSize : Nat) (maxPage : BitVec 32) (stdin : List UInt8) :
    Takes pageSize maxPage stdin (readCommand pageSize maxPage stdin) := by
  rw [readCommand]
  split
  · rename_i ended
    exact .ended ended
  · rename_i more
    have more := Bool.eq_false_of_not_eq_true more
    cases told : operation (Field.raw ⟨.op, maxSize, stdin⟩) with
    | none =>
      simp only [told]
      exact .other _ more rfl (by simp only [Entry.next, told])
    | some operation =>
      cases operation with
      | view =>
        simp only [told]
        exact .other _ more rfl (by simp only [Entry.next, told])
      | read =>
        simp only [told]
        exact readPage_takes more (.read _ rfl told)
      | write =>
        simp only [told]
        split
        · rename_i ended
          exact .unsaid _ more rfl told ended
        · rename_i there
          exact readPage_takes more (.write _ _ rfl told rfl (Bool.eq_false_of_not_eq_true there))

theorem Asks.no_page {pageSize : Nat} {stdin : List UInt8}
    (asks : Asks pageSize stdin fields command later) : ∀ f ∈ fields, f.entry ≠ .whichPage := by
  cases asks with
  | read op same => simp [same]
  | write op msg same _ same' => simp [same, same']

theorem Asks.pages {n : Nat} {command : Option (Fin n) → Command n}
    (asks : Asks pageSize stdin fields command later) (p : Option (Fin n)) :
    (command p).pages = (Command.read p).pages := by
  cases asks with
  | read => rfl
  | write => rfl

theorem Takes.accessed (takes : Takes pageSize maxPage stdin r) :
    r.accessed = [] ∧ (∀ f ∈ r.fields, f.entry ≠ .whichPage) ∨
    ∃ fields page, r.fields = fields ++ [page] ∧ (∀ f ∈ fields, f.entry ≠ .whichPage) ∧
      page.entry = .whichPage ∧ r.accessed = pagesFor maxPage page.raw := by
  cases takes with
  | ended => exact .inl ⟨rfl, by simp⟩
  | other op _ same => exact .inl ⟨rfl, by simp [same]⟩
  | unsaid op _ same => exact .inl ⟨rfl, by simp [same]⟩
  | unnumbered _ asks => exact .inl ⟨rfl, asks.no_page⟩
  | failed page _ asks _ same parsed =>
    refine .inr ⟨_, page, rfl, asks.no_page, by rw [same], ?_⟩
    rw [pagesFor, parsed]
    rfl
  | numbered page _ asks _ same parsed =>
    refine .inr ⟨_, page, rfl, asks.no_page, by rw [same], ?_⟩
    rw [pagesFor, parsed]
    simp only [Round.accessed, checked, Option.map_map, Function.comp_def, asks.pages]

theorem Asks.order {pageSize : Nat} {stdin : List UInt8}
    (asks : Asks pageSize stdin fields command later) :
    fields.map Field.entry ++ [.whichPage] = [.op, .whichPage] ∨
      fields.map Field.entry ++ [.whichPage] = [.op, .msg, .whichPage] := by
  cases asks with
  | read op same =>
    left
    simp [same]
  | write op msg same _ same' =>
    right
    simp [same, same']

theorem Round.Told.of_order {r : Round n} (later : List Entry) (nothing : r.command = none)
    (order : r.fields.map Field.entry ++ later = [.op, .whichPage] ∨
      r.fields.map Field.entry ++ later = [.op, .msg, .whichPage]) : r.Told := by
  constructor
  case order => exact order.imp (⟨later, ·⟩) (⟨later, ·⟩)
  case command =>
    intro c told
    cases nothing.symm.trans told

theorem Takes.told (takes : Takes pageSize maxPage stdin r) : r.Told := by
  cases takes with
  | ended => exact .of_order [.op, .whichPage] rfl (.inl rfl)
  | other op _ same =>
    refine .of_order [.whichPage] rfl (.inl ?_)
    rw [same]
    rfl
  | unsaid op _ same =>
    refine .of_order [.whichPage] rfl (.inl ?_)
    rw [same]
    rfl
  | unnumbered _ asks => exact .of_order [.whichPage] rfl asks.order
  | failed page _ asks _ same =>
    refine .of_order [] rfl ?_
    rw [List.append_nil, List.map_append, same]
    exact asks.order
  | numbered page _ asks _ same =>
    constructor
    case order =>
      rw [List.map_append, same]
      rcases asks.order with order | order
      · left
        exact ⟨[], (List.append_nil _).trans order⟩
      · right
        exact ⟨[], (List.append_nil _).trans order⟩
    case command =>
      intro c told
      obtain ⟨p, _, rfl⟩ := Option.map_eq_some_iff.mp told
      cases asks with
      | read op _ reads => exact .inl ⟨op, page, rfl, reads, rfl⟩
      | write op msg _ writes => exact .inr ⟨op, msg, page, rfl, writes, rfl⟩

theorem Field.length_rest_le (f : Field) : f.rest.length ≤ f.stdin.length := by
  rw [Field.rest, List.length_drop]
  exact Nat.sub_le _ _

theorem Field.length_rest_lt (f : Field) (size : f.size = maxSize)
    (more : fgetsNull maxSize f.stdin = false) : f.rest.length < f.stdin.length := by
  obtain ⟨entry, _, stdin⟩ := f
  obtain rfl := size
  cases stdin with
  | nil => cases more
  | cons b stdin =>
    rw [Field.rest, List.length_drop, Field.raw, maxSize, fgets]
    split
    · simp
    · simp only [List.length_cons]
      omega

theorem Asks.length_le {pageSize : Nat} {stdin : List UInt8}
    (asks : Asks pageSize stdin fields command later) (more : fgetsNull maxSize stdin = false) :
    later.length < stdin.length := by
  cases asks with
  | read op same =>
    subst same
    exact Field.length_rest_lt _ rfl more
  | write op msg same _ same' =>
    subst same'
    subst same
    exact (Field.length_rest_le _).trans_lt (Field.length_rest_lt _ rfl more)

theorem Takes.length_rest_lt (takes : Takes pageSize maxPage stdin r) :
    ∀ rest ∈ r.rest, rest.length < stdin.length := by
  rintro rest goesOn
  cases takes with
  | other op more same =>
    cases goesOn
    subst same
    exact Field.length_rest_lt _ rfl more
  | numbered page more asks _ same =>
    cases goesOn
    subst same
    exact (Field.length_rest_le _).trans_lt (asks.length_le more)
  | _ => cases goesOn

theorem length_rest_lt {pageSize : Nat} {stdin rest : List UInt8}
    (goesOn : (readCommand pageSize maxPage stdin).rest = some rest) :
    rest.length < stdin.length :=
  (readCommand_takes pageSize maxPage stdin).length_rest_lt rest goesOn

theorem Takes.rest_of_command (takes : Takes pageSize maxPage stdin r)
    (told : r.command = some c) : r.rest ≠ none := by
  cases takes with
  | numbered => exact Option.some_ne_none _
  | _ => cases told

theorem rest_of_command {pageSize : Nat} {stdin : List UInt8}
    (told : (readCommand pageSize maxPage stdin).command = some c) :
    (readCommand pageSize maxPage stdin).rest ≠ none :=
  (readCommand_takes pageSize maxPage stdin).rest_of_command told

theorem Asks.reads {pageSize : Nat} {stdin : List UInt8}
    (asks : Asks pageSize stdin fields command later) (more : fgetsNull maxSize stdin = false)
    (goesOn : Reads pageSize (some .whichPage) later others) :
    Reads pageSize (some .op) stdin (fields ++ others) := by
  cases asks with
  | read op same told =>
    subst same
    refine ⟨rfl, more, ?_⟩
    simp only [Entry.next, told]
    exact goesOn
  | write op msg same told same' there =>
    subst same'
    subst same
    refine ⟨rfl, more, ?_⟩
    simp only [Entry.next, told]
    exact ⟨rfl, there, goesOn⟩

/-- A turn reads on from where it begins, and the next one from where it ends. -/
theorem Takes.reads (takes : Takes pageSize maxPage stdin r)
    (goesOn : ∀ rest ∈ r.rest, Reads pageSize (some .op) rest others)
    (ends : r.rest = none → others = []) :
    Reads pageSize (some .op) stdin (r.fields ++ others) := by
  cases takes with
  | ended null =>
    rw [ends rfl]
    exact null
  | other op more same next =>
    subst same
    refine ⟨rfl, more, ?_⟩
    rw [next]
    exact goesOn _ rfl
  | unsaid op more same told null =>
    subst same
    rw [ends rfl]
    refine ⟨rfl, more, ?_⟩
    simp only [Entry.next, told]
    exact null
  | unnumbered more asks null =>
    rw [ends rfl]
    exact asks.reads more null
  | failed page more asks there same parsed =>
    rw [ends rfl, List.append_assoc]
    refine asks.reads more ⟨same, same ▸ there, ?_⟩
    rw [same] at parsed ⊢
    simp [Entry.next, parsed, Reads]
  | numbered page more asks there same parsed =>
    rw [List.append_assoc]
    refine asks.reads more ⟨same, same ▸ there, ?_⟩
    have next : page.entry.next page.raw = some .op := by
      rw [same] at parsed ⊢
      simp [Entry.next, parsed]
    rw [← show page.entry = Entry.whichPage by rw [same], next]
    exact goesOn _ rfl

theorem rounds_reads {fuel : Nat} (pageSize : Nat) (maxPage : BitVec 32)
    (enough : stdin.length < fuel) : Reads pageSize (some .op) stdin
      ((rounds pageSize maxPage fuel stdin).flatMap Round.fields) := by
  induction fuel generalizing stdin with
  | zero => cases enough
  | succ fuel ih =>
    have takes := readCommand_takes pageSize maxPage stdin
    rw [rounds]
    cases goesOn : (readCommand pageSize maxPage stdin).rest with
    | none =>
      have last : Reads pageSize (some .op) stdin
          ((readCommand pageSize maxPage stdin).fields ++ []) := by
        refine takes.reads ?_ fun _ => rfl
        rw [goesOn]
        intro rest none
        cases none
      exact last
    | some rest =>
      have shorter := length_rest_lt goesOn
      refine takes.reads ?_ ?_
      · rw [goesOn]
        rintro _ ⟨⟩
        exact ih (by omega)
      · rw [goesOn]
        intro none
        cases none

theorem Entry.ne_zero_of_more {entry : Entry}
    (more : fgetsNull (entry.size pageSize) text = false) : entry.size pageSize ≠ 0 := by
  intro zero
  rw [zero] at more
  cases more

theorem Field.clear_of_empty {entry : Entry} (more : fgetsNull (entry.size pageSize) [] = false) :
    (⟨entry, entry.size pageSize, []⟩ : Field).Clear maxPage := by
  refine ⟨Nat.zero_le _, fun number => ?_⟩
  obtain rfl := number
  cases more

/-- Read one after the other, the fields are as they must be just when the lines are. -/
theorem Reads.clear_iff (reads : Reads pageSize next text fields) :
    (∀ f ∈ fields, f.Clear maxPage) ↔ Clear pageSize maxPage next (lines text) := by
  induction fields generalizing next text with
  | nil =>
    apply iff_of_true
    · intro f mem
      cases mem
    cases next with
    | none => simp only [Clear]
    | some entry =>
      cases text with
      | nil => trivial
      | cons b rest =>
        rw [lines_cons]
        intro some_
        have null : fgetsNull (entry.size pageSize) (b :: rest) = true := reads
        simp [fgetsNull, some_] at null
  | cons f fields ih =>
    cases next with
    | none => cases reads
    | some entry =>
      obtain ⟨rfl, more, later⟩ := reads
      rw [List.forall_mem_cons, ih later]
      cases text with
      | nil =>
        refine iff_of_true ⟨Field.clear_of_empty more, ?_⟩ trivial
        rw [Field.rest, List.drop_nil]
        cases entry.next _ <;> trivial
      | cons b rest =>
        rw [lines_cons]
        have whole := Field.raw_eq_line_iff ⟨entry, entry.size pageSize, b :: rest⟩
        constructor
        · rintro ⟨clear, others⟩ _
          rw [Field.rest, whole.mpr clear.fits] at others
          exact ⟨clear.fits, clear.number, others⟩
        · intro clear
          obtain ⟨fits, number, others⟩ := clear (Entry.ne_zero_of_more more)
          rw [Field.rest, whole.mpr fits]
          exact ⟨⟨fits, number⟩, others⟩

theorem Round.pageField_eq_none {r : Round n} (others : ∀ f ∈ r.fields, f.entry ≠ .whichPage) :
    r.pageField = none := by
  apply List.find?_eq_none.mpr
  simpa using others

theorem Round.pageField_eq_some {r : Round n} {early : List Field}
    (split : r.fields = early ++ [page]) (others : ∀ f ∈ early, f.entry ≠ .whichPage)
    (given : page.entry = .whichPage) : r.pageField = some page := by
  have none : early.find? (·.entry = .whichPage) = none := by
    apply List.find?_eq_none.mpr
    simpa using others
  rw [pageField, split, List.find?_append, none]
  simp [given]

/-- Fields that are whole lines are accepted just as the page line says, or it names no page. -/
theorem Takes.wellRead_iff (takes : Takes pageSize maxPage stdin r) :
    r.WellRead maxPage.toInt ↔ ∀ f ∈ r.fields, f.Clear maxPage := by
  rcases takes.accessed with ⟨nothing, others⟩ | ⟨fields, page, split, others, given, accessed⟩
  · have unknown := Round.pageField_eq_none others
    constructor
    · intro well f mem
      exact ⟨f.raw_eq_line_iff.mp (well.whole f mem), fun given => (others f mem given).elim⟩
    · intro clear
      constructor
      case whole =>
        intro f mem
        exact f.raw_eq_line_iff.mpr (clear f mem).fits
      case accepted =>
        intro f known
        rw [unknown] at known
        cases known
      case refused =>
        intro _
        exact nothing
  · have known := Round.pageField_eq_some split others given
    have there : page ∈ r.fields := by simp [split]
    constructor
    · intro well f mem
      refine ⟨f.raw_eq_line_iff.mp (well.whole f mem), fun given => ?_⟩
      obtain rfl : f = page := by
        rw [split, List.mem_append, List.mem_singleton] at mem
        exact mem.resolve_left fun before => others f before given
      by_cases number : ∃ k, Decimal f.line k ∧ -1 ≤ k ∧ k < maxPage.toInt
      · exact .inl number
      · right
        have nothing : r.accessed = [] := by
          apply well.refused
          intro g mem
          obtain rfl : f = g := Option.some.inj (known.symm.trans mem)
          exact number
        rw [accessed, well.whole f there] at nothing
        exact (pagesFor_eq_nil_iff f.line).mp nothing
    · intro clear
      have whole : ∀ f ∈ r.fields, f.raw = f.line :=
        fun f mem => f.raw_eq_line_iff.mpr (clear f mem).fits
      rw [whole page there] at accessed
      constructor
      case whole => exact whole
      case accepted =>
        intro f mem k decimal least most
        obtain rfl : page = f := Option.some.inj (known.symm.trans mem)
        rw [accessed]
        exact pagesFor_decimal decimal least most
      case refused =>
        intro other
        rw [accessed, pagesFor_eq_nil_iff]
        exact ((clear page there).number given).resolve_left (other page known)

theorem mem_rounds (mem : r ∈ rounds pageSize maxPage fuel stdin) :
    ∃ input, Takes pageSize maxPage input r := by
  induction fuel generalizing stdin with
  | zero => cases mem
  | succ fuel ih =>
    rw [rounds] at mem
    split at mem
    · rw [List.mem_singleton] at mem
      exact ⟨stdin, mem ▸ readCommand_takes pageSize maxPage stdin⟩
    · cases List.mem_cons.mp mem with
      | inl here => exact ⟨stdin, here ▸ readCommand_takes pageSize maxPage stdin⟩
      | inr later => exact ih later

theorem rounds_end (enough : stdin.length < fuel) :
    ∃ last, (rounds pageSize maxPage fuel stdin).getLast? = some last ∧ last.rest = none := by
  induction fuel generalizing stdin with
  | zero => cases enough
  | succ fuel ih =>
    rw [rounds]
    split
    · rename_i ended
      exact ⟨_, rfl, ended⟩
    · rename_i rest goesOn
      have shorter := length_rest_lt goesOn
      have left : rest.length < fuel := by omega
      obtain ⟨last, known, ended⟩ := ih left
      exact ⟨last, by rw [List.getLast?_cons, known]; rfl, ended⟩

end

theorem Round.performed (pageSize : Nat) (r : Round n) : r.Performed pageSize := by
  intro x es y begun run
  obtain ⟨accessed, visits⟩ := Process.accessed_remaining run
  have set : x.main.remaining = r.accessed ∧ x.main.visits = r.accessed := by
    rw [begun, Round.start, Round.accessed]
    cases r.command <;> exact ⟨rfl, rfl⟩
  exact ⟨accessed.trans set.1, Process.confined_of_visits (set.2 ▸ visits)⟩

/-- On every text the loop comes to an end; what it reads are pieces of the text, one after
the other, and what it does to the pages is what its turns are told. All turns read their
fields as the lines they are just when, line by line, the text fits the buffers and has no
line for a page number that is none but has one at its start. -/
theorem well_read_iff_clear (pageSize : Nat) (maxPage : BitVec 32) (stdin : List UInt8) :
    (∃ last, (commandLoop pageSize maxPage stdin).getLast? = some last ∧ last.rest = none) ∧
    Reads pageSize (some .op) stdin ((commandLoop pageSize maxPage stdin).flatMap Round.fields) ∧
    (∀ r ∈ commandLoop pageSize maxPage stdin, r.Told ∧ r.Performed pageSize) ∧
    ((∀ r ∈ commandLoop pageSize maxPage stdin, r.WellRead maxPage.toInt) ↔
      Clear pageSize maxPage (some .op) (lines stdin)) := by
  have reads := rounds_reads pageSize maxPage (Nat.lt_succ_self stdin.length)
  refine ⟨rounds_end (Nat.lt_succ_self _), reads, fun r mem => ?_, ?_⟩
  · obtain ⟨input, takes⟩ := mem_rounds mem
    exact ⟨takes.told, r.performed pageSize⟩
  · rw [← reads.clear_iff, List.forall_mem_flatMap]
    apply forall₂_congr
    intro r mem
    obtain ⟨input, takes⟩ := mem_rounds mem
    exact takes.wellRead_iff

/-- Page 5 is read for the line "5x". -/
theorem well_read_fails :
    ¬ ∀ r ∈ commandLoop 4096 10 [114, 10, 53, 120, 10], r.WellRead (10 : BitVec 32).toInt := by
  intro well
  have mem : readCommand 4096 10 [114, 10, 53, 120, 10] ∈
      commandLoop 4096 10 [114, 10, 53, 120, 10] := List.mem_cons_self
  have page : (readCommand 4096 10 [114, 10, 53, 120, 10]).pageField =
      some ⟨.whichPage, 50, [53, 120, 10]⟩ := by decide
  have nothing := (well _ mem).refused fun f known ⟨k, decimal, _⟩ => by
    obtain rfl : (⟨.whichPage, 50, [53, 120, 10]⟩ : Field) = f :=
      Option.some.inj (page.symm.trans known)
    have letter : (120 : UInt8) ∈ Field.line ⟨.whichPage, 50, [53, 120, 10]⟩ := by decide
    exact absurd (decimal.spelled letter) (by decide)
  revert nothing
  decide

end CSE306.S2DSM
