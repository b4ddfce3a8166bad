import CSE306.CString

/-! The decimal numbers that `strtol` reads. It takes the digits at the start of a string
and looks at nothing after them; a line that is a number has nothing else in it. -/
namespace CSE306.Strtol

def isspace (b : UInt8) : Bool := b.toNat = 32 ∨ 9 ≤ b.toNat ∧ b.toNat ≤ 13

def isdigit (b : UInt8) : Bool := 48 ≤ b.toNat ∧ b.toNat ≤ 57

def isblank (b : UInt8) : Bool := b.toNat = 32 ∨ b.toNat = 9

def minus : UInt8 := 45

def plus : UInt8 := 43

/-- The value of a sequence of digits. -/
def value (digits : List UInt8) : Nat := digits.foldl (fun n b => 10 * n + (b.toNat - 48)) 0

/-- Whether there is a minus sign, and what follows the sign. -/
def sign (s : List UInt8) : Bool × List UInt8 :=
  if s.head? = some minus then (true, s.tail)
  else if s.head? = some plus then (false, s.tail)
  else (false, s)

/-- The number at the start of a string: 0 where there are no digits. -/
def numberAt (s : List UInt8) : Int :=
  let (negative, s) := sign (s.dropWhile isspace)
  let digits := s.takeWhile isdigit
  if negative then -(value digits : Int) else value digits

/-- `strtol` in base 10. No result where it sets `errno`, which it does for numbers that a
`long` does not hold. -/
def strtol (s : List UInt8) : Option (BitVec 64) :=
  if -9223372036854775808 ≤ numberAt s ∧ numberAt s ≤ 9223372036854775807 then
    some (.ofInt 64 (numberAt s))
  else none

inductive Sign : List UInt8 → Bool → Prop where
  | none : Sign [] false
  | plus : Sign [plus] false
  | minus : Sign [minus] true

/-- The line as a whole is a decimal integer, with blanks around it. -/
inductive Decimal : List UInt8 → Int → Prop where
  | intro (before signs digits after ending : List UInt8) (negative : Bool) :
      (∀ b ∈ before, isblank b) → Sign signs negative → digits ≠ [] →
      (∀ b ∈ digits, isdigit b) → (∀ b ∈ after, isblank b) → ending = [] ∨ ending = [newline] →
      Decimal (before ++ (signs ++ (digits ++ (after ++ ending))))
        (if negative then -(value digits : Int) else value digits)

/-- A prefix of bytes of one kind ends at the first byte of another. -/
theorem takeWhile_run {run rest : List UInt8} {p : UInt8 → Bool} (all : ∀ b ∈ run, p b)
    (stops : ∀ b ∈ rest.head?, p b = false) : (run ++ rest).takeWhile p = run := by
  rw [List.takeWhile_append_of_pos all]
  cases rest with
  | nil => simp
  | cons b rest => simp [stops b rfl]

theorem dropWhile_run {run rest : List UInt8} {p : UInt8 → Bool} (all : ∀ b ∈ run, p b)
    (stops : ∀ b ∈ rest.head?, p b = false) : (run ++ rest).dropWhile p = rest := by
  rw [List.dropWhile_append_of_pos all]
  cases rest with
  | nil => rfl
  | cons b rest => simp [stops b rfl]

section
variable {b : UInt8}

theorem isspace_of_isblank (blank : isblank b) : isspace b := by
  simp only [isblank, isspace, decide_eq_true_eq] at *
  omega

theorem not_isspace_of_isdigit (digit : isdigit b) : isspace b = false := by
  simp only [isdigit, isspace, decide_eq_true_eq, decide_eq_false_iff_not] at *
  omega

theorem not_isdigit_of_isspace (space : isspace b) : isdigit b = false := by
  simp only [isdigit, isspace, decide_eq_true_eq, decide_eq_false_iff_not] at *
  omega

theorem ne_of_isdigit (digit : isdigit b) : b ≠ minus ∧ b ≠ plus := by
  constructor <;> rintro rfl <;> revert digit <;> decide

end

/-- What follows the digits of a line ends them. -/
theorem head?_after {after ending : List UInt8} (blank : ∀ b ∈ after, isblank b)
    (ends : ending = [] ∨ ending = [newline]) :
    ∀ b ∈ (after ++ ending).head?, isdigit b = false := by
  intro b mem
  have there := List.mem_of_head? mem
  apply not_isdigit_of_isspace
  cases List.mem_append.mp there with
  | inl here => exact isspace_of_isblank (blank b here)
  | inr here =>
    rcases ends with rfl | rfl
    · cases here
    · rw [List.mem_singleton.mp here]
      rfl

theorem Sign.sign (signed : Sign signs negative) (digits : ∀ b ∈ rest.head?, isdigit b)
    (some_ : rest ≠ []) : Strtol.sign (signs ++ rest) = (negative, rest) := by
  cases signed with
  | minus => rfl
  | plus => rfl
  | none =>
    obtain ⟨b, rest, rfl⟩ := List.exists_cons_of_ne_nil some_
    obtain ⟨notMinus, notPlus⟩ := ne_of_isdigit (digits b rfl)
    simp [Strtol.sign, notMinus, notPlus]

theorem Sign.head? (signed : Sign signs negative) (digits : ∀ b ∈ rest.head?, isdigit b) :
    ∀ b ∈ (signs ++ rest).head?, isspace b = false := by
  intro b mem
  cases signed with
  | minus =>
    cases mem
    rfl
  | plus =>
    cases mem
    rfl
  | none => exact not_isspace_of_isdigit (digits b mem)

/-- Everything in a line that is a number. -/
theorem Decimal.spelled (decimal : Decimal line k) (mem : b ∈ line) :
    isspace b ∨ isdigit b ∨ b = minus ∨ b = plus := by
  cases decimal with
  | intro before signs digits after ending negative blank signed nonempty all blank' ends =>
    simp only [List.mem_append] at mem
    rcases mem with mem | mem | mem | mem | mem
    · exact .inl (isspace_of_isblank (blank b mem))
    · right
      right
      cases signed with
      | none => cases mem
      | plus => exact .inr (List.mem_singleton.mp mem)
      | minus => exact .inl (List.mem_singleton.mp mem)
    · exact .inr (.inl (all b mem))
    · exact .inl (isspace_of_isblank (blank' b mem))
    · left
      rcases ends with rfl | rfl
      · cases mem
      · rw [List.mem_singleton.mp mem]
        rfl

theorem Decimal.nonzero (decimal : Decimal line k) : 0 ∉ line :=
  fun mem => absurd (decimal.spelled mem) (by decide)

/-- From a line that is a number `strtol` reads that number. -/
theorem Decimal.numberAt (decimal : Decimal line k) : numberAt (cstring line) = k := by
  rw [cstring_self decimal.nonzero]
  cases decimal with
  | intro before signs digits after ending negative blank signed nonempty all blank' ends =>
    have head : ∀ b ∈ (digits ++ (after ++ ending)).head?, isdigit b := by
      obtain ⟨b, rest, rfl⟩ := List.exists_cons_of_ne_nil nonempty
      intro c mem
      cases mem
      exact all b List.mem_cons_self
    have some_ : digits ++ (after ++ ending) ≠ [] := by simp [nonempty]
    rw [Strtol.numberAt, dropWhile_run (fun b mem => isspace_of_isblank (blank b mem))
      (signed.head? head), signed.sign head some_]
    simp only [takeWhile_run all (head?_after blank' ends)]

/-- A decimal integer with nothing around it but one newline at the end, as the kernel's
functions take it. -/
inductive Numeral : List UInt8 → Int → Prop where
  | intro (signs digits ending : List UInt8) (negative : Bool) : Sign signs negative →
      digits ≠ [] → (∀ b ∈ digits, isdigit b) → ending = [] ∨ ending = [newline] →
      Numeral (signs ++ (digits ++ ending))
        (if negative then -(value digits : Int) else value digits)

/-- The integer that a string is. -/
def numeral (s : List UInt8) : Option Int :=
  let (negative, s) := sign s
  let digits := s.takeWhile isdigit
  let ending := s.dropWhile isdigit
  if digits ≠ [] ∧ (ending = [] ∨ ending = [newline]) then
    some (if negative then -(value digits : Int) else value digits)
  else none

/-- What `sign` takes off is a sign. -/
theorem exists_sign (s : List UInt8) :
    ∃ signs, Sign signs (sign s).1 ∧ s = signs ++ (sign s).2 := by
  cases s with
  | nil => exact ⟨[], .none, rfl⟩
  | cons b rest =>
    by_cases negative : b = minus
    · subst negative
      exact ⟨[minus], .minus, rfl⟩
    · by_cases positive : b = plus
      · subst positive
        exact ⟨[plus], .plus, rfl⟩
      · have unsigned : sign (b :: rest) = (false, b :: rest) := by
          simp [sign, negative, positive]
        rw [unsigned]
        exact ⟨[], .none, rfl⟩

theorem Numeral.numeral (spelled : Numeral s k) : numeral s = some k := by
  cases spelled with
  | intro signs digits ending negative signed nonempty all ends =>
    have head : ∀ b ∈ (digits ++ ending).head?, isdigit b := by
      obtain ⟨b, rest, rfl⟩ := List.exists_cons_of_ne_nil nonempty
      intro c mem
      cases mem
      exact all b List.mem_cons_self
    have some_ : digits ++ ending ≠ [] := by simp [nonempty]
    have stops : ∀ b ∈ ending.head?, isdigit b = false :=
      @head?_after [] ending (fun b mem => by cases mem) ends
    rw [Strtol.numeral, signed.sign head some_]
    simp only [takeWhile_run all stops, dropWhile_run all stops]
    exact if_pos ⟨nonempty, ends⟩

/-- It is read as an integer if and only if it is one. -/
theorem numeral_iff : numeral s = some k ↔ Numeral s k := by
  constructor
  · intro known
    obtain ⟨signs, signed, whole⟩ := exists_sign s
    simp only [numeral, Option.ite_none_right_eq_some, Option.some.injEq] at known
    obtain ⟨⟨nonempty, ends⟩, rfl⟩ := known
    have spelled := Numeral.intro signs _ _ _ signed nonempty
      (fun b mem => List.mem_takeWhile_imp mem) ends
    rw [List.takeWhile_append_dropWhile, ← whole] at spelled
    exact spelled
  · exact Numeral.numeral

theorem Numeral.unique (left : Numeral s k) (right : Numeral s m) : k = m :=
  Option.some.inj (left.numeral.symm.trans right.numeral)

end CSE306.Strtol
