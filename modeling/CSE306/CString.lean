import Mathlib.Data.List.Basic
import Mathlib.Data.List.TakeDrop
import Mathlib.Data.List.TakeWhile

/-! C strings in byte buffers, and the calls that read one from the terminal. -/
namespace CSE306

def newline : UInt8 := 10

/-- The string held by a buffer: everything before its first NUL. -/
def cstring (buffer : List UInt8) : List UInt8 := buffer.takeWhile (· ≠ 0)

/-- The bytes `fgets` stores from the input: at most `size - 1`, through the
first newline. -/
def fgets : Nat → List UInt8 → List UInt8
  | size + 2, b :: rest => if b = newline then [b] else b :: fgets (size + 1) rest
  | _, _ => []

/-- `msg[strcspn(msg, "\n")] = 0`, seen as a string. -/
def chomp (buffer : List UInt8) : List UInt8 := (cstring buffer).takeWhile (· ≠ newline)

/-- The next line of the input, with its newline if there is one. -/
def firstLine : List UInt8 → List UInt8
  | [] => []
  | b :: rest => if b = newline then [b] else b :: firstLine rest

/-- `fgets` cuts the line at the size of its buffer. -/
theorem fgets_eq_take (size : Nat) (input : List UInt8) :
    fgets size input = (firstLine input).take (size - 1) := by
  induction size, input using fgets.induct with
  | case1 size rest => simp [fgets, firstLine, newline]
  | case2 size b rest other ih =>
    rw [fgets, firstLine, if_neg other, if_neg other, ih]
    rfl
  | case3 size input short =>
    rcases size with _ | _ | size
    · simp [fgets]
    · simp [fgets]
    · cases input with
      | nil => rfl
      | cons b rest => exact (short size b rest rfl rfl).elim

theorem fgets_eq_firstLine_iff (size : Nat) (input : List UInt8) :
    fgets size input = firstLine input ↔ (firstLine input).length ≤ size - 1 := by
  rw [fgets_eq_take, List.take_eq_self_iff]

/-- The lines of a text, each with the newline that ends it. -/
def lines : List UInt8 → List (List UInt8)
  | [] => []
  | b :: rest =>
    if b = newline then [b] :: lines rest
    else
      match lines rest with
      | [] => [[b]]
      | line :: later => (b :: line) :: later

theorem lines_cons (b : UInt8) (rest : List UInt8) : lines (b :: rest) =
    firstLine (b :: rest) :: lines ((b :: rest).drop (firstLine (b :: rest)).length) := by
  induction rest generalizing b with
  | nil => by_cases ends : b = newline <;> simp [lines, firstLine, ends]
  | cons c rest ih =>
    rw [lines, firstLine]
    by_cases ends : b = newline
    · simp [ends]
    · rw [if_neg ends, if_neg ends, ih c]
      rfl

theorem cstring_self {text : List UInt8} (nonzero : 0 ∉ text) : cstring text = text := by
  apply List.takeWhile_eq_self_iff.mpr
  intro b mem
  simp only [decide_eq_true_eq]
  exact fun zero => nonzero (zero ▸ mem)

theorem cstring_terminated (text junk : List UInt8) (terminated : 0 ∉ text) :
    cstring (text ++ 0 :: junk) = text := by
  have kept : (text.takeWhile (· ≠ 0)).length = text.length :=
    congrArg List.length (cstring_self terminated)
  rw [cstring, List.takeWhile_append, if_pos kept, List.takeWhile_cons_of_neg (by simp),
    List.append_nil]

end CSE306
