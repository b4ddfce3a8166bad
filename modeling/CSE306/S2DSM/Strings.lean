import CSE306.S2DSM.Process

/-! What the programs are for: an array of strings, and what it answers to commands. -/
namespace CSE306.S2DSM

variable {n pageSize : Nat}

theorem cstring_zero (pageSize : Nat) : cstring (Page.zero pageSize).bytes = [] := by
  cases pageSize <;> rfl

theorem cstring_stored (pageSize : Nat) (typed : List UInt8) :
    cstring (stored pageSize typed).bytes = message pageSize typed := by
  have away : 0 ∉ message pageSize typed := fun mem => message_nonzero mem rfl
  rw [stored_bytes]
  cases pageSize - (message pageSize typed).length with
  | zero =>
    rw [List.replicate_zero, List.append_nil]
    exact cstring_self away
  | succ k => exact cstring_terminated _ _ away

/-- What the pages say, as strings. -/
abbrev Strings (n : Nat) := Fin n → List UInt8

namespace Strings

/-- A command goes through its pages, and prints what each of them says once it was there. -/
def perform (pageSize : Nat) (s : Strings n) (op : Op) :
    List (Fin n) → Strings n × List (Fin n × List UInt8)
  | [] => (s, [])
  | p :: rest =>
    let s := match op with
      | .read _ => s
      | .write typed => Function.update s p (message pageSize typed)
    let later := perform pageSize s op rest
    (later.1, (p, s p) :: later.2)

def performAll (pageSize : Nat) (s : Strings n) :
    List (Command n) → Strings n × List (Fin n × List UInt8)
  | [] => (s, [])
  | c :: cs =>
    let now := perform pageSize s c.op c.pages
    let later := performAll pageSize now.1 cs
    (later.1, now.2 ++ later.2)

theorem performAll_append (s : Strings n) (cs ds : List (Command n)) :
    performAll pageSize s (cs ++ ds) =
      ((performAll pageSize (performAll pageSize s cs).1 ds).1,
        (performAll pageSize s cs).2 ++
          (performAll pageSize (performAll pageSize s cs).1 ds).2) := by
  induction cs generalizing s with
  | nil => rfl
  | cons c cs ih => simp only [List.cons_append, performAll, ih, List.append_assoc]

theorem performAll_concat (s : Strings n) (cs : List (Command n)) (c : Command n) :
    performAll pageSize s (cs ++ [c]) =
      ((perform pageSize (performAll pageSize s cs).1 c.op c.pages).1,
        (performAll pageSize s cs).2 ++
          (perform pageSize (performAll pageSize s cs).1 c.op c.pages).2) := by
  rw [performAll_append]
  simp only [performAll, List.append_nil]

theorem perform_pages (s : Strings n) (op : Op) (pages : List (Fin n)) :
    (perform pageSize s op pages).2.map Prod.fst = pages := by
  induction pages generalizing s with
  | nil => rfl
  | cons p rest ih => exact congrArg _ (ih _)

theorem performAll_pages (pageSize : Nat) (s : Strings n) (cs : List (Command n)) :
    (performAll pageSize s cs).2.map Prod.fst = cs.flatMap Command.pages := by
  induction cs generalizing s with
  | nil => rfl
  | cons c cs ih =>
    rw [performAll, List.map_append, perform_pages, ih, List.flatMap_cons]

/-- Later commands do not change what was printed. -/
theorem performAll_prefix (s : Strings n) {cs ds : List (Command n)} (first : cs <+: ds) :
    (performAll pageSize s cs).2 <+: (performAll pageSize s ds).2 := by
  obtain ⟨later, rfl⟩ := first
  rw [performAll_append]
  exact List.prefix_append _ _

end Strings

end CSE306.S2DSM
