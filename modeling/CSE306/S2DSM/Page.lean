import CSE306.CString

/-! Page contents, and how a message read from the terminal is copied into a page. -/
namespace CSE306.S2DSM

/-- The `pageSize` bytes of one page. -/
structure Page (pageSize : Nat) where
  bytes : List UInt8
  size : bytes.length = pageSize
  deriving DecidableEq

/-- `strncpy` of a string onto a whole page, padding with NUL bytes. -/
def strncpy (pageSize : Nat) (src : List UInt8) : Page pageSize :=
  ⟨(cstring src).take pageSize ++ List.replicate (pageSize - (cstring src).length) 0, by
    simp only [List.length_append, List.length_take, List.length_replicate]
    omega⟩

/-- The freshly cleared page (`memset`, or an anonymous page before any store). -/
def Page.zero (pageSize : Nat) : Page pageSize :=
  ⟨List.replicate pageSize 0, List.length_replicate⟩

/-- What a line typed at the message prompt leaves in a page it is written to. -/
def stored (pageSize : Nat) (typed : List UInt8) : Page pageSize :=
  strncpy pageSize (chomp (fgets pageSize typed))

/-- The message in a typed line: at most `pageSize - 1` bytes, before its first
newline or NUL. -/
def message (pageSize : Nat) (typed : List UInt8) : List UInt8 :=
  (typed.take (pageSize - 1)).takeWhile (fun b => b ≠ newline ∧ b ≠ 0)

theorem chomp_fgets (pageSize : Nat) (typed : List UInt8) :
    chomp (fgets pageSize typed) = message pageSize typed := by
  simp only [chomp, cstring, message, List.takeWhile_takeWhile, decide_eq_true_eq]
  induction pageSize, typed using fgets.induct with
  | case1 size rest => simp [fgets, newline]
  | case2 size b rest other ih =>
    simp only [Nat.add_sub_cancel] at ih
    simp only [fgets, if_neg other, List.take_succ_cons, List.takeWhile_cons, ih,
      show size + 2 - 1 = size + 1 from rfl]
  | case3 size typed short =>
    rcases size with _ | _ | size
    · simp [fgets]
    · simp [fgets]
    · cases typed with
      | nil => simp [fgets]
      | cons b rest => exact (short size b rest rfl rfl).elim

theorem message_length (pageSize : Nat) (typed : List UInt8) :
    (message pageSize typed).length ≤ pageSize - 1 := by
  have cut := (List.takeWhile_prefix (fun b => decide (b ≠ newline ∧ b ≠ 0))
    (l := typed.take (pageSize - 1))).length_le
  have most := List.length_take_le (pageSize - 1) typed
  exact cut.trans most

theorem message_nonzero (mem : b ∈ message pageSize typed) : b ≠ 0 := by
  have kept := List.mem_takeWhile_imp mem
  simp only [decide_eq_true_eq] at kept
  exact kept.2

theorem cstring_message (pageSize : Nat) (typed : List UInt8) :
    cstring (message pageSize typed) = message pageSize typed :=
  List.takeWhile_eq_self_iff.mpr (fun _ mem => by simpa using message_nonzero mem)

/-- A stored page is its message, zero-padded to the page size. -/
theorem stored_bytes (pageSize : Nat) (typed : List UInt8) :
    (stored pageSize typed).bytes =
      message pageSize typed ++ List.replicate (pageSize - (message pageSize typed).length) 0 := by
  have fits := message_length pageSize typed
  simp only [stored, strncpy, chomp_fgets, cstring_message]
  rw [List.take_of_length_le (by omega)]

theorem zero_last (pageSize : Nat) (positive : 0 < pageSize) :
    (Page.zero pageSize).bytes[pageSize - 1]? = some 0 := by
  simp only [Page.zero, List.getElem?_replicate]
  exact if_pos (by omega)

theorem stored_last (pageSize : Nat) (positive : 0 < pageSize) (typed : List UInt8) :
    (stored pageSize typed).bytes[pageSize - 1]? = some 0 := by
  have fits := message_length pageSize typed
  rw [stored_bytes, List.getElem?_append_right fits, List.getElem?_replicate]
  exact if_pos (by omega)

theorem stored_ne_zero (some : message pageSize typed ≠ []) :
    stored pageSize typed ≠ Page.zero pageSize := by
  intro same
  obtain ⟨b, rest, split⟩ := List.exists_cons_of_ne_nil some
  have bytes := congrArg Page.bytes same
  rw [stored_bytes, split] at bytes
  have first : b ∈ List.replicate pageSize (0 : UInt8) := by
    change _ = List.replicate pageSize 0 at bytes
    rw [← bytes]
    simp
  have mem : b ∈ message pageSize typed := by simp [split]
  exact message_nonzero mem (List.eq_of_mem_replicate first)

end CSE306.S2DSM
