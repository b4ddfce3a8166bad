import CSE306.CString

/-! The system call that encrypts a string of the caller and prints it. Its loop stops at
the NUL of its copy, and so does the printing of what the loop has made. -/
namespace CSE306.Encrypt

/-- The memory of the caller, by address. Some of it cannot be read. -/
abbrev UserMemory := Nat → Option UInt8

/-- `strnlen_user`: the length with the NUL, one more than the bound if there is no NUL
within it, 0 if some byte before cannot be read. -/
def strnlenUser (m : UserMemory) : Nat → Nat → Nat
  | _, 0 => 1
  | s, n + 1 =>
    match m s with
    | none => 0
    | some b =>
      if b = 0 then 1
      else match strnlenUser m (s + 1) n with
        | 0 => 0
        | length + 1 => length + 2

/-- What `copy_from_user` copies, unless some byte cannot be read. -/
def copyFromUser (m : UserMemory) : Nat → Nat → Option (List UInt8)
  | _, 0 => some []
  | s, size + 1 => do
    let b ← m s
    let rest ← copyFromUser m (s + 1) size
    return b :: rest

/-- The loop, on what the buffer has from `ptr` on: what it leaves there, and how far `ptr`
moves. No result where `ptr` leaves the buffer. -/
def encryptLoop (key : UInt8) : List UInt8 → Option (List UInt8 × Nat)
  | [] => none
  | b :: rest =>
    if b = 0 then some (b :: rest, 0)
    else (encryptLoop key rest).map fun (rest, moved) => ((b + key) :: rest, moved + 1)

/-- What the call returns, and what it has printed. -/
structure Outcome where
  ret : Int
  printed : Option (List UInt8)
  deriving DecidableEq

def einval : Int := 22

/-- The key as a byte: a sum is stored into a `char`. -/
def keyByte (encryptionKey : BitVec 32) : UInt8 := .ofNat encryptionKey.toNat

/-- The check that the call makes first. -/
def keyInBound (encryptionKey : BitVec 32) : Bool :=
  !(encryptionKey.slt 1 || (5 : BitVec 32).slt encryptionKey)

/-- The size it measures. -/
def stringSize (pageSize : Nat) (m : UserMemory) (plaintext : Nat) : Nat :=
  strnlenUser m plaintext (32 * pageSize)

def s2Encrypt (pageSize : Nat) (m : UserMemory) (plaintext : Nat) (encryptionKey : BitVec 32)
    (kmalloc : Bool) : Option Outcome :=
  if !keyInBound encryptionKey then some ⟨einval, none⟩
  else if stringSize pageSize m plaintext = 0 then some ⟨einval, none⟩
  else if !kmalloc then some ⟨einval, none⟩
  else match copyFromUser m plaintext (stringSize pageSize m plaintext) with
    | none => some ⟨einval, none⟩
    | some buffer =>
      (encryptLoop (keyByte encryptionKey) buffer).map fun (buffer, _) =>
        ⟨0, some (cstring buffer)⟩

section
variable {m : UserMemory} {s : Nat}

/-- The bytes are in the caller's memory from an address on. -/
def Holds (m : UserMemory) : Nat → List UInt8 → Prop
  | _, [] => True
  | s, b :: rest => m s = some b ∧ Holds m (s + 1) rest

theorem copyFromUser_holds (held : Holds m s bytes) :
    copyFromUser m s bytes.length = some bytes := by
  induction bytes generalizing s with
  | nil => rfl
  | cons b bytes ih =>
    obtain ⟨here, rest⟩ := held
    simp [copyFromUser, here, ih rest]

theorem holds_copyFromUser (copied : copyFromUser m s size = some bytes) :
    Holds m s bytes ∧ bytes.length = size := by
  induction size generalizing s bytes with
  | zero =>
    cases copied
    exact ⟨trivial, rfl⟩
  | succ size ih =>
    simp only [copyFromUser, Option.bind_eq_bind, Option.bind_eq_some_iff, Option.pure_def,
      Option.some.injEq] at copied
    obtain ⟨b, here, rest, later, rfl⟩ := copied
    obtain ⟨held, count⟩ := ih later
    exact ⟨⟨here, held⟩, by rw [List.length_cons, count]⟩

theorem strnlenUser_nul (here : m s = some 0) (n : Nat) : strnlenUser m s (n + 1) = 1 := by
  rw [strnlenUser, here]
  rfl

theorem strnlenUser_byte (here : m s = some b) (nonzero : b ≠ 0) (n : Nat) :
    strnlenUser m s (n + 1) =
      if strnlenUser m (s + 1) n = 0 then 0 else strnlenUser m (s + 1) n + 1 := by
  rw [strnlenUser, here]
  simp only [if_neg nonzero]
  cases strnlenUser m (s + 1) n <;> rfl

theorem strnlenUser_string (held : Holds m s (text ++ [0])) (nonzero : 0 ∉ text)
    (short : text.length < n) : strnlenUser m s n = text.length + 1 := by
  obtain ⟨n, rfl⟩ := Nat.exists_eq_succ_of_ne_zero (Nat.ne_zero_of_lt short)
  induction text generalizing s n with
  | nil =>
    exact strnlenUser_nul held.1 n
  | cons b text ih =>
    obtain ⟨here, rest⟩ := held
    obtain ⟨other, nonzero⟩ := not_or.mp (mt List.mem_cons.mpr nonzero)
    obtain ⟨n, rfl⟩ : ∃ less, n = less + 1 := Nat.exists_eq_succ_of_ne_zero (by
      rw [List.length_cons] at short
      omega)
    have shorter : text.length < n + 1 := Nat.lt_of_succ_lt_succ short
    rw [strnlenUser_byte here (Ne.symm other), ih rest nonzero n shorter, List.length_cons]
    exact if_neg (Nat.succ_ne_zero _)

theorem strnlenUser_full (held : Holds m s bytes) (nonzero : 0 ∉ bytes) :
    strnlenUser m s bytes.length = bytes.length + 1 := by
  induction bytes generalizing s with
  | nil => rfl
  | cons b bytes ih =>
    obtain ⟨here, rest⟩ := held
    obtain ⟨other, nonzero⟩ := not_or.mp (mt List.mem_cons.mpr nonzero)
    rw [List.length_cons, strnlenUser_byte here (Ne.symm other), ih rest nonzero]
    exact if_neg (Nat.succ_ne_zero _)

/-- A NUL in what was measured is the last byte measured, and within the bound or right
after it. -/
theorem zero_mem_measured (held : Holds m s bytes) (size : bytes.length = strnlenUser m s n)
    (measured : strnlenUser m s n ≠ 0) : 0 ∈ bytes ↔ ∃ i ≤ n, m (s + i) = some 0 := by
  induction n generalizing s bytes with
  | zero =>
    obtain ⟨b, rfl⟩ := List.length_eq_one_iff.mp size
    simp only [List.mem_singleton, Nat.le_zero, exists_eq_left, Nat.add_zero, held.1,
      Option.some.injEq]
    exact eq_comm
  | succ n ih =>
    cases bytes with
    | nil => exact (measured size.symm).elim
    | cons b rest =>
      obtain ⟨here, later⟩ := held
      by_cases zero : b = 0
      · subst zero
        exact iff_of_true List.mem_cons_self ⟨0, Nat.zero_le _, here⟩
      · rw [strnlenUser_byte here zero] at size measured
        have measured' : strnlenUser m (s + 1) n ≠ 0 := fun none => measured (if_pos none)
        rw [if_neg measured', List.length_cons] at size
        have rest_ := ih later (Nat.succ.inj size) measured'
        rw [List.mem_cons, rest_]
        constructor
        · rintro (same | ⟨i, within, nul⟩)
          · exact (zero same.symm).elim
          · exact ⟨i + 1, Nat.succ_le_succ within, by rw [← nul]; congr 1; omega⟩
        · rintro ⟨i, within, nul⟩
          cases i with
          | zero => exact (zero (Option.some.inj (here.symm.trans nul))).elim
          | succ i =>
            exact .inr ⟨i, Nat.le_of_succ_le_succ within, by rw [← nul]; congr 1; omega⟩

theorem encryptLoop_text (key : UInt8) (nonzero : 0 ∉ text) (junk : List UInt8) :
    encryptLoop key (text ++ 0 :: junk) =
      some (text.map (· + key) ++ 0 :: junk, text.length) := by
  induction text with
  | nil => rfl
  | cons b text ih =>
    obtain ⟨other, nonzero⟩ := not_or.mp (mt List.mem_cons.mpr nonzero)
    simp [encryptLoop, Ne.symm other, ih nonzero]

theorem encryptLoop_none (key : UInt8) (nonzero : 0 ∉ bytes) : encryptLoop key bytes = none := by
  induction bytes with
  | nil => rfl
  | cons b bytes ih =>
    obtain ⟨other, nonzero⟩ := not_or.mp (mt List.mem_cons.mpr nonzero)
    simp [encryptLoop, Ne.symm other, ih nonzero]

end

section
variable {encryptionKey : BitVec 32} {pageSize plaintext : Nat} {m : UserMemory}

theorem keyInBound_of (least : 1 ≤ encryptionKey.toInt) (most : encryptionKey.toInt ≤ 5) :
    keyInBound encryptionKey = true := by
  have one : (1 : BitVec 32).toInt = 1 := rfl
  have five : (5 : BitVec 32).toInt = 5 := rfl
  rw [keyInBound, BitVec.slt_eq_decide, BitVec.slt_eq_decide, one, five,
    decide_eq_false (by omega), decide_eq_false (by omega)]
  rfl

theorem toNat_key (least : 1 ≤ encryptionKey.toInt) (most : encryptionKey.toInt ≤ 5) :
    1 ≤ encryptionKey.toNat ∧ encryptionKey.toNat ≤ 5 := by
  rw [BitVec.toInt_eq_toNat_cond] at least most
  split at least <;> omega

theorem add_key_eq_zero_iff (least : 1 ≤ encryptionKey.toInt) (most : encryptionKey.toInt ≤ 5)
    (b : UInt8) : b + keyByte encryptionKey = 0 ↔ b.toNat + encryptionKey.toNat = 256 := by
  obtain ⟨least, most⟩ := toNat_key least most
  have small := b.toNat_lt
  rw [← UInt8.toNat_inj, UInt8.toNat_add, keyByte, UInt8.toNat_ofNat', UInt8.toNat_zero]
  omega

theorem s2Encrypt_copied (encryptionKey : BitVec 32) (m : UserMemory) (pageSize plaintext : Nat)
    (valid : keyInBound encryptionKey = true)
    (measured : stringSize pageSize m plaintext ≠ 0)
    (copied : copyFromUser m plaintext (stringSize pageSize m plaintext) = some buffer) :
    s2Encrypt pageSize m plaintext encryptionKey true =
      (encryptLoop (keyByte encryptionKey) buffer).map fun (buffer, _) =>
        ⟨0, some (cstring buffer)⟩ := by
  simp [s2Encrypt, valid, measured, copied]

/-- The caller's memory has the text there, with its terminator. -/
def IsString (m : UserMemory) (plaintext : Nat) (text : List UInt8) : Prop :=
  Holds m plaintext (text ++ [0]) ∧ 0 ∉ text

theorem s2Encrypt_string (valid : keyInBound encryptionKey = true)
    (string : IsString m plaintext text) (short : text.length < 32 * pageSize) :
    s2Encrypt pageSize m plaintext encryptionKey true =
      some ⟨0, some (cstring (text.map (· + keyByte encryptionKey) ++ [0]))⟩ := by
  obtain ⟨held, nonzero⟩ := string
  have size : stringSize pageSize m plaintext = (text ++ [0]).length := by
    rw [stringSize, strnlenUser_string held nonzero short, List.length_append,
      List.length_singleton]
  have measured : stringSize pageSize m plaintext ≠ 0 := by simp [size]
  rw [s2Encrypt_copied encryptionKey m pageSize plaintext valid measured
    (size ▸ copyFromUser_holds held), encryptLoop_text _ nonzero, Option.map_some]

end

/-- The text is as long as the plaintext, and decrypts to it. -/
def Decryptable (key : UInt8) (text printed : List UInt8) : Prop :=
  printed.length = text.length ∧ printed.map (· - key) = text

theorem map_sub_add (key : UInt8) (text : List UInt8) :
    (text.map (· + key)).map (· - key) = text := by
  rw [List.map_map]
  exact List.map_id'' (fun b => UInt8.add_sub_cancel b key) text

theorem length_cstring_lt (zero : 0 ∈ bytes) : (cstring bytes).length < bytes.length := by
  apply Nat.lt_of_le_of_ne (List.takeWhile_prefix _).length_le
  intro same
  have whole := (List.takeWhile_prefix _).eq_of_length same
  have kept := List.takeWhile_eq_self_iff.mp whole 0 zero
  simp at kept

theorem decryptable_iff (key : UInt8) (text : List UInt8) :
    Decryptable key text (cstring (text.map (· + key) ++ [0])) ↔ ∀ b ∈ text, b + key ≠ 0 := by
  constructor
  · rintro ⟨count, _⟩ b mem zero
    have nul : (0 : UInt8) ∈ text.map (· + key) := List.mem_map.mpr ⟨b, mem, zero⟩
    have shorter := length_cstring_lt nul
    rw [cstring] at shorter count
    rw [List.takeWhile_append, if_neg (Nat.ne_of_lt shorter)] at count
    rw [List.length_map] at shorter
    exact Nat.ne_of_lt shorter count
  · intro nonzero
    have terminated : 0 ∉ text.map (· + key) := by
      rintro nul
      obtain ⟨b, mem, zero⟩ := List.mem_map.mp nul
      exact nonzero b mem zero
    rw [Decryptable, cstring_terminated _ [] terminated, List.length_map]
    exact ⟨rfl, map_sub_add key text⟩

/-- The printed text decrypts exactly if no byte of the plaintext is 256 less the key. Two
such plaintexts that print the same under one key are the same. -/
theorem printed_decrypts_iff (encryptionKey : BitVec 32) (least : 1 ≤ encryptionKey.toInt)
    (most : encryptionKey.toInt ≤ 5) (pageSize : Nat) (m : UserMemory) (plaintext : Nat)
    (text : List UInt8) (string : IsString m plaintext text)
    (short : text.length < 32 * pageSize) :
    ∃ printed, s2Encrypt pageSize m plaintext encryptionKey true = some ⟨0, some printed⟩ ∧
      (Decryptable (keyByte encryptionKey) text printed ↔
        ∀ b ∈ text, b.toNat + encryptionKey.toNat ≠ 256) ∧
      ∀ m' plaintext' text', IsString m' plaintext' text' → text'.length < 32 * pageSize →
        (∀ b ∈ text, b.toNat + encryptionKey.toNat ≠ 256) →
        (∀ b ∈ text', b.toNat + encryptionKey.toNat ≠ 256) →
        s2Encrypt pageSize m' plaintext' encryptionKey true = some ⟨0, some printed⟩ →
          text' = text := by
  have valid := keyInBound_of least most
  have exact_ : ∀ text : List UInt8, Decryptable (keyByte encryptionKey) text
      (cstring (text.map (· + keyByte encryptionKey) ++ [0])) ↔
        ∀ b ∈ text, b.toNat + encryptionKey.toNat ≠ 256 := by
    intro text
    simp only [decryptable_iff, ne_eq, add_key_eq_zero_iff least most]
  refine ⟨_, s2Encrypt_string valid string short, exact_ text, ?_⟩
  intro m' plaintext' text' string' short' clean clean' same
  rw [s2Encrypt_string valid string' short', Option.some.injEq, Outcome.mk.injEq,
    Option.some.injEq] at same
  rw [← ((exact_ text').mpr clean').2, same.2, ((exact_ text).mpr clean).2]

/-- The caller's memory with some bytes at an address, and nothing else. -/
def memoryOf (start : Nat) (bytes : List UInt8) : UserMemory :=
  fun a => if start ≤ a then bytes[a - start]? else none

theorem printed_decrypts_iff_hi : ∃ printed,
    s2Encrypt 4096 (memoryOf 4096 [104, 105, 0]) 4096 3 true = some ⟨0, some printed⟩ ∧
      Decryptable 3 [104, 105] printed := by
  obtain ⟨printed, done, exact_, _⟩ := printed_decrypts_iff 3 (by decide) (by decide) 4096
    (memoryOf 4096 [104, 105, 0]) 4096 [104, 105] ⟨⟨rfl, rfl, rfl, trivial⟩, by decide⟩ (by decide)
  exact ⟨printed, done, exact_.mpr (by simp)⟩

/-- Under the key 1 the byte 255 becomes the terminator, and two plaintexts print nothing. -/
theorem printed_decrypts_fails :
    s2Encrypt 4096 (memoryOf 4096 [255, 0]) 4096 1 true = some ⟨0, some []⟩ ∧
    s2Encrypt 4096 (memoryOf 4096 [255, 65, 0]) 4096 1 true = some ⟨0, some []⟩ ∧
    ¬ Decryptable (keyByte 1) [255] [] := by
  refine ⟨by decide, by decide, fun same => ?_⟩
  cases same.1

/-- Where the call has a copy, the loop stays inside it exactly if there is a NUL among the
first 32 pages and the byte after them. -/
theorem stays_inside_iff (encryptionKey : BitVec 32) (least : 1 ≤ encryptionKey.toInt)
    (most : encryptionKey.toInt ≤ 5) (pageSize : Nat) (m : UserMemory) (plaintext : Nat)
    (measured : stringSize pageSize m plaintext ≠ 0)
    (copied : copyFromUser m plaintext (stringSize pageSize m plaintext) = some buffer) :
    (0 ∈ buffer ∧ ∃ encrypted stop, encryptLoop (keyByte encryptionKey) buffer =
        some (encrypted, stop) ∧ stop < stringSize pageSize m plaintext ∧
        encrypted.length = stringSize pageSize m plaintext ∧
        s2Encrypt pageSize m plaintext encryptionKey true =
          some ⟨0, some (cstring encrypted)⟩) ↔
      ∃ i ≤ 32 * pageSize, m (plaintext + i) = some 0 := by
  obtain ⟨held, size⟩ := holds_copyFromUser copied
  rw [← zero_mem_measured held size measured]
  refine ⟨And.left, fun nul => ⟨nul, ?_⟩⟩
  obtain ⟨text, junk, rfl, nonzero⟩ := List.eq_append_cons_of_mem nul
  have stopped := encryptLoop_text (keyByte encryptionKey) nonzero junk
  refine ⟨_, _, stopped, ?_, ?_, ?_⟩
  · rw [← size, List.length_append, List.length_cons]
    omega
  · rw [← size, List.length_append, List.length_append, List.length_map, List.length_cons]
  · rw [s2Encrypt_copied encryptionKey m pageSize plaintext (keyInBound_of least most) measured
      copied, stopped, Option.map_some]

/-- Readable memory without a NUL, from 0 on. -/
def letters (size : Nat) : UserMemory := fun a => if a < size then some 65 else none

theorem holds_letters (fits : s + n ≤ size) : Holds (letters size) s (List.replicate n 65) := by
  induction n generalizing s with
  | zero => trivial
  | succ n ih => exact ⟨if_pos (by omega), ih (by omega)⟩

/-- With no NUL the loop leaves the buffer. The call has measured one byte more than the
bound, and takes that for the size of a string. -/
theorem letters_outside (size pageSize plaintext : Nat)
    (fits : plaintext + (32 * pageSize + 1) ≤ size) :
    stringSize pageSize (letters size) plaintext = 32 * pageSize + 1 ∧
    copyFromUser (letters size) plaintext (32 * pageSize + 1) =
      some (List.replicate (32 * pageSize + 1) 65) ∧
    s2Encrypt pageSize (letters size) plaintext 1 true = none := by
  have nonzero : ∀ n, (0 : UInt8) ∉ List.replicate n 65 := by
    intro n mem
    cases List.eq_of_mem_replicate mem
  have held : Holds (letters size) plaintext (List.replicate (32 * pageSize) 65) :=
    holds_letters (by omega)
  have measured := strnlenUser_full held (nonzero _)
  rw [List.length_replicate] at measured
  have copied := copyFromUser_holds (holds_letters fits)
  rw [List.length_replicate] at copied
  refine ⟨measured, copied, ?_⟩
  have result := s2Encrypt_copied 1 (letters size) pageSize plaintext rfl
    (by rw [stringSize, measured]; omega) (by rw [stringSize, measured]; exact copied)
  rw [result, encryptLoop_none _ (nonzero _), Option.map_none]

theorem runs_outside : stringSize 4096 (letters 1048576) 4096 = 32 * 4096 + 1 ∧
    copyFromUser (letters 1048576) 4096 (32 * 4096 + 1) =
      some (List.replicate (32 * 4096 + 1) 65) ∧
    s2Encrypt 4096 (letters 1048576) 4096 1 true = none :=
  letters_outside 1048576 4096 4096 (by decide)

theorem stays_inside_iff_hi :
    (0 : UInt8) ∈ [104, 105, 0] ∧ ∃ encrypted stop, encryptLoop 3 [104, 105, 0] =
      some (encrypted, stop) ∧ stop < 3 ∧ encrypted.length = 3 ∧
      s2Encrypt 4096 (memoryOf 4096 [104, 105, 0]) 4096 3 true =
        some ⟨0, some (cstring encrypted)⟩ := by
  have size : stringSize 4096 (memoryOf 4096 [104, 105, 0]) 4096 = 3 := by decide
  have inside := (stays_inside_iff 3 (by decide) (by decide) 4096 (memoryOf 4096 [104, 105, 0])
    4096 (by rw [size]; decide) (by rw [size]; rfl)).mpr ⟨2, by decide, rfl⟩
  rw [size] at inside
  exact inside

end CSE306.Encrypt
