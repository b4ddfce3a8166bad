import Mathlib.Algebra.GroupWithZero.Nat
import Mathlib.Data.List.Basic

/-! Reads of a file of the file system. Every read copies from the start of the message;
the offset only says how many bytes are left. -/
namespace CSE306.S2FS

/-- The message `Hello World!` in memory, with its terminator. -/
def msg : List UInt8 :=
  ['H', 'e', 'l', 'l', 'o', ' ', 'W', 'o', 'r', 'l', 'd', '!'].map
    (fun c => UInt8.ofNat c.toNat) ++ [0]

/-- What a read returns, where it leaves the offset, and the bytes it gives to the reader. -/
structure Reply where
  ret : BitVec 64
  offset : BitVec 64
  delivered : List UInt8
  deriving DecidableEq

/-- `-EFAULT` -/
def efault : BitVec 64 := -14

/-- One read. `copied` says whether `copy_to_user` succeeds; a copy of more bytes than the
message has is out of bounds and has no result. -/
def s2fsReadFile (copied : Bool) (count offset : BitVec 64) : Option Reply :=
  let len : BitVec 64 := 13
  if len.slt offset then some ⟨0, offset, []⟩
  else
    let count := if len - offset < count then len - offset else count
    if msg.length < count.toNat then none
    else if copied then some ⟨count, offset + count, msg.take count.toNat⟩
    else some ⟨efault, offset, []⟩

/-- Reads one after the other on an open file, all copies succeeding. -/
def reads : BitVec 64 → List (BitVec 64) → Option (List Reply)
  | _, [] => some []
  | offset, count :: counts => do
    let reply ← s2fsReadFile true count offset
    let replies ← reads reply.offset counts
    return reply :: replies

def delivered (replies : List Reply) : List UInt8 := replies.flatMap Reply.delivered

/-- What a read at an offset gives of a file of 13 bytes. -/
def amount (offset count : Nat) : Nat := min count (13 - offset)

/-- The replies to reads that start from an offset. -/
inductive Served : Nat → List (BitVec 64) → List Reply → Prop where
  | nil (offset : Nat) : Served offset [] []
  | cons (offset : Nat) (count : BitVec 64) (reply : Reply) :
      reply.ret.toNat = amount offset count.toNat →
      reply.offset.toNat = offset + amount offset count.toNat →
      reply.delivered = msg.take (amount offset count.toNat) →
      Served (offset + amount offset count.toNat) counts replies →
      Served offset (count :: counts) (reply :: replies)

theorem length_msg : msg.length = 13 := rfl

theorem amount_le (offset count : Nat) : amount offset count ≤ 13 - offset := Nat.min_le_right ..

theorem amount_reached (reached : offset ≤ 13) (count : Nat) :
    offset + amount offset count ≤ 13 := by
  have most := amount_le offset count
  omega

theorem s2fsReadFile_within {offset : BitVec 64} (reached : offset.toNat ≤ 13)
    (count : BitVec 64) : ∃ reply, s2fsReadFile true count offset = some reply ∧
      reply.ret.toNat = amount offset.toNat count.toNat ∧
      reply.offset.toNat = offset.toNat + amount offset.toNat count.toNat ∧
      reply.delivered = msg.take (amount offset.toNat count.toNat) := by
  have left_ : ((13 : BitVec 64) - offset).toNat = 13 - offset.toNat := by bv_omega
  have notAfter : (13 : BitVec 64).slt offset = false := by
    rw [BitVec.slt_eq_decide, BitVec.toInt_eq_toNat_of_lt (by decide),
      BitVec.toInt_eq_toNat_of_lt (by omega)]
    simp
    omega
  generalize taken : (if 13 - offset < count then 13 - offset else count) = n
  have size : n.toNat = amount offset.toNat count.toNat := by
    rw [← taken, amount]
    split
    · rename_i more
      rw [BitVec.lt_def, left_] at more
      omega
    · rename_i few
      rw [BitVec.lt_def, left_] at few
      omega
  have bound := amount_reached reached count.toNat
  refine ⟨⟨n, offset + n, msg.take n.toNat⟩, ?_, size, ?_, by rw [size]⟩
  · simp only [s2fsReadFile, notAfter, taken, Bool.false_eq_true, if_false, if_true]
    rw [if_neg]
    rw [length_msg, size]
    omega
  · rw [BitVec.toNat_add, size]
    omega

theorem reads_served {offset : BitVec 64} (reached : offset.toNat ≤ 13)
    (counts : List (BitVec 64)) :
    ∃ replies, reads offset counts = some replies ∧ Served offset.toNat counts replies := by
  induction counts generalizing offset with
  | nil => exact ⟨[], rfl, .nil _⟩
  | cons count counts ih =>
    obtain ⟨reply, done, ret, next, bytes⟩ := s2fsReadFile_within reached count
    obtain ⟨replies, rest, served⟩ := ih (next ▸ amount_reached reached count.toNat)
    rw [next] at served
    exact ⟨reply :: replies, by simp [reads, done, rest], .cons _ _ _ ret next bytes served⟩

theorem length_take_amount (offset count : Nat) :
    (msg.take (amount offset count)).length = amount offset count := by
  have most := amount_le offset count
  rw [List.length_take, length_msg]
  omega

namespace Served
variable {offset : Nat} {counts : List (BitVec 64)} {replies : List Reply}

theorem length_delivered (served : Served offset counts replies) (reached : offset ≤ 13) :
    offset + (delivered replies).length = min (offset + (counts.map BitVec.toNat).sum) 13 := by
  induction served with
  | nil offset => simp [delivered, reached]
  | cons offset count reply _ _ bytes _ ih =>
    have rest := ih (amount_reached reached count.toNat)
    simp only [delivered, List.flatMap_cons, List.length_append, bytes, length_take_amount,
      List.map_cons, List.sum_cons] at rest ⊢
    rw [← Nat.add_assoc, rest, amount]
    omega

theorem reply_at (served : Served offset counts (before ++ reply :: after)) :
    ∃ count, reply.ret.toNat = amount (offset + (delivered before).length) count ∧
      reply.offset.toNat = offset + (delivered (before ++ [reply])).length := by
  induction before generalizing offset counts with
  | nil =>
    cases served with
    | cons _ count _ ret next bytes _ =>
      refine ⟨count.toNat, ret, ?_⟩
      rw [next, delivered, List.nil_append, List.flatMap_cons, List.flatMap_nil, List.append_nil,
        bytes, length_take_amount]
  | cons first before ih =>
    cases served with
    | cons _ count _ _ _ bytes rest =>
      obtain ⟨later, ret, next⟩ := ih rest
      refine ⟨later, ?_, ?_⟩
      · rw [ret, delivered, delivered, List.flatMap_cons, List.length_append, bytes,
          length_take_amount, Nat.add_assoc]
      · rw [next, delivered, delivered, List.cons_append, List.flatMap_cons, List.length_append,
          bytes, length_take_amount, Nat.add_assoc]

theorem delivered_eq_nil (served : Served offset counts replies) (reached : offset ≤ 13)
    (nothing : offset = 13 ∨ (counts.map BitVec.toNat).sum = 0) : delivered replies = [] := by
  have count := served.length_delivered reached
  apply List.eq_nil_of_length_eq_zero
  omega

theorem head?_delivered (served : Served offset counts replies) (before : offset < 13)
    (some_ : (counts.map BitVec.toNat).sum ≠ 0) : (delivered replies).head? = msg.head? := by
  induction served with
  | nil => exact (some_ rfl).elim
  | cons offset count reply _ _ bytes _ ih =>
    rw [delivered, List.flatMap_cons, bytes]
    by_cases zero : count.toNat = 0
    · have nothing : amount offset count.toNat = 0 := by simp [amount, zero]
      rw [nothing, List.take_zero, List.nil_append]
      apply ih
      · omega
      · rwa [List.map_cons, List.sum_cons, zero, Nat.zero_add] at some_
    · obtain ⟨more, positive⟩ : ∃ more, amount offset count.toNat = more + 1 :=
        Nat.exists_eq_succ_of_ne_zero (by rw [amount]; omega)
      rw [positive]
      rfl

end Served

/-- The bytes come out in order, the offset counts them, and reads at the end return 0. -/
structure Reassembles (counts : List (BitVec 64)) (replies : List Reply) : Prop where
  content : delivered replies = msg.take (min (counts.map BitVec.toNat).sum 13)
  offset : ∀ before reply after, replies = before ++ reply :: after →
    reply.offset.toNat = (delivered (before ++ [reply])).length
  ended : ∀ before reply after, replies = before ++ reply :: after →
    (delivered before).length = 13 → reply.ret = 0

/-- All bytes that are read come with the first read that asks for some. -/
def OneRead (counts : List (BitVec 64)) : Prop :=
  ∀ first rest, counts.filter (· ≠ 0) = first :: rest → rest = [] ∨ 13 ≤ first.toNat

theorem toNat_zero : (0 : BitVec 64).toNat = 0 := rfl

theorem sum_eq_zero_iff {counts : List (BitVec 64)} :
    (counts.map BitVec.toNat).sum = 0 ↔ counts.filter (· ≠ 0) = [] := by
  induction counts with
  | nil => exact iff_of_true rfl rfl
  | cons count counts ih =>
    rw [List.map_cons, List.sum_cons]
    by_cases zero : count = 0
    · rw [List.filter_cons_of_neg (by simp [zero]), ← ih, zero, toNat_zero, Nat.zero_add]
    · have positive : count.toNat ≠ 0 := fun none => zero (BitVec.eq_of_toNat_eq none)
      rw [List.filter_cons_of_pos (by simpa using zero)]
      exact iff_of_false (by omega) (List.cons_ne_nil _ _)

theorem oneRead_cons {counts : List (BitVec 64)} (some_ : count ≠ 0) :
    OneRead (count :: counts) ↔ (counts.map BitVec.toNat).sum = 0 ∨ 13 ≤ count.toNat := by
  rw [OneRead, List.filter_cons_of_pos (by simpa using some_), sum_eq_zero_iff]
  constructor
  · intro one
    exact one count _ rfl
  · intro either first rest same
    cases same
    exact either

theorem msg_head_once : ∀ i < 13, 0 < i → msg[i]? ≠ msg.head? := by decide

theorem restarted_ne {again : List UInt8} (positive : 0 < n) (part : n < 13) (more : n < m)
    (restarts : again.head? = msg.head?) : msg.take n ++ again ≠ msg.take m := by
  intro same
  have size : (msg.take n).length = n := by
    rw [List.length_take, length_msg]
    omega
  have here := congrArg (·[n]?) same
  rw [List.getElem?_append_right (Nat.le_of_eq size), size, Nat.sub_self,
    List.getElem?_take_of_lt more, ← List.head?_eq_getElem?, restarts] at here
  exact msg_head_once n part positive here.symm

/-- What is delivered is in order exactly if it comes with one read. -/
theorem Served.content_iff (served : Served 0 counts replies) :
    delivered replies = msg.take (min (counts.map BitVec.toNat).sum 13) ↔ OneRead counts := by
  induction counts generalizing replies with
  | nil =>
    cases served
    exact iff_of_true rfl fun first rest some_ => by cases some_
  | cons count counts ih =>
    cases served with
    | @cons _ replies _ _ reply _ _ bytes rest =>
      rw [delivered, List.flatMap_cons, bytes, List.map_cons, List.sum_cons]
      by_cases zero : count = 0
      · subst zero
        have same : OneRead (0 :: counts) ↔ OneRead counts := by
          rw [OneRead, List.filter_cons_of_neg (by simp), OneRead]
        have nothing : amount 0 (0 : BitVec 64).toNat = 0 := rfl
        rw [nothing] at rest ⊢
        rw [same, ← ih rest, List.take_zero, List.nil_append, toNat_zero, Nat.zero_add,
          delivered]
      · have positive : count.toNat ≠ 0 := fun none => zero (BitVec.eq_of_toNat_eq none)
        rw [oneRead_cons zero]
        rw [Nat.zero_add] at rest
        constructor
        · intro ordered
          by_contra other
          obtain ⟨more, few⟩ := not_or.mp other
          have part : amount 0 count.toNat = count.toNat := by rw [amount]; omega
          rw [part] at rest ordered
          refine restarted_ne (by omega) (by omega) (by omega) ?_ ordered
          exact rest.head?_delivered (by omega) more
        · intro one
          have reached : amount 0 count.toNat ≤ 13 := by rw [amount]; omega
          have none : delivered replies = [] := rest.delivered_eq_nil reached (by
            rw [amount]
            omega)
          rw [delivered] at none
          rw [none, List.append_nil]
          congr 1
          rw [amount]
          omega

/-- Reads that follow each other never go out of the message, the offset always counts the
bytes delivered, and a read at the end returns 0. The bytes are those of the file exactly if
at most one read asks for any, or the first that does takes the whole file. -/
theorem reassembles_iff_one_read (counts : List (BitVec 64)) :
    ∃ replies, reads 0 counts = some replies ∧ (Reassembles counts replies ↔ OneRead counts) := by
  obtain ⟨replies, done, served⟩ := reads_served (toNat_zero ▸ Nat.zero_le 13) counts
  rw [toNat_zero] at served
  refine ⟨replies, done, fun whole => served.content_iff.mp whole.content, fun one => ?_⟩
  refine ⟨served.content_iff.mpr one, ?_, ?_⟩
  · rintro before reply after rfl
    obtain ⟨_, _, next⟩ := served.reply_at
    rw [next, Nat.zero_add]
  · rintro before reply after rfl all
    obtain ⟨count, ret, _⟩ := served.reply_at
    apply BitVec.eq_of_toNat_eq
    rw [ret, all, amount]
    simp

/-- Reads of 5 and 8 bytes give "HelloHello Wo". -/
theorem reassembles_fails : ∃ replies, reads 0 [5, 8] = some replies ∧
    delivered replies = [72, 101, 108, 108, 111, 72, 101, 108, 108, 111, 32, 87, 111] ∧
    ¬ Reassembles [5, 8] replies := by
  have done : (reads 0 [5, 8]).any (fun replies => delivered replies =
      [72, 101, 108, 108, 111, 72, 101, 108, 108, 111, 32, 87, 111]) := by decide
  obtain ⟨replies, result, known⟩ := (Option.any_eq_true _ _).mp done
  have bytes := of_decide_eq_true known
  refine ⟨replies, result, bytes, fun whole => ?_⟩
  have content := whole.content
  rw [bytes] at content
  exact absurd content (by decide)

end CSE306.S2FS
