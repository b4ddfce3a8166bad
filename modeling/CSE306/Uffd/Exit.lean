import CSE306.Transition.Potential
import CSE306.Uffd.Output

/-! The program ends. -/
namespace CSE306.Uffd
open Transition S2DSM

variable {n blocks : Nat}

/-- How many blocks a loop has still to come to. -/
def left (m : Mapping n) (l : BitVec 32) : Nat := (m.len.toNat - l.toNat) / 1024

/-- The steps of the loops that are left. -/
def passWork (m : Mapping n) (rest : List Pass) : Nat :=
  rest.length * (7 * (m.len.toNat / 1024) + 2) + 1

/-- The steps that `main` has still to make, and those of the faults that it has still to take. -/
def Main.work (m : Mapping n) : Main → Nat
  | .start rest => passWork m rest
  | .loop _ l rest => 7 * left m l + passWork m rest + 1
  | .access _ l rest => 7 * (left m l - 1) + passWork m rest + 4
  | .print _ l _ rest => 7 * (left m l - 1) + passWork m rest + 3
  | .printByte _ l _ rest => 7 * (left m l - 1) + passWork m rest + 2
  | .exited => 0

/-- A thread that is stopped waits for its fault to be read and for the page to be copied; the
handler then has a line to print. -/
def stall (x : Uffd n) : Nat :=
  match x.main with
  | .access _ l _ =>
    if x.memory (addr x.layout l) = none then
      if x.handler.resolving = none then 3 else 2
    else 0
  | _ => 0

/-- The line that the handler has still to print. -/
def Handler.work : Handler → Nat
  | .print => 1
  | .poll | .copy _ => 0

def work (x : Uffd n) : Nat := x.main.work x.layout + x.stall + x.handler.work

theorem stall_le (x : Uffd n) : x.stall ≤ 3 := by
  unfold stall
  split
  · split
    · split <;> decide
    · exact Nat.zero_le 3
  · exact Nat.zero_le 3

theorem left_offset {m : Mapping n} (blocked : m.pageSize.toNat = 1024 * blocks) (fits : m.Fits)
    (most : i ≤ n * blocks) : left m (offset i) = n * blocks - i := by
  have len := len_blocks blocked
  rw [Mapping.Fits] at fits
  rw [left, len, offset, BitVec.toNat_ofNat, Nat.mod_eq_of_lt (by omega), ← Nat.mul_sub,
    Nat.mul_div_cancel_left _ (by decide)]

namespace Follows
variable {m : Mapping n} {outside : AddressSpace} {h : List Event} {x y : Uffd n} {a : Loading}
  {owed : Owed}

theorem stall_access (follows : Follows m blocks outside h x a owed)
    (blocked : m.pageSize.toNat = 1024 * blocks) (fits : m.Fits) (below : i < n * blocks)
    (here : x.main = .access now (offset i) rest) :
    x.stall =
      if i / blocks < a.loaded then 0 else if x.handler.resolving = none then 3 else 2 := by
  obtain rfl := follows.layout
  simp only [stall, here]
  split
  · rename_i missing
    have absent : ¬ i / blocks < a.loaded := fun present => by
      rw [follows.memory, Loading.space_present blocked fits below present] at missing
      cases missing
    rw [if_neg absent]
  · rename_i found
    have present : i / blocks < a.loaded := by
      by_contra absent
      exact found (follows.memory ▸ Loading.space_absent blocked fits below absent)
    rw [if_pos present]

theorem mainStep_spends (follows : Follows m blocks outside h x a owed)
    (blocked : m.pageSize.toNat = 1024 * blocks) (fits : m.Fits)
    (moved : x.mainStep = some (y, e)) : y.work < x.work := by
  have owes := follows.owes
  obtain rfl := follows.layout
  have len := len_blocks blocked
  generalize here : x.main = main at owes
  cases owes with
  | start rest =>
    cases rest with
    | nil =>
      simp only [Uffd.mainStep, here] at moved
      cases moved
      simp only [work, here, Main.work, stall, passWork]
      omega
    | cons now rest =>
      simp only [Uffd.mainStep, here] at moved
      cases moved
      have first : left x.layout 0 = n * blocks := left_offset blocked fits (Nat.zero_le _)
      have total : x.layout.len.toNat / 1024 = n * blocks := by omega
      simp only [work, here, Main.work, stall, passWork, first, total, List.length_cons,
        Nat.add_one_mul]
      omega
  | @loop i now rest most next =>
    have count := left_offset blocked fits most
    have more := ult_offset blocked fits most
    simp only [Uffd.mainStep, here] at moved
    split at moved
    · rename_i below
      cases moved
      have below := more.mp below
      have most := stall_le { x with main := .access now (offset i) rest }
      rw [work, work, here, Main.work, Main.work]
      dsimp only at most ⊢
      omega
    · cases moved
      simp only [work, here, Main.work, stall]
      omega
  | @access i now rest below next =>
    have count := left_offset blocked fits below.le
    by_cases present : i / blocks < a.loaded
    · cases fill : now.fill with
      | none =>
        rw [follows.read_eq blocked fits here below present fill] at moved
        cases moved
        simp only [work, here, Main.work, stall]
        omega
      | some b =>
        rw [follows.write_eq blocked fits here below present fill] at moved
        cases moved
        simp only [work, here, Main.work, stall]
        omega
    · rw [follows.absent_eq blocked fits here below present] at moved
      cases moved
  | @print i now rest c below present known =>
    simp only [Uffd.mainStep, here] at moved
    cases moved
    simp only [work, here, Main.work, stall]
    omega
  | @printByte i now rest c below present known =>
    have count := left_offset blocked fits below.le
    have after : left x.layout (offset (i + 1)) = n * blocks - (i + 1) :=
      left_offset blocked fits below
    rw [follows.printByte_eq blocked fits here below present known] at moved
    cases moved
    simp only [work, here, Main.work, stall]
    omega
  | exited =>
    simp only [Uffd.mainStep, here] at moved
    cases moved

theorem fault_spends (follows : Follows m blocks outside h x a owed)
    (blocked : m.pageSize.toNat = 1024 * blocks) (fits : m.Fits)
    (moved : x.step (.fault address) = some (y, e)) : y.work < x.work := by
  have later := follows.fault moved
  simp only [Uffd.step] at moved
  split at moved
  · rename_i stopped
    obtain ⟨polls, faults⟩ := stopped
    cases moved
    obtain ⟨now, i, rest, below, here, _, _, _, next⟩ := follows.stopped blocked fits faults
    have before := follows.stall_access blocked fits below here
    have after := later.stall_access blocked fits below here
    simp only [if_neg next.not_lt, polls, Handler.resolving, if_true] at before
    simp only [if_neg next.not_lt, Handler.resolving, reduceCtorEq, if_false] at after
    rw [work, work, before, after, polls]
    exact Nat.lt_succ_self _
  · cases moved

theorem handler_spends (follows : Follows m blocks outside h x a owed)
    (blocked : m.pageSize.toNat = 1024 * blocks) (fits : m.Fits)
    (moved : x.faultHandlerThread = some (y, e)) : y.work < x.work := by
  cases where_ : x.handler with
  | poll =>
    simp only [faultHandlerThread, where_] at moved
    cases moved
  | copy address =>
    obtain ⟨owed', later⟩ := follows.copy blocked fits where_ moved
    have resolving := congrArg Handler.resolving where_
    obtain ⟨now, i, rest, below, here, _, _, _, next⟩ :=
      follows.stopped blocked fits (follows.resolves address resolving)
    have before := follows.stall_access blocked fits below here
    rw [if_neg next.not_lt, if_neg (resolving.trans_ne (Option.some_ne_none _))] at before
    rw [follows.copy_eq blocked fits where_] at moved
    cases moved
    have after := later.stall_access blocked fits below here
    rw [if_pos (show i / blocks < a.load.loaded from Nat.lt_succ_of_le next.le)] at after
    rw [work, work, before, after, where_]
    exact Nat.lt_succ_self _
  | print =>
    simp only [faultHandlerThread, where_] at moved
    cases moved
    have same : Uffd.stall { x with handler := .poll } = x.stall := by
      simp only [stall, where_]
      rfl
    rw [work, work, same, where_]
    exact Nat.lt_succ_self _

theorem spends (follows : Follows m blocks outside h x a owed)
    (blocked : m.pageSize.toNat = 1024 * blocks) (fits : m.Fits) (moved : x.Step e y) :
    y.work < x.work := by
  obtain ⟨turn, moved⟩ := moved
  cases turn with
  | main => exact follows.mainStep_spends blocked fits moved
  | fault address => exact follows.fault_spends blocked fits moved
  | handler =>
    simp only [Uffd.step] at moved
    split at moved
    · cases moved
    · exact follows.handler_spends blocked fits moved

/-- Short of its end some thread can go on. -/
theorem able (follows : Follows m blocks outside h x a owed)
    (blocked : m.pageSize.toNat = 1024 * blocks) (fits : m.Fits) (busy : x.main ≠ .exited) :
    ∃ e y, x.Step e y := by
  have main {e : Option Event} {y : Uffd n} (moved : x.mainStep = some (y, e)) :
      ∃ e y, x.Step e y := ⟨e, y, .main, moved⟩
  have handler {e : Option Event} {y : Uffd n} (moved : x.faultHandlerThread = some (y, e)) :
      ∃ e y, x.Step e y := ⟨e, y, .handler, (if_neg busy).trans moved⟩
  cases where_ : x.handler with
  | copy address => exact handler (follows.copy_eq blocked fits where_)
  | print => exact handler (by simp only [faultHandlerThread, where_]; rfl)
  | poll =>
    have owes := follows.owes
    generalize here : x.main = stage at owes
    cases owes with
    | start rest =>
      cases rest with
      | nil => exact ⟨_, _, .main, by simp only [Uffd.step, Uffd.mainStep, here]; rfl⟩
      | cons now rest => exact ⟨_, _, .main, by simp only [Uffd.step, Uffd.mainStep, here]; rfl⟩
    | @loop i now rest most next =>
      by_cases more : ((offset i).signExtend 64).ult x.layout.len
      · exact main (by rw [Uffd.mainStep, here]; exact if_pos more)
      · exact main (by rw [Uffd.mainStep, here]; exact if_neg more)
    | @access i now rest below next =>
      by_cases present : i / blocks < a.loaded
      · cases fill : now.fill with
        | none => exact main (follows.read_eq blocked fits here below present fill)
        | some b => exact main (follows.write_eq blocked fits here below present fill)
      · obtain rfl := follows.layout
        have missing : x.memory (addr x.layout (offset i)) = none :=
          follows.memory ▸ Loading.space_absent blocked fits below present
        have needs : (offset i, if now.fill = none then 1 else 1024) ∈ x.main.touches := by
          rw [here]
          rfl
        have stopped : x.Faults (addr x.layout (offset i)) :=
          ⟨(block_addr blocked fits below).1, missing, _, needs, le_rfl,
            Nat.lt_add_of_pos_right (by dsimp only; split <;> decide)⟩
        exact ⟨_, _, .fault _, if_pos ⟨where_, stopped⟩⟩
    | print => exact main (by rw [Uffd.mainStep, here])
    | printByte now rest c below present known =>
      exact main (follows.printByte_eq blocked fits here below present known)
    | exited => exact (busy here).elim

end Follows

/-- The program exits after so many steps, whichever thread moves when. -/
theorem exits (m : Mapping n) (large : 1024 ≤ m.pageSize.toNat) (fits : m.Fits)
    (outside : AddressSpace) :
    Inevitable Step (fun y => y.main = .exited) (56 * (m.len.toNat / 1024) + 17)
      (initial m outside) := by
  have blocked := blocks_of_pageSize m large
  have most : (initial m outside).work ≤ 56 * (m.len.toNat / 1024) + 17 := by
    simp only [work, initial, stall, Main.work, Handler.work, passWork, passes,
      List.length_cons, List.length_nil]
    omega
  refine .of_history (I := fun h x => ∃ a owed,
    Follows m (m.pageSize.toNat / 1024) outside h x a owed) ?_ ?_ ?_
    ⟨_, _, .initial m _ outside⟩ most
  · rintro h x e y ⟨a, owed, follows⟩ moved
    exact follows.step blocked fits moved
  · rintro h x e y ⟨a, owed, follows⟩ moved
    exact follows.spends blocked fits moved
  · rintro h x ⟨a, owed, follows⟩ busy
    exact follows.able blocked fits busy

theorem exits_pages : Inevitable Step (fun y : Uffd 2 => y.main = .exited) 129
    (initial twoPages fun _ => some 7) :=
  exits twoPages (by decide) (by decide) _

end CSE306.Uffd
