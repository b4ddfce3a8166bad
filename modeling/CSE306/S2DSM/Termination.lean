import CSE306.S2DSM.Execution
import CSE306.Transition.Potential

/-! How much work a command can cause, over all interleavings: page faults, messages
and the answers to them are paid for by the pages that are absent and by the writes. -/
namespace CSE306.S2DSM
open Transition Transition.Duplex

variable {n pageSize : Nat}

/-- The steps of an access to an absent page besides its own: the fault event, six
steps of the handler and five of the other server. -/
def faultWork : Nat := 12

/-- The server still takes so many steps; after `drop` the page may be faulted again. -/
def Serve.work : Serve → Nat
  | .test => 4
  | .grant => 3
  | .deny | .copy => 2
  | .share | .invalidate => 1
  | .drop => 2 + faultWork

def MsgRequest.work : MsgRequest n → Nat
  | .fetch _ => 1 + Serve.work .test
  | .invalidate _ => 1 + Serve.work .drop

/-- The handler's own steps, and before `request` those of the server it asks. -/
def Resolve.work : Resolve → Nat
  | .test => 11
  | .request => 10
  | .response => 4
  | .page => 3
  | .share => 2
  | .install => 1

def Stage.work : Stage (List UInt8) → Nat
  | .load true => 2
  | .load false | .print => 1
  | .store _ => 19
  | .mark _ => 18
  | .echo _ => 17
  | .notify _ => 16

/-- What the body of the page loop costs for each page. A write sends an 'I'. -/
def Op.work : Op → Nat
  | .read _ => 3
  | .write _ => 20

def Stage.op : Stage (List UInt8) → Op
  | .load again => .read again
  | .print => .read true
  | .store typed | .mark typed | .echo typed | .notify typed => .write typed

def Main.work : Main n → Nat
  | .prompt => 0
  | .loop op pages => 1 + op.work * pages.length
  | .access stage _ rest => stage.work + 1 + stage.op.work * rest.length

def Handler.page : Handler n → Option (Fin n)
  | .poll => none
  | .resolving _ p => some p

def Handler.work : Handler n → Nat
  | .poll => 0
  | .resolving stage _ => stage.work

def Server.work : Server n → Nat
  | .receive => 0
  | .serving stage _ => stage.work

/-- What a command adds to the work ahead, its own first step included. -/
def Command.work (c : Command n) : Nat := 2 + c.op.work * c.pages.length

def Event.work : Event n pageSize → Nat
  | .command c => c.work
  | .wrote _ _ | .read _ _ => 0

namespace Process

/-- The fault that an absent page may still cause, unless it is being resolved. -/
def pageWork (x : Process n pageSize) (p : Fin n) : Nat :=
  if x.mapping p = none ∧ x.handler.page ≠ some p then faultWork else 0

def absentWork (x : Process n pageSize) : Nat := ∑ p, x.pageWork p

def work (x : Process n pageSize) : Nat :=
  x.absentWork + x.handler.work + x.server.work + x.main.work

theorem pageWork_le (x : Process n pageSize) (p : Fin n) : x.pageWork p ≤ faultWork := by
  unfold pageWork
  split <;> simp

theorem absentWork_congr {x y : Process n pageSize}
    (mapping : ∀ p, y.mapping p = none ↔ x.mapping p = none)
    (handler : y.handler.page = x.handler.page) : y.absentWork = x.absentWork := by
  refine Finset.sum_congr rfl fun p _ => ?_
  simp only [pageWork, mapping p, handler]

theorem MainMove.pays {x y : Process n pageSize} (move : x.MainMove l e y) :
    y.work + l.credit MsgRequest.work (fun _ => 0) + 1 ≤
      x.work + l.debit MsgRequest.work (fun _ => 0) + credited Event.work e := by
  have same : y.absentWork = x.absentWork := by
    cases move with
    | @store _ p _ _ here present =>
      refine absentWork_congr (fun q => ?_) rfl
      by_cases at_ : q = p
      · subst at_
        simp [setPage, present]
      · simp [setPage, Function.update_of_ne at_]
    | _ => rfl
  unfold work
  rw [same]
  cases move with
  | finish here => simp [here, Main.work, Label.credit, Label.debit]
  | @enter op p rest here =>
    cases op with
    | read again =>
      cases again <;> simp [here, Main.work, Op.entry, Op.work, Stage.work, Stage.op,
        Label.credit, Label.debit] <;> omega
    | write typed =>
      simp only [here, Main.work, Op.entry, Op.work, Stage.work, Stage.op, Label.credit,
        Label.debit, credited_none, List.length_cons]
      omega
  | load here | peek here | print here | store here | mark here | echo here =>
    simp only [here, Main.work, Stage.work, Stage.op, Label.credit, Label.debit, setPage, setMsi,
      credited_none]
    omega
  | notify here =>
    simp only [here, Main.work, Stage.work, Stage.op, Label.credit, Label.debit, MsgRequest.work,
      Serve.work, faultWork, credited_none]
    omega

theorem faultStep_pays {x y : Process n pageSize} (moved : x.faultStep p = some (y, l, e)) :
    y.work + l.credit MsgRequest.work (fun _ => 0) + 1 ≤
      x.work + l.debit MsgRequest.work (fun _ => 0) + credited Event.work e := by
  unfold faultStep at moved
  split at moved
  · rename_i polling
    split at moved
    · rename_i faults
      cases moved
      -- The page was to be paid for, and now the handler is.
      have exchange := sum_exchange (f := x.pageWork) (g := pageWork { x with
        handler := .resolving .test p, pageBuffer := .zero pageSize }) p fun q other => by
          simp [pageWork, Handler.page, polling, Ne.symm other]
      simp only [pageWork, Handler.page, polling, faults.1] at exchange
      simp [work, absentWork, pageWork, polling, Handler.work, Handler.page, Resolve.work,
        Label.credit, Label.debit, faultWork] at exchange ⊢
      omega
    · cases moved
  · cases moved

/-- The page stops being resolved when it is there: what is owed for absent pages stays. -/
theorem absentWork_install {x : Process n pageSize} (here : x.handler = .resolving .install p) :
    absentWork { x.setPage p (some c) with handler := .poll } = x.absentWork := by
  refine Finset.sum_congr rfl fun q _ => ?_
  by_cases same : q = p
  · subst same
    simp [pageWork, setPage, here, Handler.page]
  · simp [pageWork, setPage, Function.update_of_ne same, here, Handler.page, Ne.symm same]

/-- The handler goes on with the page it resolves. -/
theorem resolving_pays {x y : Process n pageSize} (here : x.handler = .resolving stage p)
    (there : y.handler = .resolving next p) (mapping : y.mapping = x.mapping)
    (server : y.server = x.server) (main : y.main = x.main)
    (less : next.work + credit + 1 ≤ stage.work + debit) :
    y.work + credit + 1 ≤ x.work + debit := by
  have same : y.absentWork = x.absentWork :=
    absentWork_congr (fun q => by rw [mapping]) (by rw [here, there]; rfl)
  simp only [work, same, server, main, here, there, Handler.work]
  omega

theorem faultHandlerThread_pays {x y : Process n pageSize}
    (moved : x.faultHandlerThread reply = some (y, l, e)) :
    y.work + l.credit MsgRequest.work (fun _ => 0) + 1 ≤
      x.work + l.debit MsgRequest.work (fun _ => 0) + credited Event.work e := by
  unfold faultHandlerThread at moved
  split at moved
  · cases moved
  · rename_i p here
    cases moved
    refine resolving_pays here rfl rfl rfl rfl ?_
    split <;> simp [Resolve.work, Label.credit]
  · rename_i p here
    cases moved
    exact resolving_pays here rfl rfl rfl rfl (by simp [Resolve.work, Label.credit,
      MsgRequest.work, Serve.work])
  · rename_i p here
    split at moved
    · cases moved
      exact resolving_pays here rfl rfl rfl rfl (by simp [Resolve.work, Label.credit])
    · cases moved
      exact resolving_pays here rfl rfl rfl rfl (by simp [Resolve.work, Label.credit])
    · cases moved
  · rename_i p here
    split at moved
    · cases moved
      exact resolving_pays here rfl rfl rfl rfl (by simp [Resolve.work, Label.credit])
    · cases moved
  · rename_i p here
    cases moved
    exact resolving_pays here rfl rfl rfl rfl (by simp [Resolve.work, Label.credit])
  · rename_i p here
    split at moved
    · cases moved
      unfold work
      rw [absentWork_install here]
      simp only [here, Handler.work, Resolve.work, Label.credit, Label.debit, setPage,
        credited_none]
      omega
    · cases moved

/-- A dropped page may be faulted once more. -/
theorem absentWork_drop (x : Process n pageSize) (p : Fin n) :
    (x.setPage p none).absentWork ≤ x.absentWork + faultWork := by
  have exchange := sum_exchange (f := (x.setPage p none).pageWork) (g := x.pageWork) p
    fun q other => by simp [pageWork, setPage, Function.update_of_ne other]
  have most := (x.setPage p none).pageWork_le p
  simp only [absentWork]
  omega

theorem serverThread_pays {x y : Process n pageSize}
    (moved : x.serverThread request = some (y, l, e)) :
    y.work + l.credit MsgRequest.work (fun _ => 0) + 1 ≤
      x.work + l.debit MsgRequest.work (fun _ => 0) + credited Event.work e := by
  unfold serverThread at moved
  split at moved
  · rename_i here
    split at moved
    · cases moved
      simp only [work, here, absentWork, pageWork, Server.work, Label.credit, Label.debit,
        MsgRequest.work, credited_none]
      omega
    · cases moved
      simp only [work, here, absentWork, pageWork, Server.work, Label.credit, Label.debit,
        MsgRequest.work, credited_none]
      omega
    · cases moved
  · rename_i p here
    cases moved
    simp only [work, here, absentWork, pageWork, Server.work, Label.credit, Label.debit]
    split
    · simp only [Serve.work, credited_none]
      omega
    · simp only [Serve.work, credited_none]
      omega
  · rename_i p here
    cases moved
    simp only [work, here, absentWork, pageWork, Server.work, Serve.work, Label.credit,
      Label.debit, credited_none]
    omega
  · rename_i p here
    cases moved
    simp only [work, here, absentWork, pageWork, Server.work, Serve.work, Label.credit,
      Label.debit, credited_none]
    omega
  · rename_i p here
    obtain ⟨content, present, same⟩ := Option.map_eq_some_iff.mp moved
    cases same
    simp only [work, here, absentWork, pageWork, Server.work, Serve.work, Label.credit,
      Label.debit, credited_none]
    omega
  · rename_i p here
    cases moved
    simp only [work, here, absentWork, pageWork, Server.work, Serve.work, Label.credit, Label.debit,
      setMsi, credited_none]
    omega
  · rename_i p here
    cases moved
    have dropped := x.absentWork_drop p
    simp [work, here, Server.work, Serve.work, Label.credit, Label.debit]
    simp only [absentWork, pageWork, setPage] at dropped ⊢
    omega
  · rename_i p here
    cases moved
    simp only [work, here, absentWork, pageWork, Server.work, Serve.work, Label.credit, Label.debit,
      setMsi, credited_none]
    omega

/-- Every step pays for itself, for the messages it sends and for the faults it makes
possible; only a command adds to the work ahead. -/
theorem Moves.pays {x y : Process n pageSize} (moved : x.Moves l e y) :
    y.work + l.credit MsgRequest.work (fun _ => 0) + 1 ≤
      x.work + l.debit MsgRequest.work (fun _ => 0) + credited Event.work e := by
  obtain ⟨turn, request, reply, moved⟩ := moved
  cases turn with
  | command c =>
    simp only [step] at moved
    split at moved
    · rename_i here
      cases moved
      simp only [work, here, absentWork, pageWork, Main.work, Label.credit, Label.debit,
        credited_some,
        Event.work, Command.work]
      omega
    · cases moved
  | main => exact (mainStep_move moved).pays
  | fault p => exact faultStep_pays moved
  | handler => exact faultHandlerThread_pays moved
  | server => exact serverThread_pays moved

end Process

/-- The work ahead of both processes and in the messages on their way. -/
def System.work (s : System n pageSize) : Nat :=
  s.worth Process.work MsgRequest.work (fun _ => 0)

theorem System.initial_work (n pageSize : Nat) :
    (System.initial n pageSize).work = 2 * faultWork * n := by
  have own : (Process.initial n pageSize).work = faultWork * n := by
    simp [Process.work, Process.initial, Process.absentWork, Process.pageWork, Handler.work,
      Handler.page, Server.work, Main.work, Nat.mul_comm]
  simp only [System.work, Net.worth, End.worth, System.initial, own, faultWork, List.map_nil,
    List.sum_nil]
  omega

theorem System.step_pays {s t : System n pageSize} (step : System.Step ok s e t) :
    t.work + 1 ≤ s.work + credited (fun e => e.2.work) e :=
  Duplex.Step.pays _ _ _ Process.Moves.pays step

/-- The work that the commands of a history brought in. -/
def History.work (h : History n pageSize) : Nat := (h.map fun e => e.2.work).sum

theorem steps_paid {s : System n pageSize}
    (run : Counted (System.Step ok) (System.initial n pageSize) k h s) :
    k + s.work ≤ 2 * faultWork * n + History.work h := by
  rw [← System.initial_work n pageSize]
  exact run.paid System.step_pays

/-- However the threads of the two processes interleave, the steps taken and the work
still ahead come from the first fault of each page and from the commands typed. -/
theorem steps_paid_by_commands
    (run : Counted (System.Step free) (System.initial n pageSize) k h s) :
    k + s.work ≤ 2 * faultWork * n + History.work h := steps_paid run

theorem steps_paid_by_commands_written : ∃ (h : History 1 8) (s : System 1 8),
    Counted (System.Step free) (System.initial 1 8) 36 h s ∧
      36 + s.work ≤ 2 * faultWork * 1 + History.work h := by
  have followed : (exec (System.step free) (System.initial 1 8) (System.writeThenRead 0)).isSome :=
    by decide +kernel
  obtain ⟨⟨s, h⟩, executed⟩ := Option.isSome_iff_exists.mp followed
  have run := Counted.exec System.step_sound executed
  exact ⟨h, s, run, steps_paid_by_commands run⟩

end CSE306.S2DSM
