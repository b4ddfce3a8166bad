import CSE306.S2DSM.Process

/-! The two processes after startup, joined by the sockets each of them opened
to the other. A schedule of turns drives the executable step. -/
namespace CSE306.S2DSM
open Transition Transition.Duplex

variable {n pageSize : Nat}

abbrev Node (n pageSize : Nat) :=
  End (Process n pageSize) (MsgRequest n) (Reply n pageSize)

abbrev System (n pageSize : Nat) :=
  Net (Process n pageSize) (MsgRequest n) (Reply n pageSize)

abbrev History (n pageSize : Nat) := List (Side × Event n pageSize)

namespace System

/-- Both command loops are at their first prompt and nothing was accessed yet. -/
def initial (n pageSize : Nat) : System n pageSize :=
  fun _ => ⟨.initial n pageSize, [], []⟩

/-- One turn, refused where `ok` does not admit it. -/
def step (ok : Node n pageSize → Node n pageSize → Process n pageSize → Prop)
    [∀ x y p, Decidable (ok x y p)] :
    System n pageSize → Side × Turn n →
      Option (System n pageSize × Option (Side × Event n pageSize)) :=
  Duplex.play ok Process.step

abbrev Step (ok : Node n pageSize → Node n pageSize → Process n pageSize → Prop) :
    System n pageSize → Option (Side × Event n pageSize) → System n pageSize → Prop :=
  Duplex.Step ok Process.Moves

/-- The runs of the two processes from their first prompts. -/
abbrev Runs (ok : Node n pageSize → Node n pageSize → Process n pageSize → Prop)
    (h : History n pageSize) (s : System n pageSize) : Prop :=
  Run (Step ok) (initial n pageSize) h s

/-- No command is in progress, and no message is in flight or being handled. -/
def Quiescent (s : System n pageSize) : Prop :=
  ∀ i, (s i).party.Idle ∧ (s i).accepted = [] ∧ (s i).connect = []

instance (s : System n pageSize) : Decidable s.Quiescent := by unfold Quiescent; infer_instance

end System

theorem Process.step_enabled {own : Node n pageSize}
    (moved : own.party.step own.accepted.head? own.connect.head? turn = some (x, l, e)) :
    own.Enabled l := by
  cases turn with
  | command c =>
    simp only [Process.step] at moved
    grind [End.Enabled]
  | main =>
    simp only [Process.step, Process.mainStep] at moved
    grind [End.Enabled, Option.map_eq_some_iff]
  | fault p =>
    simp only [Process.step, Process.faultStep] at moved
    grind [End.Enabled]
  | handler =>
    simp only [Process.step, Process.faultHandlerThread] at moved
    grind [End.Enabled]
  | server =>
    simp only [Process.step, Process.serverThread] at moved
    grind [End.Enabled, Option.map_eq_some_iff]

namespace System

/-- A schedule, written as stretches of turns of one side. -/
def stretches (plan : List (Side × List (Turn n))) : List (Side × Turn n) :=
  plan.flatMap fun (i, turns) => turns.map (i, ·)

/-- The first process writes "Hi", the second one handles the 'I' and reads. -/
def writeThenRead (p : Fin n) : List (Side × Turn n) := stretches
  [(.first, [.command (.write [72, 105, 10] (some p)), .main, .fault p, .handler, .handler]),
    (.second, List.replicate 4 .server),
    (.first, List.replicate 3 .handler ++ List.replicate 5 .main),
    (.second, List.replicate 3 .server ++
      [.command (.read (some p)), .main, .fault p, .handler, .handler]),
    (.first, List.replicate 5 .server),
    (.second, List.replicate 4 .handler ++ [.main, .main])]

theorem Runs.unrestricted {s : System n pageSize} (run : Runs ok h s) : Runs free h s :=
  run.mono fun _ step => by
    cases step with
    | turn i _ moved ready => exact .turn i trivial moved ready

variable {ok : Node n pageSize → Node n pageSize → Process n pageSize → Prop}
  [∀ x y p, Decidable (ok x y p)]

theorem step_sound {s t : System n pageSize} (moved : s.step ok turn = some (t, e)) :
    Step ok s e t :=
  Duplex.play_sound (fun acted => ⟨⟨_, _, _, acted⟩, Process.step_enabled acted⟩) moved

end System
end CSE306.S2DSM
