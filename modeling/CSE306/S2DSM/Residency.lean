import CSE306.S2DSM.View

/-! One process whose connections may deliver anything: how its `msi_array` and its
mapping fit together when its three threads are idle. -/
namespace CSE306.S2DSM
open Transition Transition.Duplex Replica

variable {n pageSize : Nat}

namespace Process

/-- The steps of one process that `ok` admits, whatever its connections deliver. -/
def Steps (ok : Process n pageSize → Process n pageSize → Prop) (x : Process n pageSize)
    (e : Option (Event n pageSize)) (y : Process n pageSize) : Prop :=
  ∃ l, x.Moves l e y ∧ ok x y

def Anyhow (_ _ : Process n pageSize) : Prop := True

/-- An entry is set INVALID only while the page is absent and the handler is not
about to install it. -/
def Orderly (x y : Process n pageSize) : Prop :=
  ∀ p, Invalidates (x.view p) (y.view p) → (x.view p).Vacant

instance (x y : Process n pageSize) : Decidable (x.Anyhow y) := .isTrue trivial

instance (x y : Process n pageSize) : Decidable (x.Orderly y) := by
  unfold Orderly
  infer_instance

/-- One step on what the connections deliver at that moment. -/
def feed (ok : Process n pageSize → Process n pageSize → Prop) [∀ x y, Decidable (ok x y)]
    (x : Process n pageSize)
    (input : Turn n × Option (MsgRequest n) × Option (Reply n pageSize)) :
    Option (Process n pageSize × Option (Event n pageSize)) :=
  match x.step input.2.1 input.2.2 input.1 with
  | some (y, _, e) => if ok x y then some (y, e) else none
  | none => none

theorem feed_sound {ok : Process n pageSize → Process n pageSize → Prop}
    [∀ x y, Decidable (ok x y)] {x y : Process n pageSize}
    (moved : x.feed ok input = some (y, e)) : x.Steps ok e y := by
  simp only [feed] at moved
  split at moved
  · rename_i z l e stepped
    split at moved
    · rename_i admitted
      cases moved
      exact ⟨l, ⟨_, _, _, stepped⟩, admitted⟩
    · contradiction
  · contradiction

variable {ok : Process n pageSize → Process n pageSize → Prop}

theorem Steps.move {x y : Process n pageSize} (step : x.Steps ok e y) (p : Fin n) :
    (∃ l e, Move (.zero pageSize) (x.view p) l e (y.view p)) ∨ y.view p = x.view p := by
  obtain ⟨_, moved, _⟩ := step
  obtain ⟨l, ⟨turn, request, reply, moved⟩, answered⟩ := moved.answered
  exact (step_view moved answered p).imp (fun move => ⟨_, _, move⟩) And.left

theorem Steps.sound {x : Process n pageSize} (run : Run (Steps ok) (initial n pageSize) h x)
    (p : Fin n) : Sound (.zero pageSize) (x.view p) := by
  refine run.state_invariant (I := fun x => Sound (.zero pageSize) (x.view p)) ?_ ?_
  · constructor <;> simp [view, initial]
  · intro x e y held step
    rcases step.move p with ⟨l, e, move⟩ | same
    · exact move.sound held
    · exact same ▸ held

theorem Steps.resident {x : Process n pageSize}
    (run : Run (Steps Orderly) (initial n pageSize) h x) (p : Fin n) : Resident (x.view p) := by
  refine run.state_invariant (I := fun x => Resident (x.view p)) ?_ ?_
  · constructor <;> simp [view, initial]
  · intro x e y held step
    rcases step.move p with ⟨l, e, move⟩ | same
    · exact move.resident held (step.elim fun _ h => h.2 p)
    · exact same ▸ held

theorem Idle.view {x : Process n pageSize} (idle : x.Idle) (p : Fin n) :
    (x.view p).client = none ∧ (x.view p).resolver = none ∧ (x.view p).server = none := by
  obtain ⟨main, handler, server⟩ := idle
  simp [Process.view, main, handler, server]

/-- In an idle process MODIFIED pages are resident, and INVALID pages are absent as
long as no entry was set INVALID under a page that is present or about to be. -/
theorem idle_entries_match_mapping :
    (∀ (h : List (Event n pageSize)) x, Run (Steps Anyhow) (initial n pageSize) h x → x.Idle →
      ∀ p, x.msiArray p = .modified → x.mapping p ≠ none) ∧
    (∀ (h : List (Event n pageSize)) x, Run (Steps Orderly) (initial n pageSize) h x → x.Idle →
      ∀ p, x.msiArray p = .invalid → x.mapping p = none) := by
  refine ⟨fun h x run idle p modified => ?_, fun h x run idle p invalid =>
    (Steps.resident run p).absent invalid⟩
  obtain ⟨client, _, server⟩ := idle.view p
  rcases (Steps.sound run p).modified modified with present | ⟨c, echo⟩ | invalidating
  · exact present
  · rw [client] at echo
    cases echo
  · rw [server] at invalidating
    cases invalidating

/-- A write to page 0 whose fault is answered "0", and an 'I' for page 1. -/
def writeAndInvalidate (p q : Fin n) : List (Turn n × Option (MsgRequest n) × Option (Reply n 8)) :=
  [(.command (.write [72, 105] (some p)), none, none), (.main, none, none),
    (.fault p, none, none), (.handler, none, none), (.handler, none, none),
    (.handler, none, some (.absent p)), (.handler, none, none), (.handler, none, none),
    (.server, some (.invalidate q), none), (.server, none, none), (.server, none, none)] ++
  List.replicate 5 (.main, none, none)

theorem idle_entries_match_mapping_written : ∃ (h : List (Event 2 8)) (x : Process 2 8),
    Run (Steps Orderly) (initial 2 8) h x ∧ x.Idle ∧ x.msiArray 0 = .modified ∧
      x.mapping 0 ≠ none ∧ x.msiArray 1 = .invalid ∧ x.mapping 1 = none := by
  have followed : (exec (feed Orderly) (initial 2 8) (writeAndInvalidate 0 1)).any (fun r =>
      r.1.Idle ∧ r.1.msiArray 0 = .modified ∧ r.1.msiArray 1 = .invalid) := by decide +kernel
  obtain ⟨x, h, run, idle, modified, invalid⟩ := exec_any followed feed_sound
  have loose : Run (Steps Anyhow) (initial 2 8) h x :=
    run.mono fun _ step => step.imp fun _ step => ⟨step.1, trivial⟩
  exact ⟨h, x, run, idle, modified,
    idle_entries_match_mapping.1 h x loose idle 0 modified, invalid,
    idle_entries_match_mapping.2 h x run idle 1 invalid⟩

/-- A read whose fault is answered "0", with an 'I' read before the page is installed. -/
def readAndInvalidate (p : Fin n) : List (Turn n × Option (MsgRequest n) × Option (Reply n 8)) :=
  [(.command (.read (some p)), none, none), (.main, none, none),
    (.fault p, none, none), (.handler, none, none), (.handler, none, none),
    (.handler, none, some (.absent p)), (.handler, none, none),
    (.server, some (.invalidate p), none), (.server, none, none), (.server, none, none),
    (.handler, none, none), (.main, none, none), (.main, none, none)]

/-- An 'I' between the SHARED of a fetch and the installation of its page leaves the
page resident and INVALID. -/
theorem idle_entry_invalid_resident : ∃ (h : List (Event 1 8)) (x : Process 1 8),
    Run (Steps Anyhow) (initial 1 8) h x ∧ x.Idle ∧ x.msiArray 0 = .invalid ∧
      x.mapping 0 ≠ none := by
  have followed : (exec (feed Anyhow) (initial 1 8) (readAndInvalidate 0)).any (fun r =>
      r.1.Idle ∧ r.1.msiArray 0 = .invalid ∧ r.1.mapping 0 ≠ none) := by decide +kernel
  obtain ⟨x, h, run, known⟩ := exec_any followed feed_sound
  exact ⟨h, x, run, known⟩

end Process
end CSE306.S2DSM
