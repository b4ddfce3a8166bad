import CSE306.S2DSM.Addressed
import CSE306.S2DSM.Turns

/-! Two users who take turns at the two processes in their address spaces: what is printed and
stored there is what one array of strings answers. -/
namespace CSE306.S2DSM
open Transition Transition.Duplex

variable {n pageSize : Nat}

def RawEvent.command? : RawEvent → Option RawCommand
  | .command c => some c
  | _ => none

/-- The string that is printed, or that is left in a page. -/
def RawEvent.answer? (pageSize : Nat) : RawEvent → Option (BitVec 32 × List UInt8)
  | .command _ => none
  | .wrote i typed => some (i, message pageSize typed)
  | .printed i text => some (i, text)

theorem Event.command?_raw (e : Event n pageSize) :
    e.raw.command? = e.command?.map Command.raw := by cases e <;> rfl

theorem Event.answer?_raw (e : Event n pageSize) :
    e.raw.answer? pageSize = e.answer?.map (Prod.map index id) := by cases e <;> rfl

theorem History.commands_raw (h : History n pageSize) :
    (h.map (Prod.map id Event.raw)).filterMap (·.2.command?) = h.commands.map Command.raw := by
  rw [List.filterMap_map, History.commands, List.map_filterMap]
  exact congrArg (List.filterMap · h) (funext fun e => e.2.command?_raw)

theorem History.answers_raw (h : History n pageSize) :
    (h.map (Prod.map id Event.raw)).filterMap (·.2.answer? pageSize) =
      h.answers.map (Prod.map index id) := by
  rw [List.filterMap_map, History.answers, List.map_filterMap]
  exact congrArg (List.filterMap · h) (funext fun e => e.2.answer?_raw)

/-- Only commands cost work. -/
theorem History.work_eq (h : History n pageSize) :
    History.work h = (h.commands.map Command.work).sum := by
  induction h with
  | nil => rfl
  | cons e h ih =>
    rw [History.work] at ih ⊢
    obtain ⟨i, c | _ | _⟩ := e
    · exact congrArg (c.work + ·) ih
    · exact (Nat.zero_add _).trans ih
    · exact (Nat.zero_add _).trans ih

namespace Machines

/-- No thread of this side works, and no message for it is on its way. -/
def Rests (x : End (Machine n pageSize) RawRequest (RawReply pageSize)) : Prop :=
  x.party.main = .prompt ∧ x.party.handler = .poll ∧ x.party.server = .receive ∧
    x.accepted = [] ∧ x.connect = []

/-- A command begins only when both processes are at rest. -/
def TakesTurns (x y : End (Machine n pageSize) RawRequest (RawReply pageSize))
    (p : Machine n pageSize) : Prop :=
  x.party.main = .prompt → p.main ≠ .prompt → Rests x ∧ Rests y

/-- A step that is not the start of a command. -/
def Works (s : Machines n pageSize) (e : Option (Side × RawEvent)) (t : Machines n pageSize) :
    Prop :=
  Duplex.Step TakesTurns Machine.Moves s e t ∧ ∀ i c, e ≠ some (i, .command c)

variable {m : Side → Mapping n} {sized : ∀ i, (m i).pageSize.toNat = pageSize}
  {outside : Side → AddressSpace} {s : System n pageSize} {t : Machines n pageSize}

theorem prompt_iff {x : Process n pageSize} {y : Machine n pageSize} {space : AddressSpace}
    (placed : x.Placed space y) : x.main = .prompt ↔ y.main = .prompt := by
  have tracked := placed.main
  generalize x.main = main, y.main = main' at tracked
  cases tracked <;> simp

theorem Placed.rests_iff (placed : Placed m outside s t) (i : Side) :
    Node.Rests (s i) ↔ Rests (t i) := by
  obtain ⟨⟨here, _⟩, accepted, connect⟩ := placed i
  have handler : (s i).party.handler = .poll ↔ (t i).party.handler = .poll := by
    have tracked := here.handler
    generalize (s i).party.handler = handler, (t i).party.handler = handler' at tracked
    cases tracked <;> simp
  have server : (s i).party.server = .receive ↔ (t i).party.server = .receive := by
    rw [here.server]
    cases (s i).party.server <;> simp [Server.raw]
  rw [Node.Rests, Process.Idle, Rests, prompt_iff here, handler, server, accepted, connect,
    List.map_eq_nil_iff, List.map_eq_nil_iff, and_assoc, and_assoc]

/-- Whoever takes turns does so on the pages and in the address spaces. -/
theorem Placed.takesTurns (placed : Placed m outside s t) {p : Process n pageSize}
    {p' : Machine n pageSize} (same : p.Placed (outside i) p' ∧ p'.layout = m i) :
    S2DSM.TakesTurns (s i) (s i.peer) p ↔ TakesTurns (t i) (t i.peer) p' := by
  rw [S2DSM.TakesTurns, TakesTurns, prompt_iff (placed i).party.1, Ne, prompt_iff same.1,
    placed.rests_iff, placed.rests_iff]

theorem of_runs (sized : ∀ i, (m i).pageSize.toNat = pageSize) (fits : ∀ i, (m i).Fits)
    (run : Run (Duplex.Step TakesTurns Machine.Moves) (initial m sized outside) h' t) :
    ∃ (h : History n pageSize) (s : System n pageSize), System.Runs S2DSM.TakesTurns h s ∧
      h.map (Prod.map id Event.raw) = h' ∧ Placed m outside s t := by
  have positive : 0 < pageSize := sized .first ▸ (m .first).pageSize_bounds.1
  refine run.lift (.initial fits) fun {h s t e' t'} below placed step => ?_
  exact placed.back positive below (fun admitted same => (placed.takesTurns same).mpr admitted) step

theorem to_runs (m : Side → Mapping n) (sized : ∀ i, (m i).pageSize.toNat = pageSize)
    (fits : ∀ i, (m i).Fits) (outside : Side → AddressSpace) {h : History n pageSize}
    (run : System.Runs S2DSM.TakesTurns h s) : ∃ t,
      Run (Duplex.Step TakesTurns Machine.Moves) (initial m sized outside)
        (h.map (Prod.map id Event.raw)) t ∧ Placed m outside s t := by
  have positive : 0 < pageSize := sized .first ▸ (m .first).pageSize_bounds.1
  refine run.simulate (.initial fits) fun {h s t e u} below placed step => ?_
  exact placed.follow positive below (fun admitted same => (placed.takesTurns same).mp admitted)
    step

theorem raw_uncommanded {e : Option (Side × Event n pageSize)} :
    (∀ i c, e.map (Prod.map id Event.raw) ≠ some (i, .command c)) ↔
      ∀ i c, e ≠ some (i, .command c) := by
  rcases e with _ | ⟨j, c | _ | _⟩
  · simp
  · constructor
    · exact fun other => (other j c.raw rfl).elim
    · exact fun other => (other j c rfl).elim
  · simp [Event.raw]
  · simp [Event.raw]

theorem comes_to_rest (positive : 0 < pageSize) (run : System.Runs S2DSM.TakesTurns h s)
    (placed : Placed m outside s t) :
    Inevitable Works (fun t => ∀ i, Rests (t i))
      (2 * faultWork * n + ((History.commands h).map Command.work).sum) t := by
  rw [← History.work_eq]
  refine .lift (R := fun s t => (∃ h, System.Runs S2DSM.TakesTurns h s) ∧ Placed m outside s t)
    ?_ ?_ ?_ (Runs.comes_to_rest run) ⟨⟨h, run⟩, placed⟩
  · rintro s t ⟨_, placed⟩ rest i
    exact (placed.rests_iff i).mp (rest i)
  · rintro s t e s' ⟨⟨h, run⟩, placed⟩ ⟨step, quiet⟩
    obtain ⟨t', step', _⟩ := placed.follow positive run
      (fun admitted same => (placed.takesTurns same).mp admitted) step
    exact ⟨_, t', step', raw_uncommanded.mpr quiet⟩
  · rintro s t e' t' ⟨⟨h, run⟩, placed⟩ ⟨step, quiet⟩
    obtain ⟨e, s', step', rfl, placed'⟩ := placed.back positive run
      (fun admitted same => (placed.takesTurns same).mpr admitted) step
    exact ⟨e, s', ⟨step', raw_uncommanded.mp quiet⟩, ⟨_, run.next step'⟩, placed'⟩

/-- Two users who take turns at the two processes work on one array of strings: what is printed
and what is stored is what the array answers to the commands of both, a write prints its message,
and whichever thread moves when, all of it is answered within so many steps. -/
theorem turns_answer (m : Side → Mapping n) (sized : ∀ i, (m i).pageSize.toNat = pageSize)
    (fits : ∀ i, (m i).Fits) (outside : Side → AddressSpace) (h : List (Side × RawEvent))
    (t : Machines n pageSize)
    (run : Run (Duplex.Step TakesTurns Machine.Moves) (initial m sized outside) h t) :
    ∃ cs : List (Command n), h.filterMap (·.2.command?) = cs.map Command.raw ∧
      h.filterMap (·.2.answer? pageSize) <+:
        (Strings.performAll pageSize (fun _ => []) cs).2.map (Prod.map index id) ∧
      ((∀ i, Rests (t i)) → h.filterMap (·.2.answer? pageSize) =
        (Strings.performAll pageSize (fun _ => []) cs).2.map (Prod.map index id)) ∧
      (∀ i typed page rest text, (t i).party.main = .access (.echo typed) page rest →
        (t i).party.memory.stringAt ((t i).party.layout.addressLoc page) pageSize = some text →
        text = message pageSize typed) ∧
      (∀ i address, ¬(m i).Holds address → (t i).party.memory address = outside i address) ∧
      Inevitable Works (fun t => ∀ i, Rests (t i))
        (2 * faultWork * n + (cs.map Command.work).sum) t := by
  have positive : 0 < pageSize := sized .first ▸ (m .first).pageSize_bounds.1
  obtain ⟨h, s, below, rfl, placed⟩ := of_runs sized fits run
  refine ⟨h.commands, h.commands_raw, ?_, fun rest => ?_, ?_,
    fun i address away => placed.frame i away, comes_to_rest positive below placed⟩
  · rw [h.answers_raw]
    exact (Runs.answers_prefix below).map _
  · rw [h.answers_raw, Runs.answers_eq below fun i => ((placed.rests_iff i).mpr (rest i)).1.1]
  · intro i typed page rest text here read
    obtain ⟨placed, _⟩ := (placed i).party
    have tracked := placed.main
    rw [here] at tracked
    generalize at_ : (s i).party.main = main at tracked
    cases tracked with
    | access stage p covers =>
      rw [placed.memory, space_stringAt _ (t i).party.sized placed.fits
        (terminated_of_runs positive below.unrestricted i)] at read
      obtain ⟨c, present, rfl⟩ := Option.map_eq_some_iff.mp read
      rw [Runs.echoed below at_ present, cstring_stored]

/-- One user writes, and the other one reads it. -/
theorem turns_answer_written : ∃ h t,
    Run (Duplex.Step TakesTurns Machine.Moves)
        (initial (n := 1) (fun _ => onePage) (fun _ => rfl) fun _ _ => some 7) h t ∧
      h.filterMap (·.2.answer? 8) = [(0, [72, 105]), (0, [72, 105])] ∧ (∀ i, Rests (t i)) ∧
      ∃ cs : List (Command 1), h.filterMap (·.2.command?) = cs.map Command.raw ∧
        [(0, [72, 105]), (0, [72, 105])] =
          (Strings.performAll 8 (fun _ => []) cs).2.map (Prod.map index id) := by
  have followed : (exec (System.step S2DSM.TakesTurns) (System.initial 1 8)
      (System.writeThenRead 0)).any (fun r => r.1.Quiescent ∧
        (History.answers r.2).map (Prod.map index id) = [(0, [72, 105]), (0, [72, 105])]) := by
    decide +kernel
  obtain ⟨s, h, run, rest, answers⟩ := exec_any followed System.step_sound
  obtain ⟨t, run', placed⟩ :=
    to_runs (fun _ => onePage) (fun _ => rfl) (fun _ => by decide) (fun _ _ => some 7) run
  have shown := (History.answers_raw h).trans answers
  have rests : ∀ i, Rests (t i) := fun i => (placed.rests_iff i).mp (rest i)
  obtain ⟨cs, commands, _, all, _⟩ :=
    turns_answer (fun _ => onePage) (fun _ => rfl) (fun _ => by decide) _ _ t run'
  exact ⟨_, t, run', shown, rests, cs, commands, shown.symm.trans (all rests)⟩

end Machines
end CSE306.S2DSM
