import CSE306.S2DSM.Refinement
import CSE306.S2DSM.Termination

/-! Where the two processes come to when no more commands are typed: every way of
going on ends, and the only end besides rest is that of two crossed fetches. -/
namespace CSE306.S2DSM
open Transition Transition.Duplex Replica

variable {n pageSize : Nat}

namespace Process

theorem step_uncommanded {x y : Process n pageSize}
    (moved : x.step request reply turn = some (y, l, e)) (other : ∀ c, turn ≠ .command c) :
    ∀ c, e ≠ some (.command c) := by
  rintro c rfl
  rcases step_main moved with ⟨_, unseen⟩ | moved | ⟨c, command, _⟩
  · cases unseen
  · cases mainStep_move moved
  · exact other c command

theorem main_able {x : Process n pageSize} (busy : x.main ≠ .prompt) (free : ∀ p, ¬ x.Faults p) :
    x.mainStep.isSome := by
  cases here : x.main with
  | prompt => exact (busy here).elim
  | loop op pages => cases pages <;> simp [mainStep, here]
  | access stage p rest =>
    have present : stage.Touches → (x.mapping p).isSome := fun touches => by
      by_contra absent
      exact free p ⟨by simpa using absent, .inl (by simp [here, touches])⟩
    cases stage with
    | load again => cases again <;> simpa [mainStep, here] using present trivial
    | print | store | echo => simpa [mainStep, here] using present trivial
    | mark | notify => simp [mainStep, here]

theorem Stopped.waits {x : Process n pageSize} (stopped : x.Stopped) : x.Waits := by
  obtain ⟨p, copying, absent⟩ := stopped
  exact .inl ⟨p, absent, .inr (by simp [copying])⟩

theorem resolving_waits {x : Process n pageSize} (sound : Sound (.zero pageSize) (x.view p))
    (here : x.handler = .resolving stage p) : x.Waits := by
  have resolving : (x.view p).resolver ≠ none := by simp [view, here]
  have absent : x.mapping p = none := sound.gone resolving
  refine .inl ⟨p, absent, ?_⟩
  rcases sound.waited resolving with ⟨stage, client, touches⟩ | copying
  · left
    cases main : x.main with
    | prompt | loop => simp [view, main] at client
    | access stage q rest =>
      simp only [view, main, Option.ite_none_right_eq_some, Option.some.injEq] at client
      obtain ⟨rfl, rfl⟩ := client
      exact ⟨rfl, (Stage.touches_map _ stage).mp touches⟩
  · right
    cases server : x.server with
    | receive => simp [view, server] at copying
    | serving stage q =>
      simp only [view, server, Option.ite_none_right_eq_some, Option.some.injEq] at copying
      obtain ⟨rfl, rfl⟩ := copying
      rfl

theorem MainMove.within {x y : Process n pageSize} (move : x.MainMove l e y)
    (here : x.main = .access stage p rest) (q : Fin n) : ¬ Begins (x.view q) (y.view q) := by
  rintro ⟨idle, begun⟩
  simp only [view, here] at idle
  cases move with
  | finish at_ | enter at_ => cases here.symm.trans at_
  | load at_ | print at_ | notify at_ => simp [view] at begun
  | peek at_ | store at_ | mark at_ | echo at_ =>
    cases here.symm.trans at_
    simp only [view] at begun
    exact begun (by simp_all)

end Process

/-- Nothing is under way on this side but the commands of `main` still to be carried out. -/
def Paused (x : Node n pageSize) : Prop :=
  (∀ stage p rest, x.party.main ≠ .access stage p rest) ∧ x.party.handler = .poll ∧
    x.party.server = .receive ∧ x.accepted = [] ∧ x.connect = []

/-- Some thread can take a step that starts no command and, unless nothing else is under
way, no access. -/
theorem Runs.able {s : System n pageSize} (run : System.Runs ok h s) (busy : ¬ s.Quiescent)
    (apart : ¬ ∀ j, Crossed (s j)) :
    ∃ i turn, ((s i).party.step (s i).accepted.head? (s i).connect.head? turn).isSome ∧
      (turn.Assists ∨ turn = .main ∧
        ((∃ stage p rest, (s i).party.main = .access stage p rest) ∨ ∀ j, Paused (s j))) := by
  have wired := fun i q => Runs.wired run i q
  by_cases assisted : ∃ j, Assisted (s j)
  · obtain ⟨j, turn, assists, able⟩ := assisted
    exact ⟨j, turn, able, .inl assists⟩
  have stalled : ∀ j, ¬ Assisted (s j) := fun j able => assisted ⟨j, able⟩
  have free : ∀ i, ¬ (s i).party.Waits := fun i waits =>
    assisted ((Runs.assisted run waits).mpr apart)
  have present : ∀ i p, ¬ (s i).party.Faults p := fun i p faults => free i (.inl ⟨p, faults⟩)
  by_cases access : ∃ i stage p rest, (s i).party.main = .access stage p rest
  · obtain ⟨i, stage, p, rest, here⟩ := access
    refine ⟨i, .main, ?_, .inr ⟨rfl, .inl ⟨stage, p, rest, here⟩⟩⟩
    exact Process.main_able (by simp [here]) (present i)
  have paused : ∀ j, Paused (s j) := by
    intro j
    have idle : ¬ ((s j).accepted ≠ [] ∨ (s j).party.server ≠ .receive) := fun busy =>
      free j (Process.stopped_of_stalled (stalled j) busy).waits
    simp only [not_or, not_not] at idle
    refine ⟨fun stage p rest here => access ⟨j, stage, p, rest, here⟩, ?_, idle.2, idle.1,
      Assisted.unread (wired j) (stalled j)⟩
    cases handler : (s j).party.handler with
    | poll => rfl
    | resolving stage p =>
      exact (free j (Process.resolving_waits (wired j p).sound handler)).elim
  obtain ⟨i, here⟩ : ∃ i, (s i).party.main ≠ .prompt := by
    by_contra rest
    push Not at rest
    exact busy fun i => ⟨⟨rest i, (paused i).2.1, (paused i).2.2.1⟩, (paused i).2.2.2⟩
  exact ⟨i, .main, Process.main_able here (present i), .inr ⟨rfl, .inr paused⟩⟩

/-- A step that is not the start of a command. -/
def System.Works (ok : Node n pageSize → Node n pageSize → Process n pageSize → Prop)
    (s : System n pageSize) (e : Option (Side × Event n pageSize)) (t : System n pageSize) : Prop :=
  System.Step ok s e t ∧ ∀ i c, e ≠ some (i, .command c)

theorem System.Works.spends {s t : System n pageSize} (works : System.Works ok s e t) :
    t.work < s.work := by
  obtain ⟨step, quiet⟩ := works
  have pays := System.step_pays step
  have free : credited (fun e : Side × Event n pageSize => e.2.work) e = 0 := by
    rcases e with _ | ⟨i, c | _ | _⟩
    · rfl
    · exact (quiet i c rfl).elim
    · rfl
    · rfl
  omega

theorem Turn.Assists.uncommanded {turn : Turn n} (assists : turn.Assists) :
    ∀ c, turn ≠ .command c := by
  rintro c rfl
  exact assists

theorem Runs.works {s : System n pageSize} (able : (s i).party.step (s i).accepted.head?
    (s i).connect.head? turn = some (x, l, e)) (other : ∀ c, turn ≠ .command c)
    (admitted : ok (s i) (s i.peer) x) : ∃ e t, System.Works ok s e t := by
  refine ⟨_, _, .turn i admitted ⟨turn, _, _, able⟩ (Process.step_enabled able), ?_⟩
  intro j c shown
  obtain ⟨e, rfl, same⟩ := Option.map_eq_some_iff.mp shown
  cases same
  exact Process.step_uncommanded able other c rfl

/-- The work ahead in a reachable state came with the commands before it. -/
theorem Runs.work_le {s : System n pageSize} (run : System.Runs ok h s) :
    s.work ≤ 2 * faultWork * n + History.work h := by
  obtain ⟨k, counted⟩ := run.counted
  have paid := steps_paid counted
  exact Nat.le_trans (Nat.le_add_left _ _) paid

/-- Reachable states that can go on short of a goal inevitably reach it. -/
theorem Runs.inevitable {goal : System n pageSize → Prop}
    (able : ∀ {h s}, System.Runs ok h s → ¬ goal s → ∃ e t, System.Works ok s e t)
    (run : System.Runs ok h s) :
    Inevitable (System.Works ok) goal (2 * faultWork * n + History.work h) s := by
  refine .of_history (I := System.Runs ok) ?_ ?_ able run (Runs.work_le run)
  · intro h s e t run works
    exact run.next works.1
  · intro h s e t _ works
    exact works.spends

/-- A turn that is not of the handler or the server leaves them where they are, and no
absent page becomes present. -/
theorem Process.step_aside {x y : Process n pageSize}
    (moved : x.step request reply turn = some (y, l, e)) (aside : ¬ turn.Assists) :
    y.handler = x.handler ∧ y.server = x.server ∧ ∀ p, x.mapping p = none → y.mapping p = none := by
  cases turn with
  | fault | handler | server => exact (aside trivial).elim
  | command c =>
    simp only [step] at moved
    split at moved
    · cases moved
      exact ⟨rfl, rfl, fun _ => id⟩
    · cases moved
  | main =>
    cases mainStep_move moved with
    | @store _ q _ _ _ present =>
      refine ⟨rfl, rfl, fun p absent => ?_⟩
      have other : p ≠ q := by
        rintro rfl
        cases absent.symm.trans present
      simpa [setPage, Function.update_of_ne other] using absent
    | _ => exact ⟨rfl, rfl, fun _ => id⟩

theorem Process.step_heads {own : Node n pageSize}
    (moved : own.party.step request reply turn = some (x, l, e)) (ready : own.Enabled l) :
    own.party.step own.accepted.head? own.connect.head? turn = some (x, l, e) := by
  cases turn with
  | command | main | fault => exact moved
  | handler =>
    simp only [step, faultHandlerThread] at moved ⊢
    split at moved
    · cases moved
    · exact moved
    · exact moved
    · split at moved
      · cases moved
        simp [show own.connect.head? = _ from ready]
      · cases moved
        simp [show own.connect.head? = _ from ready]
      · cases moved
    · split at moved
      · cases moved
        simp [show own.connect.head? = _ from ready]
      · cases moved
    · exact moved
    · exact moved
  | server =>
    simp only [step, serverThread] at moved ⊢
    split at moved
    · split at moved
      · cases moved
        simp [show own.accepted.head? = _ from ready]
      · cases moved
        simp [show own.accepted.head? = _ from ready]
      · cases moved
    all_goals exact moved

/-- Two crossed fetches stay so, whatever the main threads do. -/
theorem Runs.crossed_step {s t : System n pageSize} (run : System.Runs ok h s)
    (crossed : ∀ j, Crossed (s j)) (step : System.Step ok s e t) : ∀ j, Crossed (t j) := by
  obtain ⟨i, -, ⟨turn, request, reply, moved⟩, ready⟩ := step
  rename_i x l e
  have aside : ¬ turn.Assists := fun assists =>
    (crossed i).stalled (fun q => Runs.wired run i q) (crossed i.peer).2
      ⟨turn, assists, by simp [Process.step_heads moved ready]⟩
  obtain ⟨handler, server, absent⟩ := Process.step_aside moved aside
  intro j
  rcases Side.eq_or_peer i j with rfl | rfl
  · obtain ⟨⟨p, waiting⟩, q, copying, gone⟩ := crossed j
    rw [Net.post_self]
    exact ⟨⟨p, by simpa [handler] using waiting⟩, q, by simpa [server] using copying,
      by simpa using absent q gone⟩
  · obtain ⟨⟨p, waiting⟩, q, copying, gone⟩ := crossed i.peer
    rw [Net.post_peer]
    exact ⟨⟨p, by simpa using waiting⟩, q, by simpa using copying, by simpa using gone⟩

/-- The ends that commands come to: rest, or two fetches crossed for good. -/
theorem commands_end_or_cross :
    (∀ (h : History n pageSize) s, System.Runs free h s →
      Inevitable (System.Works free) (fun t => t.Quiescent ∨ ∀ j, Crossed (t j))
        (2 * faultWork * n + History.work h) s) ∧
    (∀ (h : History n pageSize) s, System.Runs free h s → (∀ j, Crossed (s j)) →
      ∀ k t, Run (System.Step free) s k t → (∀ j, Crossed (t j)) ∧ ¬ t.Quiescent) := by
  refine ⟨fun h s run => Runs.inevitable (fun run short => ?_) run,
    fun h s run crossed k t after => ?_⟩
  · simp only [not_or] at short
    obtain ⟨i, turn, able, which⟩ := Runs.able run short.1 short.2
    obtain ⟨⟨x, l, e⟩, moved⟩ := Option.isSome_iff_exists.mp able
    refine Runs.works moved ?_ trivial
    rcases which with assists | ⟨rfl, _⟩
    · exact assists.uncommanded
    · exact fun c => nofun
  · have later : System.Runs free (h ++ k) t ∧ ∀ j, Crossed (t j) := by
      induction after with
      | start => exact ⟨by simpa using run, crossed⟩
      | next _ edge ih =>
        refine ⟨?_, Runs.crossed_step ih.1 ih.2 edge⟩
        simpa only [List.append_assoc] using Run.next ih.1 edge
    refine ⟨later.2, fun rest => ?_⟩
    obtain ⟨p, waiting⟩ := (later.2 .first).1
    cases (rest .first).1.2.1.symm.trans waiting

theorem commands_end_or_cross_crossed : ∃ (h : History 2 8) (s : System 2 8),
    System.Runs free h s ∧ (∀ j, Crossed (s j)) ∧
      Inevitable (System.Works free) (fun t => t.Quiescent ∨ ∀ j, Crossed (t j))
        (2 * faultWork * 2 + History.work h) s ∧ ¬ s.Quiescent := by
  have followed : (exec (System.step free) (System.initial 2 8) (crossing 0 1)).any (fun r =>
      (r.1 .first).party.handler = .resolving .page 0 ∧
        (r.1 .second).party.handler = .resolving .page 1 ∧
        (r.1 .first).party.Stopped ∧ (r.1 .second).party.Stopped) := by decide +kernel
  obtain ⟨s, h, run, first, second, stopped, stopped'⟩ := exec_any followed System.step_sound
  have crossed : ∀ j, Crossed (s j) := by
    intro j
    cases j with
    | first => exact ⟨⟨0, first⟩, stopped⟩
    | second => exact ⟨⟨1, second⟩, stopped'⟩
  exact ⟨h, s, run, crossed, commands_end_or_cross.1 h s run,
    (commands_end_or_cross.2 h s run crossed [] s .start).2⟩

theorem Process.step_main_aside {x y : Process n pageSize}
    (moved : x.step request reply turn = some (y, l, e)) (assists : turn.Assists) :
    y.main = x.main := by
  cases turn with
  | command | main => exact assists.elim
  | fault p =>
    simp only [step, faultStep] at moved
    grind
  | handler =>
    simp only [step, faultHandlerThread] at moved
    grind [setMsi, setPage]
  | server =>
    simp only [step, serverThread] at moved
    grind [setMsi, setPage, Option.map_eq_some_iff]

theorem Paused.still {x : Node n pageSize} (paused : Paused x) (p : Fin n) :
    (Node.view p x).Still := by
  obtain ⟨main, handler, server, accepted, _⟩ := paused
  refine ⟨?_, ?_, ?_, ?_⟩
  · cases here : x.party.main with
    | prompt | loop => simp [Node.view, End.filter, Process.view, here]
    | access stage q rest => exact (main stage q rest here).elim
  · simp [Node.view, End.filter, Process.view, handler]
  · simp [Node.view, End.filter, Process.view, server]
  · simp [Node.view, End.filter, accepted]

/-- No fetches cross where the accesses to each page are serialised. -/
theorem Runs.not_crossed (run : System.Runs Serialised h s) : ¬ ∀ j, Crossed (s j) := by
  intro crossed
  obtain ⟨_, q, copying, absent⟩ := crossed .first
  exact Runs.copies_resident run .first copying absent

/-- Where the accesses to each page are serialised, every command is carried out: without
further commands both processes come to rest, whichever thread moves when. -/
theorem serialised_commands_end (run : System.Runs Serialised h s) :
    Inevitable (System.Works Serialised) System.Quiescent
      (2 * faultWork * n + History.work (h : History n pageSize)) s := by
  refine Runs.inevitable (fun {h s} run short => ?_) run
  obtain ⟨i, turn, able, which⟩ := Runs.able run short (Runs.not_crossed run)
  obtain ⟨⟨x, l, e⟩, moved⟩ := Option.isSome_iff_exists.mp able
  rcases which with assists | ⟨rfl, ⟨stage, p, rest, here⟩ | paused⟩
  · refine Runs.works moved assists.uncommanded fun q begins => ?_
    have same : (x.view q).client = ((s i).party.view q).client := by
      simp only [Process.view, Process.step_main_aside moved assists]
    exact (begins.2 (same.trans begins.1)).elim
  · refine Runs.works moved (fun c => nofun) fun q begins => ?_
    exact ((Process.mainStep_move moved).within here q begins).elim
  · exact Runs.works moved (fun c => nofun) fun q _ => ⟨(paused i).still q, (paused i.peer).still q⟩

theorem serialised_commands_end_writing : ∃ (h : History 1 8) (s : System 1 8),
    System.Runs Serialised h s ∧ ¬ s.Quiescent ∧
      Inevitable (System.Works Serialised) System.Quiescent
        (2 * faultWork * 1 + History.work h) s := by
  have followed : (exec (System.step Serialised) (System.initial 1 8)
      ((System.writeThenRead 0).take 5)).any (fun r => ¬ r.1.Quiescent) := by decide +kernel
  obtain ⟨s, h, run, busy⟩ := exec_any followed System.step_sound
  exact ⟨h, s, run, busy, serialised_commands_end run⟩

end CSE306.S2DSM
