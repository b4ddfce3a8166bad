import CSE306.S2DSM.Provenance

/-! When the fault handlers and the servers can go on: the only states in which a
fetch is stuck are those where both servers copy out a page their process lacks. -/
namespace CSE306.S2DSM
open Transition Transition.Duplex Replica

variable {n pageSize : Nat}

namespace Process

/-- Some thread is stopped at an absent page, or the handler waits for an answer. -/
def Waits (x : Process n pageSize) : Prop :=
  (∃ p, x.Faults p) ∨ ∃ p, x.handler = .resolving .response p ∨ x.handler = .resolving .page p

/-- The server is copying out a page that is absent. -/
def Stopped (x : Process n pageSize) : Prop :=
  ∃ p, x.server = .serving .copy p ∧ x.mapping p = none

end Process

instance (x : Process n pageSize) : Decidable x.Stopped := by unfold Process.Stopped; infer_instance

def Turn.Assists : Turn n → Prop
  | .fault _ | .handler | .server => True
  | .command _ | .main => False

/-- The fault handler or the server of a process can take a step. -/
def Assisted (x : Node n pageSize) : Prop :=
  ∃ turn : Turn n, turn.Assists ∧ (x.party.step x.accepted.head? x.connect.head? turn).isSome

/-- The server is stopped at an absent page and the handler waits for a page. -/
def Crossed (x : Node n pageSize) : Prop :=
  (∃ p, x.party.handler = .resolving .page p) ∧ x.party.Stopped

theorem Wired.asked {x y : Node n pageSize}
    (wired : ∀ q, Wired (.zero pageSize) (Node.view q x) (Node.view q y))
    (serving : y.party.server = .serving st r) (owes : st.Owes) :
    (x.party.handler = .resolving .response r ∨ x.party.handler = .resolving .page r) ∧
      (Node.view r y).accepted = [] ∧
      (x.party.handler = .resolving .page r → (Node.view r x).connect = []) := by
  have busy : (Node.view r y).party.server = some st := by
    simp [Node.view, End.filter, Process.view, serving]
  obtain ⟨drained, b, answer⟩ := (wired r).fetch.owing busy owes
  have handler : ∀ {stage}, (Node.view r x).party.resolver = some (stage, b) →
      x.party.handler = .resolving stage r := by
    intro stage resolving
    simp only [Node.view, End.filter, Process.view] at resolving
    grind
  rcases answer with ⟨resolving, _⟩ | ⟨resolving, _, unread⟩
  · have here := handler resolving
    exact ⟨.inl here, drained, fun h => by cases here.symm.trans h⟩
  · exact ⟨.inr (handler resolving), drained, fun _ => unread⟩

theorem Crossed.stalled {x y : Node n pageSize}
    (wired : ∀ q, Wired (.zero pageSize) (Node.view q x) (Node.view q y))
    (own : Crossed x) (other : y.party.Stopped) : ¬ Assisted x := by
  obtain ⟨⟨p, handler⟩, q, copying, absent⟩ := own
  obtain ⟨r, serving, _⟩ := other
  have unread : x.connect.head? = none := by
    rw [← Option.not_isSome_iff_eq_none]
    intro some
    obtain ⟨a, first⟩ := Option.isSome_iff_exists.mp some
    obtain ⟨asked, _, waits⟩ := Wired.asked wired serving trivial
    rcases expected_reply wired first with ⟨_, here, _⟩ | ⟨_, c, here, rfl⟩
    · cases handler.symm.trans here
    · rcases asked with other | other
      · cases here.symm.trans other
      · cases here.symm.trans other
        have none := waits other
        obtain ⟨rest, split⟩ := List.head?_eq_some_iff.mp first
        simp [Node.view, End.filter, split, Reply.about] at none
  rintro ⟨turn, assists, able⟩
  cases turn with
  | command | main => exact assists
  | fault s => simp [Process.step, Process.faultStep, handler] at able
  | handler => simp [Process.step, Process.faultHandlerThread, handler, unread] at able
  | server => simp [Process.step, Process.serverThread, copying, absent] at able

theorem Process.stopped_of_stalled {y : Node n pageSize} (stalled : ¬ Assisted y)
    (busy : y.accepted ≠ [] ∨ y.party.server ≠ .receive) : y.party.Stopped := by
  have stuck : ¬ (y.party.serverThread y.accepted.head?).isSome :=
    fun able => stalled ⟨.server, trivial, able⟩
  cases serving : y.party.server with
  | receive =>
    obtain ⟨q, rest, queued⟩ := List.exists_cons_of_ne_nil (busy.resolve_right (· serving))
    cases q <;> simp [Process.serverThread, serving, queued] at stuck
  | serving stage p =>
    cases stage with
    | copy =>
      refine ⟨p, serving, ?_⟩
      simpa [Process.serverThread, serving] using stuck
    | _ => simp [Process.serverThread, serving] at stuck

theorem Assisted.stuck {x : Node n pageSize} (stalled : ¬ Assisted x) (turn : Turn n)
    (assists : turn.Assists) : x.party.step x.accepted.head? x.connect.head? turn = none :=
  Option.not_isSome_iff_eq_none.mp fun able => stalled ⟨turn, assists, able⟩

theorem Process.Waits.resolving {x y : Node n pageSize}
    (wired : ∀ q, Wired (.zero pageSize) (Node.view q x) (Node.view q y))
    (waits : x.party.Waits) (stalled : ¬ Assisted x) :
    ∃ p, x.party.handler = .resolving .response p ∨ x.party.handler = .resolving .page p := by
  cases handler : x.party.handler with
  | poll =>
    rcases waits with ⟨p, faults⟩ | ⟨p, here | here⟩
    · have none := Assisted.stuck stalled (.fault p) trivial
      simp [Process.step, Process.faultStep, handler, faults] at none
    · cases handler.symm.trans here
    · cases handler.symm.trans here
  | resolving stage p =>
    have none := Assisted.stuck stalled .handler trivial
    cases stage with
    | response => exact ⟨p, .inl rfl⟩
    | page => exact ⟨p, .inr rfl⟩
    | install =>
      have gone : x.party.mapping p = Option.none :=
        (wired p).sound.gone (by simp [Node.view, End.filter, Process.view, handler])
      simp [Process.step, Process.faultHandlerThread, handler, gone] at none
    | _ => simp [Process.step, Process.faultHandlerThread, handler] at none

theorem Assisted.unread {x y : Node n pageSize}
    (wired : ∀ q, Wired (.zero pageSize) (Node.view q x) (Node.view q y))
    (stalled : ¬ Assisted x) : x.connect = [] := by
  by_contra some
  obtain ⟨r, rest, split⟩ := List.exists_cons_of_ne_nil some
  have none := Assisted.stuck stalled .handler trivial
  rcases expected_reply wired (r := r) (by simp [split]) with
    ⟨q, handler, rfl | rfl⟩ | ⟨q, c, handler, rfl⟩
  all_goals simp [Process.step, Process.faultHandlerThread, handler, split] at none

theorem Process.Waits.stopped {x y : Node n pageSize}
    (wired : ∀ q, Wired (.zero pageSize) (Node.view q x) (Node.view q y))
    (waits : x.party.Waits) (own : ¬ Assisted x) (other : ¬ Assisted y) :
    (∃ p, x.party.handler = .resolving .page p) ∧ y.party.Stopped := by
  obtain ⟨p, here⟩ := waits.resolving wired own
  have unread := Assisted.unread wired own
  have fetch := (wired p).fetch
  rcases here with here | here
  · -- An unread 'F' would let the server go on; one it answers waits for `p` still.
    simp only [Matched, Node.view, End.filter, Process.view, here, if_true, unread,
      List.filterMap_nil] at fetch
    have stopped : y.party.Stopped := by
      apply Process.stopped_of_stalled other
      rcases fetch.unanswered with queued | serving
      · exact .inl fun empty => by simp [empty] at queued
      · exact .inr fun idle => by simp [idle] at serving
    obtain ⟨q, copying, _⟩ := stopped
    obtain ⟨asked, drained, _⟩ := Wired.asked wired copying trivial
    have same : p = q := by
      rcases asked with h | h <;> cases here.symm.trans h
      rfl
    subst same
    rcases fetch.unanswered with queued | serving
    · simp only [Node.view, End.filter] at drained
      simp [drained] at queued
    · simp [copying] at serving
  · simp only [Matched, Node.view, End.filter, Process.view, here, if_true, unread,
      List.filterMap_nil] at fetch
    refine ⟨⟨p, here⟩, Process.stopped_of_stalled other (.inr fun idle => ?_)⟩
    simp [idle] at fetch
    cases fetch.unpaged

/-- In any state with a thread stopped at an absent page or a handler waiting for an
answer, some handler or server can go on, unless both are stopped at each other. -/
theorem Runs.assisted (run : System.Runs ok h s) (waits : (s i).party.Waits) :
    (∃ j, Assisted (s j)) ↔ ¬ ∀ j, Crossed (s j) := by
  have wired := fun q => Runs.wired run i q
  have wired' := fun q => Runs.wired run i.peer q
  simp only [Side.peer_peer] at wired'
  constructor
  · rintro ⟨j, able⟩ crossed
    exact (crossed j).stalled (fun q => Runs.wired run j q) (crossed j.peer).2 able
  · intro apart
    by_contra none
    have stalled : ∀ j, ¬ Assisted (s j) := fun j able => none ⟨j, able⟩
    obtain ⟨waiting, stopped⟩ := waits.stopped wired (stalled i) (stalled i.peer)
    have waits' : (s i.peer).party.Waits := by
      obtain ⟨q, copying, absent⟩ := stopped
      exact .inl ⟨q, absent, .inr (by simp [copying])⟩
    obtain ⟨waiting', stopped'⟩ := waits'.stopped wired' (stalled i.peer) (stalled i)
    refine apart fun j => ?_
    rcases Side.eq_or_peer i j with rfl | rfl
    · exact ⟨waiting, stopped'⟩
    · exact ⟨waiting', stopped⟩

/-- A server starts to copy out an absent page only while the other server is not
stopped at one. -/
def Uncrossed (x y : Node n pageSize) (p : Process n pageSize) : Prop :=
  p.Stopped → x.party.Stopped ∨ ¬ y.party.Stopped

instance (x y : Node n pageSize) (p : Process n pageSize) : Decidable (Uncrossed x y p) := by
  unfold Uncrossed
  infer_instance

theorem Runs.uncrossed {s : System n pageSize} (run : System.Runs Uncrossed h s) (i : Side) :
    ¬ ((s i).party.Stopped ∧ (s i.peer).party.Stopped) := by
  refine pair_invariant (I := fun _ (x y : Node n pageSize) =>
    ¬ (x.party.Stopped ∧ y.party.Stopped)) (fun i => ?_) ?_ run i
  · rintro ⟨⟨_, copying, _⟩, _⟩
    cases copying
  · rintro h s i p l e - own - admitted - -
    simp only [End.fire_party, End.receive_party]
    refine ⟨fun both => ?_, fun both => ?_⟩
    · rcases admitted both.1 with before | free
      · exact own ⟨before, both.2⟩
      · exact free both.2
    · rcases admitted both.2 with before | free
      · exact own ⟨before, both.1⟩
      · exact free both.1

/-- A fetch goes on in every reachable state but those where on both sides the server is
stopped at an absent page and the handler waits for a page; it always goes on in a run
where no server starts to copy out an absent page while the other is stopped at one. -/
theorem fetches_go_on :
    (∀ (h : History n pageSize) s, System.Runs free h s → (∃ i, (s i).party.Waits) →
      ((∃ j, Assisted (s j)) ↔ ¬ ∀ j, Crossed (s j))) ∧
    (∀ (h : History n pageSize) s, System.Runs Uncrossed h s → (∃ i, (s i).party.Waits) →
      ∃ j, Assisted (s j)) := by
  refine ⟨fun h s run ⟨i, waits⟩ => Runs.assisted run waits, fun h s run ⟨i, waits⟩ => ?_⟩
  exact (Runs.assisted run waits).mpr fun crossed =>
    Runs.uncrossed run .first ⟨(crossed .first).2, (crossed .second).2⟩

theorem fetches_go_on_first : ∃ (h : History 1 8) (s : System 1 8),
    System.Runs Uncrossed h s ∧ (s .first).party.handler = .resolving .response 0 ∧
      ∃ j, Assisted (s j) := by
  have followed : (exec (System.step Uncrossed) (System.initial 1 8)
      ((System.writeThenRead 0).take 5)).any (fun r =>
        (r.1 .first).party.handler = .resolving .response 0) := by decide +kernel
  obtain ⟨s, h, run, waiting⟩ := exec_any followed System.step_sound
  exact ⟨h, s, run, waiting, fetches_go_on.2 h s run ⟨.first, .inr ⟨0, .inl waiting⟩⟩⟩

/-- `i` ends up with page `p` INVALID and absent, its peer with it SHARED and absent:
the peer writes twice, and `i` handles the two requests before and after a read that
the peer answers "0". -/
def hollow (i : Side) (p : Fin n) : List (Side × List (Turn n)) :=
  [(i.peer, [.command (.write [65] (some p)), .main, .fault p, .handler, .handler]),
    (i, List.replicate 4 .server),
    (i.peer, List.replicate 3 .handler ++ List.replicate 5 .main ++
      .command (.write [66] (some p)) :: List.replicate 6 .main),
    (i, [.command (.write [67] (some p)), .main, .fault p, .handler, .handler] ++
      List.replicate 5 .main),
    (i.peer, List.replicate 3 .server),
    (i, List.replicate 3 .server ++
      [.command (.read (some p)), .main, .fault p, .handler, .handler]),
    (i.peer, List.replicate 4 .server),
    (i, List.replicate 3 .handler ++ List.replicate 2 .main ++ List.replicate 3 .server)]

/-- Then each side reads the page the other one holds SHARED and absent. -/
def crossing (p q : Fin n) : List (Side × Turn n) := System.stretches <|
  hollow .first p ++ hollow .second q ++
    [(.first, [.command (.read (some p)), .main, .fault p, .handler, .handler]),
      (.second, [.command (.read (some q)), .main, .fault q, .handler, .handler] ++
        List.replicate 3 .server),
      (.first, List.replicate 3 .server ++ [.handler]),
      (.second, [.handler])]

/-- A reachable state in which no handler and no server can go on. -/
theorem fetches_crossed : ∃ (h : History 2 8) (s : System 2 8),
    System.Runs free h s ∧ (∃ i, (s i).party.Waits) ∧ ∀ j, ¬ Assisted (s j) := by
  have followed : (exec (System.step free) (System.initial 2 8) (crossing 0 1)).any (fun r =>
      (r.1 .first).party.handler = .resolving .page 0 ∧
        (r.1 .second).party.handler = .resolving .page 1 ∧
        (r.1 .first).party.Stopped ∧ (r.1 .second).party.Stopped) := by decide +kernel
  obtain ⟨s, h, run, first, second, stopped, stopped'⟩ := exec_any followed System.step_sound
  refine ⟨h, s, run, ⟨.first, .inr ⟨0, .inr first⟩⟩, fun j => ?_⟩
  cases j with
  | first => exact Crossed.stalled (Runs.wired run .first) ⟨⟨0, first⟩, stopped⟩ stopped'
  | second => exact Crossed.stalled (Runs.wired run .second) ⟨⟨1, second⟩, stopped'⟩ stopped

end CSE306.S2DSM
