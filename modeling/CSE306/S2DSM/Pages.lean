import CSE306.S2DSM.View

/-! A run of the two processes, seen page by page: what is kept and shown of each
page is a run of two replicas that stands still while other pages are worked on. -/
namespace CSE306.S2DSM
open Transition Transition.Duplex Replica

variable {n pageSize : Nat}

/-- What one side of the system is for the page `p`. -/
def Node.view (p : Fin n) (x : Node n pageSize) : Half (Page pageSize) :=
  x.filter (Process.view p) (MsgRequest.about p) (Reply.about p)

def notes (p : Fin n) (h : History n pageSize) : List (Note (Page pageSize)) :=
  h.filterMap fun e => e.2.about p

/-- A restriction on runs that looks at the pages one by one. -/
def Paged (admits : Half (Page pageSize) → Half (Page pageSize) → Replica (Page pageSize) → Prop)
    (x y : Node n pageSize) (p : Process n pageSize) : Prop :=
  ∀ q, admits (Node.view q x) (Node.view q y) (p.view q)

theorem view_initial (p : Fin n) (i : Side) :
    Node.view p (System.initial n pageSize i) = .initial (Page pageSize) := rfl

theorem notes_append (p : Fin n) (h : History n pageSize) (e : Option (Event n pageSize))
    (i : Side) :
    notes p (h ++ (e.map (i, ·)).toList) = notes p h ++ (e.bind (Event.about p)).toList := by
  rcases e with _ | e
  · simp [notes]
  · cases known : e.about p <;> simp [notes, known]

theorem Wired.answers {x y : Node n pageSize}
    (wired : ∀ q, Wired (.zero pageSize) (Node.view q x) (Node.view q y))
    (ready : x.Enabled l) : x.party.Answered l := by
  rintro r rfl
  obtain ⟨rest, unread⟩ := List.head?_eq_some_iff.mp ready
  have waits : (x.party.view r.whichPage).resolver ≠ none := fun idle => by
    have held := (wired r.whichPage).fetch
    simp only [Matched, Node.view, End.filter, idle, unread] at held
    cases r <;> simp [Reply.about, Reply.whichPage] at held <;> cases held
  revert waits
  cases handler : x.party.handler with
  | poll => simp [Process.view, handler]
  | resolving stage q =>
    by_cases same : q = r.whichPage
    · exact fun _ => ⟨stage, by rw [same]⟩
    · simp [Process.view, handler, same]

/-- A step of one side either moves its replica of the page or leaves both alone. -/
theorem Node.move {x y : Node n pageSize} (answered : x.party.Answered l)
    (moved : x.party.Moves l e p) (ready : x.Enabled l) (q : Fin n) :
    (Move (.zero pageSize) (Node.view q x).party (About q l) (e.bind (Event.about q)) (p.view q) ∧
      (Node.view q x).Enabled (About q l) ∧
      Node.view q (x.fire p l) = (Node.view q x).fire (p.view q) (About q l) ∧
      Node.view q (y.receive l) = (Node.view q y).receive (About q l)) ∨
    Node.view q (x.fire p l) = Node.view q x ∧ Node.view q (y.receive l) = Node.view q y ∧
      e.bind (Event.about q) = none := by
  obtain ⟨turn, request, reply, moved⟩ := moved
  have fired : Node.view q (x.fire p l) = (Node.view q x).fire (p.view q) (About q l) :=
    End.filter_fire _ _ _ ready p
  have received : Node.view q (y.receive l) = (Node.view q y).receive (About q l) :=
    End.filter_receive _ _ _ y l
  rcases Process.step_view moved answered q with move | ⟨same, quiet, unseen⟩
  · exact .inl ⟨move, End.filter_enabled _ _ _ ready, fired, received⟩
  · rw [quiet] at fired received
    rw [same] at fired
    exact .inr ⟨fired, received, unseen⟩

/-- A fact about the two replicas of a page and what was shown of it, kept by
every admitted move, holds throughout a run. -/
theorem Runs.paged
    {J : List (Note (Page pageSize)) → Half (Page pageSize) → Half (Page pageSize) → Prop}
    {admits : Half (Page pageSize) → Half (Page pageSize) → Replica (Page pageSize) → Prop}
    (start : J [] (.initial _) (.initial _))
    (preserves : ∀ {h x y p l e}, Wired (.zero pageSize) x y → Wired (.zero pageSize) y x →
      J h x y → J h y x → admits x y p → Move (.zero pageSize) x.party l e p → x.Enabled l →
      J (h ++ e.toList) (x.fire p l) (y.receive l) ∧ J (h ++ e.toList) (y.receive l) (x.fire p l))
    (run : System.Runs ok h s) (covers : ∀ {x y p}, ok x y p → Paged admits x y p)
    (i : Side) (q : Fin n) :
    Wired (.zero pageSize) (Node.view q (s i)) (Node.view q (s i.peer)) ∧
      J (notes q h) (Node.view q (s i)) (Node.view q (s i.peer)) := by
  have held := pair_invariant (I := fun h x y => ∀ q,
    Wired (.zero pageSize) (Node.view q x) (Node.view q y) ∧
      J (notes q h) (Node.view q x) (Node.view q y)) ?_ ?_ run i
  · exact held q
  · exact fun i q => ⟨by simpa only [view_initial] using Wired.initial (Page.zero pageSize), start⟩
  · intro h s i p l e _ own other admitted moved ready
    have answered := Wired.answers (fun q => (own q).1) ready
    -- For the page that moves this is a step of its replica; for the others nothing changes.
    have step : ∀ q, ∃ x y, Node.view q ((s i).fire p l) = x ∧
        Node.view q ((s i.peer).receive l) = y ∧
        (Wired (.zero pageSize) x y ∧ Wired (.zero pageSize) y x) ∧
        J (notes q (h ++ (e.map (i, ·)).toList)) x y ∧
        J (notes q (h ++ (e.map (i, ·)).toList)) y x := by
      intro q
      rw [notes_append]
      rcases Node.move (y := s i.peer) answered moved ready q with
        ⟨move, able, fired, received⟩ | ⟨fired, received, unseen⟩
      · exact ⟨_, _, fired, received, (own q).1.move (other q).1 move able,
          preserves (own q).1 (other q).1 (own q).2 (other q).2 (covers admitted q) move able⟩
      · rw [unseen, Option.toList_none, List.append_nil]
        exact ⟨_, _, fired, received, ⟨(own q).1, (other q).1⟩, (own q).2, (other q).2⟩
    constructor
    · intro q
      obtain ⟨x, y, rfl, rfl, wired, kept⟩ := step q
      exact ⟨wired.1, kept.1⟩
    · intro q
      obtain ⟨x, y, rfl, rfl, wired, kept⟩ := step q
      exact ⟨wired.2, kept.2⟩

theorem Runs.wired (run : System.Runs ok h s) (i : Side) (q : Fin n) :
    Wired (.zero pageSize) (Node.view q (s i)) (Node.view q (s i.peer)) := by
  have everywhere : ∀ {x y p}, ok x y p → Paged (fun _ _ _ => True) x y p := fun _ _ => trivial
  exact (Runs.paged (J := fun _ _ _ => True) trivial
    (fun _ _ _ _ _ _ _ => ⟨trivial, trivial⟩) run everywhere i q).1

end CSE306.S2DSM
