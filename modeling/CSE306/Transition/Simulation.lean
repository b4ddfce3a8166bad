import CSE306.Transition.Duplex

/-! Two systems related state by state. What the lower one does is matched step for step
above it, and where the upper one can always be followed, its runs come from below. -/
namespace CSE306.Transition
variable {S S' E E' : Type} {step : S → Option E → S → Prop} {step' : S' → Option E' → S' → Prop}
  {first : S} {first' : S'}

theorem forall_mem_of_eq_none {o : Option E} {P : E → Prop} (absent : o = none) :
    ∀ e ∈ o, P e := by
  intro e mem
  rw [absent] at mem
  cases mem

theorem toList_map (g : E → E') (e : Option E) : (e.map g).toList = e.toList.map g := by
  cases e <;> rfl

namespace Run

/-- Each step of the lower system, from a state that a run reaches, is one of the upper. -/
theorem simulate {R : S → S' → Prop} {g : E → E'} (start : R first first')
    (follow : ∀ {h s s' e t}, Run step first h s → R s s' → step s e t →
      ∃ t', step' s' (e.map g) t' ∧ R t t')
    (run : Run step first h s) : ∃ s', Run step' first' (h.map g) s' ∧ R s s' := by
  induction run with
  | start => exact ⟨first', .start, start⟩
  | next head edge ih =>
    obtain ⟨s', below, related⟩ := ih
    obtain ⟨t', edge', related'⟩ := follow head related edge
    refine ⟨t', ?_, related'⟩
    rw [List.map_append, ← toList_map]
    exact .next below edge'

/-- Each step of the upper system can be taken below it. -/
theorem lift {R : S → S' → Prop} {g : E → E'} (start : R first first')
    (follow : ∀ {h s s' e' t'}, Run step first h s → R s s' → step' s' e' t' →
      ∃ e t, step s e t ∧ e.map g = e' ∧ R t t')
    (run : Run step' first' h' s') : ∃ h s, Run step first h s ∧ h.map g = h' ∧ R s s' := by
  induction run with
  | start => exact ⟨[], first, .start, rfl, start⟩
  | next _ edge ih =>
    obtain ⟨h, s, below, rfl, related⟩ := ih
    obtain ⟨e, t, edge', rfl, related'⟩ := follow below related edge
    refine ⟨h ++ e.toList, t, .next below edge', ?_, related'⟩
    rw [List.map_append, toList_map]

end Run

namespace Duplex
variable {P P' Q Q' R R' E E' : Type} (rel : P → P' → Prop) (f : Q → Q') (g : R → R')

/-- A move with its messages in another form. -/
def Label.map : Label Q R → Label Q' R'
  | .silent => .silent
  | .request q => .request (f q)
  | .serve q => .serve (f q)
  | .answer r => .answer (g r)
  | .consume r => .consume (g r)

/-- Related parties with the same messages before them. -/
structure End.Related (x : End P Q R) (y : End P' Q' R') : Prop where
  party : rel x.party y.party
  accepted : y.accepted = x.accepted.map f
  connect : y.connect = x.connect.map g

namespace End.Related
variable {rel f g} {x : End P Q R} {y : End P' Q' R'}

theorem enabled (related : End.Related rel f g x y) (ready : x.Enabled l) :
    y.Enabled (l.map f g) := by
  cases l with
  | silent | request | answer => trivial
  | serve q =>
    change y.accepted.head? = some (f q)
    rw [related.accepted, List.head?_map, show x.accepted.head? = some q from ready]
    rfl
  | consume r =>
    change y.connect.head? = some (g r)
    rw [related.connect, List.head?_map, show x.connect.head? = some r from ready]
    rfl

theorem fire (related : End.Related rel f g x y) (moved : rel p p') (l : Label Q R) :
    End.Related rel f g (x.fire p l) (y.fire p' (l.map f g)) := by
  obtain ⟨_, accepted, connect⟩ := related
  cases l with
  | silent | request | answer => exact ⟨moved, accepted, connect⟩
  | serve => exact ⟨moved, by simp [End.fire, Label.map, accepted], connect⟩
  | consume => exact ⟨moved, accepted, by simp [End.fire, Label.map, connect]⟩

theorem receive (related : End.Related rel f g x y) (l : Label Q R) :
    End.Related rel f g (x.receive l) (y.receive (l.map f g)) := by
  obtain ⟨party, accepted, connect⟩ := related
  cases l with
  | silent | serve | consume => exact ⟨party, accepted, connect⟩
  | request => exact ⟨party, by simp [End.receive, Label.map, accepted], connect⟩
  | answer => exact ⟨party, accepted, by simp [End.receive, Label.map, connect]⟩

end End.Related

variable {rel : Side → P → P' → Prop} {f : Q → Q'} {g : R → R'}
  {ok : End P Q R → End P Q R → P → Prop} {ok' : End P' Q' R' → End P' Q' R' → P' → Prop}
  {moves : P → Label Q R → Option E → P → Prop} {moves' : P' → Label Q' R' → Option E' → P' → Prop}

/-- Related ends on both sides. -/
def Net.Related (rel : Side → P → P' → Prop) (f : Q → Q') (g : R → R') (s : Net P Q R)
    (t : Net P' Q' R') : Prop := ∀ i, End.Related (rel i) f g (s i) (t i)

theorem Net.Related.post {s : Net P Q R} {t : Net P' Q' R'} (related : Net.Related rel f g s t)
    (moved : rel i p p') (l : Label Q R) :
    Net.Related rel f g (s.post i p l) (t.post i p' (l.map f g)) := by
  intro j
  rcases Side.eq_or_peer i j with rfl | rfl
  · simpa using (related _).fire moved l
  · simpa using (related _).receive l

theorem Step.follow {s : Net P Q R} {t : Net P' Q' R'} {k : E → E'}
    (related : Net.Related rel f g s t)
    (admits : ∀ {i p p'}, ok (s i) (s i.peer) p → rel i p p' → ok' (t i) (t i.peer) p')
    (able : ∀ {i l e p}, moves (s i).party l e p → (s i).Enabled l →
      ∃ p', moves' (t i).party (l.map f g) (e.map k) p' ∧ rel i p p')
    (step : Step ok moves s e u) :
    ∃ v, Step ok' moves' t (e.map (Prod.map id k)) v ∧ Net.Related rel f g u v := by
  cases step with
  | turn i admitted moved ready =>
    rename_i _ l e
    obtain ⟨p', moved', same⟩ := able moved ready
    have step : Step ok' moves' t ((e.map k).map (i, ·)) (t.post i p' (l.map f g)) :=
      .turn i (admits admitted same) moved' ((related i).enabled ready)
    refine ⟨_, ?_, related.post same l⟩
    cases e <;> exact step

/-- A step of the lower net that comes from one above it. -/
theorem Step.back {s : Net P Q R} {t : Net P' Q' R'} {k : E → E'}
    (related : Net.Related rel f g s t)
    (admits : ∀ {i p p'}, ok' (t i) (t i.peer) p' → rel i p p' → ok (s i) (s i.peer) p)
    (able : ∀ {i l' e' p'}, moves' (t i).party l' e' p' → (t i).Enabled l' →
      ∃ l e p, moves (s i).party l e p ∧ (s i).Enabled l ∧ l.map f g = l' ∧ e.map k = e' ∧
        rel i p p')
    (step : Step ok' moves' t e' v) :
    ∃ e u, Step ok moves s e u ∧ e.map (Prod.map id k) = e' ∧ Net.Related rel f g u v := by
  cases step with
  | turn i admitted moved ready =>
    obtain ⟨l, e, p, moved', ready', rfl, rfl, same⟩ := able moved ready
    refine ⟨_, _, .turn i (admits admitted same) moved' ready', ?_, related.post same l⟩
    cases e <;> rfl

end Duplex
end CSE306.Transition
