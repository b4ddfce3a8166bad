import CSE306.Transition
import Mathlib.Logic.Function.Basic

/-! Two parties joined by two reliable first-in first-out connections. Each party
sends requests and reads answers on the connection it opened, and reads requests
and sends answers on the one it accepted. A message is delivered whole. -/
namespace CSE306.Transition.Duplex

inductive Side where
  | first
  | second
  deriving DecidableEq, Repr

namespace Side

def peer : Side → Side
  | .first => .second
  | .second => .first

@[simp] theorem peer_peer (i : Side) : i.peer.peer = i := by cases i <;> rfl

@[simp] theorem peer_ne (i : Side) : i.peer ≠ i := by cases i <;> decide

instance (P : Side → Prop) [DecidablePred P] : Decidable (∀ i, P i) :=
  decidable_of_iff (P .first ∧ P .second) ⟨fun h i => by cases i; exacts [h.1, h.2],
    fun h => ⟨h _, h _⟩⟩

theorem eq_or_peer (i j : Side) : j = i ∨ j = i.peer := by cases i <;> cases j <;> decide

end Side

/-- What one move of a party does to its connections. -/
inductive Label (Q R : Type) where
  | silent
  | request (q : Q)
  | serve (q : Q)
  | answer (r : R)
  | consume (r : R)

/-- A party with the messages it has not read yet: requests on the connection
it accepted, answers on the one it opened. -/
structure End (P Q R : Type) where
  party : P
  accepted : List Q
  connect : List R

namespace End
variable {P Q R : Type}

/-- A reading move takes the oldest message of its connection. -/
def Enabled (x : End P Q R) : Label Q R → Prop
  | .serve q => x.accepted.head? = some q
  | .consume r => x.connect.head? = some r
  | _ => True

/-- The moving side after its move to `p`. -/
def fire (x : End P Q R) (p : P) : Label Q R → End P Q R
  | .serve _ => { x with party := p, accepted := x.accepted.tail }
  | .consume _ => { x with party := p, connect := x.connect.tail }
  | _ => { x with party := p }

/-- The other side after that move. -/
def receive (y : End P Q R) : Label Q R → End P Q R
  | .request q => { y with accepted := y.accepted ++ [q] }
  | .answer r => { y with connect := y.connect ++ [r] }
  | _ => y

@[simp] theorem fire_party (x : End P Q R) (p : P) (l : Label Q R) : (x.fire p l).party = p := by
  cases l <;> rfl

@[simp] theorem receive_party (y : End P Q R) (l : Label Q R) :
    (y.receive l).party = y.party := by cases l <;> rfl

end End

abbrev Net (P Q R : Type) := Side → End P Q R

variable {P Q R E : Type}

def Net.post (s : Net P Q R) (i : Side) (p : P) (l : Label Q R) : Net P Q R :=
  fun j => if j = i then (s i).fire p l else (s j).receive l

@[simp] theorem Net.post_self (s : Net P Q R) (i : Side) (p : P) (l : Label Q R) :
    s.post i p l i = (s i).fire p l := if_pos rfl

@[simp] theorem Net.post_peer (s : Net P Q R) (i : Side) (p : P) (l : Label Q R) :
    s.post i p l i.peer = (s i.peer).receive l := if_neg i.peer_ne

/-- The net with these ends at `i` and at its peer. -/
def Net.pair (i : Side) (x y : End P Q R) : Net P Q R := fun j => if j = i then x else y

@[simp] theorem Net.pair_self (i : Side) (x y : End P Q R) : pair i x y i = x := if_pos rfl

@[simp] theorem Net.pair_peer (i : Side) (x y : End P Q R) : pair i x y i.peer = y :=
  if_neg i.peer_ne

theorem Net.pair_eta (s : Net P Q R) (i : Side) : pair i (s i) (s i.peer) = s := by
  funext j
  rcases Side.eq_or_peer i j with rfl | rfl <;> simp

theorem Net.post_pair (i : Side) (x y : End P Q R) (p : P) (l : Label Q R) :
    (pair i x y).post i p l = pair i (x.fire p l) (y.receive l) := by
  funext j
  rcases Side.eq_or_peer i j with rfl | rfl <;> simp

theorem Net.post_pair_peer (i : Side) (x y : End P Q R) (p : P) (l : Label Q R) :
    (pair i x y).post i.peer p l = pair i (x.receive l) (y.fire p l) := by
  funext j
  rcases Side.eq_or_peer i j with rfl | rfl
  · simp [Net.post, (Side.peer_ne _).symm]
  · simp

/-- One party moves; `ok` sees both ends before the move and the mover after it. -/
inductive Step (ok : End P Q R → End P Q R → P → Prop)
    (moves : P → Label Q R → Option E → P → Prop) :
    Net P Q R → Option (Side × E) → Net P Q R → Prop where
  | turn (i : Side) : ok (s i) (s i.peer) p → moves (s i).party l e p → (s i).Enabled l →
      Step ok moves s (e.map (i, ·)) (s.post i p l)

/-- No restriction on the moves of a run. -/
def free : End P Q R → End P Q R → P → Prop := fun _ _ _ => True

instance (x y : End P Q R) (p : P) : Decidable (free x y p) := .isTrue trivial

variable {ok : End P Q R → End P Q R → P → Prop} {moves : P → Label Q R → Option E → P → Prop}

/-- One turn of a party, as a function of what its connections hold, refused where
`ok` does not admit it. -/
def play (ok : End P Q R → End P Q R → P → Prop) [∀ x y p, Decidable (ok x y p)]
    (act : P → Option Q → Option R → T → Option (P × Label Q R × Option E))
    (s : Net P Q R) (turn : Side × T) : Option (Net P Q R × Option (Side × E)) :=
  let own := s turn.1
  match act own.party own.accepted.head? own.connect.head? turn.2 with
  | some (p, l, e) =>
    if ok own (s turn.1.peer) p then some (s.post turn.1 p l, e.map (turn.1, ·)) else none
  | none => none

theorem play_sound [∀ x y p, Decidable (ok x y p)]
    {act : P → Option Q → Option R → T → Option (P × Label Q R × Option E)}
    (covers : ∀ {x : End P Q R} {t p l e}, act x.party x.accepted.head? x.connect.head? t =
      some (p, l, e) → moves x.party l e p ∧ x.Enabled l)
    (moved : play ok act s turn = some (t, e)) : Step ok moves s e t := by
  simp only [play] at moved
  split at moved
  · rename_i p l shown acted
    split at moved
    · rename_i admitted
      cases moved
      exact .turn turn.1 admitted (covers acted).1 (covers acted).2
    · contradiction
  · contradiction

theorem Step.shown (step : Step ok moves s (some (i, e)) t) :
    ∃ p l, ok (s i) (s i.peer) p ∧ moves (s i).party l (some e) p ∧ (s i).Enabled l ∧
      t = s.post i p l := by
  generalize seen : some (i, e) = shown at step
  cases step with
  | @turn p l e' i' admitted moved ready =>
    cases e' with
    | none => cases seen
    | some e' =>
      cases seen
      exact ⟨p, l, admitted, moved, ready, rfl⟩

/-- A relation between an end and its peer, kept in both directions by every
move of one side in a reachable state, holds in both directions throughout a run. -/
theorem pair_invariant {I : List (Side × E) → End P Q R → End P Q R → Prop}
    (start : ∀ i, I [] (s₀ i) (s₀ i.peer))
    (preserves : ∀ {h s i p l e}, Run (Step ok moves) s₀ h s → I h (s i) (s i.peer) →
      I h (s i.peer) (s i) → ok (s i) (s i.peer) p → moves (s i).party l e p → (s i).Enabled l →
      I (h ++ (e.map (i, ·)).toList) ((s i).fire p l) ((s i.peer).receive l) ∧
        I (h ++ (e.map (i, ·)).toList) ((s i.peer).receive l) ((s i).fire p l))
    (run : Run (Step ok moves) s₀ h s) (i : Side) : I h (s i) (s i.peer) := by
  refine run.invariant (I := fun h s => ∀ i, I h (s i) (s i.peer)) start ?_ i
  rintro h s _ _ head held ⟨j, admitted, moved, ready⟩ i
  have kept := preserves head (held j) (by simpa using held j.peer) admitted moved ready
  rcases Side.eq_or_peer j i with rfl | rfl
  · simpa using kept.1
  · simpa using kept.2

variable {P' Q' R' : Type}

/-- The part of a move that concerns some of the messages. -/
def Label.filter (f : Q → Option Q') (g : R → Option R') : Label Q R → Label Q' R'
  | .silent => .silent
  | .request q => (f q).elim .silent .request
  | .serve q => (f q).elim .silent .serve
  | .answer r => (g r).elim .silent .answer
  | .consume r => (g r).elim .silent .consume

namespace End
variable (v : P → P') (f : Q → Option Q') (g : R → Option R')

def filter (x : End P Q R) : End P' Q' R' :=
  ⟨v x.party, x.accepted.filterMap f, x.connect.filterMap g⟩

theorem filter_fire {x : End P Q R} (ready : x.Enabled l) (p : P) :
    (x.fire p l).filter v f g = (x.filter v f g).fire (v p) (l.filter f g) := by
  obtain ⟨party, accepted, connect⟩ := x
  cases l with
  | silent => rfl
  | request q => cases known : f q <;> simp [filter, fire, Label.filter, known]
  | answer r => cases known : g r <;> simp [filter, fire, Label.filter, known]
  | serve q =>
    obtain ⟨rest, rfl⟩ := List.head?_eq_some_iff.mp ready
    cases known : f q <;> simp [filter, fire, Label.filter, known]
  | consume r =>
    obtain ⟨rest, rfl⟩ := List.head?_eq_some_iff.mp ready
    cases known : g r <;> simp [filter, fire, Label.filter, known]

theorem filter_receive (y : End P Q R) (l : Label Q R) :
    (y.receive l).filter v f g = (y.filter v f g).receive (l.filter f g) := by
  cases l with
  | silent => rfl
  | serve q => cases known : f q <;> simp [filter, receive, Label.filter, known]
  | consume r => cases known : g r <;> simp [filter, receive, Label.filter, known]
  | request q => cases known : f q <;> simp [filter, receive, Label.filter, known]
  | answer r => cases known : g r <;> simp [filter, receive, Label.filter, known]

theorem filter_enabled {x : End P Q R} (ready : x.Enabled l) :
    (x.filter v f g).Enabled (l.filter f g) := by
  obtain ⟨party, accepted, connect⟩ := x
  cases l with
  | silent => trivial
  | request q => cases known : f q <;> simp [Enabled, Label.filter, known]
  | answer r => cases known : g r <;> simp [Enabled, Label.filter, known]
  | serve q =>
    obtain ⟨rest, rfl⟩ := List.head?_eq_some_iff.mp ready
    cases known : f q <;> simp [filter, Enabled, Label.filter, known]
  | consume r =>
    obtain ⟨rest, rfl⟩ := List.head?_eq_some_iff.mp ready
    cases known : g r <;> simp [filter, Enabled, Label.filter, known]

end End
end CSE306.Transition.Duplex
