import CSE306.S2DSM.Control
import CSE306.Transition.Duplex

/-! The protocol of one page, for contents of any type. A replica is what one
process keeps about the page; its three threads interleave freely and its two
connections carry only messages about this page. -/
namespace CSE306.S2DSM
open Transition.Duplex

variable {γ : Type}

inductive Kind where
  | fetch
  | invalidate
  deriving DecidableEq

inductive Answer (γ : Type) where
  | absent
  | present
  | content (c : γ)

/-- The observations of one replica. -/
inductive Note (γ : Type) where
  | read (c : γ)
  | wrote (c : γ)

/-- `client`, `resolver` and `server` are where the main thread, the fault handler
(with its buffer) and the server thread stand, when they work on this page. -/
structure Replica (γ : Type) where
  msi : Msi
  content : Option γ
  client : Option (Stage γ)
  resolver : Option (Resolve × γ)
  server : Option Serve

namespace Replica

/-- Some thread is stopped at the absent page. -/
def Waited (x : Replica γ) : Prop :=
  (∃ st, x.client = some st ∧ st.Touches) ∨ x.server = some .copy

/-- One access of one thread. `blank` is the cleared page. -/
inductive Move (blank : γ) : Replica γ → Label Kind (Answer γ) → Option (Note γ) →
    Replica γ → Prop where
  | begin (x : Replica γ) : x.client = none → st.Entry →
      Move blank x .silent none { x with client := some st }
  | peek (x : Replica γ) : x.client = some (.load true) → x.content = some c →
      Move blank x .silent none { x with client := some .print }
  | load (x : Replica γ) : x.client = some (.load false) → x.content = some c →
      Move blank x .silent (some (.read c)) { x with client := none }
  | print (x : Replica γ) : x.client = some .print → x.content = some c →
      Move blank x .silent (some (.read c)) { x with client := none }
  | store (x : Replica γ) : x.client = some (.store c) → x.content = some d →
      Move blank x .silent (some (.wrote c))
        { x with content := some c, client := some (.mark c) }
  | mark (x : Replica γ) : x.client = some (.mark c) →
      Move blank x .silent none { x with msi := .modified, client := some (.echo c) }
  | echo (x : Replica γ) : x.client = some (.echo c) → x.content = some d →
      Move blank x .silent none { x with client := some (.notify c) }
  | notify (x : Replica γ) : x.client = some (.notify c) →
      Move blank x (.request .invalidate) none { x with client := none }
  | fault (x : Replica γ) : x.resolver = none → x.content = none → x.Waited →
      Move blank x .silent none { x with resolver := some (.test, blank) }
  | miss (x : Replica γ) : x.resolver = some (.test, b) → x.msi = .invalid →
      Move blank x .silent none { x with resolver := some (.request, b) }
  | hit (x : Replica γ) : x.resolver = some (.test, b) → x.msi ≠ .invalid →
      Move blank x .silent none { x with resolver := some (.install, b) }
  | request (x : Replica γ) : x.resolver = some (.request, b) →
      Move blank x (.request .fetch) none { x with resolver := some (.response, b) }
  | absent (x : Replica γ) : x.resolver = some (.response, b) →
      Move blank x (.consume .absent) none { x with resolver := some (.share, b) }
  | present (x : Replica γ) : x.resolver = some (.response, b) →
      Move blank x (.consume .present) none { x with resolver := some (.page, b) }
  | page (x : Replica γ) : x.resolver = some (.page, b) →
      Move blank x (.consume (.content c)) none { x with resolver := some (.share, c) }
  | share (x : Replica γ) : x.resolver = some (.share, b) →
      Move blank x .silent none { x with msi := .shared, resolver := some (.install, b) }
  | install (x : Replica γ) : x.resolver = some (.install, b) →
      Move blank x .silent none { x with content := some b, resolver := none }
  | serveFetch (x : Replica γ) : x.server = none →
      Move blank x (.serve .fetch) none { x with server := some .test }
  | serveInvalidate (x : Replica γ) : x.server = none →
      Move blank x (.serve .invalidate) none { x with server := some .drop }
  | refuse (x : Replica γ) : x.server = some .test → x.msi = .invalid →
      Move blank x .silent none { x with server := some .deny }
  | accept (x : Replica γ) : x.server = some .test → x.msi ≠ .invalid →
      Move blank x .silent none { x with server := some .grant }
  | deny (x : Replica γ) : x.server = some .deny →
      Move blank x (.answer .absent) none { x with server := some .share }
  | grant (x : Replica γ) : x.server = some .grant →
      Move blank x (.answer .present) none { x with server := some .copy }
  | copy (x : Replica γ) : x.server = some .copy → x.content = some c →
      Move blank x (.answer (.content c)) none { x with server := some .share }
  | settle (x : Replica γ) : x.server = some .share →
      Move blank x .silent none { x with msi := .shared, server := none }
  | drop (x : Replica γ) : x.server = some .drop →
      Move blank x .silent none { x with content := none, server := some .invalidate }
  | invalidate (x : Replica γ) : x.server = some .invalidate →
      Move blank x .silent none { x with msi := .invalid, server := none }

theorem Move.wrote (move : Move blank x l (some (.wrote c)) y) : x.client = some (.store c) := by
  cases move with
  | store _ here => exact here

theorem Move.reads (move : Move blank x l (some (.read c)) y) :
    ∃ st, x.client = some st ∧ ¬ st.Unsent ∧ x.content = some c := by
  cases move with
  | load _ client content | print _ client content => exact ⟨_, client, id, content⟩

/-- Facts about one replica that no message can disturb. -/
structure Sound (blank : γ) (x : Replica γ) : Prop where
  /-- Only the handler installs a page, so the page it resolves stays absent. -/
  gone : x.resolver ≠ none → x.content = none
  waited : x.resolver ≠ none → x.Waited
  /-- A fetch is always for the main thread: a page the server copies is not INVALID. -/
  fetches : ∀ {st b}, x.resolver = some (st, b) → st.Fetches →
    ∃ stage, x.client = some stage ∧ stage.Touches
  cleared : ∀ {st b}, x.resolver = some (st, b) →
    (st = .test ∨ st = .request ∨ st = .response ∨ st = .page) → b = blank
  kept : x.server = some .grant ∨ x.server = some .copy → x.msi ≠ .invalid
  /-- A write that set MODIFIED touches the page once more before it ends. -/
  modified : x.msi = .modified → x.content ≠ none ∨ (∃ c, x.client = some (.echo c)) ∨
    x.server = some .invalidate

theorem Move.sound (held : Sound blank x) (move : Move blank x l e y) : Sound blank y := by
  obtain ⟨gone, waited, fetches, cleared, kept, modified⟩ := held
  cases move <;> constructor <;> grind [Waited, Stage.Touches, Resolve.Fetches]

/-- No copy of the page is here, and none is about to be installed. -/
def Vacant (x : Replica γ) : Prop :=
  x.content = none ∧ ∀ b, x.resolver ≠ some (.install, b)

instance (x : Replica γ) : Decidable x.Vacant :=
  decidable_of_iff (x.content = none ∧ x.resolver.map Prod.fst ≠ some .install) <| by
    obtain ⟨_, content, _, resolver, _⟩ := x
    rcases resolver with _ | ⟨st, b⟩ <;> simp [Vacant]

/-- The step of the server that sets INVALID. -/
def Invalidates (x y : Replica γ) : Prop := x.server = some .invalidate ∧ y.server = none

instance (x y : Replica γ) : Decidable (Invalidates x y) := by unfold Invalidates; infer_instance

/-- INVALID pages are absent, and stay so until their entry changes. -/
structure Resident (x : Replica γ) : Prop where
  absent : x.msi = .invalid → x.content = none
  installs : ∀ {b}, x.resolver = some (.install, b) → x.msi ≠ .invalid

theorem Move.resident (held : Resident x) (guard : Invalidates x y → x.Vacant)
    (move : Move blank x l e y) : Resident y := by
  obtain ⟨absent, installs⟩ := held
  cases move with
  | invalidate _ here =>
    obtain ⟨gone, none⟩ := guard ⟨here, rfl⟩
    exact ⟨fun _ => gone, fun at_ => (none _ at_).elim⟩
  | install _ here => exact ⟨fun invalid => (installs here invalid).elim, fun at_ => nomatch at_⟩
  | store _ _ present => exact ⟨fun invalid => by simp [absent invalid] at present, installs⟩
  | _ => constructor <;> grind

end Replica
end CSE306.S2DSM
