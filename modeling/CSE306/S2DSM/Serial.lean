import CSE306.S2DSM.Tracking

/-! One page whose accesses are serialised: an access begins only when nothing is
left of the one before, on either side and in between. -/
namespace CSE306.S2DSM
open Transition Transition.Duplex Replica

variable {γ : Type} {blank : γ} {x y : Half γ}

/-- No thread of this side works on the page, and no request for it waits here. -/
def Half.Still (x : Half γ) : Prop :=
  x.party.client = none ∧ x.party.resolver = none ∧ x.party.server = none ∧ x.accepted = []

instance (x : Half γ) : Decidable x.Still := by unfold Half.Still; infer_instance

/-- The main thread enters an access to the page. -/
def Begins (x p : Replica γ) : Prop := x.client = none ∧ p.client ≠ none

instance (x p : Replica γ) : Decidable (Begins x p) := by unfold Begins; infer_instance

/-- An access of `x` that is not completely finished. -/
def Active (x y : Half γ) : Prop :=
  x.party.client ≠ none ∨ y.accepted ≠ [] ∨ y.party.server ≠ none

structure Serial (x y : Half γ) : Prop where
  alone : Active x y → ¬ Active y x
  dropped : x.party.server = some .invalidate → x.party.content = none
  fetching : ∀ {st b}, x.party.resolver = some (st, b) →
    st = .request ∨ st = .response ∨ st = .page → x.party.msi = .invalid
  /-- An 'I' is sent last. -/
  unsent : x.party.client ≠ none → .invalidate ∉ y.accepted ∧ y.party.server ≠ some .drop ∧
    y.party.server ≠ some .invalidate

theorem Active.source (sound : Sound blank x.party) (move : Move blank x.party l e p)
    (active : Active (x.fire p l) (y.receive l)) : Active x y ∨ Begins x.party p := by
  obtain ⟨x, accepted, connect⟩ := x
  cases move with
  | request _ here =>
    obtain ⟨stage, client, _⟩ := sound.fetches here trivial
    exact .inl (.inl (fun idle => by cases client.symm.trans idle))
  | _ => grind [Active, Begins, End.fire, End.receive]

theorem Active.source_peer (move : Move blank x.party l e p) (ready : x.Enabled l)
    (active : Active (y.receive l) (x.fire p l)) : Active y x := by
  obtain ⟨x, accepted, connect⟩ := x
  cases move with
  | serveFetch | serveInvalidate =>
    obtain ⟨rest, rfl⟩ := List.head?_eq_some_iff.mp ready
    exact .inr (.inl (by simp))
  | _ => grind [Active, End.fire, End.receive]

/-- A thread that waits for the handler belongs to an access. -/
theorem Replica.Sound.active (sound : Sound blank x.party) (resolving : x.party.resolver ≠ none) :
    x.party.client ≠ none ∨ x.party.server = some .copy := by
  rcases sound.waited resolving with ⟨st, client, _⟩ | copying
  · exact .inl (by simp [client])
  · exact .inr copying

theorem Serial.alone_move (sound : Sound blank x.party) (held : Serial x y)
    (move : Move blank x.party l e p) (ready : x.Enabled l)
    (guard : Begins x.party p → x.Still ∧ y.Still) (active : Active (x.fire p l) (y.receive l)) :
    ¬ Active (y.receive l) (x.fire p l) := by
  intro both
  have other := both.source_peer move ready
  rcases active.source sound move with before | begins
  · exact held.alone before other
  · obtain ⟨⟨_, _, server, queue⟩, ⟨client, _, _, _⟩⟩ := guard begins
    rcases other with h | h | h <;> contradiction

theorem Serial.move (sound : Sound blank x.party) (held : Serial x y)
    (move : Move blank x.party l e p) (ready : x.Enabled l)
    (guard : Begins x.party p → x.Still ∧ y.Still) :
    Serial (x.fire p l) (y.receive l) := by
  have served : x.party.server ≠ none → x.party.client = none := fun serving => by
    by_contra active
    exact held.alone (.inl active) (.inr (.inr serving))
  have resolving := sound.active
  have fetches := fun {st b} => @sound.fetches st b
  refine ⟨held.alone_move sound move ready guard, ?_, ?_, ?_⟩
  · have dropped := held.dropped
    obtain ⟨x, accepted, connect⟩ := x
    cases move <;> grind [End.fire]
  · have fetching := fun {st b} => @held.fetching st b
    obtain ⟨x, accepted, connect⟩ := x
    cases move <;> grind [End.fire, Resolve.Fetches, Stage.Touches]
  · have unsent := held.unsent
    obtain ⟨x, accepted, connect⟩ := x
    cases move <;> grind [End.fire, End.receive, Half.Still, Begins]

theorem Serial.move_peer (sound : Sound blank x.party) (held : Serial x y) (held' : Serial y x)
    (move : Move blank x.party l e p) (ready : x.Enabled l)
    (guard : Begins x.party p → x.Still ∧ y.Still) :
    Serial (y.receive l) (x.fire p l) := by
  refine ⟨fun both active => held.alone_move sound move ready guard active both, ?_, ?_, ?_⟩
  · simpa using held'.dropped
  · simpa using fun {st b} => @held'.fetching st b
  · have unsent := held'.unsent
    obtain ⟨x, accepted, connect⟩ := x
    cases move with
    | serveFetch | serveInvalidate =>
      obtain ⟨rest, rfl⟩ := List.head?_eq_some_iff.mp ready
      grind [End.fire, End.receive]
    | _ => grind [End.fire, End.receive]

theorem Serial.idle (held : Serial x y) (sound : Sound blank x.party)
    (serving : x.party.server ≠ none) (uncopied : x.party.server ≠ some .copy) :
    x.party.client = none ∧ x.party.resolver = none := by
  have idle : x.party.client = none := by
    by_contra active
    exact held.alone (.inl active) (.inr (.inr serving))
  refine ⟨idle, ?_⟩
  by_contra resolving
  exact (sound.active resolving).elim (· idle) uncopied

/-- The guards of the concurrent results hold in a serialised run. -/
theorem Serial.calm (held : Serial x y) (sound : Sound blank x.party)
    (serving : x.party.server = some .invalidate) : Undisturbed x y := by
  obtain ⟨_, resolver⟩ := held.idle sound (by simp [serving]) (by simp [serving])
  exact ⟨held.dropped serving, fun r h => by simp [resolver] at h⟩

theorem Dirty.active (dirty : Dirty x y) : Active x y := by
  rcases dirty with ⟨st, client, _⟩ | queued | serving | serving
  · exact .inl (by simp [client])
  · exact .inr (.inl (List.ne_nil_of_mem queued))
  · exact .inr (.inr (by simp [serving]))
  · exact .inr (.inr (by simp [serving]))

theorem Serial.spares (held : Serial x y) : Spares x y p :=
  fun serving _ dirty => held.alone dirty.active (.inr (.inr (by simp [serving])))

/-- While one side accesses the page the other has no write outstanding. -/
theorem Serial.quiet (held : Serial x y) (active : x.party.client ≠ none) : ¬ Dirty y x :=
  fun dirty => held.alone (.inl active) dirty.active

/-- A page INVALID on one side only is present on the other. -/
def Backed (blank : γ) (x y : Half γ) : Prop :=
  ¬ Dirty x y → ¬ Dirty y x → x.state blank = .invalid → y.state blank ≠ .invalid →
    y.party.content ≠ none

theorem Backed.move (own : Wired blank x y) (other : Wired blank y x)
    (resident' : Resident y.party) (held : Backed blank x y) (held' : Backed blank y x)
    (stored : Dirty y x → y.party.content ≠ none)
    (move : Move blank x.party l e p) (ready : x.Enabled l) :
    Backed blank (x.fire p l) (y.receive l) ∧ Backed blank (y.receive l) (x.fire p l) := by
  by_cases ending : Dirty y x
  · have present : y.party.content ≠ none := stored ending
    refine ⟨fun _ _ _ _ => by simpa using present, fun _ _ invalid _ => ?_⟩
    obtain ⟨c, content⟩ := Option.ne_none_iff_exists'.mp present
    exact (Half.valid_present (by simpa using resident') (by simpa using content) invalid).elim
  · have sound := own.sound
    have outcome := fun before still => own.outcome other before ending move ready still
    refine ⟨fun clean _ => ?_, fun _ clean => ?_⟩
    · have before : ¬ Dirty x y := fun dirty => clean (dirty.persists move)
      cases outcome before clean with
      | steady own other =>
        rw [own.1, other.1, End.receive_party]
        exact held before ending
      | answered own => exact fun invalid => by simp [own] at invalid
    · have before : ¬ Dirty x y := fun dirty => clean (dirty.persists move)
      cases outcome before clean with
      | steady own other =>
        rw [own.1, other.1, End.fire_party]
        intro invalid valid
        obtain ⟨c, content⟩ := Option.ne_none_iff_exists'.mp (held' ending before invalid valid)
        rcases move.retains sound content
          (fun dropped => ending (.inr (.inr (.inl dropped.1)))) with ⟨_, same⟩ | ⟨d, _, same⟩
        · simp [same]
        · simp [same]
      | answered _ other => exact fun invalid => by simp [other] at invalid

/-- The content of the page in one shared memory with the same writes. -/
def latest (blank : γ) (h : List (Note γ)) : γ :=
  h.foldl (fun c e => match e with | .wrote d => d | _ => c) blank

@[simp] theorem latest_wrote (blank : γ) (h : List (Note γ)) (c : γ) :
    latest blank (h ++ [.wrote c]) = c := by
  simp [latest]

theorem latest_quiet (blank : γ) (h : List (Note γ)) (quiet : ∀ c, e ≠ some (.wrote c)) :
    latest blank (h ++ e.toList) = latest blank h := by
  rcases e with _ | e
  · simp
  · cases e with
    | wrote c => exact (quiet c rfl).elim
    | read => simp [latest]

theorem latest_lawful (blank : γ) :
    Lawful (fun h c => c = latest blank h) (fun h c => c = latest blank h) where
  fresh := by simp
  kept quiet held := by rw [latest_quiet blank _ quiet, held]
  settles := id
  lasting quiet held := by rw [latest_quiet blank _ quiet, held]

/-- What holds of one page throughout a serialised run. -/
structure Refines (blank : γ) (h : List (Note γ)) (x y : Half γ) : Prop where
  serial : Serial x y
  resident : Resident x.party
  tracked : Tracked blank (fun h c => c = latest blank h) (fun h c => c = latest blank h) h x y
  backed : Backed blank x y

theorem Refines.initial (blank : γ) : Refines blank [] (.initial γ) (.initial γ) where
  serial := by constructor <;> simp [Half.initial, Active]
  resident := .initial γ
  tracked := .initial rfl
  backed := by
    intro _ _ _ valid
    simp [Half.initial, Half.state, Half.pending] at valid

theorem Refines.move (own : Wired blank x y) (other : Wired blank y x)
    (held : Refines blank h x y) (held' : Refines blank h y x)
    (guard : Begins x.party p → x.Still ∧ y.Still)
    (move : Move blank x.party l e p) (ready : x.Enabled l) :
    Refines blank (h ++ e.toList) (x.fire p l) (y.receive l) ∧
      Refines blank (h ++ e.toList) (y.receive l) (x.fire p l) := by
  have calm : Invalidates x.party p → Undisturbed x y := fun h =>
    held.serial.calm own.sound h.1
  have crossing : ∀ c d, e = some (.wrote d) → Dirty y x → c = latest blank h →
      c = latest blank (h ++ [.wrote d]) := by
    rintro c d rfl dirty -
    cases move with
    | store _ here => exact (held.serial.quiet (by simp [here]) dirty).elim
  obtain ⟨tracked, tracked'⟩ := held.tracked.move (latest_lawful blank) own other held.resident
    held'.resident held'.tracked move ready calm held.serial.spares crossing
  have stored : Dirty y x → y.party.content ≠ none := fun dirty => by
    obtain ⟨c, content, _⟩ := held'.tracked.stored dirty
    simp [content]
  obtain ⟨backed, backed'⟩ :=
    held.backed.move own other held'.resident held'.backed stored move ready
  refine ⟨⟨held.serial.move own.sound move ready guard, ?_, tracked, backed⟩,
    ⟨held.serial.move_peer own.sound held'.serial move ready guard, ?_, tracked', backed'⟩⟩
  · simpa using move.resident held.resident (fun h => (calm h).vacant)
  · simpa using held'.resident

/-- While one side reads the page, its copy is what the shared memory holds. -/
theorem Refines.current (held : Refines blank h x y) (client : x.party.client = some st)
    (reading : ¬ st.Unsent) (content : x.party.content = some c) : c = latest blank h := by
  have active : x.party.client ≠ none := by simp [client]
  have clean : ¬ Dirty x y := by
    obtain ⟨unqueued, undropped, done⟩ := held.serial.unsent active
    rintro (⟨st', client', unsent⟩ | queued | serving | serving)
    · rw [client] at client'
      cases client'
      exact reading unsent
    · exact unqueued queued
    · exact undropped serving
    · exact done serving
  obtain ⟨v, agree, rfl⟩ := held.tracked.agreed clean (held.serial.quiet active)
  have value := agree.own (Half.valid_present held.resident content)
  simpa [Half.value, content] using value

/-- The page a server is asked to copy out is there. -/
theorem Refines.present (own : Wired blank x y) (other : Wired blank y x)
    (held' : Refines blank h y x)
    (serving : x.party.server = some .grant ∨ x.party.server = some .copy) :
    x.party.content ≠ none := by
  obtain ⟨st, busy, owes⟩ : ∃ st, x.party.server = some st ∧ st.Owes := by
    rcases serving with h | h <;> exact ⟨_, h, trivial⟩
  obtain ⟨stage, b, fetching, waiting, unanswered⟩ : ∃ stage b,
      y.party.resolver = some (stage, b) ∧ (stage = .response ∨ stage = .page) ∧
        y.pending blank = none := by
    obtain ⟨_, b, ⟨h, ⟨_, unread⟩ | ⟨_, unread⟩⟩ | ⟨h, _, unread⟩⟩ := other.fetch.owing busy owes
    · exact ⟨_, b, h, .inl rfl, by simp [Half.pending, h, unread, incoming]⟩
    · exact ⟨_, b, h, .inl rfl, by simp [Half.pending, h, unread, incoming]⟩
    · exact ⟨_, b, h, .inr rfl, by simp [Half.pending, h, unread, incoming]⟩
  have fetches : stage.Fetches := by rcases waiting with rfl | rfl <;> trivial
  obtain ⟨access, client, _⟩ := other.sound.fetches fetching fetches
  have active : y.party.client ≠ none := by simp [client]
  have gone := other.sound.gone (by simp [fetching])
  have clean : ¬ Dirty y x := fun dirty => by
    obtain ⟨c, content, _⟩ := held'.tracked.stored dirty
    simp [gone] at content
  have invalid : y.state blank = .invalid := by
    have idle : y.party.server = none := by
      by_contra serving
      exact held'.serial.alone (.inl active) (.inr (.inr serving))
    have known := held'.serial.fetching fetching (.inr waiting)
    simp [Half.state, idle, unanswered, known]
  apply held'.backed clean (held'.serial.quiet active) invalid
  unfold Half.state
  split
  · decide
  · exact own.sound.kept serving

end CSE306.S2DSM
