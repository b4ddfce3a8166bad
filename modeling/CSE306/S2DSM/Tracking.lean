import CSE306.S2DSM.Agreement

/-! What the agreed content of a page may be, as a function of what was observed
of the page so far. `Agreed` speaks of the times without an outstanding write,
`Tracked` also of the writer's copy in between. -/
namespace CSE306.S2DSM
open Transition Transition.Duplex Replica

variable {γ : Type} {blank : γ} {x y : Half γ}

def Agreed (blank : γ) (allowed : γ → Prop) (x y : Half γ) : Prop :=
  ¬ Dirty x y → ¬ Dirty y x → ∃ v, Agree blank x y v ∧ allowed v

theorem Agreed.symm (held : Agreed blank allowed x y) : Agreed blank allowed y x :=
  fun clean clean' => (held clean' clean).imp fun _ h => ⟨h.1.symm, h.2⟩

/-- Agreement of the settled end with what an invalidated page stands for. -/
def Half.Standing (blank : γ) (y : Half γ) (v : γ) : Prop :=
  (y.state blank ≠ .invalid → y.value blank = v) ∧ (y.state blank = .invalid → v = blank)

theorem Half.standing (blank : γ) (y : Half γ) : ∃ v, y.Standing blank v := by
  by_cases invalid : y.state blank = .invalid
  · exact ⟨blank, fun h => (h invalid).elim, fun _ => rfl⟩
  · exact ⟨y.value blank, fun _ => rfl, fun h => (invalid h).elim⟩

theorem Agreed.move {allowed allowed' : γ → Prop} (own : Wired blank x y) (other : Wired blank y x)
    (resident : Resident x.party) (held : Agreed blank allowed x y)
    (move : Move blank x.party l e p) (ready : x.Enabled l)
    (calm : Invalidates x.party p → Undisturbed x y)
    (source : Dirty y x → Invalidates x.party p → ∃ v, y.Standing blank v ∧ allowed' v)
    (lasting : ∀ v, (∀ c, e ≠ some (.wrote c)) → allowed v → allowed' v) :
    Agreed blank allowed' (x.fire p l) (y.receive l) := by
  intro clean clean'
  have before : ¬ Dirty x y := fun dirty => clean (dirty.persists move)
  by_cases ending : Dirty y x
  · obtain dirty | ⟨serving, rfl, rfl, rfl⟩ := ending.ends move ready
    · exact (clean' dirty).elim
    · obtain ⟨v, ⟨value, empty⟩, fits⟩ := source ending ⟨serving, rfl⟩
      exact ⟨v, .of_invalidate own (calm ⟨serving, rfl⟩) value empty, fits⟩
  · obtain ⟨v, agree, fits⟩ := held before ending
    refine ⟨v, agree.move own other resident before ending move ready clean,
      lasting v (fun c h => ?_) fits⟩
    subst h
    cases move with
    | store => exact clean (.inl ⟨_, rfl, trivial⟩)

/-- After a history `written` is what the copy of a writer may hold until its
write is processed, and `allowed` what both copies may stand for after that. -/
structure Lawful (written allowed : List (Note γ) → γ → Prop) : Prop where
  fresh : written (h ++ [.wrote c]) c
  kept : (∀ d, e ≠ some (.wrote d)) → written h c → written (h ++ e.toList) c
  settles : written h c → allowed h c
  lasting : (∀ d, e ≠ some (.wrote d)) → allowed h c → allowed (h ++ e.toList) c

structure Tracked (blank : γ) (written allowed : List (Note γ) → γ → Prop) (h : List (Note γ))
    (x y : Half γ) : Prop where
  agreed : Agreed blank (allowed h) x y
  stored : Dirty x y → ∃ c, x.party.content = some c ∧ written h c

theorem Tracked.initial {written allowed : List (Note γ) → γ → Prop} (fits : allowed [] blank) :
    Tracked blank written allowed [] (.initial γ) (.initial γ) where
  agreed := fun _ _ => ⟨blank, Agree.initial blank, fits⟩
  stored := by simp [Half.initial, Dirty]

/-- A server does not drop the page while a write of its own process is outstanding. -/
def Spares (x y : Half γ) (p : Replica γ) : Prop :=
  x.party.server = some .drop → p.server = some .invalidate → ¬ Dirty x y

theorem Half.valid_present (resident : Resident y.party) (content : y.party.content = some c) :
    y.state blank ≠ .invalid := by
  unfold Half.state
  split
  · decide
  · intro invalid
    simp [resident.absent invalid] at content

/-- A present copy is not INVALID, so the page stands for it. -/
theorem Half.standing_present (resident : Resident y.party) (content : y.party.content = some c) :
    y.Standing blank c :=
  ⟨fun _ => by simp [Half.value, content],
    fun invalid => (Half.valid_present resident content invalid).elim⟩

/-- A present copy is only replaced by a store or dropped for an 'I'. -/
theorem Replica.Move.retains {x : Replica γ} (sound : Sound blank x) (move : Move blank x l e p)
    (content : x.content = some c)
    (undropped : ¬ (x.server = some .drop ∧ p.server = some .invalidate)) :
    (∀ d, e ≠ some (.wrote d)) ∧ p.content = some c ∨
      ∃ d, e = some (.wrote d) ∧ p.content = some d := by
  cases move with
  | store => exact .inr ⟨_, rfl, rfl⟩
  | install _ here => simp [sound.gone (by simp [here])] at content
  | drop _ here => exact (undropped ⟨here, rfl⟩).elim
  | _ => exact .inl ⟨by simp, content⟩

theorem Tracked.move {written allowed : List (Note γ) → γ → Prop} (law : Lawful written allowed)
    (own : Wired blank x y) (other : Wired blank y x)
    (resident : Resident x.party) (resident' : Resident y.party)
    (held : Tracked blank written allowed h x y) (held' : Tracked blank written allowed h y x)
    (move : Move blank x.party l e p) (ready : x.Enabled l)
    (calm : Invalidates x.party p → Undisturbed x y) (spares : Spares x y p)
    (crossing : ∀ c d, e = some (.wrote d) → Dirty y x → written h c →
      written (h ++ [.wrote d]) c) :
    Tracked blank written allowed (h ++ e.toList) (x.fire p l) (y.receive l) ∧
      Tracked blank written allowed (h ++ e.toList) (y.receive l) (x.fire p l) := by
  have agreed : Agreed blank (allowed (h ++ e.toList)) (x.fire p l) (y.receive l) := by
    refine held.agreed.move own other resident move ready calm ?_ (fun _ => law.lasting)
    rintro dirty ⟨serving, done⟩
    obtain ⟨c, content, fits⟩ := held'.stored dirty
    refine ⟨c, Half.standing_present resident' content, law.lasting ?_ (law.settles fits)⟩
    rintro d rfl
    cases move with
    | store => simp [serving] at done
  refine ⟨⟨agreed, fun dirty => ?_⟩, agreed.symm, fun dirty => ?_⟩
  · rcases Dirty.source move dirty with before | ⟨c, rfl, content⟩
    · obtain ⟨c, content, fits⟩ := held.stored before
      rcases move.retains own.sound content (fun h => spares h.1 h.2 before) with
        ⟨quiet, same⟩ | ⟨d, rfl, same⟩
      · exact ⟨c, by simpa using same, law.kept quiet fits⟩
      · exact ⟨d, by simpa using same, law.fresh⟩
    · exact ⟨c, by simpa using content, law.fresh⟩
  · have before := dirty.source_peer move ready
    obtain ⟨c, content, fits⟩ := held'.stored before
    refine ⟨c, by simpa using content, ?_⟩
    by_cases writes : ∃ d, e = some (.wrote d)
    · obtain ⟨d, rfl⟩ := writes
      exact crossing c d rfl before fits
    · exact law.kept (fun d h => writes ⟨d, h⟩) fits

end CSE306.S2DSM
