import CSE306.S2DSM.Wire

/-! Agreement of the two copies of a page while no write of it is outstanding.
An answer counts from the moment it is sent: the entry and the content of a
replica are taken as they will be once what is under way has settled. -/
namespace CSE306.S2DSM
open Transition Transition.Duplex Replica

variable {γ : Type} {blank : γ} {x y : Half γ}

/-- The content a list of unread answers delivers. -/
def incoming (blank : γ) : List (Answer γ) → Option γ
  | [] => none
  | .absent :: _ => some blank
  | .present :: rest => incoming blank rest
  | .content c :: _ => some c

namespace Half

/-- The content of a fetch that has been answered and not yet marked SHARED. -/
def pending (blank : γ) (x : Half γ) : Option γ :=
  match x.party.resolver with
  | some (.share, b) => some b
  | some (.response, _) | some (.page, _) => incoming blank x.connect
  | _ => none

/-- The `msi_array` entry, once a sent answer is marked on both sides. -/
def state (blank : γ) (x : Half γ) : Msi :=
  if x.party.server = some .share ∨ (x.pending blank).isSome then .shared else x.party.msi

/-- The content the next access finds, if its entry is not INVALID. -/
def value (blank : γ) (x : Half γ) : γ :=
  match x.party.content with
  | some c => c
  | none =>
    match x.party.resolver with
    | some (.install, b) => b
    | _ => (x.pending blank).getD blank

end Half

/-- A write of `x` that `y` has not fully processed. -/
def Dirty (x y : Half γ) : Prop :=
  (∃ st, x.party.client = some st ∧ st.Unsent) ∨ .invalidate ∈ y.accepted ∨
    y.party.server = some .drop ∨ y.party.server = some .invalidate

instance (x y : Half γ) : Decidable (Dirty x y) := by unfold Dirty; infer_instance

/-- Both copies stand for the content `v`. -/
structure Agree (blank : γ) (x y : Half γ) (v : γ) : Prop where
  own : x.state blank ≠ .invalid → x.value blank = v
  other : y.state blank ≠ .invalid → y.value blank = v
  fresh : x.state blank = .invalid → y.state blank = .invalid → v = blank
  denies : x.party.server = some .deny ∨ y.party.server = some .deny → v = blank
  exclusive : x.state blank = .modified → y.state blank = .invalid
  excluded : y.state blank = .modified → x.state blank = .invalid

theorem Agree.symm (held : Agree blank x y v) : Agree blank y x v :=
  ⟨held.other, held.own, fun h k => held.fresh k h, fun h => held.denies h.symm,
    held.excluded, held.exclusive⟩

theorem Agree.initial (blank : γ) : Agree blank (.initial γ) (.initial γ) blank := by
  constructor <;> simp [Half.initial, Half.state, Half.pending]

/-- No answered fetch of the page is unfinished here, and no copy of it is here. -/
def Undisturbed (x y : Half γ) : Prop :=
  x.party.content = none ∧ ∀ r, x.party.resolver = some r →
    r.1 = .test ∨ r.1 = .request ∨ r.1 = .response ∧ .fetch ∈ y.accepted

instance (x y : Half γ) : Decidable (Undisturbed x y) := by unfold Undisturbed; infer_instance

theorem Undisturbed.vacant (calm : Undisturbed x y) : x.party.Vacant :=
  ⟨calm.1, fun b h => by simpa using calm.2 _ h⟩

theorem Wired.value_waiting (wired : Wired blank x y)
    (fetching : x.party.resolver = some (.response, b))
    (unread : x.connect = [] ∨ x.connect = [.present]) :
    x.value blank = blank ∧ x.pending blank = none := by
  have gone := wired.sound.gone (by simp [fetching])
  have none : x.pending blank = none := by
    rcases unread with h | h <;> simp [Half.pending, fetching, h, incoming]
  refine ⟨?_, none⟩
  simp [Half.value, gone, fetching, none]

/-- What a move does to both ends, as they will have settled, while no write is
outstanding: nothing, or it answers a fetch and both become SHARED. -/
inductive Outcome (blank : γ) (x y x' y' : Half γ) : Prop where
  | steady : x'.state blank = x.state blank ∧ x'.value blank = x.value blank →
      y'.state blank = y.state blank ∧ y'.value blank = y.value blank → Outcome blank x y x' y'
  | answered : x'.state blank = .shared → y'.state blank = .shared →
      x'.value blank = x.value blank →
      x.party.server = some .deny ∧ y'.value blank = blank ∨
        x.state blank ≠ .invalid ∧ y'.value blank = x.value blank → Outcome blank x y x' y'

theorem Outcome.silent {y : Half γ} (state : Half.state blank x' = x.state blank)
    (value : Half.value blank x' = x.value blank) : Outcome blank x y x' y :=
  .steady ⟨state, value⟩ ⟨rfl, rfl⟩

theorem Wired.outcome (own : Wired blank x y) (other : Wired blank y x)
    (clean : ¬ Dirty x y) (clean' : ¬ Dirty y x) (move : Move blank x.party l e p)
    (ready : x.Enabled l) (still : ¬ Dirty (x.fire p l) (y.receive l)) :
    Outcome blank x y (x.fire p l) (y.receive l) := by
  obtain ⟨sound, fetch⟩ := own
  obtain ⟨⟨msi, content, client, resolver, server⟩, accepted, connect⟩ := x
  cases move with
  | store => exact (still (.inl ⟨_, rfl, trivial⟩)).elim
  | mark _ here | echo _ here | notify _ here => exact (clean (.inl ⟨_, here, trivial⟩)).elim
  | serveInvalidate => exact (clean' (.inr (.inl (List.mem_of_mem_head? ready)))).elim
  | drop _ here => exact (clean' (.inr (.inr (.inl here)))).elim
  | invalidate _ here => exact (clean' (.inr (.inr (.inr here)))).elim
  | begin | peek | load | print => exact .silent rfl rfl
  | fault _ idle gone =>
    obtain rfl : resolver = none := idle
    obtain rfl : content = none := gone
    exact .silent rfl rfl
  | miss _ here =>
    obtain rfl : resolver = _ := here
    exact .silent rfl rfl
  | @hit b _ here =>
    obtain rfl : resolver = _ := here
    obtain rfl : b = blank := sound.cleared rfl (.inl rfl)
    obtain rfl : content = none := sound.gone (by simp)
    exact .silent rfl rfl
  | serveFetch _ here =>
    obtain rfl : server = _ := here
    exact .silent (by simp [Half.state, Half.pending, End.fire]) rfl
  | accept _ here =>
    obtain rfl : server = _ := here
    exact .silent (by simp [Half.state, Half.pending, End.fire]) rfl
  | settle _ here =>
    obtain rfl : server = _ := here
    exact .silent (by simp [Half.state, End.fire]) rfl
  | request _ here =>
    obtain rfl : resolver = _ := here
    obtain rfl : connect = [] := Progress.unasked fetch
    exact .steady ⟨rfl, rfl⟩ ⟨rfl, rfl⟩
  | @absent b _ here =>
    obtain rfl : resolver = _ := here
    obtain ⟨rest, rfl⟩ : ∃ rest, connect = .absent :: rest := List.head?_eq_some_iff.mp ready
    obtain rfl : rest = [] := Progress.absent fetch
    obtain rfl : b = blank := sound.cleared rfl (by simp)
    exact .silent rfl rfl
  | present _ here =>
    obtain rfl : resolver = _ := here
    obtain ⟨rest, rfl⟩ : ∃ rest, connect = .present :: rest := List.head?_eq_some_iff.mp ready
    exact .silent rfl rfl
  | page _ here =>
    obtain rfl : resolver = _ := here
    obtain ⟨rest, rfl⟩ : ∃ rest, connect = .content _ :: rest := List.head?_eq_some_iff.mp ready
    exact .silent rfl rfl
  | share _ here =>
    obtain rfl : resolver = _ := here
    exact .silent (by simp [Half.state, Half.pending, End.fire]) rfl
  | install _ here =>
    obtain rfl : resolver = _ := here
    obtain rfl : content = none := sound.gone (by simp)
    exact .silent rfl rfl
  | grant _ here =>
    obtain rfl : server = _ := here
    obtain ⟨rfl, b, ⟨fetching, ⟨-, unread⟩ | ⟨⟨⟩, -⟩⟩ | ⟨-, ⟨⟩, -⟩⟩ :=
      other.fetch.owing rfl trivial
    refine .steady ⟨by simp [Half.state, Half.pending, End.fire], rfl⟩ ?_
    simp [Half.state, Half.value, Half.pending, End.receive, incoming, fetching, unread]
  | refuse _ here =>
    obtain rfl : server = _ := here
    exact .silent (by simp [Half.state, Half.pending, End.fire]) rfl
  | deny _ here =>
    obtain rfl : server = _ := here
    obtain ⟨rfl, b, ⟨fetching, ⟨-, unread⟩ | ⟨⟨⟩, -⟩⟩ | ⟨-, ⟨⟩, -⟩⟩ :=
      other.fetch.owing rfl trivial
    have gone := other.sound.gone (by simp [fetching])
    refine .answered (by simp [Half.state, End.fire]) ?_ rfl (.inl ⟨rfl, ?_⟩)
    · simp [Half.state, Half.pending, End.receive, fetching, unread, incoming]
    · simp [Half.value, Half.pending, End.receive, fetching, unread, incoming, gone]
  | @copy c _ here present =>
    obtain rfl : server = _ := here
    obtain rfl : content = _ := present
    obtain ⟨rfl, b, owed⟩ := other.fetch.owing rfl trivial
    have gone := other.sound.gone (by rcases owed with ⟨h, -⟩ | ⟨h, -⟩ <;> simp [h])
    have valid : msi ≠ .invalid := sound.kept (.inr rfl)
    refine .answered (by simp [Half.state, End.fire]) ?_ rfl (.inr ⟨?_, ?_⟩)
    · rcases owed with ⟨fetching, ⟨h, -⟩ | ⟨-, unread⟩⟩ | ⟨fetching, -, unread⟩
      · exact (h rfl).elim
      all_goals simp [Half.state, Half.pending, End.receive, fetching, unread, incoming]
    · unfold Half.state
      split
      · decide
      · exact valid
    · rcases owed with ⟨fetching, ⟨h, -⟩ | ⟨-, unread⟩⟩ | ⟨fetching, -, unread⟩
      · exact (h rfl).elim
      all_goals simp [Half.value, Half.pending, End.receive, fetching, unread, incoming, gone]

theorem Matched.answered (held : Matched x y) (sent : (x.pending blank).isSome) :
    y.state blank ≠ .invalid := by
  have settled : Settled y.party.server y.party.msi := by
    obtain ⟨⟨_, _, _, resolver, _⟩, _, connect⟩ := x
    obtain ⟨⟨_, _, _, _, server⟩, accepted, _⟩ := y
    simp only [Matched] at held
    cases held with
    | denied settled | copied settled | paged settled | taken settled => exact settled
    | alone stage => rcases stage with rfl | rfl | rfl <;> cases sent
    | _ => cases sent
  unfold Half.state
  split
  · decide
  · rename_i unanswered
    rcases settled with sharing | ⟨_, valid⟩
    · exact (unanswered (.inl sharing)).elim
    · exact valid

theorem Agree.refused (held : Agree blank x y v) (other : Wired blank y x) (fetch : Matched x y)
    (testing : x.party.server = some .test) (invalid : x.party.msi = .invalid) : v = blank := by
  obtain ⟨-, b, ⟨waiting, ⟨-, unread⟩ | ⟨⟨⟩, -⟩⟩ | ⟨-, ⟨⟩, -⟩⟩ := other.fetch.owing testing trivial
  obtain ⟨empty, _⟩ := other.value_waiting waiting (.inl unread)
  by_cases known : y.state blank = .invalid
  · refine held.fresh ?_ known
    have unanswered : ¬ (x.pending blank).isSome := fun sent => fetch.answered sent known
    simp [Half.state, testing, invalid, unanswered]
  · rw [← held.other known, empty]

theorem Half.value_invalid (resident : Resident x.party) (invalid : x.state blank = .invalid) :
    x.value blank = blank := by
  unfold Half.state at invalid
  split at invalid
  · cases invalid
  · rename_i unanswered
    have gone := resident.absent invalid
    have unsent : x.pending blank = none := by simpa using (not_or.mp unanswered).2
    simp only [Half.value, gone, unsent, Option.getD_none]
    split
    · rename_i installing
      exact (resident.installs installing invalid).elim
    · rfl

theorem Replica.Move.denies {x : Replica γ} (move : Move blank x l e p)
    (denying : p.server = some .deny) :
    x.server = some .deny ∨ x.server = some .test ∧ x.msi = .invalid := by
  cases move with
  | refuse _ here invalid => exact .inr ⟨here, invalid⟩
  | serveFetch | serveInvalidate | accept | deny | grant | copy | settle | drop | invalidate =>
    cases denying
  | _ => exact .inl denying

/-- While no write is outstanding no move changes what the page stands for. -/
theorem Agree.move (own : Wired blank x y) (other : Wired blank y x) (resident : Resident x.party)
    (clean : ¬ Dirty x y) (clean' : ¬ Dirty y x) (held : Agree blank x y v)
    (move : Move blank x.party l e p) (ready : x.Enabled l)
    (still : ¬ Dirty (x.fire p l) (y.receive l)) :
    Agree blank (x.fire p l) (y.receive l) v := by
  have denies : (x.fire p l).party.server = some .deny ∨ (y.receive l).party.server = some .deny →
      v = blank := by
    simp only [End.fire_party, End.receive_party]
    rintro (denying | denying)
    · rcases move.denies denying with before | ⟨testing, invalid⟩
      · exact held.denies (.inl before)
      · exact held.refused other own.fetch testing invalid
    · exact held.denies (.inr denying)
  cases own.outcome other clean clean' move ready still with
  | steady own other =>
    refine ⟨?_, ?_, ?_, denies, ?_, ?_⟩
    · simpa only [own.1, own.2] using held.own
    · simpa only [other.1, other.2] using held.other
    · simpa only [own.1, other.1] using held.fresh
    · simpa only [own.1, other.1] using held.exclusive
    · simpa only [own.1, other.1] using held.excluded
  | answered own other value sent =>
    have values : x.value blank = v ∧ Half.value blank (y.receive l) = v := by
      rcases sent with ⟨denying, sent⟩ | ⟨valid, sent⟩
      · have empty := held.denies (.inl denying)
        refine ⟨?_, sent.trans empty.symm⟩
        by_cases invalid : x.state blank = .invalid
        · exact (Half.value_invalid resident invalid).trans empty.symm
        · exact held.own invalid
      · exact ⟨held.own valid, sent.trans (held.own valid)⟩
    refine ⟨fun _ => value.trans values.1, fun _ => values.2, ?_, denies, ?_, ?_⟩
    · simp [own]
    · simp [own]
    · simp [other]

/-- The last request of the other side's writes has been processed: what that
side holds is what the page stands for. -/
theorem Agree.of_invalidate (own : Wired blank x y) (calm : Undisturbed x y)
    (value : y.state blank ≠ .invalid → y.value blank = v)
    (empty : y.state blank = .invalid → v = blank) :
    Agree blank (x.fire { x.party with msi := .invalid, server := none } .silent) y v := by
  have unanswered : x.pending blank = none := by
    unfold Half.pending
    split
    · rename_i sharing
      simpa using calm.2 _ sharing
    · rename_i waiting
      rcases calm.2 _ waiting with h | h | ⟨-, queued⟩
      · cases h
      · cases h
      · rw [own.fetch.asked waiting queued, incoming]
    · rename_i paging
      simpa using calm.2 _ paging
    · rfl
  have invalid : Half.state blank
      (x.fire { x.party with msi := .invalid, server := none } .silent) = .invalid := by
    have same : Half.pending blank
        (x.fire { x.party with msi := .invalid, server := none } .silent) = none := unanswered
    unfold Half.state
    rw [same]
    rfl
  refine ⟨fun h => (h invalid).elim, value, fun _ => empty, ?_, fun h => ?_, fun _ => invalid⟩
  · rintro (h | denying)
    · cases h
    · obtain ⟨drained, b, ⟨waiting, -⟩ | ⟨-, ⟨⟩, -⟩⟩ :=
        own.fetch.owing denying trivial
      rcases calm.2 _ waiting with h | h | ⟨-, queued⟩
      · cases h
      · cases h
      · simp [drained] at queued
  · rw [invalid] at h
    cases h

theorem Dirty.source (move : Move blank x.party l e p)
    (dirty : Dirty (x.fire p l) (y.receive l)) :
    Dirty x y ∨ ∃ c, e = some (.wrote c) ∧ p.content = some c := by
  obtain ⟨x, accepted, connect⟩ := x
  cases move with
  | begin _ idle entry =>
    have sent := entry.sent
    grind [Dirty, End.fire, End.receive]
  | _ => grind [Dirty, End.fire, End.receive, Stage.Unsent]

theorem Dirty.source_peer (move : Move blank x.party l e p) (ready : x.Enabled l)
    (dirty : Dirty (y.receive l) (x.fire p l)) : Dirty y x := by
  obtain ⟨x, accepted, connect⟩ := x
  cases move with
  | serveFetch | serveInvalidate =>
    obtain ⟨rest, rfl⟩ := List.head?_eq_some_iff.mp ready
    grind [Dirty, End.fire, End.receive]
  | _ => grind [Dirty, End.fire, End.receive]

theorem Dirty.persists (move : Move blank x.party l e p) (dirty : Dirty x y) :
    Dirty (x.fire p l) (y.receive l) := by
  obtain ⟨x, accepted, connect⟩ := x
  cases move <;> grind [Dirty, End.fire, End.receive, Stage.Unsent]

theorem Dirty.ends (move : Move blank x.party l e p) (ready : x.Enabled l) (dirty : Dirty y x) :
    Dirty (y.receive l) (x.fire p l) ∨ x.party.server = some .invalidate ∧
      l = .silent ∧ e = none ∧ p = { x.party with msi := .invalid, server := none } := by
  obtain ⟨x, accepted, connect⟩ := x
  cases move with
  | serveFetch | serveInvalidate =>
    obtain ⟨rest, rfl⟩ := List.head?_eq_some_iff.mp ready
    grind [Dirty, End.fire, End.receive]
  | _ => grind [Dirty, End.fire, End.receive]

end CSE306.S2DSM
