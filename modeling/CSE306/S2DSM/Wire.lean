import CSE306.S2DSM.Replica

/-! How the fetch of one replica is matched with the other replica's server and
with the messages between them, in every interleaving. -/
namespace CSE306.S2DSM
open Transition Transition.Duplex Replica

variable {γ : Type} {blank : γ}

/-- A replica with the messages about its page it has not read. -/
abbrev Half (γ : Type) := End (Replica γ) Kind (Answer γ)

/-- A page nobody has touched. -/
def Half.initial (γ : Type) : Half γ := ⟨⟨.invalid, none, none, none, none⟩, [], []⟩

theorem Replica.Resident.initial (γ : Type) : Resident (Half.initial γ).party := by
  constructor <;> simp [Half.initial]

/-- The server is not in the middle of answering a fetch. -/
def Free (server : Option Serve) : Prop := ∀ st, server = some st → ¬ st.Owes

/-- The server has answered: it has set SHARED, or is about to. -/
def Settled (server : Option Serve) (msi : Msi) : Prop :=
  server = some .share ∨ server = none ∧ msi ≠ .invalid

/-- The progress of a fetch: where its handler stands, the answers it has not
read, the requests the other server has not read, where that server stands and
its `msi_array` entry. Once the request is read nothing is left behind it, since
the main thread that caused the fetch is stopped. -/
inductive Progress : Option (Resolve × γ) → List (Answer γ) → List Kind → Option Serve → Msi →
    Prop where
  | idle : .fetch ∉ q → Free s → Progress none [] q s m
  | alone : st = .test ∨ st = .request ∨ st = .install → .fetch ∉ q → Free s →
      Progress (some (st, b)) [] q s m
  | sent : .fetch ∉ q → Free s → Progress (some (.response, b)) [] (q ++ [.fetch]) s m
  | served : st = .test ∨ st = .deny ∨ st = .grant →
      Progress (some (.response, b)) [] [] (some st) m
  | granted : Progress (some (.response, b)) [.present] [] (some .copy) m
  | paging : Progress (some (.page, b)) [] [] (some .copy) m
  | denied : Settled s m → Progress (some (.response, b)) [.absent] [] s m
  | copied : Settled s m → Progress (some (.response, b)) [.present, .content c] [] s m
  | paged : Settled s m → Progress (some (.page, b)) [.content c] [] s m
  | taken : Settled s m → Progress (some (.share, b)) [] [] s m

theorem free_none : Free none := fun _ h => by cases h

theorem free_some (st : Serve) (h : ¬ st.Owes) : Free (some st) := by
  rintro _ ⟨⟩
  exact h

theorem Settled.free (settled : Settled s m) : Free s := by
  rcases settled with rfl | ⟨rfl, _⟩
  · exact free_some _ id
  · exact free_none

theorem Settled.not_busy (settled : Settled (some st) m) : st = .share := by
  rcases settled with h | ⟨h, _⟩
  · exact Option.some.inj h
  · contradiction

theorem Progress.remark (held : Progress r k q s m) (valid : m' ≠ .invalid) :
    Progress r k q s m' := by
  have kept : Settled s m → Settled s m' := fun h => h.imp id (fun h => ⟨h.1, valid⟩)
  cases held with
  | idle clear free => exact .idle clear free
  | alone stage clear free => exact .alone stage clear free
  | sent clear free => exact .sent clear free
  | served stage => exact .served stage
  | granted => exact .granted
  | paging => exact .paging
  | denied settled => exact .denied (kept settled)
  | copied settled => exact .copied (kept settled)
  | paged settled => exact .paged (kept settled)
  | taken settled => exact .taken (kept settled)

theorem Progress.owing (held : Progress r k q (some st) m) (owes : st.Owes) :
    q = [] ∧ ∃ b, (r = some (.response, b) ∧
      (st ≠ .copy ∧ k = [] ∨ st = .copy ∧ k = [.present])) ∨
      (r = some (.page, b) ∧ st = .copy ∧ k = []) := by
  cases held with
  | idle _ free | alone _ _ free | sent _ free => exact (free _ rfl owes).elim
  | @served _ b _ stage =>
    exact ⟨rfl, b, .inl ⟨rfl, .inl ⟨by rintro rfl; simp at stage, rfl⟩⟩⟩
  | @granted b => exact ⟨rfl, b, .inl ⟨rfl, .inr ⟨rfl, rfl⟩⟩⟩
  | @paging b => exact ⟨rfl, b, .inr ⟨rfl, rfl, rfl⟩⟩
  | denied settled | copied settled | paged settled | taken settled =>
    exact (settled.free _ rfl owes).elim

theorem Progress.unasked (held : Progress (some (.request, b)) k q s m) : k = [] := by
  cases held
  rfl

theorem Progress.reads (held : Progress (some (st, b)) (a :: k) q s m) :
    st = .response ∧ (a = .absent ∨ a = .present) ∨ st = .page ∧ ∃ c, a = .content c := by
  cases held with
  | granted | denied | copied => simp
  | paged => simp

theorem Progress.unanswered (held : Progress (some (.response, b)) [] q s m) :
    .fetch ∈ q ∨ s = some .test ∨ s = some .deny ∨ s = some .grant := by
  cases held with
  | alone stage => simp at stage
  | sent => exact .inl (by simp)
  | served stage => exact .inr (by simpa using stage)

theorem Progress.unpaged (held : Progress (some (.page, b)) [] q s m) : s = some .copy := by
  cases held with
  | alone stage => simp at stage
  | paging => rfl

theorem Progress.asked (held : Progress (some (.response, b)) k q s m) (queued : .fetch ∈ q) :
    k = [] := by
  cases held with
  | alone | sent | served => rfl
  | granted | denied | copied => cases queued

theorem Progress.absent (held : Progress r (.absent :: k) q s m) : k = [] := by
  cases held
  rfl

/-- The fetch of `x` at `y`. -/
def Matched (x y : Half γ) : Prop :=
  Progress x.party.resolver x.connect y.accepted y.party.server y.party.msi

theorem Matched.asked (held : Matched x y) (waiting : x.party.resolver = some (.response, b))
    (queued : .fetch ∈ y.accepted) : x.connect = [] := by
  unfold Matched at held
  rw [waiting] at held
  exact held.asked queued

theorem Matched.owing (held : Matched x y) (busy : y.party.server = some st) (owes : st.Owes) :
    y.accepted = [] ∧ ∃ b, (x.party.resolver = some (.response, b) ∧
      (st ≠ .copy ∧ x.connect = [] ∨ st = .copy ∧ x.connect = [.present])) ∨
      (x.party.resolver = some (.page, b) ∧ st = .copy ∧ x.connect = []) := by
  unfold Matched at held
  rw [busy] at held
  exact Progress.owing held owes

/-- The moves of the fetching side. While the fetch is under way its main
thread sends nothing. -/
theorem Matched.own (sound : Sound blank x.party) (held : Matched x y)
    (move : Move blank x.party l e p) (ready : x.Enabled l) :
    Matched (x.fire p l) (y.receive l) := by
  obtain ⟨⟨msi, content, client, resolver, server⟩, accepted, connect⟩ := x
  obtain ⟨⟨msi', content', client', resolver', server'⟩, accepted', connect'⟩ := y
  simp only [Matched, End.Enabled] at *
  cases move with
  | begin | peek | load | print | store | mark | echo | serveFetch | serveInvalidate | refuse
  | accept | deny | grant | copy | settle | drop | invalidate => exact held
  | notify _ here =>
    subst here
    have alone : ∀ {st b}, resolver = some (st, b) → ¬ st.Fetches := by
      intro st b fetching fetches
      obtain ⟨_, ⟨⟩, touches⟩ := sound.fetches fetching fetches
      exact touches
    cases held with
    | idle clear free => exact .idle (by simpa [End.receive] using clear) free
    | alone stage clear free => exact .alone stage (by simpa [End.receive] using clear) free
    | sent | served | granted | paging | denied | copied | paged | taken =>
      exact (alone rfl trivial).elim
  | fault _ idle =>
    subst idle
    cases held with
    | idle clear free => exact .alone (.inl rfl) clear free
  | miss _ here =>
    subst here
    cases held with
    | alone stage clear free => exact .alone (.inr (.inl rfl)) clear free
  | hit _ here =>
    subst here
    cases held with
    | alone stage clear free => exact .alone (.inr (.inr rfl)) clear free
  | request _ here =>
    subst here
    cases held with
    | alone stage clear free => exact .sent clear free
  | absent _ here =>
    subst here
    cases held with
    | sent | served | granted | copied => cases ready
    | denied settled => exact .taken settled
    | alone stage => simp at stage
  | present _ here =>
    subst here
    cases held with
    | sent | served | denied => cases ready
    | granted => exact .paging
    | copied settled => exact .paged settled
    | alone stage => simp at stage
  | page _ here =>
    subst here
    cases held with
    | paging => cases ready
    | paged settled => exact .taken settled
    | alone stage => simp at stage
  | share _ here =>
    subst here
    cases held with
    | taken settled => exact .alone (.inr (.inr rfl)) List.not_mem_nil settled.free
    | alone stage => simp at stage
  | install _ here =>
    subst here
    cases held with
    | alone stage clear free => exact .idle clear free

/-- The moves of the answering side. -/
theorem Matched.other (held : Matched y x) (move : Move blank x.party l e p)
    (ready : x.Enabled l) : Matched (y.receive l) (x.fire p l) := by
  obtain ⟨⟨msi, content, client, resolver, server⟩, accepted, connect⟩ := x
  obtain ⟨⟨msi', content', client', resolver', server'⟩, accepted', connect'⟩ := y
  simp only [Matched, End.Enabled] at *
  cases move with
  | begin | peek | load | print | store | echo | notify | fault | miss | hit | request
  | absent | present | page | install => exact held
  | mark | share => exact held.remark (by rintro ⟨⟩)
  | serveFetch _ here =>
    subst here
    cases held with
    | idle clear | alone _ clear => exact (clear (List.mem_of_mem_head? ready)).elim
    | @sent q _ _ _ clear =>
      cases q with
      | nil => exact .served (.inl rfl)
      | cons k q => simp_all
    | denied | copied | paged | taken => cases ready
  | serveInvalidate _ here =>
    subst here
    cases held with
    | idle clear => exact .idle (fun h => clear (List.mem_of_mem_tail h)) (free_some _ id)
    | alone stage clear =>
      exact .alone stage (fun h => clear (List.mem_of_mem_tail h)) (free_some _ id)
    | @sent q _ _ _ clear =>
      cases q with
      | nil => cases ready
      | cons k q => exact .sent (fun h => clear (List.mem_cons_of_mem _ h)) (free_some _ id)
    | denied | copied | paged | taken => cases ready
  | refuse _ here =>
    subst here
    obtain ⟨rfl, b, ⟨rfl, ⟨-, rfl⟩ | ⟨⟨⟩, -⟩⟩ | ⟨-, ⟨⟩, -⟩⟩ := held.owing trivial
    exact .served (.inr (.inl rfl))
  | accept _ here =>
    subst here
    obtain ⟨rfl, b, ⟨rfl, ⟨-, rfl⟩ | ⟨⟨⟩, -⟩⟩ | ⟨-, ⟨⟩, -⟩⟩ := held.owing trivial
    exact .served (.inr (.inr rfl))
  | deny _ here =>
    subst here
    obtain ⟨rfl, b, ⟨rfl, ⟨-, rfl⟩ | ⟨⟨⟩, -⟩⟩ | ⟨-, ⟨⟩, -⟩⟩ := held.owing trivial
    exact .denied (.inl rfl)
  | grant _ here =>
    subst here
    obtain ⟨rfl, b, ⟨rfl, ⟨-, rfl⟩ | ⟨⟨⟩, -⟩⟩ | ⟨-, ⟨⟩, -⟩⟩ := held.owing trivial
    exact .granted
  | copy _ here =>
    subst here
    obtain ⟨rfl, b, ⟨rfl, ⟨h, -⟩ | ⟨-, rfl⟩⟩ | ⟨rfl, -, rfl⟩⟩ := held.owing trivial
    · exact (h rfl).elim
    · exact .copied (.inl rfl)
    · exact .paged (.inl rfl)
  | settle _ here =>
    subst here
    have settled : Settled none .shared := .inr ⟨rfl, by decide⟩
    cases held with
    | idle clear => exact .idle clear free_none
    | alone stage clear => exact .alone stage clear free_none
    | sent clear => exact .sent clear free_none
    | served stage => simp at stage
    | denied => exact .denied settled
    | copied => exact .copied settled
    | paged => exact .paged settled
    | taken => exact .taken settled
  | drop _ here =>
    subst here
    cases held with
    | idle clear => exact .idle clear (free_some _ id)
    | alone stage clear => exact .alone stage clear (free_some _ id)
    | sent clear => exact .sent clear (free_some _ id)
    | served stage => simp at stage
    | denied settled | copied settled | paged settled | taken settled =>
      cases settled.not_busy
  | invalidate _ here =>
    subst here
    cases held with
    | idle clear => exact .idle clear free_none
    | alone stage clear => exact .alone stage clear free_none
    | sent clear => exact .sent clear free_none
    | served stage => simp at stage
    | denied settled | copied settled | paged settled | taken settled =>
      cases settled.not_busy

/-- One replica and its fetch at the other. -/
structure Wired (blank : γ) (x y : Half γ) : Prop where
  sound : Sound blank x.party
  fetch : Matched x y

theorem Wired.initial (blank : γ) : Wired blank (.initial γ) (.initial γ) where
  sound := by constructor <;> simp [Half.initial]
  fetch := .idle List.not_mem_nil free_none

theorem Wired.move (own : Wired blank x y) (other : Wired blank y x)
    (move : Move blank x.party l e p) (ready : x.Enabled l) :
    Wired blank (x.fire p l) (y.receive l) ∧ Wired blank (y.receive l) (x.fire p l) :=
  ⟨⟨by simpa using move.sound own.sound, own.fetch.own own.sound move ready⟩,
    ⟨by simpa using other.sound, other.fetch.other move ready⟩⟩

end CSE306.S2DSM
