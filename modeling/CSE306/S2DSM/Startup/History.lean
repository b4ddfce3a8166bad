import CSE306.S2DSM.Startup.Rendezvous

/-! What a history of the two starts tells: who leads, and that every request is handled
after the mapping it is about was set up. -/
namespace CSE306.S2DSM.Startup
open Transition Transition.Duplex

variable {l : Launch} {i : Side}

def Main.decided : Main → Bool
  | .createHandshake | .connect | .sendPid | .joinHandshake => false
  | _ => true

theorem Main.decided_of_command {m : Main} (runs : m.maxPage?.isSome = true) :
    m.decided = true := by
  cases m with
  | commandLoop | sendInvalidate => rfl
  | _ => cases runs

/-- The history shows what a process has done. -/
structure Recorded (l : Launch) (i : Side) (h : List (Side × Event)) (x : Program) : Prop where
  decided : x.main.decided = true → ∃ first, (i, .branch first) ∈ h
  initialised : x.region.msiArray ≠ none → (i, .initialised) ∈ h
  registered : x.region.registered = true → (i, .registered) ∈ h
  served : (i, .handled request) ∈ h → x.server ≠ .absent

/-- What a move shows of the four things the history is asked about. -/
structure Shows (x p : Program) (e : Option Event) : Prop where
  decided : p.main.decided = true → x.main.decided = true ∨ ∃ first, e = some (.branch first)
  initialised : p.region.msiArray ≠ none → x.region.msiArray ≠ none ∨ e = some .initialised
  registered : p.region.registered = true → x.region.registered = true ∨ e = some .registered
  handling : e = some (.handled request) → x.server ≠ .absent
  serving : x.server ≠ .absent → p.server ≠ .absent

theorem Program.Moves.shows {x : Program} (moved : x.Moves l label e p) : Shows x p e := by
  obtain ⟨record, turn, moved⟩ := moved
  cases turn with
  | main whichPage =>
    simp only [Program.step, Program.mainStep] at moved
    cases known : x.main <;> simp only [known] at moved <;> constructor <;>
      grind [Main.decided, Program.fill, Program.watch, Option.map_eq_some_iff]
  | handshake pid =>
    simp only [Program.step, Program.handshakeStep] at moved
    split at moved <;> constructor <;> grind [Program.take_eq_some]
  | receive len =>
    simp only [Program.step, Program.receiveStep] at moved
    split at moved <;> constructor <;> grind [Program.take_eq_some, Program.fill, Program.watch]
  | handler offset =>
    simp only [Program.step, Program.handlerStep] at moved
    split at moved <;> constructor <;> grind
  | server request =>
    simp only [Program.step, Program.serverStep] at moved
    split at moved <;> constructor <;> grind [Program.take_eq_some]

theorem Recorded.moves {x : Program} (held : Recorded l i h x) (moved : x.Moves l label e p) :
    Recorded l i (h ++ (e.map (i, ·)).toList) p := by
  have shows := moved.shows
  constructor
  · intro now
    cases shows.decided now with
    | inl before =>
      obtain ⟨first, shown⟩ := held.decided before
      exact ⟨first, List.mem_append_left _ shown⟩
    | inr branched =>
      obtain ⟨first, rfl⟩ := branched
      exact ⟨first, by simp⟩
  · intro now
    cases shows.initialised now with
    | inl before => exact List.mem_append_left _ (held.initialised before)
    | inr now => simp [now]
  · intro now
    cases shows.registered now with
    | inl before => exact List.mem_append_left _ (held.registered before)
    | inr now => simp [now]
  · intro request shown
    apply shows.serving
    cases List.mem_append.mp shown with
    | inl before => exact held.served before
    | inr now =>
      simp only [Option.mem_toList, Option.map_eq_some_iff, Prod.mk.injEq, true_and] at now
      obtain ⟨_, now, rfl⟩ := now
      exact shows.handling now

theorem Recorded.elsewhere (held : Recorded l i h x) (other : j ≠ i) (e : Option Event) :
    Recorded l i (h ++ (e.map (j, ·)).toList) x := by
  refine ⟨fun now => (held.decided now).imp fun _ => List.mem_append_left _,
    fun now => List.mem_append_left _ (held.initialised now),
    fun now => List.mem_append_left _ (held.registered now), fun shown => ?_⟩
  rcases List.mem_append.mp shown with before | now
  · exact held.served before
  · simp [other] at now

/-- What holds of both processes, their connections and the history throughout. -/
structure Agreed (l : Launch) (h : List (Side × Event)) (s : Net Program Record Empty) :
    Prop where
  shape : ∀ i, Shape l i (s i).party
  linked : ∀ i, Linked l i (s i) (s i.peer).party
  recorded : ∀ i, Recorded l i h (s i).party
  fits : ∀ i e, (i, e) ∈ h → e.Fits l i

theorem Launch.Runs.agreed (run : l.Runs h s) : Agreed l h s := by
  apply run.invariant (I := Agreed l)
  · refine ⟨fun i => .created, fun i => .created l _, fun i => ?_, by simp⟩
    constructor <;> simp [Launch.start, Program.start, Main.decided]
  · rintro h s _ _ _ held ⟨j, admitted, moved, ready⟩
    rename_i p label e
    have kept := (held.shape j).moves (held.shape j.peer) (held.linked j)
      (by simpa using held.linked j.peer) moved ready
    obtain ⟨shape, shown, own, back⟩ := kept
    refine ⟨fun i => ?_, fun i => ?_, fun i => ?_, ?_⟩
    · rcases Side.eq_or_peer j i with rfl | rfl
      · simpa using shape
      · simpa using held.shape j.peer
    · rcases Side.eq_or_peer j i with rfl | rfl
      · simpa using own
      · simpa using back
    · rcases Side.eq_or_peer j i with rfl | rfl
      · simpa using (held.recorded i).moves moved
      · simpa using (held.recorded j.peer).elsewhere j.peer_ne.symm e
    · intro i e mem
      rcases List.mem_append.mp mem with old | new
      · exact held.fits i e old
      · simp only [Option.mem_toList, Option.map_eq_some_iff, Prod.mk.injEq] at new
        obtain ⟨_, now, rfl, rfl⟩ := new
        exact shown _ now

/-- A running process has the whole mapping, and so has one whose server is at work. -/
theorem Shape.watched (shape : Shape l i x)
    (at_work : x.main.maxPage?.isSome = true ∨ x.server ≠ .absent) :
    x.region = l.watched ∧ ∀ m, x.main.maxPage? = some m → m = l.maxPage l.len := by
  cases shape with
  | @running _ main _ _ _ fits =>
    refine ⟨rfl, fun m known => ?_⟩
    cases main with
    | commandLoop =>
      obtain rfl := fits
      exact (Option.some.inj known).symm
    | sendInvalidate =>
      obtain ⟨rfl, _⟩ := fits
      exact (Option.some.inj known).symm
    | _ => cases known
  | meeting known | met known =>
    rcases known with rfl | rfl | rfl <;> simp [Main.maxPage?] at at_work
  | leads _ known =>
    rcases known with ⟨rfl, _⟩ | ⟨rfl, _⟩ | ⟨rfl, _⟩ | ⟨rfl, _⟩ | ⟨rfl, _⟩ <;>
      simp [Main.maxPage?] at at_work
  | _ => simp [Main.maxPage?, Program.start] at at_work

/-- The mapping is registered, and `msi_array` has an initialised entry for the page. -/
structure Region.Covers (r : Region) (page : BitVec 32) : Prop where
  registered : r.registered = true
  initialised : ∃ entries, r.msiArray = some entries ∧ 0 ≤ page.toInt ∧ page.toInt < entries

theorem Launch.watched_covers (inside : l.InRange page) : l.watched.Covers page := by
  obtain ⟨least, most⟩ := inside
  refine ⟨rfl, _, rfl, least, ?_⟩
  rw [l.toInt_maxPage] at most
  exact most

theorem Shape.covers (shape : Shape l i x) (holds : x.server = .handle (some request)) :
    x.region.Covers request.2 := by
  cases shape with
  | running _ _ serves _ =>
    cases holds
    obtain ⟨_, same, inside⟩ := serves
    cases same
    exact Launch.watched_covers inside
  | _ => simp [Program.start] at holds

/-- The server has a request in its hands only once the mapping it is about is set up. -/
theorem Agreed.handled (run : l.Runs (before ++ (i, .handled request) :: after) s) :
    (i, .initialised) ∈ before ∧ (i, .registered) ∈ before ∧ l.InRange request.2 := by
  have inside := run.agreed.fits i (.handled request) (by simp)
  obtain ⟨u, _, head, step⟩ := run.observed
  obtain ⟨_, _, _, moved, _⟩ := step.shown
  have held := Launch.Runs.agreed head
  have region := ((held.shape i).watched (.inr (moved.shows.handling rfl))).1
  refine ⟨(held.recorded i).initialised ?_, (held.recorded i).registered ?_, inside⟩
  · simp [region, Launch.watched]
  · simp [region, Launch.watched]

/-- Whatever the order of the starts, one process leads and the other follows, each
record is read by the thread meant for it, the command loops work on one mapping, and
requests are handled after it is set up and within it: from the moment a server has one
in its hands, its mapping is registered and `msi_array` has the entry. -/
theorem startup_agreement (run : l.Runs h s) :
    (∃ leader : Side, (leader, .branch false) ∉ h ∧ (leader.peer, .branch true) ∉ h ∧
      ∀ m m', (s leader).party.main.maxPage? = some m →
        (s leader.peer).party.main.maxPage? = some m' →
        (leader, .branch true) ∈ h ∧ (leader.peer, .branch false) ∈ h ∧
          (s leader).party.region.len = (s leader.peer).party.region.len ∧ m = m') ∧
    (∀ i thread record, (i, .took thread record) ∈ h → record.reader = thread) ∧
    (∀ i m, (s i).party.main.maxPage? = some m → m = l.maxPage (s i).party.region.len) ∧
    (∀ i request before after, h = before ++ (i, .handled request) :: after →
      (i, .initialised) ∈ before ∧ (i, .registered) ∈ before ∧ 0 ≤ request.2.toInt ∧
        request.2.toInt < (l.maxPage (s i).party.region.len).toInt) ∧
    ∀ i request, (s i).party.server = .handle (some request) ∨ (i, .handled request) ∈ h →
      (s i).party.region.Covers request.2 := by
  have held := run.agreed
  have mapped : ∀ i m, (s i).party.main.maxPage? = some m →
      (s i).party.region = l.watched ∧ m = l.maxPage l.len := by
    intro i m known
    obtain ⟨region, value⟩ := (held.shape i).watched (.inl (by simp [known]))
    exact ⟨region, value m known⟩
  have branched : ∀ i first, (i, .branch first) ∈ h → first = l.isFirst i :=
    fun i first shown => held.fits i (.branch first) shown
  have served : ∀ i request, (i, .handled request) ∈ h → (s i).party.region = l.watched :=
    fun i request shown => ((held.shape i).watched (.inr ((held.recorded i).served shown))).1
  refine ⟨?_, fun i thread record shown => held.fits i _ shown, fun i m known => ?_, ?_, ?_⟩
  · obtain ⟨leader, leads⟩ : ∃ i, l.isFirst i = true := by
      cases role : l.isFirst .first with
      | true => exact ⟨.first, role⟩
      | false => exact ⟨Side.first.peer, by rw [l.isFirst_peer, role]; rfl⟩
    have follows : l.isFirst leader.peer = false := by rw [l.isFirst_peer, leads]; rfl
    refine ⟨leader, fun shown => ?_, fun shown => ?_, fun m m' own other => ?_⟩
    · cases leads.symm.trans (branched leader false shown).symm
    · cases follows.symm.trans (branched leader.peer true shown).symm
    · have past : ∀ i, (s i).party.main.maxPage?.isSome = true →
          (i, .branch (l.isFirst i)) ∈ h := by
        intro i runs
        obtain ⟨first, shown⟩ := (held.recorded i).decided (Main.decided_of_command runs)
        rwa [← branched i first shown]
      have led := past leader (by simp [own])
      have followed := past leader.peer (by simp [other])
      rw [leads] at led
      rw [follows] at followed
      refine ⟨led, followed, ?_, (mapped leader m own).2.trans (mapped leader.peer m' other).2.symm⟩
      rw [(mapped leader m own).1, (mapped leader.peer m' other).1]
  · rw [(mapped i m known).1]
    exact (mapped i m known).2
  · rintro i request before after rfl
    obtain ⟨initialised, registered, inside⟩ := Agreed.handled run
    rw [served i request (by simp)]
    exact ⟨initialised, registered, inside⟩
  · intro i request at_hand
    cases at_hand with
    | inl holds => exact (held.shape i).covers holds
    | inr shown =>
      rw [served i request shown]
      exact Launch.watched_covers (held.fits i _ shown)

def threePages : Launch where
  pid := fun i => if i = .first then 200 else 100
  pageSize := 4096
  pages := 3
  distinct := by decide
  positive := by decide
  mapped := by decide
  whole := by decide

/-- The process with pid 100 leads. The follower's handler asks for page 2 and the
leader writes page 1, each before the other one's command loop runs. -/
def startThreePages : List (Side × Turn) :=
  let (a, b) : Side × Side := (.first, .second)
  [(a, .main 0), (b, .main 0), (a, .handshake 0), (b, .handshake 0), (a, .main 0), (b, .main 0),
    (a, .main 0), (b, .main 0), (a, .handshake 0), (b, .handshake 0), (a, .handshake 100),
    (b, .handshake 200), (a, .main 0), (a, .main 0)] ++
    List.replicate 7 (b, .main 0) ++ (a, .receive 12288) :: List.replicate 4 (a, .receive 0) ++
    [(a, .handler 9000), (a, .handler 0), (b, .main 1), (b, .main 0),
      (b, .server (some (.fetch, 2))), (b, .server none), (a, .main 0), (a, .main 0),
      (a, .server (some (.invalidate, 1))), (a, .server none)]

theorem startup_agreement_three_pages : ∃ h s, threePages.Runs h s ∧
    (s .second).party.main.maxPage? = some 3 ∧ (s .first).party.main.maxPage? = some 3 ∧
    (Side.second, .handled (.fetch, 2)) ∈ h ∧
    (∃ leader : Side, (leader, .branch false) ∉ h ∧ (leader.peer, .branch true) ∉ h) ∧
    (∀ i thread record, (i, .took thread record) ∈ h → record.reader = thread) ∧
    (s .second).party.region.Covers 2 := by
  have followed : (exec threePages.step threePages.start startThreePages).any (fun r =>
      (r.1 .second).party.main.maxPage? = some 3 ∧ (r.1 .first).party.main.maxPage? = some 3 ∧
        (Side.second, .handled (.fetch, 2)) ∈ r.2) := by decide +kernel
  obtain ⟨⟨s, h⟩, executed, known⟩ := (Option.any_eq_true _ _).mp followed
  obtain ⟨leads, follows, handled⟩ := of_decide_eq_true known
  have run := Launch.exec_runs executed
  obtain ⟨⟨leader, led, followed, _⟩, meant, _, _, covers⟩ := startup_agreement run
  exact ⟨h, s, run, leads, follows, handled, ⟨leader, led, followed⟩, meant,
    covers .second _ (.inr handled)⟩

end CSE306.S2DSM.Startup
