import CSE306.S2DSM.Provenance
import CSE306.S2DSM.Reading
import CSE306.S2DSM.Tracking

/-! Quiescent states of concurrent runs: when the two entries of a page exclude
each other, and what the next read of it returns at either process. -/
namespace CSE306.S2DSM
open Transition Transition.Duplex Replica

variable {n pageSize : Nat}

/-- The next read of page `p` at `i` returns `c`: entered alone it ends and prints
`c`, and so does every read of the page while only reads are entered. -/
def ReadsAs (s : System n pageSize) (i : Side) (p : Fin n) (c : Page pageSize) : Prop :=
  (∃ t, Run (System.Step free) s [(i, .command (.read (some p))), (i, .read p c)] t ∧
    t.Quiescent) ∧
  ∀ k t, Run (System.Step free) s k t →
    (∀ j d, (j, Event.command d) ∈ k → ∃ q, d = .read q) → ∀ d, (i, Event.read p d) ∈ k → d = c

/-- No write is under way anywhere, and page `p` stands for `v`. -/
structure Rests (p : Fin n) (v : Page pageSize) (x y : Node n pageSize) : Prop where
  writes : x.party.main.writes = []
  resident : Resident (Node.view p x).party
  clean : ¬ Dirty (Node.view p x) (Node.view p y)
  agree : Agree (.zero pageSize) (Node.view p x) (Node.view p y) v

theorem Process.writes_step {x y : Process n pageSize} (none : x.main.writes = [])
    (moved : x.step request reply turn = some (y, l, e))
    (reads : ∀ d, e = some (.command d) → ∃ q, d = .read q) : y.main.writes = [] := by
  rcases Process.step_main moved with ⟨same, _⟩ | moved | ⟨c, _, rfl, entered⟩
  · rw [same, none]
  · exact List.subset_nil.mp (none ▸ Process.mainStep_writes moved)
  · obtain ⟨q, rfl⟩ := reads c rfl
    rw [entered]
    rfl

theorem Rests.move {x y : Node n pageSize}
    (wired : ∀ q, Wired (.zero pageSize) (Node.view q x) (Node.view q y))
    (wired' : ∀ q, Wired (.zero pageSize) (Node.view q y) (Node.view q x))
    (own : Rests p v x y) (other : Rests p v y x) (moved : x.party.Moves l e z)
    (ready : x.Enabled l) (reads : ∀ d, e = some (.command d) → ∃ q, d = .read q) :
    Rests p v (x.fire z l) (y.receive l) ∧ Rests p v (y.receive l) (x.fire z l) := by
  have writes : z.main.writes = [] := by
    obtain ⟨turn, request, reply, stepped⟩ := moved
    exact Process.writes_step own.writes stepped reads
  rcases Node.move (y := y) (Wired.answers wired ready) moved ready p with
    ⟨move, able, fired, received⟩ | ⟨fired, received, _⟩
  · have still : ¬ Dirty ((Node.view p x).fire (z.view p) (About p l))
        ((Node.view p y).receive (About p l)) := fun dirty => by
      rcases Dirty.source move dirty with before | ⟨c, stores, _⟩
      · exact own.clean before
      · obtain ⟨typed, mem, _⟩ := Process.view_store (stores ▸ move).wrote
        simp [own.writes] at mem
    have clean := fun dirty => other.clean (Dirty.source_peer (y := Node.view p y) move able dirty)
    have resident := move.resident own.resident fun serving =>
      (other.clean (.inr (.inr (.inr serving.1)))).elim
    have agree := own.agree.move (wired p) (wired' p) own.resident own.clean other.clean move able
      still
    refine ⟨⟨by simpa using writes, ?_, ?_, ?_⟩, ⟨by simpa using other.writes, ?_, ?_, ?_⟩⟩
    all_goals simp only [fired, received]
    · simpa using resident
    · exact still
    · exact agree
    · simpa using other.resident
    · exact clean
    · exact agree.symm
  · refine ⟨⟨by simpa using writes, ?_, ?_, ?_⟩, ⟨by simpa using other.writes, ?_, ?_, ?_⟩⟩
    all_goals simp only [fired, received]
    · exact own.resident
    · exact own.clean
    · exact own.agree
    · exact other.resident
    · exact other.clean
    · exact other.agree

theorem Rests.value {x y : Node n pageSize} (held : Rests p v x y)
    (content : (Node.view p x).party.content = some c) : c = v := by
  have value := held.agree.own (Half.valid_present held.resident content)
  simpa [Half.value, content] using value

theorem Rests.tail {s : System n pageSize} (run : System.Runs free h s)
    (rests : ∀ i, Rests p v (s i) (s i.peer)) (tail : Run (System.Step free) s k t)
    (reads : ∀ j d, (j, Event.command d) ∈ k → ∃ q, d = .read q) (i : Side) :
    Rests p v (t i) (t i.peer) := by
  refine pair_invariant (I := fun k x y => (∀ j d, (j, Event.command d) ∈ k →
    ∃ q, d = .read q) → Rests p v x y) (fun i _ => rests i) ?_ tail i reads
  intro k u i z l e before own other _ moved ready
  have wired := fun q => Runs.wired (run.trans before) i q
  have wired' := fun q => Runs.wired (run.trans before) i.peer q
  simp only [Side.peer_peer] at wired'
  have step := fun (all : ∀ j d, (j, Event.command d) ∈ k ++ (e.map (i, ·)).toList →
      ∃ q, d = .read q) =>
    Rests.move wired wired' (own fun j d mem => all j d (List.mem_append_left _ mem))
      (other fun j d mem => all j d (List.mem_append_left _ mem)) moved ready
      (fun d shown => all i d (by simp [shown]))
  exact ⟨fun all => (step all).1, fun all => (step all).2⟩

theorem Rests.reads_as {s : System n pageSize} (run : System.Runs free h s) (quiet : s.Quiescent)
    (rests : ∀ i, Rests p v (s i) (s i.peer)) (i : Side) : ReadsAs s i p v := by
  have only : ∀ k t, Run (System.Step free) s k t →
      (∀ j d, (j, Event.command d) ∈ k → ∃ q, d = .read q) → ∀ d, (i, Event.read p d) ∈ k →
      d = v := by
    intro k t tail reads d shown
    obtain ⟨k₁, k₂, rfl⟩ := List.append_of_mem shown
    obtain ⟨u, w, before, step⟩ := tail.observed
    have held := Rests.tail run rests before fun j c mem => reads j c (List.mem_append_left _ mem)
    obtain ⟨x, l, _, moved, ready, rfl⟩ := step.shown
    have answered := Wired.answers (Runs.wired (run.trans before) i) ready
    rcases Node.move (y := u i.peer) answered moved ready p with ⟨move, _⟩ | ⟨_, _, unseen⟩
    · simp only [Option.bind_some, Event.about, if_true] at move
      obtain ⟨_, _, _, content⟩ := move.reads
      exact (held i).value content
    · simp [Event.about] at unseen
  obtain ⟨c, t, completed, done⟩ := read_completes quiet i p
  obtain rfl := only _ _ completed (by simp) c (by simp)
  exact ⟨⟨t, completed, done⟩, only⟩

theorem System.Quiescent.clean {s : System n pageSize} (quiet : s.Quiescent) (p : Fin n)
    (i : Side) : ¬ Dirty (Node.view p (s i)) (Node.view p (s i.peer)) := by
  obtain ⟨⟨main, _, _⟩, _⟩ := quiet i
  obtain ⟨⟨_, _, server⟩, accepted, _⟩ := quiet i.peer
  simp [Dirty, Node.view, End.filter, Process.view, main, server, accepted]

theorem System.Quiescent.state {s : System n pageSize} (quiet : s.Quiescent) (p : Fin n)
    (i : Side) : Half.state (.zero pageSize) (Node.view p (s i)) = (s i).party.msiArray p := by
  obtain ⟨⟨_, handler, server⟩, _⟩ := quiet i
  simp [Half.state, Half.pending, Node.view, End.filter, Process.view, handler, server]

/-- Where both copies agree, the next read at either process returns the content. -/
theorem System.Quiescent.reads_as {s : System n pageSize} (run : System.Runs free h s)
    (quiet : s.Quiescent) (resident : ∀ i, Resident (Node.view p (s i)).party)
    (agree : Agree (.zero pageSize) (Node.view p (s .first)) (Node.view p (s .second)) v)
    (i : Side) : ReadsAs s i p v := by
  refine Rests.reads_as run quiet (fun j => ⟨?_, resident j, quiet.clean p j, ?_⟩) i
  · obtain ⟨⟨main, _, _⟩, _⟩ := quiet j
    rw [main]
    rfl
  · cases j with
    | first => exact agree
    | second => exact agree.symm

/-- A server sets INVALID only while no copy of the page is in its process and no
answered fetch of it is unfinished there. -/
def Undisturbing : Node n pageSize → Node n pageSize → Process n pageSize → Prop :=
  Paged fun x y p => Invalidates x.party p → Undisturbed x y

instance (x y : Node n pageSize) (p : Process n pageSize) : Decidable (Undisturbing x y p) := by
  unfold Undisturbing Paged
  infer_instance

theorem Runs.agreed (run : System.Runs Undisturbing h s) (i : Side) (p : Fin n) :
    Resident (Node.view p (s i)).party ∧
      Agreed (.zero pageSize) (fun _ => True) (Node.view p (s i)) (Node.view p (s i.peer)) := by
  refine (Runs.paged (J := fun _ x y => Resident x.party ∧
    Agreed (.zero pageSize) (fun _ => True) x y) ?_ ?_ run id i p).2
  · exact ⟨.initial _, fun _ _ => ⟨_, Agree.initial _, trivial⟩⟩
  · rintro h x y z l e own other ⟨resident, held⟩ ⟨resident', _⟩ calm move ready
    have agreed := held.move own other resident move ready calm
      (fun _ _ => (Half.standing _ y).imp fun _ h => ⟨h, trivial⟩) (fun _ _ h => h)
    exact ⟨⟨by simpa using move.resident resident fun h => (calm h).vacant, agreed⟩,
      ⟨by simpa using resident', agreed.symm⟩⟩

/-- In a quiescent state a MODIFIED entry excludes any copy at the other process, and
the next read of a page returns the same content at both, as long as no server has set
INVALID a page its process held or was being sent. -/
theorem quiescent_entries_coherent (run : System.Runs Undisturbing h s) (quiet : s.Quiescent)
    (p : Fin n) :
    (∀ i, (s i).party.msiArray p = .modified → (s i.peer).party.msiArray p = .invalid) ∧
      ∃ c, ∀ i, ReadsAs s i p c := by
  obtain ⟨_, agreed⟩ := Runs.agreed run .first p
  obtain ⟨v, agree, _⟩ := agreed (quiet.clean p .first) (quiet.clean p .second)
  refine ⟨fun i modified => ?_, v, ?_⟩
  · rw [← quiet.state p i.peer]
    rw [← quiet.state p i] at modified
    cases i with
    | first => exact agree.exclusive modified
    | second => exact agree.excluded modified
  · exact quiet.reads_as (System.Runs.unrestricted run) (fun i => (Runs.agreed run i p).1) agree

theorem quiescent_entries_coherent_written : ∃ (h : History 1 8) (s : System 1 8),
    System.Runs Undisturbing h s ∧ s.Quiescent ∧ (s .first).party.msiArray 0 = .modified ∧
      (s .second).party.msiArray 0 = .invalid ∧ ∃ c, ∀ i, ReadsAs s i 0 c := by
  have followed : (exec (System.step Undisturbing) (System.initial 1 8)
      ((System.writeThenRead 0).take 20)).any (fun r =>
        r.1.Quiescent ∧ (r.1 .first).party.msiArray 0 = .modified) := by decide +kernel
  obtain ⟨s, h, run, quiet, modified⟩ := exec_any followed System.step_sound
  have coherent := quiescent_entries_coherent run quiet 0
  exact ⟨h, s, run, quiet, modified, coherent.1 .first modified, coherent.2⟩

/-- The second process is sent the page, the first one writes it again, and the
second one reads the 'I' before the page. -/
def overtaken (p : Fin n) : List (Side × Turn n) := System.stretches
  [(.first, [.command (.write [65] (some p)), .main, .fault p, .handler, .handler]),
    (.second, List.replicate 4 .server),
    (.first, List.replicate 3 .handler ++ List.replicate 5 .main),
    (.second, List.replicate 3 .server ++
      [.command (.read (some p)), .main, .fault p, .handler, .handler]),
    (.first, List.replicate 5 .server ++
      .command (.write [66] (some p)) :: List.replicate 6 .main),
    (.second, List.replicate 3 .server ++ List.replicate 4 .handler ++ [.main, .main])]

/-- A MODIFIED page and a SHARED stale copy of it. -/
theorem quiescent_modified_shared : ∃ (h : History 1 8) (s : System 1 8),
    System.Runs free h s ∧ s.Quiescent ∧ (s .first).party.msiArray 0 = .modified ∧
      (s .second).party.msiArray 0 = .shared := by
  have followed : (exec (System.step free) (System.initial 1 8) (overtaken 0)).any (fun r =>
      r.1.Quiescent ∧ (r.1 .first).party.msiArray 0 = .modified ∧
        (r.1 .second).party.msiArray 0 = .shared) := by decide +kernel
  obtain ⟨s, h, run, known⟩ := exec_any followed System.step_sound
  exact ⟨h, s, run, known⟩

/-- Moreover a server does not drop a page while its own process has a write of it
outstanding. -/
def Unopposed : Node n pageSize → Node n pageSize → Process n pageSize → Prop :=
  Paged fun x y p => (Invalidates x.party p → Undisturbed x y) ∧ Spares x y p

instance (x y : Node n pageSize) (p : Process n pageSize) : Decidable (Unopposed x y p) := by
  unfold Unopposed Paged Spares
  infer_instance

theorem wrote_lawful {γ : Type} : Lawful (fun (h : List (Note γ)) c => .wrote c ∈ h)
    (fun h c => (∀ d, .wrote d ∉ h) ∨ .wrote c ∈ h) where
  fresh := by simp
  kept _ held := List.mem_append_left _ held
  settles := .inr
  lasting quiet held := held.imp (fun none d mem => by
    rcases List.mem_append.mp mem with mem | mem
    · exact none d mem
    · exact quiet d (Option.mem_toList.mp mem)) (List.mem_append_left _)

theorem Runs.tracked (run : System.Runs Unopposed h s) (i : Side) (p : Fin n) :
    Resident (Node.view p (s i)).party ∧
      Tracked (.zero pageSize) (fun h c => .wrote c ∈ h)
        (fun h c => (∀ d, .wrote d ∉ h) ∨ .wrote c ∈ h) (notes p h) (Node.view p (s i))
        (Node.view p (s i.peer)) := by
  refine (Runs.paged (J := fun h x y => Resident x.party ∧ Tracked (.zero pageSize)
    (fun h c => .wrote c ∈ h) (fun h c => (∀ d, .wrote d ∉ h) ∨ .wrote c ∈ h) h x y)
    ?_ ?_ run id i p).2
  · exact ⟨.initial _, .initial (.inl fun _ mem => (nomatch mem))⟩
  · rintro h x y z l e own other ⟨resident, held⟩ ⟨resident', held'⟩ ⟨calm, spares⟩ move ready
    obtain ⟨tracked, tracked'⟩ := held.move wrote_lawful own other resident resident' held' move
      ready calm spares (fun c d _ _ written => List.mem_append_left _ written)
    exact ⟨⟨by simpa using move.resident resident fun h => (calm h).vacant, tracked⟩,
      ⟨by simpa using resident', tracked'⟩⟩

theorem mem_notes {h : History n pageSize} {c : Page pageSize} : .wrote c ∈ notes p h ↔
    ∃ i typed, (i, Event.wrote p typed) ∈ h ∧ c = stored pageSize typed := by
  simp only [notes, List.mem_filterMap, Prod.exists]
  constructor
  · rintro ⟨i, e, mem, about⟩
    cases e with
    | wrote q typed =>
      simp only [Event.about, Option.ite_none_right_eq_some, Option.some.injEq,
        Note.wrote.injEq] at about
      obtain ⟨rfl, rfl⟩ := about
      exact ⟨i, typed, mem, rfl⟩
    | command => cases about
    | read q d => simp [Event.about] at about
  · rintro ⟨i, typed, mem, rfl⟩
    exact ⟨i, _, mem, by simp [Event.about]⟩

/-- No write is lost: in a quiescent state of such a run, where only non-empty messages
were written to a page, and some were, the next read at either process returns one. -/
theorem quiescent_reads_written (run : System.Runs Unopposed h s) (quiet : s.Quiescent)
    (p : Fin n) (written : ∃ i typed, (i, Event.wrote p typed) ∈ h)
    (filled : ∀ i typed, (i, Event.wrote p typed) ∈ h → message pageSize typed ≠ []) :
    ∃ i typed, (i, Event.wrote p typed) ∈ h ∧ stored pageSize typed ≠ .zero pageSize ∧
      ∀ k, ReadsAs s k p (stored pageSize typed) := by
  obtain ⟨_, tracked⟩ := Runs.tracked run .first p
  obtain ⟨v, agree, fits⟩ := tracked.agreed (quiet.clean p .first) (quiet.clean p .second)
  obtain ⟨j, first, known⟩ := written
  have mem : .wrote v ∈ notes p h := fits.elim
    (fun none => (none _ (mem_notes.mpr ⟨j, first, known, rfl⟩)).elim) id
  obtain ⟨i, typed, known, rfl⟩ := mem_notes.mp mem
  exact ⟨i, typed, known, stored_ne_zero (filled i typed known),
    quiet.reads_as (System.Runs.unrestricted run) (fun i => (Runs.tracked run i p).1) agree⟩

theorem quiescent_reads_written_hi : ∃ (h : History 1 8) (s : System 1 8),
    System.Runs Unopposed h s ∧ s.Quiescent ∧ (Side.first, Event.wrote 0 [72, 105, 10]) ∈ h ∧
      ∃ c, c ≠ .zero 8 ∧ ∀ k, ReadsAs s k 0 c := by
  have followed : (exec (System.step Unopposed) (System.initial 1 8)
      ((System.writeThenRead 0).take 20)).any (fun r => r.1.Quiescent ∧
        r.2 = [(.first, .command (.write [72, 105, 10] (some 0))),
          (.first, .wrote 0 [72, 105, 10])]) := by decide +kernel
  obtain ⟨s, h, run, quiet, rfl⟩ := exec_any followed System.step_sound
  have filled : ∀ i typed, (i, Event.wrote 0 typed) ∈
      ([(.first, .command (.write [72, 105, 10] (some 0))),
        (.first, .wrote 0 [72, 105, 10])] : History 1 8) → message 8 typed ≠ [] := by
    intro i typed mem
    simp only [List.mem_cons, Prod.mk.injEq, reduceCtorEq, and_false, Event.wrote.injEq, true_and,
      List.not_mem_nil, or_false, false_or] at mem
    obtain ⟨_, rfl⟩ := mem
    decide
  obtain ⟨_, typed, _, some, reads⟩ :=
    quiescent_reads_written run quiet 0 ⟨.first, [72, 105, 10], by simp⟩ filled
  exact ⟨_, s, run, quiet, by simp, _, some, reads⟩

/-- Both processes share the cleared page, both write it, and both read the other's 'I'. -/
def crossed (p : Fin n) : List (Side × Turn n) := System.stretches
  [(.first, [.command (.read (some p)), .main, .fault p, .handler, .handler]),
    (.second, List.replicate 4 .server),
    (.first, List.replicate 3 .handler ++ List.replicate 2 .main),
    (.second, [.command (.write [66] (some p)), .main, .fault p, .handler, .handler]),
    (.first, .command (.write [65] (some p)) :: List.replicate 6 .main),
    (.second, List.replicate 5 .main ++ List.replicate 3 .server),
    (.first, List.replicate 3 .server)]

def readByFirst (p : Fin n) : List (Side × Turn n) := System.stretches
  [(.first, [.command (.read (some p)), .main, .fault p, .handler, .handler]),
    (.second, List.replicate 4 .server),
    (.first, List.replicate 3 .handler ++ List.replicate 2 .main)]

/-- Two writes that cross are both lost: the next read prints the cleared page. -/
theorem quiescent_read_lost : ∃ (h : History 1 8) (s t : System 1 8),
    System.Runs free h s ∧ s.Quiescent ∧
      h = [(.first, .command (.read (some 0))), (.first, .read 0 (.zero 8)),
        (.second, .command (.write [66] (some 0))), (.first, .command (.write [65] (some 0))),
        (.first, .wrote 0 [65]), (.second, .wrote 0 [66])] ∧
      Run (System.Step free) s
        [(.first, .command (.read (some 0))), (.first, .read 0 (.zero 8))] t := by
  have followed : (exec (System.step free) (System.initial 1 8) (crossed 0)).any (fun r =>
      r.1.Quiescent ∧ r.2 = [(.first, .command (.read (some 0))), (.first, .read 0 (.zero 8)),
        (.second, .command (.write [66] (some 0))), (.first, .command (.write [65] (some 0))),
        (.first, .wrote 0 [65]), (.second, .wrote 0 [66])] ∧
      (exec (System.step free) r.1 (readByFirst 0)).any (fun r =>
        r.2 = [(.first, .command (.read (some 0))), (.first, .read 0 (.zero 8))])) := by
    decide +kernel
  obtain ⟨s, h, run, quiet, shown, later⟩ := exec_any followed System.step_sound
  obtain ⟨t, k, read, rfl⟩ := exec_any later System.step_sound
  exact ⟨h, s, t, run, quiet, shown, read⟩

end CSE306.S2DSM
