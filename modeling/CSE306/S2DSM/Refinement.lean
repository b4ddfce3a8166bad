import CSE306.S2DSM.Coherence
import CSE306.S2DSM.Liveness
import CSE306.S2DSM.Serial
import Mathlib.Data.List.Induction

/-! Runs in which the accesses to each page are serialised: the two private
mappings behave as one memory shared by both processes. -/
namespace CSE306.S2DSM
open Transition Transition.Duplex Replica

variable {n pageSize : Nat}

/-- An access to a page begins only when no thread of either process works on that
page and no request for it is unread. Accesses to different pages interleave freely. -/
def Serialised : Node n pageSize → Node n pageSize → Process n pageSize → Prop :=
  Paged fun x y p => Begins x.party p → x.Still ∧ y.Still

instance (x y : Node n pageSize) (p : Process n pageSize) : Decidable (Serialised x y p) := by
  unfold Serialised Paged
  infer_instance

/-- The shared memory after a history: cleared pages, and the last message written
to each of the others. -/
def sharedMemory (h : History n pageSize) (p : Fin n) : Page pageSize :=
  h.foldl (fun c e => match e.2 with
    | .wrote q typed => if q = p then stored pageSize typed else c
    | _ => c) (.zero pageSize)

theorem sharedMemory_latest (h : History n pageSize) (p : Fin n) :
    sharedMemory h p = latest (.zero pageSize) (notes p h) := by
  induction h using List.reverseRecOn with
  | nil => rfl
  | append_singleton h e ih =>
    obtain ⟨i, e⟩ := e
    have split := notes_append p h (some e) i
    simp only [Option.map_some, Option.toList_some, Option.bind_some] at split
    rw [split, sharedMemory, List.foldl_append, List.foldl_cons, List.foldl_nil,
      ← sharedMemory, ih]
    cases e with
    | command => simp [Event.about]
    | wrote q typed => by_cases same : q = p <;> simp [Event.about, same]
    | read q content =>
      by_cases same : q = p <;> simp [Event.about, same, latest]

/-- `typed` was given for the last write to a page in a history. -/
def LastWritten (h : History n pageSize) (p : Fin n) (typed : List UInt8) : Prop :=
  ∃ before i after, h = before ++ (i, .wrote p typed) :: after ∧
    ∀ j other, (j, Event.wrote p other) ∉ after

theorem sharedMemory_append (unwritten : ∀ i typed, (i, Event.wrote p typed) ∉ later)
    (h : History n pageSize) : sharedMemory (h ++ later) p = sharedMemory h p := by
  induction later using List.reverseRecOn with
  | nil => rw [List.append_nil]
  | append_singleton later e ih =>
    have shorter := ih fun i typed mem => unwritten i typed (List.mem_append_left _ mem)
    rw [← shorter, ← List.append_assoc, sharedMemory, List.foldl_append, ← sharedMemory]
    obtain ⟨i, e⟩ := e
    cases e with
    | command => rfl
    | read => rfl
    | wrote q typed =>
      have other : q ≠ p := by
        rintro rfl
        exact unwritten i typed (List.mem_append_right later List.mem_cons_self)
      exact if_neg other

theorem LastWritten.bytes {h : History n pageSize} (last : LastWritten h p typed) :
    (sharedMemory h p).bytes =
      message pageSize typed ++ List.replicate (pageSize - (message pageSize typed).length) 0 := by
  obtain ⟨before, i, after, rfl, unwritten⟩ := last
  rw [← stored_bytes, List.append_cons, sharedMemory_append unwritten, sharedMemory,
    List.foldl_append]
  exact congrArg Page.bytes (if_pos rfl)

theorem sharedMemory_unwritten {h : History n pageSize}
    (unwritten : ∀ i typed, (i, Event.wrote p typed) ∉ h) :
    (sharedMemory h p).bytes = List.replicate pageSize 0 :=
  congrArg Page.bytes (sharedMemory_append unwritten [])

theorem Runs.refines (run : System.Runs Serialised h s) (i : Side) (p : Fin n) :
    Wired (.zero pageSize) (Node.view p (s i)) (Node.view p (s i.peer)) ∧
      Refines (.zero pageSize) (notes p h) (Node.view p (s i)) (Node.view p (s i.peer)) :=
  Runs.paged (.initial _) (fun own other held held' admitted move ready =>
    held.move own other held' admitted move ready) run id i p

theorem Runs.reads_memory (run : System.Runs Serialised (k ++ (i, .read p c) :: l) t) :
    c = sharedMemory k p := by
  obtain ⟨s, u, before, step⟩ := run.observed
  obtain ⟨x, l, _, moved, ready, rfl⟩ := step.shown
  obtain ⟨_, refines⟩ := Runs.refines before i p
  have answered := Wired.answers (Runs.wired before i) ready
  rw [sharedMemory_latest]
  rcases Node.move (y := s i.peer) answered moved ready p with ⟨move, _⟩ | ⟨_, _, unseen⟩
  · simp only [Option.bind_some, Event.about, if_true] at move
    obtain ⟨st, client, reading, content⟩ := move.reads
    exact refines.current client reading content
  · simp [Event.about] at unseen

theorem Runs.copies_resident (run : System.Runs Serialised h s) (i : Side)
    (copying : (s i).party.server = .serving .copy p) : (s i).party.mapping p ≠ none := by
  obtain ⟨own, _⟩ := Runs.refines run i p
  obtain ⟨other, refines'⟩ := Runs.refines run i.peer p
  rw [Side.peer_peer] at other refines'
  exact Refines.present own other refines'
    (.inr (by simp [Node.view, End.filter, Process.view, copying]))

/-- A serialised run keeps to the conditions of the concurrent results. -/
theorem Runs.serialised_admitted (run : System.Runs Serialised h s) :
    System.Runs Unopposed h s ∧ System.Runs Uncrossed h s := by
  refine ⟨run.mono ?_, run.mono ?_⟩
  · rintro h s e t head ⟨i, _, moved, ready⟩
    refine .turn i (fun p => ⟨fun serving => ?_, ?_⟩) moved ready
    · obtain ⟨wired, refines⟩ := Runs.refines head i p
      exact refines.serial.calm wired.sound serving.1
    · exact (Runs.refines head i p).2.serial.spares
  · rintro h s e t head ⟨i, admitted, moved, ready⟩
    refine .turn i (fun ⟨p, copying, absent⟩ => ?_) moved ready
    have later := head.next (.turn i admitted moved ready)
    exact (Runs.copies_resident later i (by simpa using copying) (by simpa using absent)).elim

/-- Where the accesses to each page are serialised, every read returns what one
memory shared by both processes would hold: the message of the last write followed by
zeros, or zeros alone. No server copies out a page that its process does not have. -/
theorem serialised_runs_share_memory {h : History n pageSize} (run : System.Runs Serialised h s) :
    (∀ k i p c l, h = k ++ (i, Event.read p c) :: l →
      c = sharedMemory k p ∧
      (∀ typed, LastWritten k p typed → c.bytes = message pageSize typed ++
        List.replicate (pageSize - (message pageSize typed).length) 0) ∧
      ((∀ j typed, (j, Event.wrote p typed) ∉ k) → c.bytes = List.replicate pageSize 0)) ∧
    ∀ i p, (s i).party.server = .serving .copy p → (s i).party.mapping p ≠ none := by
  refine ⟨?_, fun i p copying => Runs.copies_resident run i copying⟩
  rintro k i p c l rfl
  obtain rfl := Runs.reads_memory run
  exact ⟨rfl, fun typed last => last.bytes, sharedMemory_unwritten⟩

/-- What a write shows, and the command to read the page after it. -/
def writtenThenAsked : History 1 8 :=
  [(.first, .command (.write [72, 105, 10] (some 0))), (.first, .wrote 0 [72, 105, 10]),
    (.second, .command (.read (some 0)))]

theorem serialised_runs_share_memory_written :
    ∃ (h : History 1 8) (s : System 1 8), System.Runs Serialised h s ∧
      ∃ k c, h = k ++ [(Side.second, Event.read 0 c)] ∧ LastWritten k 0 [72, 105, 10] ∧
        c.bytes = [72, 105, 0, 0, 0, 0, 0, 0] := by
  have followed : (exec (System.step Serialised) (System.initial 1 8)
      (System.writeThenRead 0)).any (fun r =>
        r.2 = writtenThenAsked ++ [(.second, .read 0 (stored 8 [72, 105, 10]))]) := by
    decide +kernel
  obtain ⟨s, h, run, rfl⟩ := exec_any followed System.step_sound
  have last : LastWritten writtenThenAsked 0 [72, 105, 10] := by
    refine ⟨[(.first, .command (.write [72, 105, 10] (some 0)))], .first,
      [(.second, .command (.read (some 0)))], rfl, ?_⟩
    simp
  have known := (serialised_runs_share_memory run).1 writtenThenAsked .second 0 _ [] rfl
  exact ⟨_, s, run, writtenThenAsked, _, rfl, last, known.2.1 _ last⟩

end CSE306.S2DSM
