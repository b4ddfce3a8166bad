import CSE306.S2DSM.Execution
import CSE306.S2DSM.Pages

/-! Where the bytes of a page come from, in any interleaving: an answer is always
for the page asked for, and a resident page is cleared or holds one typed message. -/
namespace CSE306.S2DSM
open Transition Transition.Duplex Replica

variable {γ : Type} {blank : γ} {n pageSize : Nat}

/-- Every content one side keeps or is sent comes from `source`. -/
structure Half.From (source : γ → Prop) (x : Half γ) : Prop where
  content : ∀ {c}, x.party.content = some c → source c
  resolver : ∀ {st b}, x.party.resolver = some (st, b) → source b
  connect : ∀ {c}, Answer.content c ∈ x.connect → source c

theorem Half.From.mono {source source' : γ → Prop} {x : Half γ} (held : x.From source)
    (grows : ∀ c, source c → source' c) : x.From source' where
  content h := grows _ (held.content h)
  resolver h := grows _ (held.resolver h)
  connect h := grows _ (held.connect h)

theorem Half.From.fire {source : γ → Prop} {x : Half γ} (held : x.From source)
    (cleared : source blank) (stores : ∀ {c}, x.party.client = some (.store c) → source c)
    (move : Move blank x.party l e p) (ready : x.Enabled l) :
    Half.From source (x.fire p l) := by
  obtain ⟨content, resolver, connect⟩ := held
  obtain ⟨x, accepted, unread⟩ := x
  have rest : ∀ {c}, Answer.content c ∈ unread.tail → source c :=
    fun mem => connect (List.mem_of_mem_tail mem)
  cases move with
  | store _ here => exact ⟨fun h => by cases h; exact stores here, resolver, connect⟩
  | fault => exact ⟨content, fun h => by cases h; exact cleared, connect⟩
  | miss _ here | hit _ here | request _ here | share _ here =>
    exact ⟨content, fun h => by cases h; exact resolver here, connect⟩
  | absent _ here | present _ here =>
    exact ⟨content, fun h => by cases h; exact resolver here, rest⟩
  | page _ here =>
    obtain ⟨later, rfl⟩ := List.head?_eq_some_iff.mp ready
    exact ⟨content, fun h => by cases h; exact connect List.mem_cons_self, rest⟩
  | install _ here =>
    exact ⟨fun h => by cases h; exact resolver here, fun h => (nomatch h), connect⟩
  | drop => exact ⟨fun h => (nomatch h), resolver, connect⟩
  | begin | peek | load | print | mark | echo | notify | serveFetch | serveInvalidate | refuse
  | accept | deny | grant | copy | settle | invalidate => exact ⟨content, resolver, connect⟩

theorem Half.From.receive {source : γ → Prop} {x y : Half γ} (own : x.From source)
    (held : y.From source) (move : Move blank x.party l e p) :
    Half.From source (y.receive l) := by
  obtain ⟨content, resolver, connect⟩ := held
  cases move with
  | copy _ _ here =>
    refine ⟨content, resolver, fun mem => ?_⟩
    rcases List.mem_append.mp mem with old | new
    · exact connect old
    · cases List.mem_singleton.mp new
      exact own.content here
  | deny | grant => exact ⟨content, resolver, fun {c} => by simpa [End.receive] using @connect c⟩
  | _ => exact ⟨content, resolver, connect⟩

/-- Some process typed this message for the page. -/
def Typed (h : History n pageSize) (p : Fin n) (typed : List UInt8) : Prop :=
  ∃ i whichPage, (i, Event.command (.write typed whichPage)) ∈ h ∧
    p ∈ (Command.write typed whichPage : Command n).pages

def Source (h : History n pageSize) (p : Fin n) (c : Page pageSize) : Prop :=
  c = .zero pageSize ∨ ∃ typed, Typed h p typed ∧ c = stored pageSize typed

theorem Typed.append (known : Typed h p typed) (k : History n pageSize) :
    Typed (h ++ k) p typed := by
  obtain ⟨i, whichPage, mem, page⟩ := known
  exact ⟨i, whichPage, List.mem_append_left k mem, page⟩

theorem Source.append (source : Source h p c) (k : History n pageSize) : Source (h ++ k) p c :=
  source.imp id fun ⟨typed, known, same⟩ => ⟨typed, known.append k, same⟩

/-- The pages the main thread works on or still visits in a write, with what it writes. -/
def Main.writes : Main n → List (Fin n × List UInt8)
  | .loop (.write typed) pages => pages.map (·, typed)
  | .access (.store typed) p rest | .access (.mark typed) p rest
  | .access (.echo typed) p rest | .access (.notify typed) p rest => (p :: rest).map (·, typed)
  | _ => []

theorem Process.mainStep_writes {x y : Process n pageSize} (moved : x.mainStep = some (y, l, e)) :
    y.main.writes ⊆ x.main.writes := by
  have move := mainStep_move moved
  obtain ⟨msiArray, mapping, main, handler, pageBuffer, server⟩ := x
  cases move with
  | finish | load | peek | print => exact List.nil_subset _
  | @enter op _ _ here =>
    cases here
    cases op with
    | read => exact List.nil_subset _
    | write typed => exact List.Subset.refl _
  | store here | mark here | echo here =>
    cases here
    exact List.Subset.refl _
  | notify here =>
    cases here
    exact List.subset_cons_self _ _

/-- What the main thread is going to store was typed for the pages it still visits. -/
def Process.Sourced (h : History n pageSize) (x : Process n pageSize) : Prop :=
  ∀ w ∈ x.main.writes, Typed h w.1 w.2

theorem Process.Sourced.step {x y : Process n pageSize} (held : x.Sourced h)
    (moved : x.step request reply turn = some (y, l, e)) (i : Side) :
    y.Sourced (h ++ (e.map (i, ·)).toList) := by
  intro w mem
  rcases Process.step_main moved with ⟨same, _⟩ | moved | ⟨c, _, rfl, entered⟩
  · exact (held w (same ▸ mem)).append _
  · exact (held w (Process.mainStep_writes moved mem)).append _
  · rw [entered] at mem
    cases c with
    | read => simp [Command.op, Main.writes] at mem
    | write typed whichPage =>
      obtain ⟨p, page, rfl⟩ := List.mem_map.mp mem
      exact ⟨i, whichPage, by simp, page⟩

theorem Process.view_store {x : Process n pageSize}
    (here : (x.view p).client = some (.store c)) :
    ∃ typed, (p, typed) ∈ x.main.writes ∧ c = stored pageSize typed := by
  obtain ⟨msiArray, mapping, main, handler, pageBuffer, server⟩ := x
  cases main with
  | prompt | loop => cases here
  | access stage q rest =>
    by_cases same : q = p
    · subst same
      cases stage with
      | store typed =>
        simp only [view, if_true, Stage.map, Option.some.injEq, Stage.store.injEq] at here
        exact ⟨typed, by simp [Main.writes], here.symm⟩
      | _ => simp [view, Stage.map] at here
    · simp [view, same] at here

theorem Process.Sourced.store {x : Process n pageSize} (held : x.Sourced h)
    (here : (x.view p).client = some (.store c)) : Source h p c := by
  obtain ⟨typed, writes, same⟩ := Process.view_store here
  exact .inr ⟨typed, held _ writes, same⟩

theorem Runs.sourced (run : System.Runs ok h s) (i : Side) :
    (s i).party.Sourced h ∧ ∀ p, (Node.view p (s i)).From (Source h p) := by
  refine pair_invariant (I := fun h x _ => x.party.Sourced h ∧ ∀ p, (Node.view p x).From
    (Source h p)) (fun i => ?_) ?_ run i
  · exact ⟨fun w mem => (nomatch mem), fun p => by
      rw [view_initial]
      constructor <;> simp [Half.initial]⟩
  · rintro h s i p l e head ⟨own, ownFrom⟩ ⟨other, otherFrom⟩ _ moved ready
    have answered := Wired.answers (Runs.wired head i) ready
    have grows := fun q c => Source.append (h := h) (p := q) (c := c) (k := (e.map (i, ·)).toList)
    have fromOwn := fun q => (ownFrom q).mono (grows q)
    have fromOther := fun q => (otherFrom q).mono (grows q)
    have sourced : p.Sourced (h ++ (e.map (i, ·)).toList) := by
      obtain ⟨turn, request, reply, stepped⟩ := moved
      exact own.step stepped i
    refine ⟨⟨by simpa using sourced, fun q => ?_⟩,
      ⟨fun w mem => (other w (by simpa using mem)).append _, fun q => ?_⟩⟩
    · rcases Node.move (y := s i.peer) answered moved ready q with
        ⟨move, able, fired, _⟩ | ⟨fired, _, _⟩
      · rw [fired]
        exact (fromOwn q).fire (.inl rfl) (fun here => grows q _ (own.store here)) move able
      · rw [fired]
        exact fromOwn q
    · rcases Node.move (y := s i.peer) answered moved ready q with
        ⟨move, _, _, received⟩ | ⟨_, received, _⟩
      · rw [received]
        exact (fromOwn q).receive (fromOther q) move
      · rw [received]
        exact fromOther q


/-- The page of an 'F'. -/
def MsgRequest.fetched : MsgRequest n → Option (Fin n)
  | .fetch q => some q
  | .invalidate _ => none

/-- The page of the last message of an answer. -/
def Reply.completed : Reply n pageSize → Option (Fin n)
  | .absent q | .content q _ => some q
  | .present _ => none

/-- The pages of the 'F' requests of `x` whose answer it has not read to the end. -/
def outstanding (x y : Node n pageSize) : List (Fin n) :=
  y.accepted.filterMap MsgRequest.fetched ++
    (match y.party.server with
      | .serving st q => if st.Owes then [q] else []
      | .receive => []) ++ x.connect.filterMap Reply.completed

def Answer.ends : Answer γ → Bool
  | .present => false
  | _ => true

def owed : Option Serve → Nat
  | some st => if st.Owes then 1 else 0
  | none => 0

theorem owed_free {server : Option Serve} (free : Free server) : owed server = 0 := by
  cases server with
  | none => rfl
  | some st => exact if_neg (free st rfl)

/-- How many fetches of one page are outstanding. -/
def Half.outstanding (x y : Half γ) : Nat :=
  y.accepted.count .fetch + owed y.party.server + x.connect.countP Answer.ends

theorem count_outstanding (x y : Node n pageSize) (q : Fin n) :
    (outstanding x y).count q = (Node.view q x).outstanding (Node.view q y) := by
  unfold outstanding Half.outstanding
  rw [List.count_append, List.count_append]
  congr 1
  · congr 1
    · simp only [List.count, Node.view, End.filter, List.countP_filterMap]
      refine List.countP_congr fun r _ => ?_
      cases r with
      | fetch p => by_cases same : p = q <;> simp [MsgRequest.fetched, MsgRequest.about, same]
      | invalidate p => by_cases same : p = q <;> simp [MsgRequest.fetched, MsgRequest.about, same]
    · cases serving : y.party.server with
      | receive => simp [Node.view, End.filter, Process.view, serving, owed]
      | serving st p =>
        by_cases same : p = q <;> by_cases owes : st.Owes <;>
          simp [Node.view, End.filter, Process.view, serving, owed, same, owes]
  · simp only [List.count_filterMap, Node.view, End.filter, List.countP_filterMap]
    refine List.countP_congr fun r _ => ?_
    cases r with
    | absent p | present p | content p c =>
      by_cases same : p = q <;> simp [Reply.completed, Reply.about, Answer.ends, same]

theorem Matched.outstanding {x y : Half γ} (held : Matched x y) :
    x.outstanding y ≤ 1 ∧ (x.outstanding y ≠ 0 →
      ∃ st b, x.party.resolver = some (st, b) ∧ (st = .response ∨ st = .page)) := by
  obtain ⟨⟨_, _, _, resolver, _⟩, _, connect⟩ := x
  obtain ⟨⟨msi, _, _, _, server⟩, accepted, _⟩ := y
  simp only [Matched] at held
  cases held with
  | idle clear free | alone _ clear free =>
    simp [Half.outstanding, List.count_eq_zero_of_not_mem clear, owed_free free]
  | sent clear free =>
    simp [Half.outstanding, List.count_eq_zero_of_not_mem clear, owed_free free]
  | served stage => rcases stage with rfl | rfl | rfl <;> simp [Half.outstanding, owed, Serve.Owes]
  | granted | paging => simp [Half.outstanding, owed, Serve.Owes, Answer.ends]
  | denied settled | copied settled | paged settled | taken settled =>
    simp [Half.outstanding, owed_free settled.free, Answer.ends]

/-- A process waits for at most one answer, to the fault its handler resolves. -/
theorem outstanding_single {x y : Node n pageSize}
    (wired : ∀ q, Wired (.zero pageSize) (Node.view q x) (Node.view q y)) :
    outstanding x y = [] ∨ ∃ st p, x.party.handler = .resolving st p ∧
      (st = .response ∨ st = .page) ∧ outstanding x y = [p] := by
  have waits : ∀ q ∈ outstanding x y, ∃ st, x.party.handler = .resolving st q ∧
      (st = .response ∨ st = .page) := by
    intro q mem
    have some : (outstanding x y).count q ≠ 0 := (List.count_pos_iff.mpr mem).ne'
    rw [count_outstanding] at some
    obtain ⟨st, b, resolving, waiting⟩ := (wired q).fetch.outstanding.2 some
    refine ⟨st, ?_, waiting⟩
    simp only [Node.view, End.filter, Process.view] at resolving
    grind
  rcases h : outstanding x y with _ | ⟨p, rest⟩
  · exact .inl rfl
  · right
    obtain ⟨st, here, waiting⟩ := waits p (by simp [h])
    refine ⟨st, p, here, waiting, ?_⟩
    have same : rest = List.replicate rest.length p := by
      refine List.eq_replicate_of_mem fun q mem => ?_
      obtain ⟨_, other, _⟩ := waits q (by simp [h, mem])
      rw [here] at other
      cases other
      rfl
    have one : (outstanding x y).count p ≤ 1 := by
      rw [count_outstanding]
      exact (wired p).fetch.outstanding.1
    rw [h, List.count_cons_self, same, List.count_replicate_self] at one
    rw [List.eq_nil_of_length_eq_zero (l := rest) (by omega)]

/-- The reply at hand is the one the handler reads next. -/
theorem expected_reply {x y : Node n pageSize}
    (wired : ∀ q, Wired (.zero pageSize) (Node.view q x) (Node.view q y))
    (first : x.connect.head? = some r) :
    (∃ p, x.party.handler = .resolving .response p ∧ (r = .absent p ∨ r = .present p)) ∨
      ∃ p c, x.party.handler = .resolving .page p ∧ r = .content p c := by
  obtain ⟨st, handler⟩ := Wired.answers wired (l := .consume r) first r rfl
  obtain ⟨rest, unread⟩ := List.head?_eq_some_iff.mp first
  have held := (wired r.whichPage).fetch
  simp only [Matched, Node.view, End.filter, Process.view, handler, if_true, unread] at held
  cases r with
  | absent p =>
    simp only [Reply.about, Reply.whichPage, List.filterMap_cons, if_true] at held
    rcases held.reads with ⟨rfl, _⟩ | ⟨_, c, ⟨⟩⟩
    exact .inl ⟨p, handler, .inl rfl⟩
  | present p =>
    simp only [Reply.about, Reply.whichPage, List.filterMap_cons, if_true] at held
    rcases held.reads with ⟨rfl, _⟩ | ⟨_, c, ⟨⟩⟩
    exact .inl ⟨p, handler, .inr rfl⟩
  | content p c =>
    simp only [Reply.about, Reply.whichPage, List.filterMap_cons, if_true] at held
    rcases held.reads with ⟨_, h | h⟩ | ⟨rfl, _⟩
    · cases h
    · cases h
    · exact .inr ⟨p, c, handler, rfl⟩

/-- In every interleaving a process waits for at most one answer, its handler reads
answers only to what it asked, and a resident page is cleared or holds one message
typed for it, zero-padded, so that its last byte is NUL. -/
theorem answers_match_pages_typed (run : System.Runs free h s) :
    (∀ i, (outstanding (s i) (s i.peer)).length ≤ 1) ∧
    (∀ i r, (s i).connect.head? = some r →
      (∃ p, (s i).party.handler = .resolving .response p ∧ (r = .absent p ∨ r = .present p)) ∨
        ∃ p c, (s i).party.handler = .resolving .page p ∧ r = .content p c) ∧
    ∀ i p c, (s i).party.mapping p = some c →
      (c = .zero pageSize ∨ ∃ typed, Typed h p typed ∧ c.bytes = message pageSize typed ++
        List.replicate (pageSize - (message pageSize typed).length) 0) ∧
      (0 < pageSize → c.bytes[pageSize - 1]? = some 0) := by
  refine ⟨fun i => ?_, fun i r first => expected_reply (Runs.wired run i) first,
    fun i p c content => ?_⟩
  · rcases outstanding_single (Runs.wired run i) with none | ⟨_, p, _, _, one⟩
    · simp [none]
    · simp [one]
  · have source := ((Runs.sourced run i).2 p).content content
    refine ⟨source.imp id fun ⟨typed, known, same⟩ =>
      ⟨typed, known, same ▸ stored_bytes pageSize typed⟩, fun positive => ?_⟩
    rcases source with rfl | ⟨typed, _, rfl⟩
    · exact zero_last pageSize positive
    · exact stored_last pageSize positive typed

/-- The second process has been sent the page and not read it. -/
theorem answers_match_pages_typed_sent : ∃ (h : History 1 8) (s : System 1 8),
    System.Runs free h s ∧ outstanding (s .second) (s .first) = [0] ∧
      (s .first).party.mapping 0 = some (stored 8 [72, 105, 10]) ∧
      (stored 8 [72, 105, 10]).bytes[7]? = some 0 := by
  have followed : (exec (System.step free) (System.initial 1 8)
      ((System.writeThenRead 0).take 30)).any (fun r =>
        outstanding (r.1 .second) (r.1 .first) = [0] ∧
          (r.1 .first).party.mapping 0 = some (stored 8 [72, 105, 10])) := by decide +kernel
  obtain ⟨s, h, run, waiting, content⟩ := exec_any followed System.step_sound
  exact ⟨h, s, run, waiting, content,
    ((answers_match_pages_typed run).2.2 .first 0 _ content).2 (by decide)⟩

end CSE306.S2DSM
