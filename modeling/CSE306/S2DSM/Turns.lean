import CSE306.S2DSM.Progress
import CSE306.S2DSM.Strings
import CSE306.Transition.Simulation

/-! Two users who take turns: a command is typed only when both processes are at rest. What
the processes then answer is what one array of strings answers. -/
namespace CSE306.S2DSM
open Transition Transition.Duplex Replica

variable {n pageSize : Nat} {γ : Type} {blank : γ}

/-- No thread of this side works, and no message for it is on its way. -/
def Node.Rests (x : Node n pageSize) : Prop :=
  x.party.Idle ∧ x.accepted = [] ∧ x.connect = []

instance (x : Node n pageSize) : Decidable x.Rests := by unfold Node.Rests; infer_instance

/-- A command begins only when both processes are at rest. -/
def TakesTurns (x y : Node n pageSize) (p : Process n pageSize) : Prop :=
  x.party.main = .prompt → p.main ≠ .prompt → x.Rests ∧ y.Rests

instance (x y : Node n pageSize) (p : Process n pageSize) : Decidable (TakesTurns x y p) := by
  unfold TakesTurns
  infer_instance

/-- The pages that the command has not come to yet. -/
def Main.ahead : Main n → List (Fin n)
  | .prompt => []
  | .loop _ pages => pages
  | .access _ _ rest => rest

theorem Command.nodup_pages (c : Command n) : c.pages.Nodup := by
  unfold Command.pages
  split
  · exact List.nodup_finRange n
  · exact List.nodup_singleton _

namespace Process

theorem MainMove.visits {x y : Process n pageSize} (move : x.MainMove l e y) :
    y.main.visits <:+ x.main.visits ∧ y.main.ahead ⊆ x.main.ahead := by
  obtain ⟨msiArray, mapping, main, handler, pageBuffer, server⟩ := x
  cases move with
  | finish here =>
    cases here
    exact ⟨List.suffix_refl _, List.Subset.refl _⟩
  | enter here =>
    cases here
    exact ⟨List.suffix_refl _, List.subset_cons_self _ _⟩
  | load here | print here | notify here =>
    cases here
    exact ⟨List.suffix_cons _ _, List.Subset.refl _⟩
  | peek here | store here | mark here | echo here =>
    cases here
    exact ⟨List.suffix_refl _, List.Subset.refl _⟩

theorem prompt_of_command {x : Process n pageSize}
    (moved : x.step request reply (.command c) = some r) : x.main = .prompt := by
  simp only [step] at moved
  split at moved
  · assumption
  · cases moved

theorem client_congr {x y : Process n pageSize} (same : y.main = x.main) (p : Fin n) :
    (y.view p).client = (x.view p).client := by simp only [view, same]

theorem client_ahead {x : Process n pageSize} (nodup : x.main.visits.Nodup)
    (mem : p ∈ x.main.ahead) : (x.view p).client = none := by
  cases here : x.main with
  | prompt | loop => simp only [view, here]
  | access stage q rest =>
    rw [here] at nodup mem
    have other : q ≠ p := fun same => (List.nodup_cons.mp nodup).1 (same ▸ mem)
    simp only [view, here, if_neg other]

end Process

theorem Half.Still.begins {x : Half γ} (still : x.Still) (move : Move blank x.party l e p)
    (ready : x.Enabled l) : p.client ≠ none := by
  obtain ⟨client, resolver, server, accepted⟩ := still
  obtain ⟨x, queue, connect⟩ := x
  cases move with
  | begin => exact Option.some_ne_none _
  | fault _ _ _ waited =>
    rcases waited with ⟨stage, busy, _⟩ | busy
    · cases client.symm.trans busy
    · cases server.symm.trans busy
  | serveFetch | serveInvalidate =>
    obtain ⟨rest, unread⟩ := List.head?_eq_some_iff.mp ready
    cases accepted.symm.trans unread
  | peek _ busy | load _ busy | print _ busy | store _ busy | mark _ busy | echo _ busy
  | notify _ busy => cases client.symm.trans busy
  | miss _ busy | hit _ busy | request _ busy | absent _ busy | present _ busy | page _ busy
  | share _ busy | install _ busy => cases resolver.symm.trans busy
  | refuse _ busy | accept _ busy | deny _ busy | grant _ busy | copy _ busy | settle _ busy
  | drop _ busy | invalidate _ busy => cases server.symm.trans busy

/-- A page that nothing is under way about stays so until it is accessed. -/
theorem still_kept {x y : Node n pageSize} (answered : x.party.Answered l)
    (moved : x.party.Moves l e p) (ready : x.Enabled l) {q : Fin n}
    (still : (Node.view q x).Still ∧ (Node.view q y).Still) (idle : (p.view q).client = none) :
    (Node.view q (x.fire p l)).Still ∧ (Node.view q (y.receive l)).Still := by
  rcases Node.move (y := y) answered moved ready q with
    ⟨move, able, _, _⟩ | ⟨fired, received, _⟩
  · exact (still.1.begins move able idle).elim
  · rw [fired, received]
    exact still

theorem Node.Rests.still {x : Node n pageSize} (rests : x.Rests) (p : Fin n) :
    (Node.view p x).Still := by
  obtain ⟨⟨main, handler, server⟩, accepted, connect⟩ := rests
  refine Paused.still ⟨fun stage q rest here => ?_, handler, server, accepted, connect⟩ p
  cases main.symm.trans here

/-- Where users take turns, one command runs at most, and nothing is under way about the pages
that it has not come to. -/
structure Alone (x y : Node n pageSize) : Prop where
  one : x.party.main = .prompt ∨ y.party.main = .prompt
  nodup : x.party.main.visits.Nodup
  fresh : ∀ p ∈ x.party.main.ahead, (Node.view p x).Still ∧ (Node.view p y).Still

namespace Alone
variable {x y : Node n pageSize} {p : Process n pageSize}

theorem of_prompt (here : x.party.main = .prompt) : Alone x y where
  one := .inl here
  nodup := by
    rw [here]
    exact List.nodup_nil
  fresh := by
    rw [here]
    intro p mem
    cases mem

theorem move (own : Alone x y) (other : Alone y x) (answered : x.party.Answered l)
    (admitted : TakesTurns x y p) (moved : x.party.Moves l e p) (ready : x.Enabled l) :
    Alone (x.fire p l) (y.receive l) ∧ Alone (y.receive l) (x.fire p l) := by
  have kept {q : Fin n} := still_kept (y := y) (q := q) answered moved ready
  obtain ⟨turn, request, reply, stepped⟩ := moved
  rcases Process.step_main stepped with ⟨same, _⟩ | worked | ⟨c, rfl, _, begun⟩
  · constructor
    · refine ⟨?_, ?_, fun q mem => ?_⟩
      · simpa [same] using own.one
      · simpa [same] using own.nodup
      · rw [End.fire_party, same] at mem
        have still := own.fresh q mem
        exact kept still ((Process.client_congr same q).trans still.1.1)
    · refine ⟨?_, ?_, fun q mem => ?_⟩
      · simpa [same] using other.one
      · simpa using other.nodup
      · rw [End.receive_party] at mem
        have still := (other.fresh q mem).symm
        exact (kept still ((Process.client_congr same q).trans still.1.1)).symm
  · have move := Process.mainStep_move worked
    have away : y.party.main = .prompt := by
      refine own.one.resolve_left fun here => ?_
      rw [Process.mainStep, here] at worked
      cases worked
    have nodup : p.main.visits.Nodup := own.nodup.sublist move.visits.1.sublist
    refine ⟨⟨.inr (by simpa using away), by simpa using nodup, fun q mem => ?_⟩,
      .of_prompt (by simpa using away)⟩
    rw [End.fire_party] at mem
    exact kept (own.fresh q (move.visits.2 mem)) (Process.client_ahead nodup mem)
  · have here := Process.prompt_of_command stepped
    have rest := admitted here (by simp [begun])
    have away : y.party.main = .prompt := rest.2.1.1
    refine ⟨⟨.inr (by simpa using away), ?_, fun q mem => ?_⟩, .of_prompt (by simpa using away)⟩
    · rw [End.fire_party, begun]
      exact c.nodup_pages
    · refine kept ⟨rest.1.still q, rest.2.still q⟩ ?_
      simp only [Process.view, begun]

theorem of_runs (run : System.Runs TakesTurns h s) (i : Side) : Alone (s i) (s i.peer) := by
  refine pair_invariant (I := fun _ (x y : Node _ _) => Alone x y)
    (fun _ => .of_prompt rfl) ?_ run i
  intro h s i p l e before own other admitted moved ready
  exact own.move other (Wired.answers (Runs.wired before i) ready) admitted moved ready

end Alone

theorem Process.MainMove.begins {x y : Process n pageSize} (move : x.MainMove l e y)
    (begins : Begins (x.view q) (y.view q)) : q ∈ x.main.ahead := by
  cases here : x.main with
  | prompt => cases move <;> cases here.symm.trans ‹_›
  | access stage p rest => exact (move.within here q begins).elim
  | loop op pages =>
    cases move with
    | finish => exact (begins.2 rfl).elim
    | enter at_ =>
      cases here.symm.trans at_
      have client := begins.2
      simp only [view, ne_eq, ite_eq_right_iff, not_forall] at client
      obtain ⟨rfl, _⟩ := client
      exact List.mem_cons_self
    | load at_ | peek at_ | print at_ | store at_ | mark at_ | echo at_ | notify at_ =>
      cases here.symm.trans at_

/-- Users who take turns serialise the accesses to each page. -/
theorem Runs.serialised (run : System.Runs TakesTurns h s) : System.Runs Serialised h s := by
  refine run.mono fun {h s e t} before step => ?_
  obtain ⟨i, admitted, moved, ready⟩ := step
  refine .turn i (fun q begins => ?_) moved ready
  obtain ⟨turn, request, reply, stepped⟩ := moved
  rcases Process.step_main stepped with ⟨same, _⟩ | worked | ⟨c, _, _, begun⟩
  · exact (begins.2 ((Process.client_congr same q).trans begins.1)).elim
  · exact (Alone.of_runs before i).fresh q ((Process.mainStep_move worked).begins begins)
  · exact (begins.2 (by simp only [Process.view, begun])).elim

def Event.command? : Event n pageSize → Option (Command n)
  | .command c => some c
  | _ => none

/-- The string that a page is read as, or that is left in it. -/
def Event.answer? : Event n pageSize → Option (Fin n × List UInt8)
  | .command _ => none
  | .wrote p typed => some (p, message pageSize typed)
  | .read p content => some (p, cstring content.bytes)

/-- The commands of both users in the order in which they were accepted. -/
def History.commands (h : History n pageSize) : List (Command n) := h.filterMap (·.2.command?)

def History.answers (h : History n pageSize) : List (Fin n × List UInt8) :=
  h.filterMap (·.2.answer?)

/-- What the memory that both processes share says. -/
def sharedStrings (h : History n pageSize) : Strings n := fun p => cstring (sharedMemory h p).bytes

/-- What a command that runs has still to answer, and what the pages say after it. -/
def Main.owes (pageSize : Nat) (s : Strings n) : Main n → Strings n × List (Fin n × List UInt8)
  | .prompt => (s, [])
  | .loop op pages => s.perform pageSize op pages
  | .access (.load again) p rest => s.perform pageSize (.read again) (p :: rest)
  | .access .print p rest => s.perform pageSize (.read true) (p :: rest)
  | .access (.store typed) p rest => s.perform pageSize (.write typed) (p :: rest)
  | .access (.mark typed) _ rest | .access (.echo typed) _ rest | .access (.notify typed) _ rest =>
    s.perform pageSize (.write typed) rest

/-- The page that a write prints after it, and the message. -/
def Main.echoes : Main n → Option (Fin n × List UInt8)
  | .access (.mark typed) p _ | .access (.echo typed) p _ => some (p, typed)
  | _ => none

theorem History.filterMap_append (f : Event n pageSize → Option β) (h : History n pageSize)
    (e : Option (Event n pageSize)) (i : Side) :
    (h ++ (e.map (i, ·)).toList).filterMap (fun e => f e.2) =
      h.filterMap (fun e => f e.2) ++ (e.bind f).toList := by
  rw [List.filterMap_append]
  congr 1
  cases e with
  | none => rfl
  | some e => cases told : f e <;> simp [told]

/-- What the pages say after an event. -/
def Strings.after (s : Strings n) : Option (Event n pageSize) → Strings n
  | some (.wrote p typed) => Function.update s p (message pageSize typed)
  | _ => s

theorem sharedMemory_after (h : History n pageSize) (e : Option (Event n pageSize)) (i : Side)
    (p : Fin n) : sharedMemory (h ++ (e.map (i, ·)).toList) p =
      match e with
      | some (.wrote q typed) => if q = p then stored pageSize typed else sharedMemory h p
      | _ => sharedMemory h p := by
  rw [sharedMemory, List.foldl_append]
  rcases e with _ | c | ⟨q, typed⟩ | ⟨q, content⟩ <;> rfl

theorem sharedStrings_after (h : History n pageSize) (e : Option (Event n pageSize)) (i : Side) :
    sharedStrings (h ++ (e.map (i, ·)).toList) = (sharedStrings h).after e := by
  funext q
  rw [sharedStrings, sharedMemory_after]
  rcases e with _ | c | ⟨p, typed⟩ | ⟨p, content⟩
  · rfl
  · rfl
  · rw [Strings.after, Function.update_apply]
    by_cases same : p = q
    · rw [if_pos same.symm, ← cstring_stored]
      exact congrArg (fun c : Page pageSize => cstring c.bytes) (if_pos same)
    · rw [if_neg (Ne.symm same)]
      exact congrArg (fun c : Page pageSize => cstring c.bytes) (if_neg same)
  · rfl

theorem Process.MainMove.owes {x y : Process n pageSize} (move : x.MainMove l e y)
    (s : Strings n) (reads : ∀ p content, e = some (.read p content) →
      cstring content.bytes = s p) :
    x.main.owes pageSize s = ((y.main.owes pageSize (s.after e)).1,
      (e.bind Event.answer?).toList ++ (y.main.owes pageSize (s.after e)).2) := by
  cases move with
  | finish here => rw [here]; rfl
  | @enter op p rest here =>
    rw [here]
    cases op <;> rfl
  | @load p rest content here present =>
    have told := reads p content rfl
    simp only [here, Main.owes, Strings.perform, Strings.after, Option.bind_some, Event.answer?,
      Option.toList_some, List.singleton_append, told]
  | @print p rest content here present =>
    have told := reads p content rfl
    simp only [here, Main.owes, Strings.perform, Strings.after, Option.bind_some, Event.answer?,
      Option.toList_some, List.singleton_append, told]
  | @store typed p rest content here present =>
    simp only [here, Main.owes, Strings.perform, Strings.after, Option.bind_some, Event.answer?,
      Option.toList_some, List.singleton_append, Function.update_self]
  | peek here | mark here | echo here | notify here => rw [here]; rfl

/-- One side carries out the commands; what they have answered so far is on record. -/
structure Told (h : History n pageSize) (s : System n pageSize) (i : Side) : Prop where
  away : (s i.peer).party.main = .prompt
  performed : Strings.performAll pageSize (fun _ => []) h.commands =
    (((s i).party.main.owes pageSize (sharedStrings h)).1,
      h.answers ++ ((s i).party.main.owes pageSize (sharedStrings h)).2)
  echoes : ∀ r ∈ (s i).party.main.echoes, sharedMemory h r.1 = stored pageSize r.2

theorem Process.MainMove.echoes {x y : Process n pageSize} (move : x.MainMove l e y) (i : Side)
    (echoes : ∀ r ∈ x.main.echoes, sharedMemory h r.1 = stored pageSize r.2) :
    ∀ r ∈ y.main.echoes, sharedMemory (h ++ (e.map (i, ·)).toList) r.1 = stored pageSize r.2 := by
  intro r mem
  rw [sharedMemory_after]
  cases move with
  | finish | load | print | peek | echo | notify => cases mem
  | @enter op => cases op <;> cases mem
  | store =>
    cases mem
    exact if_pos rfl
  | mark here =>
    cases mem
    exact echoes _ (by rw [here]; rfl)

theorem Process.MainMove.uncommanded {x y : Process n pageSize} (move : x.MainMove l e y) :
    e.bind Event.command? = none := by
  cases move <;> rfl

theorem Told.step (run : System.Runs TakesTurns h s) (told : Told h s i)
    (step : System.Step TakesTurns s e t) : ∃ j, Told (h ++ e.toList) t j := by
  have later := Runs.serialised (run.next step)
  obtain ⟨away, performed, echoes⟩ := told
  obtain ⟨j, admitted, ⟨turn, request, reply, stepped⟩, ready⟩ := step
  rename_i p l e
  have commands : (h ++ (e.map (j, ·)).toList).commands =
      h.commands ++ (e.bind Event.command?).toList := History.filterMap_append _ h e j
  have answers : (h ++ (e.map (j, ·)).toList).answers =
      h.answers ++ (e.bind Event.answer?).toList := History.filterMap_append _ h e j
  rcases Process.step_main stepped with ⟨same, rfl⟩ | worked | ⟨c, rfl, rfl, begun⟩
  · have mains (k : Side) : (s.post j p l k).party.main = (s k).party.main := by
      rcases Side.eq_or_peer j k with rfl | rfl
      · rw [Net.post_self, End.fire_party, same]
      · rw [Net.post_peer, End.receive_party]
    rw [Option.map_none, Option.toList_none, List.append_nil]
    exact ⟨i, (mains _).trans away, by rw [mains i, performed], by rw [mains i]; exact echoes⟩
  · rcases Side.eq_or_peer i j with rfl | rfl
    · have move := Process.mainStep_move worked
      refine ⟨j, by rw [Net.post_peer, End.receive_party, away], ?_, by
        rw [Net.post_self, End.fire_party]
        exact move.echoes j echoes⟩
      have owed := move.owes (sharedStrings h) fun q content shown => by
        subst shown
        exact congrArg (cstring ·.bytes) (Runs.reads_memory (l := []) later)
      rw [commands, answers, sharedStrings_after, move.uncommanded, Option.toList_none,
        List.append_nil, Net.post_self, End.fire_party, performed, owed, List.append_assoc]
    · rw [Process.mainStep, away] at worked
      cases worked
  · have here := Process.prompt_of_command stepped
    have rest := admitted here (by simp [begun])
    have idle : (s i).party.main = .prompt := by
      rcases Side.eq_or_peer j i with rfl | rfl
      · exact here
      · exact rest.2.1.1
    rw [idle] at performed
    refine ⟨j, by rw [Net.post_peer, End.receive_party, rest.2.1.1], ?_, by
      rw [Net.post_self, End.fire_party, begun]
      exact forall_mem_of_eq_none rfl⟩
    rw [commands, answers, sharedStrings_after, Net.post_self, End.fire_party, begun]
    change Strings.performAll _ _ (h.commands ++ [c]) = _
    rw [Strings.performAll_concat, performed]
    simp only [Main.owes, Strings.after, Option.bind_some, Event.answer?, Option.toList_none,
      List.append_nil]

theorem Told.of_runs {h : History n pageSize} (run : System.Runs TakesTurns h s) :
    ∃ i, Told h s i := by
  refine run.invariant (I := fun h s => ∃ i, Told h s i)
    ⟨.first, rfl, ?_, forall_mem_of_eq_none rfl⟩ ?_
  · exact congrArg (·, []) (funext fun _ => (cstring_zero pageSize).symm)
  · rintro h s e t before ⟨i, told⟩ step
    exact told.step before step

/-- Until the other process is told, a page that was written is here with its message. -/
theorem Runs.echoed (run : System.Runs TakesTurns h s)
    (here : (s i).party.main = .access (.echo typed) p rest)
    (present : (s i).party.mapping p = some shown) : shown = stored pageSize typed := by
  obtain ⟨j, told⟩ := Told.of_runs run
  obtain rfl : i = j := by
    rcases Side.eq_or_peer j i with rfl | rfl
    · rfl
    · cases here.symm.trans told.away
  obtain ⟨_, refines⟩ := Runs.refines (Runs.serialised run) i p
  have client : (Node.view p (s i)).party.client = some (.echo (stored pageSize typed)) := by
    simp only [Node.view, End.filter, Process.view, here, if_true, Stage.map]
  obtain ⟨c, known, latest⟩ := refines.tracked.stored (.inl ⟨_, client, trivial⟩)
  obtain rfl : shown = c := Option.some.inj (present.symm.trans known)
  rw [latest, ← sharedMemory_latest]
  exact told.echoes (p, typed) (by rw [here]; rfl)

/-- Whoever's turn it is, the command is carried out: without further commands both processes
come to rest, whichever thread moves when. -/
theorem Runs.comes_to_rest (run : System.Runs TakesTurns h s) :
    Inevitable (System.Works TakesTurns) System.Quiescent
      (2 * faultWork * n + History.work (h : History n pageSize)) s := by
  refine Runs.inevitable (fun {h s} run short => ?_) run
  obtain ⟨i, turn, able, which⟩ := Runs.able run short (Runs.not_crossed (Runs.serialised run))
  obtain ⟨⟨x, l, e⟩, moved⟩ := Option.isSome_iff_exists.mp able
  have other : ∀ c, turn ≠ .command c := by
    rcases which with assists | ⟨rfl, _⟩
    · exact assists.uncommanded
    · intro c same
      cases same
  refine Runs.works moved other fun here begun => (begun ?_).elim
  rcases Process.step_main moved with ⟨same, _⟩ | worked | ⟨c, command, _⟩
  · exact same.trans here
  · rw [Process.mainStep, here] at worked
    cases worked
  · exact (other c command).elim

/-- Two users who take turns work on one array of strings: what the processes read and leave in
the pages is what the array answers to the commands of both. -/
theorem Runs.answers_prefix {h : History n pageSize} (run : System.Runs TakesTurns h s) :
    h.answers <+: (Strings.performAll pageSize (fun _ => []) h.commands).2 := by
  obtain ⟨i, told⟩ := Told.of_runs run
  rw [told.performed]
  exact List.prefix_append _ _

theorem Runs.answers_eq {h : History n pageSize} (run : System.Runs TakesTurns h s)
    (back : ∀ i, (s i).party.main = .prompt) :
    h.answers = (Strings.performAll pageSize (fun _ => []) h.commands).2 := by
  obtain ⟨i, told⟩ := Told.of_runs run
  rw [told.performed, back i]
  exact (List.append_nil _).symm

end CSE306.S2DSM
