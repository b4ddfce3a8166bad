import CSE306.S2DSM.Startup

/-! What every interleaving of the two starts keeps: each record is read by the thread
it is meant for, and no request is read before the mapping it is about is set up. -/
namespace CSE306.S2DSM.Startup
open Transition Transition.Duplex

variable {l : Launch} {i : Side}

namespace Launch
variable (l : Launch)

/-- The process with the smaller pid is the first one. -/
def isFirst (i : Side) : Bool := (l.pid i).slt (l.pid i.peer)

def unset : Region := ⟨0, none, false⟩
def allocated : Region := ⟨l.len, none, false⟩
def filled : Region := ⟨l.len, some (l.numPages l.len).toNat, false⟩
def watched : Region := ⟨l.len, some (l.numPages l.len).toNat, true⟩

theorem isFirst_peer (i : Side) : l.isFirst i.peer = !l.isFirst i := by
  have different : (l.pid i).toInt ≠ (l.pid i.peer).toInt := by
    rw [Ne, BitVec.toInt_inj]
    cases i with
    | first => exact l.distinct
    | second => exact l.distinct.symm
  simp only [isFirst, Side.peer_peer, BitVec.slt, Bool.eq_not, ne_eq, decide_eq_decide]
  omega

end Launch

def Main.Fits (l : Launch) : Main → Prop
  | .commandLoop maxPage => maxPage = l.maxPage l.len
  | .sendInvalidate maxPage page _ => maxPage = l.maxPage l.len ∧ l.InRange page
  | _ => False

def Handler.Fits (l : Launch) : Handler → Prop
  | .absent => False
  | .poll => True
  | .sendFetch page => l.InRange page

def Server.Fits (l : Launch) : Server → Prop
  | .absent => False
  | .read => True
  | .handle request => ∃ sent, request = some sent ∧ l.InRange sent.2

/-- How far a process can be, with what it has set by then. -/
inductive Shape (l : Launch) (i : Side) : Program → Prop where
  | created : Shape l i (.start (l.pid i))
  | meeting : m = .connect ∨ m = .sendPid ∨ m = .joinHandshake →
      t = .listen ∨ t = .accept ∨ t = .read →
      Shape l i ⟨l.pid i, m, t, .absent, .absent, .absent, none, Launch.unset⟩
  | met : m = .connect ∨ m = .sendPid ∨ m = .joinHandshake →
      Shape l i ⟨l.pid i, m, .exited, .absent, .absent, .absent, some (l.isFirst i), Launch.unset⟩
  | leads : l.isFirst i = true →
      m = .allocate ∧ r = Launch.unset ∨ m = .initialise ∧ r = l.allocated ∨
        m = .sendInitInfo ∧ r = l.filled ∨ m = .register ∧ r = l.filled ∨
        m = .createHandler ∧ r = l.watched →
      Shape l i ⟨l.pid i, m, .exited, .absent, .absent, .absent, some true, r⟩
  | asked : l.isFirst i = false →
      Shape l i ⟨l.pid i, .createReceive, .exited, .absent, .absent, .absent, some false,
        Launch.unset⟩
  | follows : l.isFirst i = false →
      t = .read ∧ r = Launch.unset ∨ t = .allocate l.len ∧ r = Launch.unset ∨
        t = .initialise ∧ r = l.allocated ∨ t = .register ∧ r = l.filled ∨
        t = .createHandler ∧ r = l.watched →
      Shape l i ⟨l.pid i, .joinReceive, .exited, t, .absent, .absent, some false, r⟩
  | received : l.isFirst i = false → f.Fits l →
      Shape l i ⟨l.pid i, .joinReceive, .exited, .exited, .absent, f, some false, l.watched⟩
  | ready : t = (if l.isFirst i then .absent else .exited) → f.Fits l →
      Shape l i ⟨l.pid i, .createServer, .exited, t, .absent, f, some (l.isFirst i), l.watched⟩
  | running : t = (if l.isFirst i then .absent else .exited) → m.Fits l → s.Fits l → f.Fits l →
      Shape l i ⟨l.pid i, m, .exited, t, s, f, some (l.isFirst i), l.watched⟩

/-- One direction of one connection: whether the pid and the `init_info` have been
read, what has not been read yet, whether they have been sent, and whether the sender
may be sending requests. -/
structure Channel (l : Launch) (pid : BitVec 32) (greeted informed : Bool)
    (accepted : List Record) (sentPid announced talks : Bool) : Prop where
  greeted_sent : greeted = true → sentPid = true
  informed_announced : informed = true → announced = true
  unread : ∃ requests : List RawRequest,
    accepted = (if sentPid && !greeted then [.pid pid] else []) ++
      (if announced && !informed then [.initInfo l.len] else []) ++ requests.map .request ∧
    (∀ q ∈ requests, l.InRange q.2) ∧ (requests ≠ [] → talks = true)

namespace Channel

theorem created (l : Launch) (pid : BitVec 32) : Channel l pid false false [] false false false :=
  ⟨by simp, by simp, [], by simp⟩

theorem talk (c : Channel l pid g n q s a t) (more : t = true → t' = true) :
    Channel l pid g n q s a t' := by
  obtain ⟨requests, known, valid, quiet⟩ := c.unread
  exact ⟨c.greeted_sent, c.informed_announced, requests, known, valid, fun h => more (quiet h)⟩

/-- A peer that does not talk yet has sent no request. -/
theorem quiet (c : Channel l pid g n q s a false) :
    q = (if s && !g then [.pid pid] else []) ++ if a && !n then [.initInfo l.len] else [] := by
  obtain ⟨requests, known, _, talks⟩ := c.unread
  have none : requests = [] := by
    by_contra some
    cases talks some
  rw [known, none, List.map_nil, List.append_nil]

theorem sendPid (c : Channel l pid g n q false false false) :
    Channel l pid g n (q ++ [.pid pid]) true false false := by
  have unmet : g = false := by
    cases g with
    | false => rfl
    | true => cases c.greeted_sent rfl
  subst unmet
  exact ⟨by simp, fun h => c.informed_announced h, [], by simp [c.quiet]⟩

theorem sendInitInfo (c : Channel l pid g n q true false false) :
    Channel l pid g n (q ++ [.initInfo l.len]) true true false := by
  have unmet : n = false := by
    cases n with
    | false => rfl
    | true => cases c.informed_announced rfl
  subst unmet
  exact ⟨c.greeted_sent, by simp, [], by simp [c.quiet]⟩

theorem sendRequest (c : Channel l pid g n q s a t) (valid : l.InRange r.2) :
    Channel l pid g n (q ++ [.request r]) s a true := by
  obtain ⟨requests, known, held, _⟩ := c.unread
  refine ⟨c.greeted_sent, c.informed_announced, requests ++ [r], ?_, ?_, fun _ => rfl⟩
  · rw [known, List.map_append, ← List.append_assoc]
    rfl
  · intro q mem
    rcases List.mem_append.mp mem with old | new
    · exact held q old
    · rwa [List.mem_singleton.mp new]

theorem takePid (c : Channel l pid false n (r :: q) s a t)
    (order : a = true ∨ t = true → s = true) :
    r = .pid pid ∧ Channel l pid true n q s a t := by
  cases s with
  | false =>
    have early : a = false ∧ t = false := by
      constructor
      · by_contra late
        cases order (.inl (by simpa using late))
      · by_contra late
        cases order (.inr (by simpa using late))
    obtain ⟨rfl, rfl⟩ := early
    cases c.quiet
  | true =>
    obtain ⟨requests, known, valid, quiet⟩ := c.unread
    simp only [Bool.not_false, Bool.and_self, if_true, List.cons_append, List.nil_append,
      List.cons.injEq] at known
    exact ⟨known.1, fun _ => rfl, c.informed_announced, requests, by simpa using known.2, valid,
      quiet⟩

theorem takeInitInfo (c : Channel l pid true false (r :: q) s a t) (order : t = true → a = true) :
    r = .initInfo l.len ∧ Channel l pid true true q s a t := by
  cases a with
  | false =>
    have early : t = false := by
      by_contra late
      cases order (by simpa using late)
    subst early
    have unread := c.quiet
    simp at unread
  | true =>
    obtain ⟨requests, known, valid, quiet⟩ := c.unread
    simp only [Bool.not_true, Bool.and_false, Bool.false_eq_true, if_false, Bool.not_false,
      Bool.and_self, if_true, List.cons_append, List.nil_append, List.cons.injEq] at known
    exact ⟨known.1, c.greeted_sent, fun _ => rfl, requests, by simpa using known.2, valid, quiet⟩

theorem takeRequest (c : Channel l pid true n (r :: q) s a t) (order : a = true → n = true) :
    (∃ sent, r = .request sent ∧ l.InRange sent.2) ∧ Channel l pid true n q s a t := by
  obtain ⟨requests, known, valid, quiet⟩ := c.unread
  have taken : (a && !n) = false := by
    cases a with
    | false => rfl
    | true => simp [order rfl]
  simp only [Bool.not_true, Bool.and_false, Bool.false_eq_true, if_false, taken,
    List.nil_append] at known
  cases requests with
  | nil => cases known
  | cons sent requests =>
    simp only [List.map_cons, List.cons.injEq] at known
    refine ⟨⟨sent, known.1, valid sent List.mem_cons_self⟩, c.greeted_sent, c.informed_announced,
      requests, ?_, fun q mem => valid q (List.mem_cons_of_mem _ mem), fun _ => quiet (by simp)⟩
    simpa [taken] using known.2

end Channel

namespace Program

def greeted (x : Program) : Bool := x.handshake = .exited

def informed (x : Program) : Bool := x.receive ≠ .absent ∧ x.receive ≠ .read

def sentPid (x : Program) : Bool :=
  match x.main with
  | .createHandshake | .connect | .sendPid => false
  | _ => true

def announced (x : Program) : Bool :=
  match x.main with
  | .register | .createHandler => true
  | .createServer | .commandLoop _ | .sendInvalidate _ _ _ => x.firstProcess = some true
  | _ => false

def talks (x : Program) : Bool := x.handler ≠ .absent ∨ x.main.maxPage?.isSome

end Program

/-- The connection from `y` to the end `x` of process `i`. -/
abbrev Linked (l : Launch) (i : Side) (x : Party) (y : Program) : Prop :=
  Channel l (l.pid i.peer) x.party.greeted x.party.informed x.accepted y.sentPid y.announced y.talks

/-- What the rest of the system sees of one move. -/
inductive Effect (l : Launch) (i : Side) (x p : Program) : Label Record Empty → Prop where
  | silent : p.greeted = x.greeted ∧ p.informed = x.informed ∧ p.sentPid = x.sentPid ∧
      p.announced = x.announced ∧ (x.talks = true → p.talks = true) → Effect l i x p .silent
  | sendPid : p.greeted = x.greeted ∧ p.informed = x.informed ∧
      (x.sentPid = false ∧ x.announced = false ∧ x.talks = false) ∧
      p.sentPid = true ∧ p.announced = false ∧ p.talks = false →
      Effect l i x p (.request (.pid (l.pid i)))
  | sendInitInfo : p.greeted = x.greeted ∧ p.informed = x.informed ∧
      (x.sentPid = true ∧ x.announced = false ∧ x.talks = false) ∧
      p.sentPid = true ∧ p.announced = true ∧ p.talks = false →
      Effect l i x p (.request (.initInfo l.len))
  | sendRequest : p.greeted = x.greeted ∧ p.informed = x.informed ∧ p.sentPid = x.sentPid ∧
      p.announced = x.announced ∧ p.talks = true → l.InRange r.2 →
      Effect l i x p (.request (.request r))
  | take : p.sentPid = x.sentPid ∧ p.announced = x.announced ∧ p.talks = x.talks →
      Effect l i x p (.serve r)

/-- What an observation says, whatever the interleaving. -/
def Event.Fits (l : Launch) (i : Side) : Event → Prop
  | .branch first => first = l.isFirst i
  | .took thread record => record.reader = thread
  | .initialised | .registered => True
  | .handled request => l.InRange request.2

section
attribute [local simp] Program.start Program.greeted Program.informed Program.sentPid
  Program.announced Program.talks Main.maxPage? Event.Fits

/-- In which order a process starts to send. -/
theorem Shape.order (shape : Shape l i y) :
    (y.talks = true → y.sentPid = true) ∧ (y.announced = true → y.sentPid = true) ∧
      (y.announced = true → l.isFirst i = true) ∧
      (l.isFirst i = true → y.talks = true → y.announced = true) := by
  cases shape with
  | created => simp
  | meeting m | met m => rcases m with rfl | rfl | rfl <;> simp
  | leads first m =>
    rcases m with ⟨rfl, rfl⟩ | ⟨rfl, rfl⟩ | ⟨rfl, rfl⟩ | ⟨rfl, rfl⟩ | ⟨rfl, rfl⟩ <;> simp [first]
  | asked first | follows first | received first => simp [first]
  | ready =>
    simp only [Program.sentPid, Program.announced, Option.some.injEq, decide_eq_true_eq,
      implies_true, true_and]
    exact ⟨id, fun first _ => first⟩
  | @running _ m => cases m <;> simp_all [Main.Fits]

theorem Main.command_fits (ready : Main.command (l.maxPage l.len) whichPage = some m) :
    m.Fits l := by
  have zero : (0 : BitVec 32).toInt = 0 := rfl
  have all : (-1 : BitVec 32).toInt = -1 := rfl
  unfold Main.command at ready
  split at ready
  · cases ready
  · rename_i checked
    simp only [not_or, Bool.not_eq_true, BitVec.slt_eq_decide, BitVec.sle_eq_decide, all,
      decide_eq_false_iff_not, not_lt, not_le] at checked
    split at ready
    · split at ready
      · rename_i some
        cases ready
        rw [BitVec.slt_iff_toInt_lt, zero] at some
        exact ⟨rfl, zero.ge, by rw [zero]; exact some⟩
      · cases ready
    · rename_i single
      cases ready
      rw [← BitVec.toInt_inj, all] at single
      exact ⟨rfl, by omega, checked.2⟩

theorem Main.next_fits (inside : l.InRange page) (all : Bool) :
    (Main.next (l.maxPage l.len) page all).Fits l := by
  unfold Main.next
  split
  · rename_i more
    rw [BitVec.slt_iff_toInt_lt] at more
    have bound : (l.maxPage l.len).toInt ≤ 2 ^ 31 - 1 := BitVec.toInt_le
    obtain ⟨least, most⟩ := inside
    have following : (page + 1).toInt = page.toInt + 1 := by
      rw [BitVec.toInt_add, show (1 : BitVec 32).toInt = 1 from rfl]
      exact Int.bmod_eq_of_le (by omega) (by omega)
    exact ⟨rfl, by omega, more.2⟩
  · rfl

/-- What holds of a process after a move, as far as it sends. -/
abbrev Kept (l : Launch) (i : Side) (x p : Program) (label : Label Record Empty)
    (e : Option Event) : Prop :=
  Shape l i p ∧ Effect l i x p label ∧ ∀ shown ∈ e, shown.Fits l i

theorem Shape.mainStep (shape : Shape l i x)
    (moved : x.mainStep l whichPage = some (p, label, e)) : Kept l i x p label e := by
  cases shape with
  | created =>
    cases moved
    exact ⟨.meeting (by simp) (by simp), .silent (by simp), by simp⟩
  | meeting m t =>
    rcases m with rfl | rfl | rfl
    · cases moved
      exact ⟨.meeting (by simp) t, .silent (by simp), by simp⟩
    · cases moved
      exact ⟨.meeting (by simp) t, .sendPid (by simp), by simp⟩
    · rcases t with rfl | rfl | rfl <;> simp [Program.mainStep] at moved
  | met m =>
    rcases m with rfl | rfl | rfl
    · cases moved
      exact ⟨.met (by simp), .silent (by simp), by simp⟩
    · cases moved
      exact ⟨.met (by simp), .sendPid (by simp), by simp⟩
    · cases role : l.isFirst i with
      | true =>
        simp only [Program.mainStep, role, reduceIte, Option.some.injEq, Bool.true_eq_false,
          Prod.mk.injEq] at moved
        obtain ⟨rfl, rfl, rfl⟩ := moved
        exact ⟨.leads role (by simp), .silent (by simp), by simp [role]⟩
      | false =>
        simp only [Program.mainStep, role, reduceIte, Option.some.injEq, Prod.mk.injEq] at moved
        obtain ⟨rfl, rfl, rfl⟩ := moved
        exact ⟨.asked role, .silent (by simp), by simp [role]⟩
  | leads first m =>
    rcases m with ⟨rfl, rfl⟩ | ⟨rfl, rfl⟩ | ⟨rfl, rfl⟩ | ⟨rfl, rfl⟩ | ⟨rfl, rfl⟩ <;>
      cases moved
    · exact ⟨.leads first (by simp [Launch.unset, Launch.allocated]), .silent (by simp), by simp⟩
    · exact ⟨.leads first (by simp [Program.fill, Launch.allocated, Launch.filled]),
        .silent (by simp), by simp⟩
    · exact ⟨.leads first (by simp), .sendInitInfo (by simp), by simp⟩
    · exact ⟨.leads first (by simp [Program.watch, Launch.filled, Launch.watched]),
        .silent (by simp), by simp⟩
    · have done : Shape l i _ := .ready (f := .poll) (by rw [if_pos first]) trivial
      rw [first] at done
      exact ⟨done, .silent (by simp), by simp⟩
  | asked first =>
    cases moved
    exact ⟨.follows first (by simp), .silent (by simp), by simp⟩
  | follows first t =>
    rcases t with ⟨rfl, _⟩ | ⟨rfl, _⟩ | ⟨rfl, _⟩ | ⟨rfl, _⟩ | ⟨rfl, _⟩ <;>
      simp [Program.mainStep] at moved
  | received first f =>
    simp only [Program.mainStep, reduceIte, Option.some.injEq, Prod.mk.injEq] at moved
    obtain ⟨rfl, rfl, rfl⟩ := moved
    have done : Shape l i _ := .ready (by rw [first]) f
    rw [first] at done
    exact ⟨done, .silent (by simp), by simp⟩
  | ready t f =>
    cases moved
    exact ⟨.running t rfl trivial f, .silent (by simp), by simp⟩
  | @running t m s f known main serves faults =>
    cases m with
    | commandLoop maxPage =>
      obtain rfl : maxPage = l.maxPage l.len := main
      simp only [Program.mainStep, Option.map_eq_some_iff, Prod.mk.injEq] at moved
      obtain ⟨m, ready, rfl, rfl, rfl⟩ := moved
      have fits := Main.command_fits ready
      refine ⟨.running known fits serves faults, ?_, by simp⟩
      cases m with
      | commandLoop | sendInvalidate => exact .silent (by simp)
      | _ => exact fits.elim
    | sendInvalidate maxPage page all =>
      obtain ⟨rfl, inside⟩ := main
      cases moved
      have fits := Main.next_fits inside all
      refine ⟨.running known fits serves faults, ?_, by simp⟩
      generalize Main.next (l.maxPage l.len) page all = m at fits
      cases m with
      | commandLoop | sendInvalidate => exact .sendRequest (by simp) inside
      | _ => exact fits.elim
    | _ => exact main.elim

theorem Handler.step (fits : x.handler.Fits l) (whole : x.region.len = l.len)
    (any : ∀ f : Handler, f.Fits l → Shape l i { x with handler := f })
    (moved : x.handlerStep l offset = some (p, label, e)) : Kept l i x p label e := by
  cases known : x.handler with
  | absent => simp [known, Handler.Fits] at fits
  | poll =>
    simp only [Program.handlerStep, known, whole] at moved
    split at moved
    · rename_i inside
      cases moved
      refine ⟨any (.sendFetch _) (l.inRange_pageFaulted inside.2), .silent ?_, by simp⟩
      simp [known]
    · cases moved
  | sendFetch page =>
    simp only [Program.handlerStep, known] at moved
    rw [known] at fits
    cases moved
    refine ⟨any .poll trivial, .sendRequest ?_ fits, by simp⟩
    simp

theorem Shape.handlerStep (shape : Shape l i x)
    (moved : x.handlerStep l offset = some (p, label, e)) : Kept l i x p label e := by
  cases shape with
  | created | meeting | met | leads | asked | follows => simp [Program.handlerStep] at moved
  | received first f => exact Handler.step f rfl (fun _ fits => .received first fits) moved
  | ready t f => exact Handler.step f rfl (fun _ fits => .ready t fits) moved
  | running t m s f => exact Handler.step f rfl (fun _ fits => .running t m s fits) moved

/-- A record is read by the thread it is meant for, and the connection stays in order. -/
structure Taken (l : Launch) (i : Side) (x p : Program) (thread : Thread) (record : Record)
    (rest : List Record) (s a t : Bool) : Prop where
  shape : Shape l i p
  effect : Effect l i x p (.serve record)
  meant : record.reader = thread
  linked : Channel l (l.pid i.peer) p.greeted p.informed rest s a t

theorem Shape.handshake (shape : Shape l i x) (reading : x.handshake = .read)
    (c : Channel l (l.pid i.peer) x.greeted x.informed (r :: q) s a t)
    (order : a = true ∨ t = true → s = true) (fits : Fits r.pid? pid) :
    Taken l i x { x with handshake := .exited, firstProcess := some (x.currentPid.slt pid) }
      .handshake r q s a t := by
  cases shape with
  | @meeting m t known progress =>
    subst reading
    obtain ⟨rfl, linked⟩ := c.takePid order
    obtain rfl := fits _ rfl
    refine ⟨.met known, .take ?_, rfl, linked⟩
    rcases known with rfl | rfl | rfl <;> simp
  | _ => cases reading

theorem Shape.receive (shape : Shape l i x) (reading : x.receive = .read)
    (c : Channel l (l.pid i.peer) x.greeted x.informed (r :: q) s a t)
    (order : l.isFirst i = false → t = true → a = true) (fits : Fits r.initInfo? len) :
    Taken l i x { x with receive := .allocate len } .receive r q s a t := by
  cases shape with
  | follows first known =>
    subst reading
    obtain ⟨rfl, linked⟩ := c.takeInitInfo (order first)
    obtain rfl := fits _ rfl
    exact ⟨.follows first (by simpa using known), .take (by simp), rfl, linked⟩
  | ready known | running known => cases first : l.isFirst i <;> simp_all
  | _ => cases reading

theorem Shape.server (shape : Shape l i x) (reading : x.server = .read)
    (c : Channel l (l.pid i.peer) x.greeted x.informed (r :: q) s a t)
    (order : a = true → l.isFirst i = false) (fits : Fits (r.request?.map some) request) :
    Taken l i x { x with server := .handle request } .server r q s a t := by
  cases shape with
  | @running t m _ f known main serves faults =>
    obtain ⟨⟨sent, rfl, valid⟩, linked⟩ := c.takeRequest fun announced => by
      simp [known, order announced]
    obtain rfl := fits _ rfl
    exact ⟨.running known main ⟨sent, rfl, valid⟩ faults, .take (by simp), rfl, linked⟩
  | _ => cases reading

theorem Shape.handshakeStep (shape : Shape l i x) (c : ∀ r, label = .serve r →
      Channel l (l.pid i.peer) x.greeted x.informed (r :: rest) s a t)
    (order : a = true ∨ t = true → s = true)
    (moved : x.handshakeStep record pid = some (p, label, e)) :
    Kept l i x p label e ∧
      ∀ r, label = .serve r → Channel l (l.pid i.peer) p.greeted p.informed rest s a t := by
  unfold Program.handshakeStep at moved
  split at moved
  · cases moved
  · cases moved
  · rename_i at_
    cases moved
    refine ⟨⟨?_, .silent (by simp [at_]), by simp⟩, by simp⟩
    cases shape with
    | meeting m t => exact .meeting m (by simp)
    | _ => cases at_
  · rename_i at_
    cases moved
    refine ⟨⟨?_, .silent (by simp [at_]), by simp⟩, by simp⟩
    cases shape with
    | meeting m t => exact .meeting m (by simp)
    | _ => cases at_
  · rename_i reading
    obtain ⟨r, rfl, fits, rfl, rfl, rfl⟩ := Program.take_eq_some.mp moved
    have taken := shape.handshake reading (c r rfl) order fits
    exact ⟨⟨taken.shape, taken.effect, by simp [taken.meant]⟩, fun _ _ => taken.linked⟩

/-- The steps of `second_process_receive` after its read. -/
theorem Shape.setUp (shape : Shape l i x) (present : x.receive = t)
    (next : (∃ len, t = .allocate len ∧ t' = .initialise ∧ r' = { x.region with len } ∧
        f' = x.handler) ∨
      t = .initialise ∧ t' = .register ∧ r' = x.fill l ∧ f' = x.handler ∨
      t = .register ∧ t' = .createHandler ∧ r' = x.watch ∧ f' = x.handler ∨
      t = .createHandler ∧ t' = .exited ∧ r' = x.region ∧ f' = .poll) :
    Shape l i { x with receive := t', region := r', handler := f' } := by
  have busy : x.receive ≠ .absent ∧ x.receive ≠ .exited := by
    rcases next with ⟨_, rfl, _⟩ | ⟨rfl, _⟩ | ⟨rfl, _⟩ | ⟨rfl, _⟩ <;> simp [present]
  cases shape with
  | follows first progress =>
    subst present
    rcases progress with ⟨rfl, rfl⟩ | ⟨rfl, rfl⟩ | ⟨rfl, rfl⟩ | ⟨rfl, rfl⟩ | ⟨rfl, rfl⟩ <;>
      simp only [reduceCtorEq, Receive.allocate.injEq, false_and, true_and, or_false, false_or,
        exists_const] at next
    · obtain ⟨_, rfl, rfl, rfl, rfl⟩ := next
      exact .follows first (by simp [Launch.unset, Launch.allocated])
    · obtain ⟨rfl, rfl, rfl⟩ := next
      exact .follows first (by simp [Program.fill, Launch.allocated, Launch.filled])
    · obtain ⟨rfl, rfl, rfl⟩ := next
      exact .follows first (by simp [Program.watch, Launch.filled, Launch.watched])
    · obtain ⟨rfl, rfl, rfl⟩ := next
      exact .received first trivial
  | created | meeting | met | leads | asked => exact (busy.1 rfl).elim
  | received => exact (busy.2 rfl).elim
  | ready known | running known =>
    split at known
    · exact (busy.1 known).elim
    · exact (busy.2 known).elim

theorem Shape.receiveStep (shape : Shape l i x) (c : ∀ r, label = .serve r →
      Channel l (l.pid i.peer) x.greeted x.informed (r :: rest) s a t)
    (order : l.isFirst i = false → t = true → a = true)
    (moved : x.receiveStep l record len = some (p, label, e)) :
    Kept l i x p label e ∧
      ∀ r, label = .serve r → Channel l (l.pid i.peer) p.greeted p.informed rest s a t := by
  unfold Program.receiveStep at moved
  cases known : x.receive with
  | absent | exited => simp [known] at moved
  | read =>
    rw [known] at moved
    obtain ⟨r, rfl, fits, rfl, rfl, rfl⟩ := Program.take_eq_some.mp moved
    have taken := shape.receive known (c r rfl) order fits
    exact ⟨⟨taken.shape, taken.effect, by simp [taken.meant]⟩, fun _ _ => taken.linked⟩
  | allocate | initialise | register | createHandler =>
    rw [known] at moved
    cases moved
    refine ⟨⟨shape.setUp known ?_, .silent (by simp [known]), by simp⟩, by simp⟩
    simp [Program.fill, Program.watch]

theorem Shape.serverStep (shape : Shape l i x) (c : ∀ r, label = .serve r →
      Channel l (l.pid i.peer) x.greeted x.informed (r :: rest) s a t)
    (order : a = true → l.isFirst i = false)
    (moved : x.serverStep record request = some (p, label, e)) :
    Kept l i x p label e ∧
      ∀ r, label = .serve r → Channel l (l.pid i.peer) p.greeted p.informed rest s a t := by
  unfold Program.serverStep at moved
  split at moved
  · cases moved
  · rename_i reading
    obtain ⟨r, rfl, fits, rfl, rfl, rfl⟩ := Program.take_eq_some.mp moved
    have taken := shape.server reading (c r rfl) order fits
    exact ⟨⟨taken.shape, taken.effect, by simp [taken.meant]⟩, fun _ _ => taken.linked⟩
  · rename_i request at_
    cases moved
    cases shape with
    | running t m s f =>
      subst at_
      obtain ⟨sent, rfl, valid⟩ := s
      refine ⟨⟨.running t m trivial f, .silent (by simp), ?_⟩, by simp⟩
      simpa using valid
    | _ => cases at_

end

theorem Effect.own {x : Party} (effect : Effect l i x.party p label) (c : Linked l i x y)
    (served : ∀ r, label = .serve r → ∃ q, x.accepted = r :: q ∧
      Channel l (l.pid i.peer) p.greeted p.informed q y.sentPid y.announced y.talks) :
    Linked l i (x.fire p label) y := by
  cases effect with
  | silent same | sendPid same | sendInitInfo same | sendRequest same =>
    simp only [Linked, End.fire, same.1, same.2.1]
    exact c
  | take =>
    obtain ⟨q, known, taken⟩ := served _ rfl
    simp only [Linked, End.fire, known, List.tail_cons]
    exact taken

theorem Effect.peer {y : Party} (effect : Effect l i x p label) (c : Linked l i.peer y x) :
    Linked l i.peer (y.receive label) p := by
  unfold Linked at c ⊢
  rw [Side.peer_peer] at c ⊢
  cases effect with
  | silent same =>
    obtain ⟨_, _, sent, announced, talks⟩ := same
    rw [sent, announced]
    exact c.talk talks
  | sendPid same =>
    obtain ⟨_, _, ⟨unsent, quiet, silent⟩, sent, announced, talks⟩ := same
    rw [unsent, quiet, silent] at c
    rw [sent, announced, talks]
    exact c.sendPid
  | sendInitInfo same =>
    obtain ⟨_, _, ⟨before, quiet, silent⟩, sent, announced, talks⟩ := same
    rw [before, quiet, silent] at c
    rw [sent, announced, talks]
    exact c.sendInitInfo
  | sendRequest same valid =>
    obtain ⟨_, _, sent, announced, talks⟩ := same
    rw [sent, announced, talks]
    exact c.sendRequest valid
  | take same =>
    obtain ⟨sent, announced, talks⟩ := same
    rw [sent, announced, talks]
    exact c

/-- One move of a process keeps what is known of it and of both connections. -/
theorem Shape.moves {x y : Party} (shape : Shape l i x.party) (other : Shape l i.peer y.party)
    (c : Linked l i x y.party) (back : Linked l i.peer y x.party)
    (moved : x.party.Moves l label e p) (ready : x.Enabled label) :
    Shape l i p ∧ (∀ shown ∈ e, shown.Fits l i) ∧ Linked l i (x.fire p label) y.party ∧
      Linked l i.peer (y.receive label) p := by
  obtain ⟨talksLate, announcedLate, leader, announcedFirst⟩ := other.order
  rw [Launch.isFirst_peer, Bool.not_eq_true'] at leader announcedFirst
  have head : ∀ r, label = .serve r → x.accepted = r :: x.accepted.tail := by
    rintro r rfl
    obtain ⟨q, known⟩ := List.head?_eq_some_iff.mp ready
    rw [known, List.tail_cons]
  have c' : ∀ r, label = .serve r → Channel l (l.pid i.peer) x.party.greeted x.party.informed
      (r :: x.accepted.tail) y.party.sentPid y.party.announced y.party.talks := by
    intro r served
    rw [← head r served]
    exact c
  -- `main` and the handler do not read this socket
  have unread : ∀ turn, x.party.step l none turn = some (p, label, e) → ∀ r, label = .serve r →
      Channel l (l.pid i.peer) p.greeted p.informed x.accepted.tail y.party.sentPid
        y.party.announced y.party.talks := by
    rintro turn moved r rfl
    have enabled : End.Enabled ⟨x.party, [], []⟩ (Label.serve r) := Program.step_enabled moved
    cases enabled
  obtain ⟨record, turn, moved⟩ := moved
  have kept : Kept l i x.party p label e ∧ ∀ r, label = .serve r →
      Channel l (l.pid i.peer) p.greeted p.informed x.accepted.tail y.party.sentPid
        y.party.announced y.party.talks := by
    cases turn with
    | main whichPage => exact ⟨shape.mainStep moved, unread (.main whichPage) moved⟩
    | handshake pid =>
      exact shape.handshakeStep c' (fun h => h.elim announcedLate talksLate) moved
    | receive len => exact shape.receiveStep c' announcedFirst moved
    | handler offset => exact ⟨shape.handlerStep moved, unread (.handler offset) moved⟩
    | server request => exact shape.serverStep c' leader moved
  obtain ⟨⟨shape', effect, shown⟩, taken⟩ := kept
  exact ⟨shape', shown, effect.own c fun r served => ⟨_, head r served, taken r served⟩,
    effect.peer back⟩

end CSE306.S2DSM.Startup
