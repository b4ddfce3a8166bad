import CSE306.S2DSM.Execution
import CSE306.S2DSM.Wire

/-! What a process keeps about one page is a replica. Each step of the process is
a move of the replica of the page it works on and leaves the others alone. -/
namespace CSE306.S2DSM
open Transition Transition.Duplex Replica

variable {n pageSize : Nat}

def MsgRequest.about (p : Fin n) : MsgRequest n → Option Kind
  | .fetch q => if q = p then some .fetch else none
  | .invalidate q => if q = p then some .invalidate else none

def Reply.whichPage : Reply n pageSize → Fin n
  | .absent q | .present q | .content q _ => q

def Reply.about (p : Fin n) : Reply n pageSize → Option (Answer (Page pageSize))
  | .absent q => if q = p then some .absent else none
  | .present q => if q = p then some .present else none
  | .content q c => if q = p then some (.content c) else none

def Event.about (p : Fin n) : Event n pageSize → Option (Note (Page pageSize))
  | .command _ => none
  | .wrote q typed => if q = p then some (.wrote (stored pageSize typed)) else none
  | .read q c => if q = p then some (.read c) else none

abbrev About (p : Fin n) (l : Label (MsgRequest n) (Reply n pageSize)) :
    Label Kind (Answer (Page pageSize)) := l.filter (MsgRequest.about p) (Reply.about p)

namespace Process

def view (p : Fin n) (x : Process n pageSize) : Replica (Page pageSize) where
  msi := x.msiArray p
  content := x.mapping p
  client := match x.main with
    | .access stage q _ => if q = p then some (stage.map (stored pageSize)) else none
    | _ => none
  resolver := match x.handler with
    | .resolving stage q => if q = p then some (stage, x.pageBuffer) else none
    | .poll => none
  server := match x.server with
    | .serving stage q => if q = p then some stage else none
    | .receive => none

/-- A reply is read by a handler that asked for it. -/
def Answered (x : Process n pageSize) (l : Label (MsgRequest n) (Reply n pageSize)) : Prop :=
  ∀ r, l = .consume r → ∃ stage, x.handler = .resolving stage r.whichPage

/-- What one step of the process is for the page `p`. -/
def Viewed (p : Fin n) (x : Process n pageSize) (l : Label (MsgRequest n) (Reply n pageSize))
    (e : Option (Event n pageSize)) (y : Process n pageSize) : Prop :=
  Move (.zero pageSize) (x.view p) (About p l) (e.bind (Event.about p)) (y.view p) ∨
    y.view p = x.view p ∧ About p l = .silent ∧ e.bind (Event.about p) = none

theorem mainStep_view {x y : Process n pageSize} (moved : x.mainStep = some (y, l, e)) (p : Fin n) :
    Viewed p x l e y := by
  have move := mainStep_move moved
  obtain ⟨msiArray, mapping, main, handler, pageBuffer, server⟩ := x
  by_cases visited : p ∈ main.visits.head?
  · obtain ⟨rest, visits⟩ := List.head?_eq_some_iff.mp visited
    cases move with
    | finish here =>
      cases here
      cases visits
    | @enter op _ _ here =>
      cases here
      cases visits
      left
      have entry : op.entry.Entry := by cases op <;> trivial
      simp only [view, if_true]
      exact .begin _ rfl ((Stage.entry_map _ _).mpr entry)
    | load here present =>
      cases here
      cases visits
      left
      simp only [view, About, Label.filter, Event.about, if_true, Option.bind, Stage.map]
      exact .load _ rfl present
    | peek here present =>
      cases here
      cases visits
      left
      simp only [view, About, Label.filter, if_true, Option.bind, Stage.map]
      exact .peek _ rfl present
    | print here present =>
      cases here
      cases visits
      left
      simp only [view, About, Label.filter, Event.about, if_true, Option.bind, Stage.map]
      exact .print _ rfl present
    | store here present =>
      cases here
      cases visits
      left
      simp only [view, About, Label.filter, Event.about, if_true, Option.bind, Stage.map, setPage,
        Function.update_self]
      exact .store _ rfl present
    | mark here =>
      cases here
      cases visits
      left
      simp only [view, About, Label.filter, if_true, Option.bind, Stage.map, setMsi,
        Function.update_self]
      exact .mark _ rfl
    | echo here present =>
      cases here
      cases visits
      left
      simp only [view, About, Label.filter, if_true, Option.bind, Stage.map]
      exact .echo _ rfl present
    | notify here =>
      cases here
      cases visits
      left
      simp only [view, About, Label.filter, MsgRequest.about, if_true, Option.elim, Option.bind,
        Stage.map]
      exact .notify _ rfl
  · right
    cases move with
    | finish here =>
      cases here
      exact ⟨rfl, rfl, rfl⟩
    | enter here | load here | peek here | print here | store here | mark here | echo here
    | notify here =>
      cases here
      simp only [Main.visits, List.head?_cons, Option.mem_some] at visited
      simp [view, visited, Label.filter, Event.about, MsgRequest.about, setPage, setMsi,
        Function.update_of_ne (Ne.symm visited)]

theorem Faults.waited {x : Process n pageSize} (faults : x.Faults p) : (x.view p).Waited := by
  obtain ⟨msiArray, mapping, main, handler, pageBuffer, server⟩ := x
  obtain ⟨_, client | serving⟩ := faults
  · cases main with
    | prompt | loop => exact client.elim
    | access stage q rest =>
      obtain ⟨rfl, touches⟩ := client
      exact .inl ⟨_, by simp [view], (Stage.touches_map (stored pageSize) stage).mpr touches⟩
  · cases server with
    | receive => exact serving.elim
    | serving stage q => cases stage <;> simp_all [Waited, view]

theorem faultStep_view {x y : Process n pageSize} (moved : x.faultStep q = some (y, l, e))
    (p : Fin n) : Viewed p x l e y := by
  simp only [faultStep] at moved
  split at moved
  · rename_i polling
    split at moved
    · rename_i faults
      cases moved
      by_cases same : q = p
      · subst same
        left
        have idle : (x.view q).resolver = none := by simp [view, polling]
        simpa [view, Label.filter] using Move.fault (x.view q) idle faults.1 faults.waited
      · right
        simp [view, same, Label.filter, polling]
    · cases moved
  · cases moved

theorem faultHandlerThread_view {x y : Process n pageSize}
    (moved : x.faultHandlerThread reply = some (y, l, e)) (answered : x.Answered l) (p : Fin n) :
    Viewed p x l e y := by
  obtain ⟨msiArray, mapping, main, handler, pageBuffer, server⟩ := x
  cases handler with
  | poll => cases moved
  | resolving stage q =>
    by_cases same : q = p
    · subst same
      left
      cases stage with
      | test =>
        cases moved
        by_cases invalid : msiArray q = .invalid
        · simp only [view, Label.filter, Option.bind, invalid, if_true]
          exact .miss _ rfl rfl
        · simp only [view, Label.filter, Option.bind, if_neg invalid, if_true]
          exact .hit _ rfl invalid
      | request =>
        cases moved
        simp only [view, Label.filter, MsgRequest.about, Option.bind, Option.elim, if_true]
        exact .request _ rfl
      | response =>
        rcases reply with _ | r | r | ⟨r, c⟩
        · cases moved
        · cases moved
          obtain ⟨_, ⟨⟩⟩ := answered _ rfl
          simp only [view, Label.filter, Reply.about, Reply.whichPage, Option.bind, Option.elim,
            if_true]
          exact .absent _ rfl
        · cases moved
          obtain ⟨_, ⟨⟩⟩ := answered _ rfl
          simp only [view, Label.filter, Reply.about, Reply.whichPage, Option.bind, Option.elim,
            if_true]
          exact .present _ rfl
        · cases moved
      | page =>
        rcases reply with _ | r | r | ⟨r, c⟩
        · cases moved
        · cases moved
        · cases moved
        · cases moved
          obtain ⟨_, ⟨⟩⟩ := answered _ rfl
          simp only [view, Label.filter, Reply.about, Reply.whichPage, Option.bind, Option.elim,
            if_true]
          exact .page _ rfl
      | share =>
        cases moved
        simp only [view, Label.filter, Option.bind, if_true, setMsi, Function.update_self]
        exact .share _ rfl
      | install =>
        simp only [faultHandlerThread] at moved
        split at moved
        · cases moved
          simp only [view, Label.filter, Option.bind, if_true, setPage, Function.update_self]
          exact .install _ rfl
        · cases moved
    · right
      have apart : ∀ {r : Reply n pageSize}, l = .consume r → r.about p = none := by
        intro r consumed
        obtain ⟨_, same⟩ := answered r consumed
        cases same
        cases r <;> exact if_neg ‹_›
      cases stage with
      | test | request | share =>
        cases moved
        simp [view, same, Label.filter, MsgRequest.about, setMsi,
          Function.update_of_ne (Ne.symm same)]
      | response | page =>
        rcases reply with _ | r | r | ⟨r, c⟩ <;> cases moved <;>
          exact ⟨by simp [view, same], by simp [Label.filter, apart rfl], rfl⟩
      | install =>
        simp only [faultHandlerThread] at moved
        split at moved
        · cases moved
          simp [view, same, Label.filter, setPage, Function.update_of_ne (Ne.symm same)]
        · cases moved

theorem serverThread_view {x y : Process n pageSize}
    (moved : x.serverThread request = some (y, l, e)) (p : Fin n) : Viewed p x l e y := by
  obtain ⟨msiArray, mapping, main, handler, pageBuffer, server⟩ := x
  cases server with
  | receive =>
    rcases request with _ | ⟨q⟩ | ⟨q⟩
    · cases moved
    · cases moved
      by_cases same : q = p
      · subst same
        left
        simp only [view, Label.filter, MsgRequest.about, Option.bind, Option.elim, if_true]
        exact .serveFetch _ rfl
      · exact .inr (by simp [view, same, Label.filter, MsgRequest.about])
    · cases moved
      by_cases same : q = p
      · subst same
        left
        simp only [view, Label.filter, MsgRequest.about, Option.bind, Option.elim, if_true]
        exact .serveInvalidate _ rfl
      · exact .inr (by simp [view, same, Label.filter, MsgRequest.about])
  | serving stage q =>
    by_cases same : q = p
    · subst same
      left
      cases stage with
      | test =>
        cases moved
        by_cases invalid : msiArray q = .invalid
        · simp only [view, Label.filter, Option.bind, invalid, if_true]
          exact .refuse _ rfl rfl
        · simp only [view, Label.filter, Option.bind, if_neg invalid, if_true]
          exact .accept _ rfl invalid
      | deny =>
        cases moved
        simp only [view, Label.filter, Reply.about, Option.bind, Option.elim, if_true]
        exact .deny _ rfl
      | grant =>
        cases moved
        simp only [view, Label.filter, Reply.about, Option.bind, Option.elim, if_true]
        exact .grant _ rfl
      | copy =>
        simp only [serverThread, Option.map_eq_some_iff, Prod.mk.injEq] at moved
        obtain ⟨c, present, rfl, rfl, rfl⟩ := moved
        simp only [view, Label.filter, Reply.about, Option.bind, Option.elim, if_true]
        exact .copy _ rfl present
      | share =>
        cases moved
        simp only [view, Label.filter, Option.bind, if_true, setMsi, Function.update_self]
        exact .settle _ rfl
      | drop =>
        cases moved
        simp only [view, Label.filter, Option.bind, if_true, setPage, Function.update_self]
        exact .drop _ rfl
      | invalidate =>
        cases moved
        simp only [view, Label.filter, Option.bind, if_true, setMsi, Function.update_self]
        exact .invalidate _ rfl
    · right
      cases stage with
      | copy =>
        simp only [serverThread, Option.map_eq_some_iff, Prod.mk.injEq] at moved
        obtain ⟨c, present, rfl, rfl, rfl⟩ := moved
        simp [view, same, Label.filter, Reply.about]
      | test | deny | grant | share | drop | invalidate =>
        cases moved
        simp [view, same, Label.filter, Reply.about, setMsi, setPage,
          Function.update_of_ne (Ne.symm same)]

theorem step_view {x y : Process n pageSize}
    (moved : x.step request reply turn = some (y, l, e)) (answered : x.Answered l) (p : Fin n) :
    Viewed p x l e y := by
  cases turn with
  | command c =>
    simp only [step] at moved
    split at moved
    · rename_i prompt
      cases moved
      exact .inr ⟨by simp [view, prompt], rfl, rfl⟩
    · cases moved
  | main => exact mainStep_view moved p
  | fault q => exact faultStep_view moved p
  | handler => exact faultHandlerThread_view moved answered p
  | server => exact serverThread_view moved p

/-- The record of the page a reply is for changes no step, so for one process
alone it may be taken to be the page the handler works on. -/
theorem Moves.answered {x y : Process n pageSize} (moved : x.Moves l e y) :
    ∃ l, x.Moves l e y ∧ x.Answered l := by
  obtain ⟨turn, request, reply, moved⟩ := moved
  by_cases reads : ∃ r, l = .consume r
  · obtain ⟨r, rfl⟩ := reads
    cases turn with
    | command c =>
      simp only [step] at moved
      grind
    | main =>
      simp only [step, mainStep] at moved
      grind [Option.map_eq_some_iff]
    | fault q =>
      simp only [step, faultStep] at moved
      grind
    | server =>
      simp only [step, serverThread] at moved
      grind [Option.map_eq_some_iff]
    | handler =>
      simp only [step, faultHandlerThread] at moved
      split at moved
      · cases moved
      · cases moved
      · cases moved
      · rename_i p here
        split at moved
        · cases moved
          exact ⟨.consume (.absent p), ⟨.handler, none, some (.absent p), by
            simp [step, faultHandlerThread, here]⟩, fun _ h => ⟨_, by cases h; exact here⟩⟩
        · cases moved
          exact ⟨.consume (.present p), ⟨.handler, none, some (.present p), by
            simp [step, faultHandlerThread, here]⟩, fun _ h => ⟨_, by cases h; exact here⟩⟩
        · cases moved
      · rename_i p here
        split at moved
        · rename_i q content
          cases moved
          exact ⟨.consume (.content p content), ⟨.handler, none, some (.content p content), by
            simp [step, faultHandlerThread, here]⟩, fun _ h => ⟨_, by cases h; exact here⟩⟩
        · cases moved
      · cases moved
      · split at moved <;> cases moved
  · exact ⟨l, ⟨turn, request, reply, moved⟩, fun r h => (reads ⟨r, h⟩).elim⟩

end Process
end CSE306.S2DSM
