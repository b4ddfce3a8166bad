import CSE306.S2DSM.System

/-! From a quiescent state a read that is entered alone runs to its end, whatever
the two entries and the two mappings say about its page. -/
namespace CSE306.S2DSM
open Transition Transition.Duplex

variable {n pageSize : Nat}

theorem own_turn {a b : Node n pageSize} (turn : Turn n)
    (moved : a.party.step a.accepted.head? a.connect.head? turn = some (x, l, none))
    (tail : Run (System.Step free) (Net.pair i (a.fire x l) (b.receive l)) k t) :
    Run (System.Step free) (Net.pair i a b) k t := by
  have edge : System.Step free (Net.pair i a b) (Option.map (i, ·) none)
      ((Net.pair i a b).post i x l) :=
    .turn i trivial ⟨turn, _, _, by simpa using moved⟩ (by simpa using Process.step_enabled moved)
  rw [Net.post_pair] at edge
  exact .cons edge tail

theorem own_event {a b : Node n pageSize} (turn : Turn n)
    (moved : a.party.step a.accepted.head? a.connect.head? turn = some (x, l, some e))
    (tail : Run (System.Step free) (Net.pair i (a.fire x l) (b.receive l)) k t) :
    Run (System.Step free) (Net.pair i a b) ((i, e) :: k) t := by
  have edge : System.Step free (Net.pair i a b) (Option.map (i, ·) (some e))
      ((Net.pair i a b).post i x l) :=
    .turn i trivial ⟨turn, _, _, by simpa using moved⟩ (by simpa using Process.step_enabled moved)
  rw [Net.post_pair] at edge
  exact .cons edge tail

theorem peer_turn {a b : Node n pageSize} (turn : Turn n)
    (moved : b.party.step b.accepted.head? b.connect.head? turn = some (x, l, none))
    (tail : Run (System.Step free) (Net.pair i (a.receive l) (b.fire x l)) k t) :
    Run (System.Step free) (Net.pair i a b) k t := by
  have edge : System.Step free (Net.pair i a b) (Option.map (i.peer, ·) none)
      ((Net.pair i a b).post i.peer x l) :=
    .turn i.peer trivial ⟨turn, _, _, by simpa using moved⟩
      (by simpa using Process.step_enabled moved)
  rw [Net.post_pair_peer] at edge
  exact .cons edge tail

/-- A process between two pieces of work, with nothing to read. -/
abbrev Node.idle (msiArray : Fin n → Msi) (mapping : Fin n → Option (Page pageSize))
    (pageBuffer : Page pageSize) : Node n pageSize :=
  ⟨⟨msiArray, mapping, .prompt, .poll, pageBuffer, .receive⟩, [], []⟩

/-- A process reading page `p`, with its handler and the answers it has not read. -/
abbrev Node.reading (msiArray : Fin n → Msi) (mapping : Fin n → Option (Page pageSize))
    (pageBuffer : Page pageSize) (handler : Handler n) (p : Fin n)
    (connect : List (Reply n pageSize)) : Node n pageSize :=
  ⟨⟨msiArray, mapping, .access (.load false) p [], handler, pageBuffer, .receive⟩, [], connect⟩

/-- A process whose server is answering an 'F' for page `p`, with its handler. -/
abbrev Node.serving (msiArray : Fin n → Msi) (mapping : Fin n → Option (Page pageSize))
    (pageBuffer : Page pageSize) (handler : Handler n) (stage : Serve) (p : Fin n) :
    Node n pageSize :=
  ⟨⟨msiArray, mapping, .prompt, handler, pageBuffer, .serving stage p⟩, [], []⟩

variable {msiArray : Fin n → Msi} {mapping : Fin n → Option (Page pageSize)}
  {buffer : Page pageSize} {p : Fin n} {i : Side}

theorem Node.load (present : mapping p = some c) :
    (Node.reading msiArray mapping buffer .poll p []).party.step none none .main =
      some (⟨msiArray, mapping, .loop (.read false) [], .poll, buffer, .receive⟩, .silent,
        some (.read p c)) := by
  simp [Process.step, Process.mainStep, present]

theorem Node.finishes (present : mapping p = some c) (b : Node n pageSize) :
    Run (System.Step free) (Net.pair i (Node.reading msiArray mapping buffer .poll p []) b)
      [(i, .read p c)] (Net.pair i (Node.idle msiArray mapping buffer) b) :=
  own_event .main (Node.load present) (own_turn .main rfl .start)

theorem Node.installs (absent : mapping p = none) (b : Node n pageSize) :
    Run (System.Step free) (Net.pair i
        (Node.reading msiArray mapping buffer (.resolving .install p) p []) b)
      [(i, .read p buffer)]
      (Net.pair i (Node.idle msiArray (Function.update mapping p (some buffer)) buffer) b) := by
  refine own_turn .handler (l := .silent)
    (x := ⟨msiArray, Function.update mapping p (some buffer), .access (.load false) p [], .poll,
      buffer, .receive⟩) ?_ (Node.finishes (by simp) b)
  simp [Process.step, Process.faultHandlerThread, Process.setPage, absent]

/-- A read of an absent page faults, and the handler tests its entry. -/
theorem Node.faults (absent : mapping p = none) (b : Node n pageSize)
    (tested : (if msiArray p = .invalid then Resolve.request else .install) = stage)
    (tail : Run (System.Step free) (Net.pair i
      (Node.reading msiArray mapping (.zero pageSize) (.resolving stage p) p []) b) k t) :
    Run (System.Step free) (Net.pair i (Node.reading msiArray mapping buffer .poll p []) b)
      k t := by
  subst tested
  refine own_turn (.fault p) (l := .silent)
    (x := ⟨msiArray, mapping, .access (.load false) p [], .resolving .test p, .zero pageSize,
      .receive⟩) ?_ (own_turn .handler rfl tail)
  simp [Process.step, Process.faultStep, Process.Faults, absent, Stage.Touches]

theorem Node.enters (b : Node n pageSize)
    (tail : Run (System.Step free)
      (Net.pair i (Node.reading msiArray mapping buffer .poll p []) b) k t) :
    Run (System.Step free) (Net.pair i (Node.idle msiArray mapping buffer) b)
      ((i, .command (.read (some p))) :: k) t :=
  own_event (.command (.read (some p))) rfl (own_turn .main rfl tail)

/-- The server at the other side answers, with the page faulted in if it must be. -/
theorem Node.answers (p : Fin n) (i : Side) (a : Node n pageSize) (msiArray : Fin n → Msi)
    (mapping : Fin n → Option (Page pageSize)) (buffer : Page pageSize) :
    ∃ msi mapping' buffer' connect,
    (connect = [.absent p] ∨ ∃ c, connect = [.present p, .content p c]) ∧
    Run (System.Step free)
      (Net.pair i ⟨a.party, [], []⟩ (Node.serving msiArray mapping buffer .poll .test p)) []
      (Net.pair i ⟨a.party, [], connect⟩ (Node.idle msi mapping' buffer')) := by
  by_cases invalid : msiArray p = .invalid
  · refine ⟨Function.update msiArray p .shared, mapping, buffer, _, .inl rfl, ?_⟩
    refine peer_turn .server (l := .silent)
      (x := (Node.serving msiArray mapping buffer .poll .deny p).party) ?_ ?_
    · simp [Process.step, Process.serverThread, invalid]
    · exact peer_turn .server rfl (peer_turn .server rfl .start)
  · cases content : mapping p with
    | some c =>
      refine ⟨Function.update msiArray p .shared, mapping, buffer, _, .inr ⟨c, rfl⟩, ?_⟩
      refine peer_turn .server (l := .silent)
        (x := (Node.serving msiArray mapping buffer .poll .grant p).party) ?_ ?_
      · simp [Process.step, Process.serverThread, invalid]
      · refine peer_turn .server rfl (peer_turn .server (l := .answer (.content p c))
          (x := (Node.serving msiArray mapping buffer .poll .share p).party) ?_
          (peer_turn .server rfl .start))
        simp [Process.step, Process.serverThread, content]
    | none =>
      refine ⟨Function.update msiArray p .shared,
        Function.update mapping p (some (.zero pageSize)), .zero pageSize, _,
        .inr ⟨.zero pageSize, rfl⟩, ?_⟩
      refine peer_turn .server (l := .silent)
        (x := (Node.serving msiArray mapping buffer .poll .grant p).party) ?_ ?_
      · simp [Process.step, Process.serverThread, invalid]
      refine peer_turn .server rfl (peer_turn (.fault p) (l := .silent)
        (x := (Node.serving msiArray mapping (.zero pageSize)
          (.resolving .test p) .copy p).party) ?_ (peer_turn .handler (l := .silent)
        (x := (Node.serving msiArray mapping (.zero pageSize)
          (.resolving .install p) .copy p).party) ?_ ?_))
      · simp [Process.step, Process.faultStep, Process.Faults, content]
      · simp [Process.step, Process.faultHandlerThread, invalid]
      refine peer_turn .handler (l := .silent)
        (x := (Node.serving msiArray (Function.update mapping p (some (.zero pageSize)))
          (.zero pageSize) .poll .copy p).party) ?_ ?_
      · simp [Process.step, Process.faultHandlerThread, Process.setPage, content]
      refine peer_turn .server (l := .answer (.content p (.zero pageSize)))
        (x := (Node.serving msiArray (Function.update mapping p (some (.zero pageSize)))
          (.zero pageSize) .poll .share p).party) ?_ (peer_turn .server rfl .start)
      simp [Process.step, Process.serverThread]

/-- A read of an absent INVALID page fetches it from the other process and ends. -/
theorem Node.fetches (absent : mapping p = none) (i : Side) (msiArray : Fin n → Msi)
    (buffer : Page pageSize) (msiArray' : Fin n → Msi) (mapping' : Fin n → Option (Page pageSize))
    (buffer' : Page pageSize) :
    ∃ c msi mapping'' buffer'', Run (System.Step free)
      (Net.pair i (Node.reading msiArray mapping buffer (.resolving .request p) p [])
        (Node.idle msiArray' mapping' buffer')) [(i, .read p c)]
      (Net.pair i (Node.idle (Function.update msiArray p .shared)
        (Function.update mapping p (some c)) c) (Node.idle msi mapping'' buffer'')) := by
  obtain ⟨msi, mapping'', buffer'', connect, answer, served⟩ := Node.answers p i
    (Node.reading msiArray mapping buffer (.resolving .response p) p []) msiArray' mapping' buffer'
  rcases answer with rfl | ⟨c, rfl⟩
  · refine ⟨buffer, msi, mapping'', buffer'', own_turn .handler rfl (peer_turn .server rfl ?_)⟩
    refine served.trans (own_turn .handler rfl (own_turn .handler rfl ?_))
    exact Node.installs absent _
  · refine ⟨c, msi, mapping'', buffer'', own_turn .handler rfl (peer_turn .server rfl ?_)⟩
    refine served.trans (own_turn .handler rfl (own_turn .handler rfl (own_turn .handler rfl ?_)))
    exact Node.installs absent _

theorem System.Quiescent.idle {s : System n pageSize} (quiet : s.Quiescent) (i : Side) :
    ∃ msiArray mapping buffer, s i = Node.idle msiArray mapping buffer := by
  obtain ⟨⟨main, handler, server⟩, accepted, connect⟩ := quiet i
  generalize s i = x at *
  obtain ⟨⟨msiArray, mapping, _, _, buffer, _⟩, _, _⟩ := x
  simp only at main handler server accepted connect
  subst main handler server accepted connect
  exact ⟨msiArray, mapping, buffer, rfl⟩

theorem idle_quiescent {i : Side} {m m' : Fin n → Msi}
    {mapping mapping' : Fin n → Option (Page pageSize)} {b b' : Page pageSize} :
    System.Quiescent (Net.pair i (Node.idle m mapping b) (Node.idle m' mapping' b')) := by
  intro j
  rcases Side.eq_or_peer i j with rfl | rfl <;> simp [Process.Idle]

/-- A read entered alone in a quiescent state ends, and the state is quiescent again. -/
theorem read_completes {s : System n pageSize} (quiet : s.Quiescent) (i : Side) (p : Fin n) :
    ∃ c t, Run (System.Step free) s [(i, .command (.read (some p))), (i, .read p c)] t ∧
      t.Quiescent := by
  obtain ⟨msiArray, mapping, buffer, own⟩ := quiet.idle i
  obtain ⟨msiArray', mapping', buffer', other⟩ := quiet.idle i.peer
  rw [← Net.pair_eta s i, own, other]
  cases content : mapping p with
  | some c =>
    exact ⟨c, _, Node.enters _ (Node.finishes content _), idle_quiescent⟩
  | none =>
    by_cases invalid : msiArray p = .invalid
    · obtain ⟨c, _, _, _, fetched⟩ :=
        Node.fetches content i msiArray (.zero pageSize) msiArray' mapping' buffer'
      exact ⟨c, _, Node.enters _ (Node.faults content _ (if_pos invalid) fetched), idle_quiescent⟩
    · exact ⟨.zero pageSize, _, Node.enters _ (Node.faults content _ (if_neg invalid)
        (Node.installs content _)), idle_quiescent⟩

end CSE306.S2DSM
