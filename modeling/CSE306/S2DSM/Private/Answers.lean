import CSE306.S2DSM.Private

/-! What the process answers: its memory holds the strings that its commands have left, and it
prints what they say. -/
namespace CSE306.S2DSM
open Transition

variable {n pageSize : Nat}

namespace Private

/-- What the command that runs has still to print, and what the pages say after it. -/
inductive Owes (mapping : Fin n → Option (Page pageSize)) (s : Strings n) :
    Main → Strings n × List (Fin n × List UInt8) → Prop where
  | prompt : Owes mapping s .prompt (s, [])
  | loop (op : Op) : cursor.Covers pages →
      Owes mapping s (.loop op cursor) (s.perform pageSize op pages)
  | access (op : Op) (p : Fin n) : cursor.Covers rest →
      Owes mapping s (.access op (index p) cursor) (s.perform pageSize op (p :: rest))
  | print (op : Op) (p : Fin n) : cursor.Covers rest → mapping p ≠ none →
      Owes mapping s (.print op (index p) cursor)
        ((s.perform pageSize op rest).1, (p, s p) :: (s.perform pageSize op rest).2)

/-- The pages that are resident. -/
def resident (mapping : Fin n → Option (Page pageSize)) : Finset (Fin n) :=
  Finset.univ.filter fun p => mapping p ≠ none

/-- The memory of the process holds these strings, after these commands. -/
structure Follows (outside : AddressSpace) (cs : List (Command n)) (h : List Event)
    (x : Private n pageSize) (mapping : Fin n → Option (Page pageSize)) (s : Strings n)
    (out : List (Fin n × List UInt8)) (owed : Strings n × List (Fin n × List UInt8)) : Prop where
  fits : x.layout.Fits
  memory : x.memory = x.layout.space outside mapping
  terminated : Terminated mapping
  texts : ∀ p, s p = ((mapping p).map (cstring ·.bytes)).getD []
  commands : h.filterMap Event.command? = cs.map Command.raw
  printed : h.filterMap Event.printed? = out.map (Prod.map index id)
  owes : Owes mapping s x.main owed
  performed : Strings.performAll pageSize (fun _ => []) cs = (owed.1, out ++ owed.2)
  resolves : ∀ address ∈ x.resolving, x.Faults address
  faults : pageFaults h = (resident mapping).card + x.resolving.toList.length
  shown : ∀ r ∈ out, mapping r.1 ≠ none
  wanted : ∀ p, mapping p ≠ none → p ∈ cs.flatMap Command.pages

namespace Follows
variable {outside : AddressSpace} {cs : List (Command n)} {h : List Event} {x : Private n pageSize}
  {mapping : Fin n → Option (Page pageSize)} {s : Strings n}
  {out : List (Fin n × List UInt8)} {owed : Strings n × List (Fin n × List UInt8)}

theorem owed_mem (follows : Follows outside cs h x mapping s out owed) (mem : r ∈ owed.2) :
    r.1 ∈ cs.flatMap Command.pages := by
  rw [← Strings.performAll_pages pageSize (fun _ => []) cs, follows.performed,
    List.map_append]
  exact List.mem_append_right _ (List.mem_map_of_mem mem)

theorem text (follows : Follows outside cs h x mapping s out owed)
    (present : mapping p = some content) : s p = cstring content.bytes := by
  rw [follows.texts, present]
  rfl

theorem resident_update (mapping : Fin n → Option (Page pageSize)) (p : Fin n)
    (content : Page pageSize) :
    resident (Function.update mapping p (some content)) = insert p (resident mapping) := by
  ext q
  simp only [resident, Finset.mem_filter, Finset.mem_univ, true_and, Finset.mem_insert,
    Function.update_apply]
  by_cases same : q = p <;> simp [same]

theorem mem_resident : p ∈ resident mapping ↔ mapping p ≠ none := by simp [resident]

theorem faulted (follows : Follows outside cs h x mapping s out owed)
    (stopped : x.Faults address) : ∃ held : x.layout.Holds address,
      mapping (x.layout.page address held) = none ∧
        x.main.touches = some (index (x.layout.page address held)) ∧
        x.layout.page address held ∈ cs.flatMap Command.pages := by
  obtain ⟨held, missing, i, touches, inside⟩ := stopped
  have owes := follows.owes
  have mem : ∀ r ∈ owed.2, r.1 ∈ cs.flatMap Command.pages := fun r => follows.owed_mem
  have within (p : Fin n) : AddressSpace.Within (x.layout.addressLoc (index p)) pageSize address →
      x.layout.page address held = p :=
    fun inside => (Mapping.within_iff follows.fits held p).mp (x.sized.symm ▸ inside)
  refine ⟨held, ?_, ?_⟩
  · by_contra present
    obtain ⟨content, present⟩ := Option.ne_none_iff_exists'.mp present
    rw [follows.memory, Mapping.space, dif_pos held, present, Option.bind_some,
      List.getElem?_eq_none_iff, content.size] at missing
    have positive : 0 < pageSize := x.sized ▸ x.layout.pageSize_bounds.1
    exact Nat.not_lt.mpr missing (Nat.mod_lt _ positive)
  · generalize x.main = main at owes touches
    cases owes with
    | prompt => cases touches
    | loop => cases touches
    | access _ p _ =>
      cases touches
      rw [within p inside]
      exact ⟨rfl, mem _ List.mem_cons_self⟩
    | print _ p _ _ =>
      cases touches
      rw [within p inside]
      exact ⟨rfl, mem _ List.mem_cons_self⟩

theorem running (follows : Follows outside cs h x mapping s out owed)
    (able : ∀ p, x.main.touches = some (index p) → mapping p ≠ none) : x.resolving = none := by
  rw [Option.eq_none_iff_forall_not_mem]
  intro address mem
  obtain ⟨_, absent, touches, _⟩ := follows.faulted (follows.resolves address mem)
  exact able _ touches absent

theorem idle (follows : Follows outside cs h x mapping s out owed)
    (idle : x.main.touches = none) : x.resolving = none := by
  refine follows.running fun p touches => ?_
  rw [idle] at touches
  cases touches

theorem resting (follows : Follows outside cs h x mapping s out owed)
    (touches : x.main.touches = some (index p)) (present : mapping p = some content) :
    x.resolving = none := by
  refine follows.running fun q same => ?_
  obtain rfl : p = q := x.layout.index_inj (Option.some.inj (touches.symm.trans same))
  exact present.trans_ne (Option.some_ne_none _)

theorem command (follows : Follows outside cs h x mapping s out owed)
    (moved : x.step (.command c') = some (y, e)) : ∃ cs owed,
      Follows outside cs (h ++ e.toList) y mapping s out owed := by
  obtain ⟨fits, memory, terminated, texts, commands, printed, owes, performed, resolves, faults,
    shown, wanted⟩ := follows
  simp only [step] at moved
  split at moved
  · rename_i here
    split at moved
    · cases moved
    · rename_i accepted
      cases moved
      obtain ⟨c, rfl⟩ := Command.exists_raw x.layout accepted
      rw [here] at owes
      cases owes
      refine ⟨cs ++ [c], s.perform pageSize c.op c.pages, fits, memory, terminated, texts, ?_, ?_,
        ?_, ?_, ?_, ?_, shown, ?_⟩
      · simp [commands, Event.command?]
      · simp [printed, Event.printed?]
      · rw [Command.raw_op x.layout, Command.raw_whichPage]
        exact .loop _ (Command.covers x.layout c)
      · rw [Strings.performAll_concat, performed, List.append_nil]
      · intro address mem
        obtain ⟨_, _, _, touches, _⟩ := resolves address mem
        rw [here] at touches
        cases touches
      · simpa [pageFaults] using faults
      · intro p present
        rw [List.flatMap_append]
        exact List.mem_append_left _ (wanted p present)
  · cases moved

theorem fault (follows : Follows outside cs h x mapping s out owed)
    (moved : x.step (.fault address) = some (y, e)) :
    Follows outside cs (h ++ e.toList) y mapping s out owed := by
  simp only [step] at moved
  split at moved
  · rename_i stopped
    obtain ⟨polling, stopped⟩ := stopped
    cases moved
    obtain ⟨fits, memory, terminated, texts, commands, printed, owes, performed, _, faults,
      shown, wanted⟩ := follows
    refine ⟨fits, memory, terminated, texts, ?_, ?_, owes, performed, ?_, ?_, shown, wanted⟩
    · exact (List.filterMap_append).trans ((List.append_nil _).trans commands)
    · exact (List.filterMap_append).trans ((List.append_nil _).trans printed)
    · rintro _ ⟨⟩
      exact stopped
    · rw [polling] at faults
      simpa [pageFaults] using faults
  · cases moved

theorem handler_eq (follows : Follows outside cs h x mapping s out owed)
    (resolving : x.resolving = some address) (held : x.layout.Holds address) :
    x.faultHandlerThread = some ({ x with
      memory := x.memory.copy (x.layout.addressLoc (index (x.layout.page address held)))
        (Page.zero pageSize).bytes
      resolving := none }, none) := by
  obtain ⟨_, absent, _⟩ := follows.faulted (follows.resolves address resolving)
  have missing : x.memory (x.layout.addressLoc (index (x.layout.page address held))) = none :=
    follows.memory ▸ Mapping.space_absent x.sized follows.fits absent
  rw [faultHandlerThread, resolving, Option.bind_some]
  simp only [Mapping.copyDst_eq follows.fits held]
  exact if_pos ⟨Mapping.holds_addressLoc follows.fits _, missing⟩

/-- The cleared page that is installed says nothing. -/
theorem handler (follows : Follows outside cs h x mapping s out owed)
    (resolving : x.resolving = some address) (held : x.layout.Holds address) :
    Follows outside cs (h ++ (none : Option Event).toList)
      { x with
        memory := x.memory.copy (x.layout.addressLoc (index (x.layout.page address held)))
          (Page.zero pageSize).bytes
        resolving := none }
      (Function.update mapping (x.layout.page address held) (some (.zero pageSize))) s out
      owed := by
  obtain ⟨_, absent, _, known⟩ := follows.faulted (follows.resolves address resolving)
  obtain ⟨fits, memory, terminated, texts, commands, printed, owes, performed, _, faults,
    shown, wanted⟩ := follows
  have positive : 0 < pageSize := x.sized ▸ x.layout.pageSize_bounds.1
  have update (q : Fin n) := Function.update_apply mapping (x.layout.page address held)
    (some (Page.zero pageSize)) q
  refine ⟨fits, ?_, fun p c present => ?_, fun p => ?_, by simpa using commands,
    by simpa using printed, ?_, performed, forall_mem_of_eq_none rfl, ?_, fun r mem => ?_,
    fun p present => ?_⟩
  · rw [Mapping.space_copy x.sized fits, memory]
  · rw [update] at present
    split at present
    · cases present
      exact List.mem_of_getElem? (zero_last pageSize positive)
    · exact terminated p c present
  · rw [texts, update]
    split
    · rename_i same
      rw [same, absent, Option.map_some, Option.getD_some, cstring_zero]
      rfl
    · rfl
  · generalize x.main = main at owes
    cases owes with
    | prompt => exact .prompt
    | loop op covers => exact .loop op covers
    | access op p covers => exact .access op p covers
    | print op p covers present =>
      refine .print op p covers ?_
      rw [update]
      split
      · exact Option.some_ne_none _
      · exact present
  · rw [resident_update, Finset.card_insert_of_notMem (by simpa [mem_resident] using absent)]
    rw [resolving] at faults
    simpa using faults
  · rw [update]
    split
    · exact Option.some_ne_none _
    · exact shown r mem
  · rw [update] at present
    split at present
    · rename_i same
      rw [same]
      exact known
    · exact wanted p present

theorem print {stage : Main}
    (follows : Follows outside cs h x mapping s out (after, (p, line) :: rest))
    (quiet : x.resolving = none) (present : mapping p ≠ none)
    (owes : Owes mapping s stage (after, rest)) :
    Follows outside cs (h ++ [.printed (index p) line]) { x with main := stage } mapping s
      (out ++ [(p, line)]) (after, rest) := by
  obtain ⟨fits, memory, terminated, texts, commands, printed, _, performed, _, faults,
    shown, wanted⟩ := follows
  refine ⟨fits, memory, terminated, texts, ?_, ?_, owes, ?_, forall_mem_of_eq_none quiet, ?_,
    ?_, wanted⟩
  · exact (List.filterMap_append).trans ((List.append_nil _).trans commands)
  · rw [List.filterMap_append, printed, List.map_append]
    rfl
  · rw [performed, List.append_assoc]
    rfl
  · simpa [pageFaults] using faults
  · intro r mem
    rcases List.mem_append.mp mem with old | new
    · exact shown r old
    · rw [List.mem_singleton.mp new]
      exact present

theorem silent {stage : Main} (follows : Follows outside cs h x mapping s out owed)
    (quiet : x.resolving = none) (owes : Owes mapping s stage owed) :
    Follows outside cs (h ++ (none : Option Event).toList) { x with main := stage } mapping s out
      owed := by
  rw [Option.toList_none, List.append_nil]
  exact { follows with owes := owes, resolves := forall_mem_of_eq_none quiet }

theorem write (follows : Follows outside cs h x mapping s out owed)
    (quiet : x.resolving = none) (present : mapping p = some content) (typed : List UInt8)
    (covers : cursor.Covers rest)
    (owed_eq : owed = s.perform pageSize (.write typed) (p :: rest))
    (short : (copied pageSize typed).length ≤ pageSize) :
    Follows outside cs (h ++ (none : Option Event).toList)
      { x with
        memory := x.memory.copy (x.layout.addressLoc (index p)) (copied pageSize typed)
        main := .print (.write typed) (index p) cursor }
      (Function.update mapping p (some (content.overwrite (copied pageSize typed) short)))
      (Function.update s p (message pageSize typed)) out owed := by
  obtain ⟨fits, memory, terminated, texts, commands, printed, _, performed, _, faults,
    shown, wanted⟩ := follows
  obtain ⟨ends, string⟩ := cstring_overwrite content typed short
  have update (q : Fin n) := Function.update_apply mapping p
    (some (content.overwrite (copied pageSize typed) short)) q
  refine ⟨fits, memory ▸ (Mapping.space_overwrite outside x.sized fits present short).symm, ?_, ?_,
    by simpa using commands, by simpa using printed, ?_, performed,
    forall_mem_of_eq_none quiet, ?_, ?_, ?_⟩
  · intro q c held
    rw [update] at held
    split at held
    · cases held
      exact ends
    · exact terminated q c held
  · intro q
    rw [update, Function.update_apply]
    split
    · rw [Option.map_some, Option.getD_some, string]
    · exact texts q
  · subst owed_eq
    rw [Strings.perform]
    exact .print _ p covers (by rw [Function.update_self]; exact Option.some_ne_none _)
  · rw [Option.toList_none, List.append_nil, resident_update,
      Finset.insert_eq_of_mem (mem_resident.mpr (present.trans_ne (Option.some_ne_none _)))]
    exact faults
  · intro r mem
    rw [update]
    split
    · exact Option.some_ne_none _
    · exact shown r mem
  · intro q held
    rw [update] at held
    split at held
    · rename_i same
      subst same
      exact wanted q (present.trans_ne (Option.some_ne_none _))
    · exact wanted q held

theorem short (x : Private n pageSize) : (copied pageSize typed).length ≤ pageSize :=
  copied_short (x.sized ▸ x.layout.pageSize_bounds.1) typed

theorem read_eq (follows : Follows outside cs h x mapping s out owed)
    (here : x.main = .access (.read again) (index p) cursor) (present : mapping p = some content) :
    x.mainStep =
      some ({ x with main := .loop (.read again) cursor }, some (.printed (index p) (s p))) := by
  have reading : x.memory.strncpy (x.layout.addressLoc (index p)) pageSize = _ :=
    follows.memory ▸ space_strncpy outside x.sized follows.fits p
  rw [present, Option.map_some] at reading
  obtain ⟨ends, string⟩ := cstring_padded (follows.terminated p content present)
  simp only [Private.mainStep, here, reading, Option.bind_eq_bind, Option.bind_some, if_pos ends,
    string, follows.text present]
  rfl

theorem write_eq (follows : Follows outside cs h x mapping s out owed)
    (here : x.main = .access (.write typed) (index p) cursor)
    (present : mapping p = some content) :
    x.mainStep = some ({ x with
      memory := x.memory.copy (x.layout.addressLoc (index p)) (copied pageSize typed)
      main := .print (.write typed) (index p) cursor }, none) := by
  have positive : 0 < pageSize := x.sized ▸ x.layout.pageSize_bounds.1
  have copying := ((Mapping.space_shows outside x.sized follows.fits present).take
    (copied pageSize typed).length).peek
  rw [← follows.memory, List.length_take_of_le
    ((copied_short positive typed).trans content.size.ge)] at copying
  simp only [Private.mainStep, here, copying, Option.bind_eq_bind, Option.bind_some]
  rfl

theorem print_eq (follows : Follows outside cs h x mapping s out owed)
    (here : x.main = .print op (index p) cursor) (present : mapping p = some content) :
    x.mainStep =
      some ({ x with main := .loop op cursor }, some (.printed (index p) (s p))) := by
  have printing := space_stringAt outside x.sized follows.fits follows.terminated p
  rw [← follows.memory, present, Option.map_some, ← follows.text present] at printing
  rw [Private.mainStep, here]
  simp only [printing, Option.map_some]

theorem stopped (follows : Follows outside cs h x mapping s out owed)
    (touches : x.main.touches = some (index p)) (absent : mapping p = none) :
    x.mainStep = none := by
  have missing : x.memory (x.layout.addressLoc (index p)) = none :=
    follows.memory ▸ Mapping.space_absent x.sized follows.fits absent
  have positive : 0 < pageSize := x.sized ▸ x.layout.pageSize_bounds.1
  obtain ⟨_, string, buffer⟩ := AddressSpace.absent missing positive
  unfold Private.mainStep
  split
  · rfl
  · rename_i here
    rw [here] at touches
    cases touches
  · rename_i here
    rw [here] at touches
    cases touches
    rw [buffer]
    rfl
  · rename_i typed _ _ here
    rw [here] at touches
    cases touches
    have some_ : 0 < (copied pageSize typed).length := by simp [copied]
    simp only [(AddressSpace.absent missing some_).1]
    rfl
  · rename_i here
    rw [here] at touches
    cases touches
    rw [string]
    rfl

theorem mainStep (follows : Follows outside cs h x mapping s out owed)
    (moved : x.mainStep = some (y, e)) : ∃ mapping s out owed,
      Follows outside cs (h ++ e.toList) y mapping s out owed := by
  have owes := follows.owes
  generalize here : x.main = main at owes
  cases owes with
  | prompt =>
    rw [Private.mainStep, here] at moved
    cases moved
  | loop op covers =>
    have quiet := follows.idle (by rw [here]; rfl)
    rcases covers.next x.layout with ⟨rfl, last⟩ | ⟨p, rest, rest', rfl, next, covers⟩
    · simp only [Private.mainStep, here, last] at moved
      cases moved
      exact ⟨_, _, _, _, follows.silent quiet .prompt⟩
    · simp only [Private.mainStep, here, next] at moved
      cases moved
      exact ⟨_, _, _, _, follows.silent quiet (.access op p covers)⟩
  | access op p covers =>
    cases present : mapping p with
    | none =>
      rw [follows.stopped (by rw [here]; rfl) present] at moved
      cases moved
    | some content =>
      have quiet := follows.resting (by rw [here]; rfl) present
      cases op with
      | read again =>
        rw [follows.read_eq here present] at moved
        cases moved
        exact ⟨_, _, _, _, follows.print quiet (present.trans_ne (Option.some_ne_none _))
          (.loop _ covers)⟩
      | write typed =>
        rw [follows.write_eq here present] at moved
        cases moved
        exact ⟨_, _, _, _, follows.write quiet present typed covers rfl (short x)⟩
  | print op p covers present =>
    obtain ⟨content, held⟩ := Option.ne_none_iff_exists'.mp present
    rw [follows.print_eq here held] at moved
    cases moved
    exact ⟨_, _, _, _, follows.print (follows.resting (by rw [here]; rfl) held) present
      (.loop _ covers)⟩

/-- What one step does to the memory and to the printed lines. -/
theorem step (follows : Follows outside cs h x mapping s out owed) (moved : x.Step e y) :
    ∃ cs mapping s out owed, Follows outside cs (h ++ e.toList) y mapping s out owed := by
  obtain ⟨turn, moved⟩ := moved
  cases turn with
  | command c =>
    obtain ⟨cs, owed, follows⟩ := follows.command moved
    exact ⟨cs, _, _, _, owed, follows⟩
  | main =>
    obtain ⟨mapping, s, out, owed, follows⟩ := follows.mainStep moved
    exact ⟨_, mapping, s, out, owed, follows⟩
  | fault address => exact ⟨_, _, _, _, _, follows.fault moved⟩
  | handler =>
    obtain ⟨address, resolving, _⟩ := Option.bind_eq_some_iff.mp moved
    have held := (follows.resolves address resolving).1
    rw [Private.step, follows.handler_eq resolving held] at moved
    cases moved
    exact ⟨_, _, _, _, _, follows.handler resolving held⟩

theorem initial (m : Mapping n) (sized : m.pageSize.toNat = pageSize) (fits : m.Fits) :
    Follows outside [] [] (Private.initial m sized outside) (fun _ => none) (fun _ => []) []
      (fun _ => [], []) where
  fits := fits
  memory := by
    funext address
    change (if m.Holds address then none else outside address) = _
    rw [Mapping.space]
    rfl
  terminated := nofun
  texts _ := rfl
  commands := rfl
  printed := rfl
  owes := .prompt
  performed := rfl
  resolves := forall_mem_of_eq_none rfl
  faults := by simp [pageFaults, resident, Private.initial]
  shown := nofun
  wanted := fun _ present => (present rfl).elim

/-- A run keeps the memory in step with the commands. -/
theorem of_runs {m : Mapping n} {sized : m.pageSize.toNat = pageSize} (fits : m.Fits)
    (run : Runs m sized outside h x) : x.layout = m ∧ ∃ cs mapping s out owed,
      Follows outside cs h x mapping s out owed := by
  refine run.invariant (I := fun h x => x.layout = m ∧ ∃ cs mapping s out owed,
    Follows outside cs h x mapping s out owed) ⟨rfl, [], _, _, _, _, .initial m sized fits⟩ ?_
  rintro h x e y _ ⟨layout, cs, mapping, s, out, owed, follows⟩ moved
  exact ⟨moved.layout.trans layout, follows.step moved⟩

/-- At the prompt the pages of the commands are the resident ones. -/
theorem resident_eq (follows : Follows outside cs h x mapping s out owed)
    (back : x.main = .prompt) : resident mapping = (cs.flatMap Command.pages).toFinset := by
  have owes := follows.owes
  rw [back] at owes
  cases owes
  ext p
  rw [mem_resident, List.mem_toFinset]
  refine ⟨follows.wanted p, fun mem => ?_⟩
  rw [← Strings.performAll_pages pageSize (fun _ => []) cs, follows.performed,
    List.append_nil] at mem
  obtain ⟨r, told, rfl⟩ := List.mem_map.mp mem
  exact follows.shown r told

theorem pageFaults_le (follows : Follows outside cs h x mapping s out owed) :
    pageFaults h ≤ (cs.flatMap Command.pages).toFinset.card := by
  have within : resident mapping ⊆ (cs.flatMap Command.pages).toFinset :=
    fun p mem => List.mem_toFinset.mpr (follows.wanted p (mem_resident.mp mem))
  rw [follows.faults]
  cases resolving : x.resolving with
  | none => exact Finset.card_le_card within
  | some address =>
    obtain ⟨held, absent, _, known⟩ := follows.faulted (follows.resolves address resolving)
    have apart : x.layout.page address held ∉ resident mapping :=
      fun mem => mem_resident.mp mem absent
    have counted := Finset.card_le_card
      (Finset.insert_subset (List.mem_toFinset.mpr known) within)
    rwa [Finset.card_insert_of_notMem apart] at counted

end Follows

/-- The process of the first part answers its commands as an array of strings does, and takes
one fault for each page that it touches. -/
theorem private_runs (m : Mapping n) (sized : m.pageSize.toNat = pageSize) (fits : m.Fits)
    (outside : AddressSpace) (h : List Event) (x : Private n pageSize)
    (run : Runs m sized outside h x) :
    ∃ cs : List (Command n), h.filterMap Event.command? = cs.map Command.raw ∧
      h.filterMap Event.printed? <+:
        (Strings.performAll pageSize (fun _ => []) cs).2.map (Prod.map index id) ∧
      pageFaults h ≤ (cs.flatMap Command.pages).toFinset.card ∧
      (x.main = .prompt →
        h.filterMap Event.printed? =
            (Strings.performAll pageSize (fun _ => []) cs).2.map (Prod.map index id) ∧
          pageFaults h = (cs.flatMap Command.pages).toFinset.card) ∧
      ∀ address, ¬ m.Holds address → x.memory address = outside address := by
  obtain ⟨layout, cs, mapping, s, out, owed, follows⟩ := Follows.of_runs fits run
  have told : (Strings.performAll pageSize (fun _ => []) cs).2 = out ++ owed.2 :=
    congrArg Prod.snd follows.performed
  refine ⟨cs, follows.commands, ?_, follows.pageFaults_le, fun back => ⟨?_, ?_⟩,
    fun address outer => ?_⟩
  · rw [follows.printed, told, List.map_append]
    exact List.prefix_append _ _
  · have owes := follows.owes
    rw [back] at owes
    cases owes
    rw [follows.printed, told, List.append_nil]
  · have quiet := follows.idle (by rw [back]; rfl)
    rw [follows.faults, quiet, follows.resident_eq back]
    rfl
  · rw [follows.memory, Mapping.space, dif_neg (layout ▸ outer)]

theorem private_runs_written : ∃ (h : List Event) (x : Private 1 8),
    Runs Machines.onePage rfl (fun _ => some 7) h x ∧
      h.filterMap Event.printed? = [(0, [72, 105]), (0, [72, 105])] ∧ pageFaults h = 1 ∧
      x.memory 0xfff = some 7 ∧ ∃ cs : List (Command 1),
        h.filterMap Event.command? = cs.map Command.raw ∧
          (cs.flatMap Command.pages).toFinset.card = 1 := by
  have followed : (exec step onePage writeAndRead).any (fun r => r.1.main = .prompt ∧
      r.2.filterMap Event.printed? = [(0, [72, 105]), (0, [72, 105])] ∧
        pageFaults r.2 = 1) := by decide +kernel
  obtain ⟨x, h, run, back, shown, once⟩ := exec_any followed step_sound
  obtain ⟨cs, commands, _, _, ended, frame⟩ :=
    private_runs Machines.onePage rfl (by decide) _ h x run
  exact ⟨h, x, run, shown, once, frame 0xfff (by decide), cs, commands,
    (ended back).2.symm.trans once⟩

end Private
end CSE306.S2DSM
