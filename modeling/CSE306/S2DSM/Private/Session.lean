import CSE306.S2DSM.Console
import CSE306.S2DSM.Private.Progress

/-! The process of the first part on a text as its standard input, from the first prompt to
the end of the program. -/
namespace CSE306.S2DSM
open Transition

variable {n pageSize : Nat}

/-- The program with what is left of its input; nothing is left when the program has ended. -/
structure Session (n pageSize : Nat) where
  process : Private n pageSize
  stdin : Option (List UInt8)

namespace Session

inductive Turn where
  | input
  | thread (turn : Private.Turn)
  deriving DecidableEq

def initial (m : Mapping n) (sized : m.pageSize.toNat = pageSize) (outside : AddressSpace)
    (text : List UInt8) : Session n pageSize where
  process := .initial m sized outside
  stdin := some text

/-- One turn of the command loop; here `v` is one more letter that is not a command. -/
def input (x : Session n pageSize) : Option (Session n pageSize × Option Private.Event) :=
  match x.process.main, x.stdin with
  | .prompt, some stdin =>
    let round := readCommand pageSize x.process.layout.maxPage stdin
    match round.command with
    | none => some ({ x with stdin := round.rest }, none)
    | some c => (x.process.step (.command c.raw)).map fun (y, e) => (⟨y, round.rest⟩, e)
  | _, _ => none

def step (x : Session n pageSize) : Turn → Option (Session n pageSize × Option Private.Event)
  | .input => x.input
  | .thread (.command _) => none
  | .thread turn => (x.process.step turn).map fun (y, e) => ({ x with process := y }, e)

def Step (x : Session n pageSize) (e : Option Private.Event) (y : Session n pageSize) : Prop :=
  ∃ turn, x.step turn = some (y, e)

abbrev Runs (m : Mapping n) (sized : m.pageSize.toNat = pageSize) (outside : AddressSpace)
    (text : List UInt8) (h : List Private.Event) (x : Session n pageSize) : Prop :=
  Run Step (initial m sized outside text) h x

theorem step_sound {x y : Session n pageSize} (moved : x.step turn = some (y, e)) : x.Step e y :=
  ⟨turn, moved⟩

end Session

/-- The commands that a text gives. -/
def commands (pageSize : Nat) (maxPage : BitVec 32) (text : List UInt8) : List RawCommand :=
  ((commandLoop pageSize maxPage text).filterMap Round.command).map Command.raw

section Rounds
variable {maxPage : BitVec 32}

theorem rounds_fuel {fuel : Nat} (enough : stdin.length < fuel) (more : fuel ≤ fuel') :
    rounds pageSize maxPage fuel' stdin = rounds pageSize maxPage fuel stdin := by
  induction fuel generalizing fuel' stdin with
  | zero => cases enough
  | succ fuel ih =>
    obtain ⟨fuel', rfl⟩ := Nat.exists_eq_add_of_le' (Nat.one_le_of_lt more)
    rw [rounds, rounds]
    cases goesOn : (readCommand pageSize maxPage stdin).rest with
    | none => rfl
    | some rest =>
      have shorter := length_rest_lt goesOn
      dsimp only
      rw [ih (by omega) (by omega)]

/-- The commands of a text are those of its first turn, and of what that turn leaves. -/
theorem commands_readCommand (pageSize : Nat) (maxPage : BitVec 32) (text : List UInt8) :
    commands pageSize maxPage text =
      ((readCommand pageSize maxPage text).command.map Command.raw).toList ++
        ((readCommand pageSize maxPage text).rest.map (commands pageSize maxPage)).getD [] := by
  rw [commands, commandLoop, rounds]
  cases goesOn : (readCommand pageSize maxPage text).rest with
  | none =>
    cases told : (readCommand pageSize maxPage text).command <;> simp [told]
  | some rest =>
    have shorter := length_rest_lt goesOn
    simp only [Option.map_some, Option.getD_some]
    rw [rounds_fuel (Nat.lt_succ_self rest.length) shorter]
    cases told : (readCommand pageSize maxPage text).command <;> simp [told, commands, commandLoop]

end Rounds

theorem rawPage_injective (m : Mapping n) : Function.Injective (rawPage (n := n)) := by
  intro p q same
  cases p with
  | none =>
    cases q with
    | none => rfl
    | some q => exact (index_ne m q same.symm).elim
  | some p =>
    cases q with
    | none => exact (index_ne m p same).elim
    | some q => exact congrArg some (m.index_inj same)

theorem Command.raw_injective (m : Mapping n) : Function.Injective (Command.raw (n := n)) := by
  intro c d same
  have page : c.whichPage = d.whichPage := by
    apply rawPage_injective m
    rw [← Command.raw_whichPage, ← Command.raw_whichPage, same]
  cases c with
  | read p =>
    cases d with
    | read q => exact congrArg _ page
    | write => cases same
  | write typed p =>
    cases d with
    | read => cases same
    | write typed' q =>
      cases page
      exact congrArg (Command.write · p) (RawCommand.write.inj same).1

theorem exists_command {k : Nat} (same : k = n) (c : Command k) :
    ∃ d : Command n, d.raw = c.raw := by
  subst same
  exact ⟨c, rfl⟩

theorem numPages_maxPage (m : Mapping n) : numPages m.maxPage = n := by
  rw [numPages, m.toInt_maxPage, Int.toNat_natCast]

/-- The commands of a text are commands for the pages of the mapping. -/
theorem exists_commands (pageSize : Nat) (m : Mapping n) (text : List UInt8) :
    ∃ cs : List (Command n), cs.map Command.raw = commands pageSize m.maxPage text := by
  unfold commands
  induction (commandLoop pageSize m.maxPage text).filterMap Round.command with
  | nil => exact ⟨[], rfl⟩
  | cons c told ih =>
    obtain ⟨cs, same⟩ := ih
    obtain ⟨d, here⟩ := exists_command (numPages_maxPage m) c
    exact ⟨d :: cs, by rw [List.map_cons, here, same]; rfl⟩

namespace Private

theorem command_shows {x y : Private n pageSize} (moved : x.step (.command c) = some (y, e)) :
    x.main = .prompt ∧ e = some (.command c) := by
  simp only [Private.step] at moved
  split at moved
  · rename_i here
    split at moved <;> cases moved
    exact ⟨here, rfl⟩
  · cases moved

/-- The threads accept no command. -/
theorem works_of_step {x y : Private n pageSize} {turn : Turn} (thread : ∀ c, turn ≠ .command c)
    (moved : x.step turn = some (y, e)) : x.Works e y := by
  refine ⟨⟨turn, moved⟩, ?_⟩
  rintro c rfl
  cases turn with
  | command c' => exact thread c' rfl
  | main =>
    simp only [Private.step, mainStep, Option.bind_eq_bind] at moved
    grind [Option.map_eq_some_iff, Option.bind_eq_some_iff]
  | fault address =>
    simp only [Private.step] at moved
    split at moved <;> cases moved
  | handler =>
    obtain ⟨address, _, moved⟩ := Option.bind_eq_some_iff.mp moved
    simp only at moved
    split at moved <;> cases moved

theorem work_prompt {x : Private n pageSize} (here : x.main = .prompt) : x.work = 0 := by
  rw [work, stall, here]
  rfl

/-- A command for the pages of the mapping is accepted at the prompt. -/
theorem command_accepted {x : Private n pageSize} (here : x.main = .prompt)
    (c : Command (numPages x.layout.maxPage)) :
    ∃ y e, x.step (.command c.raw) = some (y, e) := by
  obtain ⟨d, same⟩ := exists_command (numPages_maxPage x.layout) c
  have accepted := rawPage_in_range x.layout d.whichPage
  rw [← Command.raw_whichPage, same] at accepted
  simp only [Private.step, here, if_neg accepted]
  exact ⟨_, _, rfl⟩

end Private

namespace Session
variable {m : Mapping n} {sized : m.pageSize.toNat = pageSize} {outside : AddressSpace}
  {text : List UInt8} {h : List Private.Event} {x y : Session n pageSize}

/-- A turn of the loop may be without a command, and the threads leave the input alone. -/
theorem step_cases (step : x.Step e y) :
    (∃ stdin, x.process.main = .prompt ∧ x.stdin = some stdin ∧
      (readCommand pageSize x.process.layout.maxPage stdin).command = none ∧ e = none ∧
      y = { x with stdin := (readCommand pageSize x.process.layout.maxPage stdin).rest }) ∨
    (∃ stdin c, x.stdin = some stdin ∧
      (readCommand pageSize x.process.layout.maxPage stdin).command = some c ∧
      x.process.step (.command c.raw) = some (y.process, e) ∧
      y.stdin = (readCommand pageSize x.process.layout.maxPage stdin).rest) ∨
    (x.process.Works e y.process ∧ y.stdin = x.stdin) := by
  obtain ⟨turn, moved⟩ := step
  cases turn with
  | input =>
    change x.input = _ at moved
    unfold input at moved
    split at moved
    · rename_i stdin here given
      dsimp only at moved
      split at moved
      · rename_i untold
        cases moved
        exact .inl ⟨stdin, here, given, untold, rfl, rfl⟩
      · rename_i c told
        obtain ⟨r, accepted, same⟩ := Option.map_eq_some_iff.mp moved
        cases same
        exact .inr (.inl ⟨stdin, c, given, told, accepted, rfl⟩)
    · cases moved
  | thread turn =>
    cases turn with
    | command c => cases moved
    | main | fault | handler =>
      obtain ⟨r, went, same⟩ := Option.map_eq_some_iff.mp moved
      cases same
      refine .inr (.inr ⟨Private.works_of_step ?_ went, rfl⟩)
      intro c same
      cases same

/-- The commands that are still to be read. -/
def unread (m : Mapping n) (x : Session n pageSize) : List RawCommand :=
  (x.stdin.map (commands pageSize m.maxPage)).getD []

/-- A run of the program is one of the process, on the commands of the text. The program ends
at its prompt. -/
structure Reads (m : Mapping n) (sized : m.pageSize.toNat = pageSize) (outside : AddressSpace)
    (text : List UInt8) (h : List Private.Event) (x : Session n pageSize) : Prop where
  run : Private.Runs m sized outside h x.process
  layout : x.process.layout = m
  told : h.filterMap Private.Event.command? ++ x.unread m = commands pageSize m.maxPage text
  ended : x.stdin = none → x.process.main = .prompt

theorem command?_none (uncommanded : ∀ c, e ≠ some (.command c)) :
    (h ++ e.toList).filterMap Private.Event.command? = h.filterMap Private.Event.command? := by
  cases e with
  | none => rw [Option.toList_none, List.append_nil]
  | some e =>
    cases e with
    | command c => exact (uncommanded c rfl).elim
    | printed | pageFault => exact List.filterMap_append.trans (List.append_nil _)

theorem Reads.step (fits : m.Fits) (reads : Reads m sized outside text h x) (step : x.Step e y) :
    Reads m sized outside text (h ++ e.toList) y := by
  obtain ⟨run, layout, told, ended⟩ := reads
  obtain ⟨_, cs, mapping, s, out, owed, follows⟩ := Private.Follows.of_runs fits run
  subst layout
  rcases step_cases step with ⟨stdin, here, given, untold, rfl, rfl⟩ |
    ⟨stdin, c, given, read, accepted, after⟩ | ⟨works, kept⟩
  · rw [unread, given, Option.map_some, Option.getD_some, commands_readCommand, untold] at told
    rw [Option.toList_none, List.append_nil]
    exact ⟨run, rfl, told, fun _ => here⟩
  · obtain ⟨here, rfl⟩ := Private.command_shows accepted
    have moved : x.process.Step _ y.process := ⟨_, accepted⟩
    rw [unread, given, Option.map_some, Option.getD_some, commands_readCommand, read] at told
    refine ⟨run.next moved, moved.layout, ?_, fun none => ?_⟩
    · rw [unread, after, ← told, List.filterMap_append, List.append_assoc]
      rfl
    · exact (rest_of_command read (after ▸ none)).elim
  · refine ⟨run.next works.1, works.1.layout, ?_, fun none => ?_⟩
    · rw [command?_none works.2, unread, kept]
      exact told
    · have spent := follows.spends works
      rw [Private.work_prompt (ended (kept ▸ none))] at spent
      cases spent

theorem Reads.of_runs (fits : m.Fits) (run : Runs m sized outside text h x) :
    Reads m sized outside text h x := by
  refine run.invariant (I := fun h x => Reads m sized outside text h x)
    ⟨.start, rfl, rfl, fun ended => (Option.some_ne_none _ ended).elim⟩ ?_
  intro h x e y _ reads step
  exact reads.step fits step

/-- The steps that the input left and the command that runs may still take. -/
def worth (x : Session n pageSize) : Nat :=
  (x.stdin.map fun stdin => (stdin.length + 1) * (5 * (n + 1) + 1)).getD 0 + x.process.work

theorem Reads.spends (fits : m.Fits) (reads : Reads m sized outside text h x)
    (step : x.Step e y) : y.worth < x.worth := by
  obtain ⟨_, cs, mapping, s, out, owed, follows⟩ := Private.Follows.of_runs fits reads.run
  have later := reads.step fits step
  obtain ⟨_, cs', mapping', s', out', owed', follows'⟩ := Private.Follows.of_runs fits later.run
  have most := follows'.work_le
  have paid {stdin : List UInt8} (given : x.stdin = some stdin)
      (after : y.stdin = (readCommand pageSize x.process.layout.maxPage stdin).rest) :
      (y.stdin.map fun stdin => (stdin.length + 1) * (5 * (n + 1) + 1)).getD 0 +
        (5 * (n + 1) + 1) ≤ (stdin.length + 1) * (5 * (n + 1) + 1) := by
    rw [after, Nat.succ_mul stdin.length]
    refine Nat.add_le_add_right ?_ _
    cases goesOn : (readCommand pageSize x.process.layout.maxPage stdin).rest with
    | none => exact Nat.zero_le _
    | some rest => exact Nat.mul_le_mul_right _ (length_rest_lt goesOn)
  rcases step_cases step with ⟨stdin, here, given, untold, rfl, rfl⟩ |
    ⟨stdin, c, given, read, accepted, after⟩ | ⟨works, kept⟩
  · have spent := paid given rfl
    rw [worth, worth, given]
    have less := Nat.lt_of_lt_of_le (Nat.lt_add_of_pos_right (Nat.succ_pos _)) spent
    exact Nat.add_lt_add_right less _
  · have spent := paid given after
    rw [worth, worth, given, Option.map_some, Option.getD_some]
    omega
  · rw [worth, worth, kept]
    exact Nat.add_lt_add_left (follows.spends works) _

/-- Until the program ends it can go on. -/
theorem Reads.able (fits : m.Fits) (reads : Reads m sized outside text h x)
    (going : x.stdin ≠ none) : ∃ e y, x.Step e y := by
  obtain ⟨_, cs, mapping, s, out, owed, follows⟩ := Private.Follows.of_runs fits reads.run
  obtain ⟨stdin, given⟩ := Option.ne_none_iff_exists'.mp going
  by_cases here : x.process.main = .prompt
  · cases told : (readCommand pageSize x.process.layout.maxPage stdin).command with
    | none =>
      refine ⟨none, { x with stdin := (readCommand pageSize x.process.layout.maxPage stdin).rest },
        .input, ?_⟩
      simp only [Session.step, input, here, given, told]
    | some c =>
      obtain ⟨y, e, accepted⟩ := Private.command_accepted here c
      refine ⟨e, ⟨y, (readCommand pageSize x.process.layout.maxPage stdin).rest⟩, .input, ?_⟩
      simp only [Session.step, input, here, given, told, accepted]
      rfl
  · obtain ⟨e, y, ⟨turn, moved⟩, uncommanded⟩ := follows.able here
    refine ⟨e, { x with process := y }, .thread turn, ?_⟩
    cases turn with
    | command c => exact (uncommanded c (Private.command_shows moved).2).elim
    | main | fault | handler => exact Option.map_eq_some_iff.mpr ⟨_, moved, rfl⟩

/-- The lines that are printed for a text are those of an array of strings on its commands, and
when the program ends they are all printed. It takes one fault for each page of the commands. -/
theorem session_output (m : Mapping n) (sized : m.pageSize.toNat = pageSize) (fits : m.Fits)
    (outside : AddressSpace) (text : List UInt8) (h : List Private.Event)
    (x : Session n pageSize) (run : Runs m sized outside text h x) :
    ∃ cs : List (Command n), cs.map Command.raw = commands pageSize m.maxPage text ∧
      h.filterMap Private.Event.printed? <+:
        (Strings.performAll pageSize (fun _ => []) cs).2.map (Prod.map index id) ∧
      (x.stdin = none →
        h.filterMap Private.Event.printed? =
            (Strings.performAll pageSize (fun _ => []) cs).2.map (Prod.map index id) ∧
          Private.pageFaults h = (cs.flatMap Command.pages).toFinset.card) ∧
      ∀ address, ¬ m.Holds address → x.process.memory address = outside address := by
  have reads := Reads.of_runs fits run
  obtain ⟨layout, cs', mapping, s, out, owed, follows⟩ := Private.Follows.of_runs fits reads.run
  obtain ⟨cs, whole⟩ := exists_commands pageSize m text
  have told := reads.told
  rw [follows.commands, ← whole] at told
  obtain ⟨later, rfl⟩ : cs' <+: cs :=
    (List.prefix_map_iff_of_injective (Command.raw_injective m)).mp ⟨_, told⟩
  have performed : (Strings.performAll pageSize (fun _ => []) cs').2 = out ++ owed.2 :=
    congrArg Prod.snd follows.performed
  have shown : out <+: (Strings.performAll pageSize (fun _ => []) (cs' ++ later)).2 :=
    (performed ▸ List.prefix_append out owed.2).trans
      (Strings.performAll_prefix _ (List.prefix_append cs' later))
  refine ⟨_, whole, follows.printed ▸ shown.map _, fun ended => ?_, fun address outer => ?_⟩
  · have back := reads.ended ended
    obtain rfl : later = [] := by
      rw [unread, ended, Option.map_none, Option.getD_none, List.append_nil, List.map_append,
        List.self_eq_append_right, List.map_eq_nil_iff] at told
      exact told
    have owes := follows.owes
    rw [back] at owes
    cases owes
    rw [List.append_nil, performed, List.append_nil, follows.printed, follows.faults,
      follows.idle (by rw [back]; rfl), follows.resident_eq back]
    exact ⟨rfl, rfl⟩
  · rw [follows.memory, Mapping.space, dif_neg (layout ▸ outer)]

/-- A page is written and then all pages are read. -/
def typed : List UInt8 := "w\nHi\n0\nr\n-1\n".toList.map letter

def scheduled : List Turn :=
  .input :: [.main, .fault 0x1000, .handler, .main, .main, .main].map .thread ++
    .input :: [.main, .main, .main].map .thread ++ [.input]

theorem session_output_typed : ∃ (h : List Private.Event) (x : Session 1 8),
    Runs Machines.onePage rfl (fun _ => some 7) typed h x ∧ x.stdin = none ∧
      h.filterMap Private.Event.printed? = [(0, [72, 105]), (0, [72, 105])] ∧
      ∃ cs : List (Command 1),
        cs.map Command.raw = commands 8 Machines.onePage.maxPage typed ∧
        [(0, [72, 105]), (0, [72, 105])] =
          (Strings.performAll 8 (fun _ => []) cs).2.map (Prod.map index id) := by
  have followed : (exec step (initial Machines.onePage rfl (fun _ => some 7) typed)
      scheduled).any (fun r => r.1.stdin = none ∧
        r.2.filterMap Private.Event.printed? = [(0, [72, 105]), (0, [72, 105])]) := by
    decide +kernel
  obtain ⟨x, h, run, ended, shown⟩ := exec_any followed step_sound
  obtain ⟨cs, told, _, all, _⟩ :=
    session_output Machines.onePage rfl (by decide) _ typed h x run
  exact ⟨h, x, run, ended, shown, cs, told, shown ▸ (all ended).1⟩

/-- Whichever thread moves when, the program has ended within so many steps: at the end of
the text, or at a page number that `strtol` refuses. -/
theorem session_exits (m : Mapping n) (sized : m.pageSize.toNat = pageSize) (fits : m.Fits)
    (outside : AddressSpace) (text : List UInt8) :
    Inevitable Step (fun x => x.stdin = none) ((text.length + 1) * (5 * (n + 1) + 1))
      (initial m sized outside text) := by
  have held : Reads m sized outside text [] (initial m sized outside text) :=
    .of_runs fits .start
  have most : (initial m sized outside text).worth ≤
      (text.length + 1) * (5 * (n + 1) + 1) := Nat.le_refl _
  refine .of_history (I := Reads m sized outside text) ?_ ?_ ?_ held most
  · intro h x e y reads step
    exact reads.step fits step
  · intro h x e y reads step
    exact reads.spends fits step
  · intro h x reads going
    exact reads.able fits going

theorem session_exits_typed :
    Inevitable Step (fun x : Session 1 8 => x.stdin = none) 143
      (initial Machines.onePage rfl (fun _ => some 7) typed) :=
  session_exits Machines.onePage rfl (by decide) _ typed

end Session

end CSE306.S2DSM
