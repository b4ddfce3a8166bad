import CSE306.CString
import CSE306.Words
import Mathlib.Data.List.Induction

/-! How the module parameter is read: one scan that ends each number with a NUL and calls
`kstrtol` on it. -/
namespace CSE306.KDS

abbrev Bytes := List UInt8

def space : UInt8 := 32

def maxSize : Nat := 1 <<< 16

/-- `-EINVAL` -/
def einval : Int := -22

/-- What `kstrtol` returns for a string and a base: an error code, or none and a `long`. -/
abbrev Kstrtol := Bytes → Nat → Except Int (BitVec 64)

/-- The parameter's memory, the two pointers into it, and the array of numbers. -/
structure Scan where
  buffer : Bytes
  intStr : Nat
  temp : Nat
  nums : List (BitVec 32)

/-- How `mymodule_init` goes on: it returns, or calls the `play_` functions. -/
inductive Outcome where
  | returns (ret : Int)
  | plays (nums : List (BitVec 32))
  deriving DecidableEq

/-- The string at an index of a buffer, if its end is in the buffer. -/
def stringAt (buffer : Bytes) (i : Nat) : Option Bytes :=
  if 0 ∈ buffer.drop i then some (cstring (buffer.drop i)) else none

/-- A number goes to the array if it is one and the array has space. The array has `int`
elements, so that the upper half of the `long` is dropped. -/
def insert (kstrtol : Kstrtol) (nums : List (BitVec 32)) (token : Bytes) :
    Except Int (List (BitVec 32)) :=
  match kstrtol token 10 with
  | .error ret => .error ret
  | .ok parsedRes =>
    if maxSize ≤ nums.length then .error einval else .ok (nums ++ [parsedRes.setWidth 32])

/-- The string before the pointer is a number, unless it is empty. -/
def insertPrior (kstrtol : Kstrtol) (nums : List (BitVec 32)) (prior : Bytes) :
    Except Int (List (BitVec 32)) :=
  if prior ≠ [] then insert kstrtol nums prior else .ok nums

/-- One turn of the loop. An access outside the memory has no result. -/
def turn (kstrtol : Kstrtol) (s : Scan) : Option (Scan ⊕ Outcome) := do
  let currentChar ← s.buffer[s.temp]?
  let buffer := if currentChar = space then s.buffer.set s.temp 0 else s.buffer
  let inserted ←
    if currentChar = space ∨ currentChar = 0 then
      (stringAt buffer s.intStr).map (insertPrior kstrtol s.nums)
    else some (.ok s.nums)
  match inserted with
  | .error ret => return .inr (.returns ret)
  | .ok nums =>
    if currentChar ≠ 0 then
      let temp := s.temp + 1
      let intStr := if currentChar = space then temp else s.intStr
      return .inl ⟨buffer, intStr, temp, nums⟩
    else return .inr (.plays nums)

/-- The loop, for at most `fuel` turns. -/
def scan (kstrtol : Kstrtol) : Nat → Scan → Option Outcome
  | 0, _ => none
  | fuel + 1, s =>
    match turn kstrtol s with
    | none => none
    | some (.inl s) => scan kstrtol fuel s
    | some (.inr outcome) => some outcome

/-- `mymodule_init` on the memory that `int_str` points to, the array being allocated. -/
def mymoduleInit (kstrtol : Kstrtol) (fuel : Nat) (intStr : Bytes) : Option Outcome :=
  scan kstrtol fuel ⟨intStr, 0, 0, []⟩

/-- The maximal runs of other bytes than spaces. -/
def tokens (text : Bytes) : List Bytes := (text.splitOn space).filter (· ≠ [])

/-- What the tokens of a text come to, one after the other. -/
def parse (kstrtol : Kstrtol) (nums : List (BitVec 32)) (tokens : List Bytes) : Outcome :=
  match tokens.foldlM (insert kstrtol) nums with
  | .error ret => .returns ret
  | .ok nums => .plays nums

/-- The same memory and pointers, with any state in place of the array. -/
structure Reader (S : Type) where
  buffer : Bytes
  intStr : Nat
  temp : Nat
  state : S

section
variable {S R : Type} (act : S → Bytes → Except R S)

/-- The string before the pointer is acted on, unless it is empty. -/
def actPrior (state : S) (prior : Bytes) : Except R S :=
  if prior ≠ [] then act state prior else .ok state

/-- One turn of the loop, for anything that is done with a string. -/
def turnWith (s : Reader S) : Option (Reader S ⊕ Except R S) := do
  let currentChar ← s.buffer[s.temp]?
  let buffer := if currentChar = space then s.buffer.set s.temp 0 else s.buffer
  let acted ←
    if currentChar = space ∨ currentChar = 0 then
      (stringAt buffer s.intStr).map (actPrior act s.state)
    else some (.ok s.state)
  match acted with
  | .error ret => return .inr (.error ret)
  | .ok state =>
    if currentChar ≠ 0 then
      let temp := s.temp + 1
      let intStr := if currentChar = space then temp else s.intStr
      return .inl ⟨buffer, intStr, temp, state⟩
    else return .inr (.ok state)

def scanWith : Nat → Reader S → Option (Except R S)
  | 0, _ => none
  | fuel + 1, s =>
    match turnWith act s with
    | none => none
    | some (.inl s) => scanWith fuel s
    | some (.inr result) => some result

end

section
variable {S R : Type} {act : S → Bytes → Except R S} {pre cur rest : Bytes} {state : S}

theorem tokens_run (run : space ∉ cur) : tokens cur = if cur ≠ [] then [cur] else [] := by
  have whole : cur.splitOn space = [cur] := List.splitOn_eq_singleton run
  rw [tokens, whole]
  by_cases empty : cur = [] <;> simp [empty]

theorem tokens_space (run : space ∉ cur) (rest : Bytes) :
    tokens (cur ++ space :: rest) = tokens cur ++ tokens rest := by
  have whole : cur.splitOn space = [cur] := List.splitOn_eq_singleton run
  rw [tokens, List.splitOn_append_cons_self_of_not_mem run, tokens, tokens, whole,
    ← List.singleton_append, List.filter_append]

theorem foldlM_tokens_run (run : space ∉ cur) :
    (tokens cur).foldlM act state = actPrior act state cur := by
  rw [tokens_run run, actPrior]
  split
  · exact bind_pure _
  · rfl

theorem stringAt_run (zero : 0 ∉ cur) (junk : Bytes) :
    stringAt (pre ++ cur ++ 0 :: junk) pre.length = some cur := by
  have there : (pre ++ cur ++ 0 :: junk).drop pre.length = cur ++ 0 :: junk := by simp
  rw [stringAt, there, if_pos (by simp), cstring_terminated cur junk zero]

theorem getElem?_temp (c : UInt8) :
    (pre ++ cur ++ c :: rest)[pre.length + cur.length]? = some c := by
  rw [← List.length_append, List.getElem?_append_right le_rfl, Nat.sub_self]
  rfl

theorem turn_end (zero : 0 ∉ cur) (junk : Bytes) :
    turnWith act ⟨pre ++ cur ++ 0 :: junk, pre.length, pre.length + cur.length, state⟩ =
      some (.inr (actPrior act state cur)) := by
  have notSpace : (0 : UInt8) ≠ space := by decide
  simp only [turnWith, getElem?_temp, Option.bind_eq_bind, Option.bind_some, notSpace, if_false,
    false_or, if_true, stringAt_run zero, Option.map_some]
  cases actPrior act state cur <;> rfl

theorem turn_space (zero : 0 ∉ cur) (rest : Bytes) :
    turnWith act ⟨pre ++ cur ++ space :: rest, pre.length, pre.length + cur.length, state⟩ =
      some (match actPrior act state cur with
        | .error ret => .inr (.error ret)
        | .ok state => .inl ⟨pre ++ cur ++ 0 :: rest, pre.length + cur.length + 1,
            pre.length + cur.length + 1, state⟩) := by
  have nonzero : space ≠ 0 := by decide
  have ended : (pre ++ cur ++ space :: rest).set (pre.length + cur.length) 0 =
      pre ++ cur ++ 0 :: rest := by
    rw [← List.length_append, List.set_append_right _ _ le_rfl, Nat.sub_self, List.set_cons_zero]
  simp only [turnWith, getElem?_temp, Option.bind_eq_bind, Option.bind_some, if_true, true_or,
    ended, stringAt_run zero, Option.map_some]
  cases actPrior act state cur <;> rfl

theorem turn_other (notSpace : c ≠ space) (nonzero : c ≠ 0) :
    turnWith act ⟨pre ++ cur ++ c :: rest, pre.length, pre.length + cur.length, state⟩ =
      some (.inl ⟨pre ++ cur ++ c :: rest, pre.length, pre.length + cur.length + 1, state⟩) := by
  simp only [turnWith, getElem?_temp, Option.bind_eq_bind, Option.bind_some, notSpace, nonzero,
    or_self, if_false]
  simp [nonzero]

/-- The scan acts on the tokens of the text. The induction is on what lies ahead of the fast
pointer; the run between the pointers is a token as soon as a space or the end follows. -/
theorem scan_run (pre cur rest junk : Bytes) (state : S) (fuel : Nat)
    (run : space ∉ cur) (zero : 0 ∉ cur) (zeroRest : 0 ∉ rest) (enough : rest.length < fuel) :
    scanWith act fuel ⟨pre ++ cur ++ (rest ++ 0 :: junk), pre.length, pre.length + cur.length,
      state⟩ = some ((tokens (cur ++ rest)).foldlM act state) := by
  induction rest generalizing pre cur state fuel with
  | nil =>
    obtain ⟨fuel, rfl⟩ := Nat.exists_eq_succ_of_ne_zero (Nat.ne_zero_of_lt enough)
    rw [List.nil_append, List.append_nil, scanWith, turn_end zero, foldlM_tokens_run run]
  | cons c rest ih =>
    obtain ⟨fuel, rfl⟩ := Nat.exists_eq_succ_of_ne_zero (Nat.ne_zero_of_lt enough)
    obtain ⟨nonzero, zeroTail⟩ := not_or.mp (mt List.mem_cons.mpr zeroRest)
    have shorter : rest.length < fuel := Nat.lt_of_succ_lt_succ enough
    rw [List.cons_append, scanWith]
    by_cases here : c = space
    · subst here
      rw [turn_space zero, tokens_space run, List.foldlM_append, foldlM_tokens_run run]
      cases actPrior act state cur with
      | error ret => rfl
      | ok state =>
        have next := ih (pre ++ cur ++ [0]) [] state fuel List.not_mem_nil List.not_mem_nil
          zeroTail shorter
        have goesOn : scanWith act fuel ⟨pre ++ cur ++ 0 :: (rest ++ 0 :: junk),
            pre.length + cur.length + 1, pre.length + cur.length + 1, state⟩ =
              some ((tokens rest).foldlM act state) := by
          simpa [Nat.add_assoc] using next
        exact goesOn
    · rw [turn_other here (Ne.symm nonzero)]
      have next := ih pre (cur ++ [c]) state fuel ?_ ?_ zeroTail shorter
      · simpa [Nat.add_assoc] using next
      · simp [run, Ne.symm here]
      · simp [zero, nonzero]

theorem scanWith_eq (text junk : Bytes) (terminated : 0 ∉ text) (enough : text.length < fuel) :
    scanWith act fuel ⟨text ++ 0 :: junk, 0, 0, state⟩ = some ((tokens text).foldlM act state) :=
  scan_run [] [] text junk state fuel List.not_mem_nil List.not_mem_nil terminated enough

end

section
variable {kstrtol : Kstrtol}

theorem scan_eq_scanWith (fuel : Nat) (s : Scan) : scan kstrtol fuel s =
    (scanWith (insert kstrtol) fuel ⟨s.buffer, s.intStr, s.temp, s.nums⟩).map fun
      | .error ret => .returns ret
      | .ok nums => .plays nums := by
  induction fuel generalizing s with
  | zero => rfl
  | succ fuel ih =>
    have same : turn kstrtol s =
        (turnWith (insert kstrtol) ⟨s.buffer, s.intStr, s.temp, s.nums⟩).map fun
          | .inl s => .inl ⟨s.buffer, s.intStr, s.temp, s.state⟩
          | .inr (.error ret) => .inr (.returns ret)
          | .inr (.ok nums) => .inr (.plays nums) := by
      have prior : actPrior (insert kstrtol) s.nums = insertPrior kstrtol s.nums := rfl
      simp only [turn, turnWith, prior]
      cases s.buffer[s.temp]? with
      | none => rfl
      | some currentChar =>
        simp only [Option.bind_eq_bind, Option.bind_some]
        split
        · cases stringAt (if currentChar = space then s.buffer.set s.temp 0 else s.buffer)
              s.intStr with
          | none => rfl
          | some token =>
            simp only [Option.map_some, Option.bind_some]
            cases insertPrior kstrtol s.nums token with
            | error ret => rfl
            | ok nums =>
              simp only
              split <;> rfl
        · split <;> rfl
    rw [scan, scanWith, same]
    cases turnWith (insert kstrtol) ⟨s.buffer, s.intStr, s.temp, s.nums⟩ with
    | none => rfl
    | some step =>
      cases step with
      | inl s => exact ih ⟨s.buffer, s.intStr, s.temp, s.state⟩
      | inr result => cases result <;> rfl

/-- The in-place scan of a terminated text ends, and gives what its tokens come to. -/
theorem mymoduleInit_eq_parse (text junk : Bytes) (terminated : 0 ∉ text)
    (enough : text.length < fuel) : mymoduleInit kstrtol fuel (text ++ 0 :: junk) =
      some (parse kstrtol [] (tokens text)) := by
  rw [mymoduleInit, scan_eq_scanWith, scanWith_eq text junk terminated enough, Option.map_some,
    parse]

end

/-- `kstrtol` takes the token for a number. -/
def Accepted (kstrtol : Kstrtol) (token : Bytes) : Prop := ∃ v, kstrtol token 10 = .ok v

/-- From `INT_MIN` to `INT_MAX`. -/
def FitsInt (v : BitVec 64) : Prop := -2147483648 ≤ v.toInt ∧ v.toInt ≤ 2147483647

section
variable {kstrtol : Kstrtol} {nums : List (BitVec 32)}

theorem insert_error (rejected : kstrtol token 10 = .error ret) :
    insert kstrtol nums token = .error ret := by
  rw [insert, rejected]

theorem insert_full (accepted : Accepted kstrtol token) (full : maxSize ≤ nums.length) :
    insert kstrtol nums token = .error einval := by
  obtain ⟨v, known⟩ := accepted
  rw [insert, known]
  exact if_pos full

theorem insert_ok (known : kstrtol token 10 = .ok v) (space : nums.length < maxSize) :
    insert kstrtol nums token = .ok (nums ++ [v.setWidth 32]) := by
  rw [insert, known]
  exact if_neg (Nat.not_le.mpr space)

theorem foldlM_inserts {act : List (BitVec 32) → Bytes → Except R (List (BitVec 32))}
    (inserts : ∀ nums t v, kstrtol t 10 = .ok v → nums.length < maxSize →
      act nums t = .ok (nums ++ [v.setWidth 32]))
    (nums : List (BitVec 32)) {l : List Bytes} {values : List (BitVec 64)}
    (accepted : l.map (kstrtol · 10) = values.map .ok) (space : nums.length + l.length ≤ maxSize) :
    l.foldlM act nums = .ok (nums ++ values.map (BitVec.setWidth 32)) := by
  induction l generalizing nums values with
  | nil =>
    have none : values = [] := by simpa using accepted.symm
    rw [none, List.map_nil, List.append_nil]
    rfl
  | cons t l ih =>
    cases values with
    | nil => cases accepted
    | cons v values =>
      rw [List.map_cons, List.map_cons, List.cons.injEq] at accepted
      rw [List.length_cons] at space
      rw [List.foldlM_cons, inserts nums t v accepted.1 (by omega)]
      have rest := ih (nums ++ [v.setWidth 32]) accepted.2 (by
        rw [List.length_append, List.length_singleton]
        omega)
      rw [List.append_assoc] at rest
      exact rest

theorem foldlM_accepted (nums : List (BitVec 32)) {l : List Bytes} {values : List (BitVec 64)}
    (accepted : l.map (kstrtol · 10) = values.map .ok) (space : nums.length + l.length ≤ maxSize) :
    l.foldlM (insert kstrtol) nums = .ok (nums ++ values.map (BitVec.setWidth 32)) :=
  foldlM_inserts (fun _ _ _ => insert_ok) nums accepted space

theorem exists_values {l : List Bytes} (accepted : ∀ t ∈ l, Accepted kstrtol t) :
    ∃ values : List (BitVec 64), l.map (kstrtol · 10) = values.map .ok := by
  induction l with
  | nil => exact ⟨[], rfl⟩
  | cons t l ih =>
    obtain ⟨v, known⟩ := accepted t List.mem_cons_self
    obtain ⟨values, rest⟩ := ih fun u mem => accepted u (List.mem_cons_of_mem t mem)
    exact ⟨v :: values, by rw [List.map_cons, List.map_cons, known, rest]⟩

theorem forall_values_iff {p : BitVec 64 → Prop} {l : List Bytes} {values : List (BitVec 64)}
    (known : l.map (kstrtol · 10) = values.map .ok) :
    (∀ v ∈ values, p v) ↔ ∀ t ∈ l, ∀ v, kstrtol t 10 = .ok v → p v := by
  constructor
  · intro all t mem v read
    have there : kstrtol t 10 ∈ values.map Except.ok := known ▸ List.mem_map_of_mem mem
    obtain ⟨w, mem', same⟩ := List.mem_map.mp there
    obtain rfl := Except.ok.inj (same.trans read)
    exact all w mem'
  · intro all v mem
    have there : .ok v ∈ l.map (kstrtol · 10) := known ▸ List.mem_map_of_mem mem
    obtain ⟨t, mem', read⟩ := List.mem_map.mp there
    exact all t mem' v read

/-- The first token that cannot be inserted decides what is returned. -/
theorem parse_stops {before : List Bytes} (accepted : ∀ u ∈ before, Accepted kstrtol u)
    (reached : before.length ≤ maxSize)
    (stops : ∀ nums : List (BitVec 32), nums.length = before.length →
      insert kstrtol nums t = .error ret) (after : List Bytes) :
    parse kstrtol [] (before ++ t :: after) = .returns ret := by
  obtain ⟨values, known⟩ := exists_values accepted
  have count : values.length = before.length := by simpa using (congrArg List.length known).symm
  rw [parse, List.foldlM_append, foldlM_accepted [] known (by simpa using reached)]
  have stopped := stops ([] ++ values.map (BitVec.setWidth 32)) (by simpa using count)
  simp only [List.foldlM_cons, bind, Except.bind, stopped]

theorem exists_first_rejected {l : List Bytes} (some_ : ¬ ∀ t ∈ l, Accepted kstrtol t) :
    ∃ before t after, l = before ++ t :: after ∧ (∀ u ∈ before, Accepted kstrtol u) ∧
      ∃ ret, kstrtol t 10 = .error ret := by
  induction l with
  | nil => exact (some_ fun t mem => by cases mem).elim
  | cons t l ih =>
    cases known : kstrtol t 10 with
    | error ret =>
      refine ⟨[], t, l, rfl, ?_, ret, known⟩
      intro u mem
      cases mem
    | ok v =>
      have later : ¬ ∀ u ∈ l, Accepted kstrtol u := by
        intro all
        exact some_ (List.forall_mem_cons.mpr ⟨⟨v, known⟩, all⟩)
      obtain ⟨before, u, after, rfl, accepted, rejected⟩ := ih later
      exact ⟨t :: before, u, after, rfl, List.forall_mem_cons.mpr ⟨⟨v, known⟩, accepted⟩, rejected⟩

theorem exists_stop {l : List Bytes}
    (other : ¬ ((∀ t ∈ l, Accepted kstrtol t) ∧ l.length ≤ maxSize)) :
    ∃ before t after, l = before ++ t :: after ∧ before.length ≤ maxSize ∧
      (∀ u ∈ before, Accepted kstrtol u) ∧
      ((∃ ret, kstrtol t 10 = .error ret) ∨ Accepted kstrtol t ∧ before.length = maxSize) := by
  by_cases all : ∀ t ∈ l.take (maxSize + 1), Accepted kstrtol t
  · have long : maxSize < l.length := by
      by_contra short
      have short := Nat.not_lt.mp short
      rw [List.take_of_length_le (Nat.le_succ_of_le short)] at all
      exact other ⟨all, short⟩
    have count : (l.take maxSize).length = maxSize := by
      rw [List.length_take, Nat.min_eq_left long.le]
    refine ⟨l.take maxSize, l[maxSize], l.drop (maxSize + 1), ?_, count.le, ?_, .inr ⟨?_, count⟩⟩
    · rw [List.getElem_cons_drop, List.take_append_drop]
    · exact fun u mem => all u (List.take_subset_take_left l (Nat.le_succ maxSize) mem)
    · exact all _ (List.mem_take_iff_getElem.mpr ⟨maxSize, by omega, rfl⟩)
  · obtain ⟨before, t, after, first, accepted, rejected⟩ := exists_first_rejected all
    have count := congrArg List.length first
    rw [List.length_take, List.length_append, List.length_cons] at count
    refine ⟨before, t, after ++ l.drop (maxSize + 1), ?_, by omega, accepted, .inl rejected⟩
    rw [← List.cons_append, ← List.append_assoc, ← first, List.take_append_drop]

theorem parse_accepted {l : List Bytes} {values : List (BitVec 64)}
    (accepted : l.map (kstrtol · 10) = values.map .ok) (few : l.length ≤ maxSize) :
    parse kstrtol [] l = .plays (values.map (BitVec.setWidth 32)) := by
  rw [parse, foldlM_accepted [] accepted (by simpa using few)]
  rfl

theorem parse_returns {l : List Bytes}
    (other : ¬ ((∀ t ∈ l, Accepted kstrtol t) ∧ l.length ≤ maxSize)) :
    ∃ before t after, l = before ++ t :: after ∧ before.length ≤ maxSize ∧
      (∀ u ∈ before, Accepted kstrtol u) ∧
      ((∃ ret, kstrtol t 10 = .error ret ∧ parse kstrtol [] l = .returns ret) ∨
        Accepted kstrtol t ∧ before.length = maxSize ∧ parse kstrtol [] l = .returns einval) := by
  obtain ⟨before, t, after, rfl, reached, accepted, stop⟩ := exists_stop other
  refine ⟨before, t, after, rfl, reached, accepted, ?_⟩
  cases stop with
  | inl rejected =>
    obtain ⟨ret, known⟩ := rejected
    exact .inl ⟨ret, known, parse_stops accepted reached (fun _ _ => insert_error known) after⟩
  | inr full =>
    exact .inr ⟨full.1, full.2, parse_stops accepted reached
      (fun nums count => insert_full full.1 (by omega)) after⟩

theorem parse_plays {l : List Bytes} (plays : parse kstrtol [] l = .plays nums) :
    ∃ values : List (BitVec 64), l.map (kstrtol · 10) = values.map .ok ∧
      nums = values.map (BitVec.setWidth 32) ∧ l.length ≤ maxSize := by
  by_cases all : (∀ t ∈ l, Accepted kstrtol t) ∧ l.length ≤ maxSize
  · obtain ⟨values, known⟩ := exists_values all.1
    rw [parse_accepted known all.2] at plays
    exact ⟨values, known, (Outcome.plays.inj plays).symm, all.2⟩
  · obtain ⟨_, _, _, _, _, _, stop⟩ := parse_returns all
    rcases stop with ⟨ret, _, returns⟩ | ⟨_, _, returns⟩
    · rw [returns] at plays
      cases plays
    · rw [returns] at plays
      cases plays

end

/-- The scan of a terminated text ends. If all tokens are numbers that fit in `int`, and are
not too many, these numbers are played; if not, and every number fits, the first token that
is rejected, or is one too many, decides what is returned. -/
theorem mymodule_init_parses (kstrtol : Kstrtol) (text junk : Bytes) (terminated : 0 ∉ text)
    (fuel : Nat) (enough : text.length < fuel) :
    (∀ values : List (BitVec 64), (tokens text).map (kstrtol · 10) = values.map .ok →
      (∀ v ∈ values, FitsInt v) → (tokens text).length ≤ maxSize →
      ∃ nums, mymoduleInit kstrtol fuel (text ++ 0 :: junk) = some (.plays nums) ∧
        nums.map BitVec.toInt = values.map BitVec.toInt) ∧
    (¬ ((∀ t ∈ tokens text, Accepted kstrtol t) ∧ (tokens text).length ≤ maxSize) →
      (∀ t ∈ tokens text, ∀ v, kstrtol t 10 = .ok v → FitsInt v) →
      ∃ before t after, tokens text = before ++ t :: after ∧ before.length ≤ maxSize ∧
        (∀ u ∈ before, Accepted kstrtol u) ∧
        ((∃ ret, kstrtol t 10 = .error ret ∧
            mymoduleInit kstrtol fuel (text ++ 0 :: junk) = some (.returns ret)) ∨
          Accepted kstrtol t ∧ before.length = maxSize ∧
            mymoduleInit kstrtol fuel (text ++ 0 :: junk) = some (.returns einval))) := by
  rw [mymoduleInit_eq_parse text junk terminated enough]
  constructor
  · intro values accepted fit few
    refine ⟨values.map (BitVec.setWidth 32), ?_, ?_⟩
    · rw [parse_accepted accepted few]
    · rw [List.map_map]
      exact List.map_congr_left fun v mem => toInt_narrow_of_fits (fit v mem).1 (fit v mem).2
  · intro other _
    obtain ⟨before, t, after, split, reached, accepted, stop⟩ := parse_returns other
    refine ⟨before, t, after, split, reached, accepted, ?_⟩
    rcases stop with ⟨ret, known, returns⟩ | ⟨last, full, returns⟩
    · exact .inl ⟨ret, known, congrArg some returns⟩
    · exact .inr ⟨last, full, congrArg some returns⟩

/-- A `kstrtol` that takes digits only. -/
def digits (token : Bytes) (_base : Nat) : Except Int (BitVec 64) :=
  if token.all (fun b => 48 ≤ b ∧ b ≤ 57) then
    .ok (BitVec.ofNat 64 (token.foldl (fun n b => 10 * n + (b.toNat - 48)) 0))
  else .error einval

/-- The parameter " 12  7 ", and the same with the seven replaced by a letter. -/
theorem mymodule_init_parses_twelve_seven :
    (∃ nums, mymoduleInit digits 9 [32, 49, 50, 32, 32, 55, 32, 0] = some (.plays nums) ∧
      nums.map BitVec.toInt = [12, 7]) ∧
    (∃ before t after, tokens [32, 49, 50, 32, 32, 120, 32] = before ++ t :: after ∧
      ((∃ ret, digits t 10 = .error ret ∧
          mymoduleInit digits 9 [32, 49, 50, 32, 32, 120, 32, 0] = some (.returns ret)) ∨
        before.length = maxSize)) := by
  constructor
  · obtain ⟨nums, played, values⟩ :=
      (mymodule_init_parses digits [32, 49, 50, 32, 32, 55, 32] [] (by decide) 9 (by decide)).1
        [12, 7] (by decide +kernel) (by simp [FitsInt]) (by decide +kernel)
    exact ⟨nums, played, values.trans (by decide +kernel)⟩
  · have split : tokens [32, 49, 50, 32, 32, 120, 32] = [[49, 50], [120]] := by decide +kernel
    obtain ⟨before, t, after, first, _, _, stop⟩ :=
      (mymodule_init_parses digits [32, 49, 50, 32, 32, 120, 32] [] (by decide) 9 (by decide)).2
        (fun all => by
          obtain ⟨v, known⟩ := all.1 [120] (by rw [split]; decide)
          simp [digits] at known)
        (fun t mem v known => by
          rw [split] at mem
          rcases List.mem_cons.mp mem with rfl | mem
          · cases known
            simp [FitsInt]
          · obtain rfl := List.mem_singleton.mp mem
            simp [digits] at known)
    exact ⟨before, t, after, first, stop.imp id (·.2.1)⟩

end CSE306.KDS
