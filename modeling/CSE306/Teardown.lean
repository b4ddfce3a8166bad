import CSE306.Hlist
import CSE306.Perftop.Profiler
import Mathlib.Data.List.Count

/-! The loops that free the hash tables. Each takes entries out of the chain that it walks. -/
namespace CSE306
open Hlist

section
variable {B A : Type} [DecidableEq B] [DecidableEq A]

/-- Delete an entry from its chain, then free it. -/
def freeEntry (s : Hlist B A) (position : A) : Hlist B A × List (Access A) :=
  (s.del position, [.del position, .kfree position])

/-- What happens to the first entry of a chain. -/
def freed (x : Chains B A) (b : B) : List (Access A) :=
  match (x.chain b).head? with
  | none => []
  | some a => [.del a, .kfree a, .next a]

omit [DecidableEq B] [DecidableEq A] in
theorem mem_freed {x : Chains B A} (mem : e ∈ freed x b) : e.entry ∈ x.chain b := by
  unfold freed at mem
  cases first : (x.chain b).head? with
  | none =>
    rw [first] at mem
    cases mem
  | some a =>
    have there := List.mem_of_head? first
    rw [first] at mem
    simp only [List.mem_cons, List.not_mem_nil, or_false] at mem
    rcases mem with rfl | rfl | rfl <;> exact there

/-- The body makes the link of its entry NULL, so that the walk ends after one entry. -/
theorem forEachEntry_freeEntry {s : Hlist B A} (held : s.Represents x) (b : B) (fuel : Nat) :
    ∃ t, forEachEntry freeEntry (fuel + 1) s (s.first b) = some (t, freed x b) ∧
      t.Represents (x.pop b) := by
  cases first : s.first b with
  | none =>
    have none : (x.chain b).head? = none := (held.first b).symm.trans first
    refine ⟨s, by rw [forEachEntry, freed, none], fun c => ?_⟩
    rw [Chains.pop_chain]
    split
    · rename_i here
      rw [here, List.head?_eq_none_iff.mp none, List.tail_nil]
      exact (here ▸ held c).load.trans (here ▸ none)
    · exact held c
  | some a =>
    have some_ : (x.chain b).head? = some a := (held.first b).symm.trans first
    obtain ⟨popped, next⟩ := held.del first
    refine ⟨s.del a, ?_, popped⟩
    simp only [forEachEntry, freeEntry, next, freed, some_]
    cases fuel <;> rfl

/-- Each bucket loses its first entry, and only that one. -/
theorem hashForEach_freeEntry (fuel : Nat) {order : List B} (distinct : order.Nodup)
    {s : Hlist B A} (held : s.Represents x) :
    ∃ t y, s.hashForEach freeEntry (fuel + 1) order = some (t, order.flatMap (freed x)) ∧
      t.Represents y ∧ ∀ b, y.chain b = if b ∈ order then (x.chain b).tail else x.chain b := by
  induction order generalizing s x with
  | nil => exact ⟨s, x, rfl, held, fun b => by simp⟩
  | cons b order ih =>
    obtain ⟨notLater, distinct⟩ := List.nodup_cons.mp distinct
    obtain ⟨u, walked, popped⟩ := forEachEntry_freeEntry held b fuel
    obtain ⟨t, y, rest, represents, tails⟩ := ih distinct popped
    have others : ∀ c, c ≠ b → (x.pop b).chain c = x.chain c :=
      fun c other => by rw [Chains.pop_chain, if_neg other]
    refine ⟨t, y, ?_, represents, fun c => ?_⟩
    · have same : order.flatMap (freed (x.pop b)) = order.flatMap (freed x) := by
        apply List.flatMap_congr
        intro c mem
        rw [freed, freed, others c fun same => notLater (same ▸ mem)]
      simp only [hashForEach, walked, Option.bind_eq_bind, Option.bind_some, rest, same]
      rfl
    · rw [tails]
      by_cases here : c = b
      · subst here
        simp [notLater, Chains.pop_chain]
      · simp [here, others c here]

/-- Every entry is taken out and freed once. -/
def FreesOnce (x : Chains B A) (t : Hlist B A) (trace : List (Access A)) : Prop :=
  (∀ b, t.first b = none) ∧
    ∀ b, ∀ a ∈ x.chain b, trace.count (.del a) = 1 ∧ trace.count (.kfree a) = 1

/-- No entry is accessed after it was freed. -/
def NeverAfterFree (trace : List (Access A)) : Prop :=
  trace.Pairwise fun e e' => ∀ a, e = .kfree a → e'.entry ≠ a

section
variable {x : Chains B A} {order : List B}

omit [DecidableEq B] in
theorem count_flatMap_freed (distinct : order.Nodup) (mem : b ∈ order) (e : Access A)
    (there : e.entry ∈ x.chain b) :
    (order.flatMap (freed x)).count e = (freed x b).count e := by
  obtain ⟨l, r, rfl⟩ := List.append_of_mem mem
  have elsewhere : ∀ k : List B, b ∉ k → (k.flatMap (freed x)).count e = 0 := by
    intro k absent
    rw [List.count_eq_zero]
    intro shown
    obtain ⟨c, here, shown⟩ := List.mem_flatMap.mp shown
    exact absent (x.apart c b e.entry (mem_freed shown) there ▸ here)
  have apart := (List.nodup_cons.mp (List.nodup_middle.mp distinct)).1
  rw [List.mem_append, not_or] at apart
  rw [List.flatMap_append, List.flatMap_cons, List.count_append, List.count_append,
    elsewhere l apart.1, elsewhere r apart.2, Nat.zero_add, Nat.add_zero]

/-- What the loop does to the chains, when every bucket is visited. -/
structure Emptied (x : Chains B A) (order : List B) (t : Hlist B A) (trace : List (Access A)) :
    Prop where
  shown : trace = order.flatMap (freed x)
  first : ∀ b, t.first b = (x.chain b).tail.head?

omit [DecidableEq B] in
theorem Emptied.freesOnce_iff (emptied : Emptied x order t trace) (distinct : order.Nodup)
    (all : ∀ b, b ∈ order) : FreesOnce x t trace ↔ ∀ b, (x.chain b).length ≤ 1 := by
  obtain ⟨rfl, first⟩ := emptied
  constructor
  · rintro ⟨cleared, _⟩ b
    have none := cleared b
    rw [first, List.head?_eq_none_iff] at none
    have short := congrArg List.length none
    rw [List.length_tail, List.length_nil] at short
    omega
  · intro short
    constructor
    · intro b
      have one := short b
      rw [first, List.head?_eq_none_iff, List.eq_nil_iff_length_eq_zero, List.length_tail]
      omega
    · intro b a mem
      have only : x.chain b = [a] := by
        have one := short b
        match chain : x.chain b with
        | [] => rw [chain] at mem; cases mem
        | [c] => rw [chain] at mem; rw [List.mem_singleton.mp mem]
        | c :: d :: rest => rw [chain, List.length_cons, List.length_cons] at one; omega
      rw [count_flatMap_freed distinct (all b) (.del a) mem,
        count_flatMap_freed distinct (all b) (.kfree a) mem]
      simp [freed, only]

omit [DecidableEq B] [DecidableEq A] in
theorem Emptied.neverAfterFree_iff (emptied : Emptied x order t trace) (all : ∀ b, b ∈ order) :
    NeverAfterFree trace ↔ ∀ b, x.chain b = [] := by
  obtain ⟨rfl, _⟩ := emptied
  constructor
  · intro never b
    cases chain : x.chain b with
    | nil => rfl
    | cons a rest =>
      obtain ⟨l, r, rfl⟩ := List.append_of_mem (all b)
      rw [NeverAfterFree, List.flatMap_append, List.flatMap_cons, List.pairwise_append,
        List.pairwise_append] at never
      have here := never.2.1.1
      simp only [freed, chain, List.head?_cons, List.pairwise_cons] at here
      exact (here.2.1 (.next a) List.mem_cons_self a rfl rfl).elim
  · intro none
    have nothing : order.flatMap (freed x) = [] := by
      rw [List.flatMap_eq_nil_iff]
      intro b _
      rw [freed, none b, List.head?_nil]
    rw [NeverAfterFree, nothing]
    exact List.Pairwise.nil

end

theorem hashForEach_emptied (fuel : Nat) {order : List B} (distinct : order.Nodup)
    (all : ∀ b, b ∈ order) {s : Hlist B A} (held : s.Represents x) :
    ∃ t trace, s.hashForEach freeEntry (fuel + 1) order = some (t, trace) ∧
      Emptied x order t trace := by
  obtain ⟨t, y, walked, represents, tails⟩ := hashForEach_freeEntry fuel distinct held
  refine ⟨t, _, walked, rfl, fun b => ?_⟩
  rw [represents.first, tails, if_pos (all b)]

end

def buckets : List (BitVec 10) := (List.range 1024).map (BitVec.ofNat 10)

theorem mem_buckets (b : BitVec 10) : b ∈ buckets :=
  List.mem_map.mpr ⟨b.toNat, List.mem_range.mpr b.isLt, BitVec.ofNat_toNat 10 b⟩

theorem nodup_buckets : buckets.Nodup := by
  apply List.Nodup.map_on _ List.nodup_range
  intro m small n small' same
  have value := congrArg BitVec.toNat same
  rw [BitVec.toNat_ofNat, BitVec.toNat_ofNat] at value
  rw [List.mem_range] at small small'
  omega

section
variable {A : Type} [DecidableEq A]

/-- The loop of `play_hash_table` that deletes and frees each entry. -/
def KDS.playHashTableTeardown (fuel : Nat) (s : Hlist (BitVec 10) A) :
    Option (Hlist (BitVec 10) A × List (Access A)) := s.hashForEach freeEntry fuel buckets

/-- The loop of `perftop_exit` that deletes and frees each entry. -/
def Perftop.perftopExitTeardown (fuel : Nat) (s : Hlist (BitVec 10) A) :
    Option (Hlist (BitVec 10) A × List (Access A)) := s.hashForEach freeEntry fuel buckets

/-- Both loops end. They free every entry once if no bucket has two, and they never access
a freed entry only if there is none to free. -/
theorem teardown_iff_empty {s : Hlist (BitVec 10) A} (held : s.Represents x) (fuel : Nat)
    (enough : 0 < fuel) :
    ∀ teardown ∈ [KDS.playHashTableTeardown, Perftop.perftopExitTeardown],
      ∃ t trace, teardown fuel s = some (t, trace) ∧
        (FreesOnce x t trace ↔ ∀ b, (x.chain b).length ≤ 1) ∧
        (NeverAfterFree trace ↔ ∀ b, x.chain b = []) ∧
        (FreesOnce x t trace ∧ NeverAfterFree trace ↔ ∀ b, x.chain b = []) := by
  obtain ⟨fuel, rfl⟩ := Nat.exists_eq_add_of_lt enough
  rw [Nat.zero_add]
  obtain ⟨t, trace, walked, emptied⟩ :=
    hashForEach_emptied fuel nodup_buckets mem_buckets held
  have once := emptied.freesOnce_iff nodup_buckets mem_buckets
  have never := emptied.neverAfterFree_iff mem_buckets
  have both : FreesOnce x t trace ∧ NeverAfterFree trace ↔ ∀ b, x.chain b = [] := by
    rw [once, never]
    refine ⟨And.right, fun none => ⟨fun b => ?_, none⟩⟩
    rw [none b]
    exact Nat.zero_le 1
  intro teardown which
  simp only [List.mem_cons, List.not_mem_nil, or_false] at which
  rcases which with rfl | rfl <;> exact ⟨t, trace, walked, once, never, both⟩

def KDS.fill (hash : BitVec 32 → BitVec 10) (s : Hlist (BitVec 10) A)
    (nums : List (BitVec 32 × A)) : Hlist (BitVec 10) A :=
  nums.foldl (fun s (data, toAdd) => s.add (hash data) toAdd) s

namespace KDS
variable (hash : BitVec 32 → BitVec 10)

theorem fill_represents {s : Hlist (BitVec 10) A} (held : s.Represents x)
    (nums : List (BitVec 32 × A)) (fresh : ∀ n ∈ nums, ∀ b, n.2 ∉ x.chain b)
    (distinct : (nums.map Prod.snd).Nodup) :
    ∃ y, (fill hash s nums).Represents y ∧
      ∀ b, (y.chain b).length = (x.chain b).length + (nums.map (hash ·.1)).count b := by
  obtain ⟨y, represents, chains⟩ := held.foldl_add (hash ·.1) Prod.snd nums fresh distinct
  refine ⟨y, represents, fun b => ?_⟩
  rw [chains, List.length_append, List.length_reverse, List.length_map, Nat.add_comm,
    List.count_eq_length_filter, List.filter_map, List.length_map]
  simp [Function.comp_def, BEq.beq]

theorem filled_frees_once_iff {nums : List (BitVec 32 × A)}
    (distinct : (nums.map Prod.snd).Nodup) (fuel : Nat) :
    ∃ x t trace, (fill hash .empty nums).Represents x ∧
      playHashTableTeardown (fuel + 1) (fill hash .empty nums) = some (t, trace) ∧
      (FreesOnce x t trace ↔ (nums.map (hash ·.1)).Nodup) := by
  obtain ⟨x, held, lengths⟩ :=
    fill_represents hash represents_empty nums (fun n _ b => List.not_mem_nil) distinct
  obtain ⟨t, trace, walked, emptied⟩ := hashForEach_emptied fuel nodup_buckets mem_buckets held
  refine ⟨x, t, trace, held, walked, ?_⟩
  rw [emptied.freesOnce_iff nodup_buckets mem_buckets, List.nodup_iff_count_le_one]
  simp only [lengths, Chains.empty, List.length_nil, Nat.zero_add]

end KDS

end

/-- A table with one number is enough: the walk goes on from the entry that it has freed. -/
theorem one_entry_read_after_free : ∃ t, KDS.playHashTableTeardown 1
      (KDS.fill Perftop.hash32 .empty [(7, 4096)]) =
        some (t, [.del 4096, .kfree 4096, .next 4096]) ∧
    ¬ NeverAfterFree [.del 4096, .kfree 4096, .next 4096] := by
  have walked : (KDS.playHashTableTeardown 1
      (KDS.fill Perftop.hash32 .empty [(7, 4096)])).any (fun r =>
        r.2 = [.del 4096, .kfree 4096, .next 4096]) := by decide +kernel
  obtain ⟨⟨t, trace⟩, result, known⟩ := (Option.any_eq_true _ _).mp walked
  obtain rfl : trace = [.del 4096, .kfree 4096, .next 4096] := of_decide_eq_true known
  refine ⟨t, result, fun never => ?_⟩
  rw [NeverAfterFree, List.pairwise_cons, List.pairwise_cons] at never
  exact never.2.1 (.next 4096) List.mem_cons_self 4096 rfl rfl

theorem teardown_iff_empty_twice : ∃ x t trace,
    (KDS.fill Perftop.hash32 .empty [(7, 4096), (7, 8192)]).Represents x ∧
    KDS.playHashTableTeardown 1 (KDS.fill Perftop.hash32 .empty [(7, 4096), (7, 8192)]) =
      some (t, trace) ∧ ¬ FreesOnce x t trace ∧ ¬ NeverAfterFree trace := by
  obtain ⟨x, held, lengths⟩ := KDS.fill_represents Perftop.hash32 represents_empty
    [(7, 4096), (7, 8192)] (fun n _ b => List.not_mem_nil) (by decide)
  have two : (x.chain (Perftop.hash32 7)).length = 2 := by
    rw [lengths]
    decide
  obtain ⟨t, trace, walked, once, never, _⟩ :=
    teardown_iff_empty held 1 Nat.one_pos KDS.playHashTableTeardown List.mem_cons_self
  refine ⟨x, t, trace, held, walked, fun frees => ?_, fun clean => ?_⟩
  · have short := once.mp frees (Perftop.hash32 7)
    omega
  · have none := never.mp clean (Perftop.hash32 7)
    rw [none] at two
    cases two

end CSE306
