import Mathlib.Data.List.Nodup
import Mathlib.Logic.Function.Basic

/-! Chains of entries linked by pointers, one chain for each bucket. An entry also keeps
where the pointer to it is stored, so that it can be unlinked without a walk. -/
namespace CSE306

/-- Where a pointer to an entry is stored. -/
inductive Slot (B A : Type) where
  | head (bucket : B)
  | next (entry : A)
  deriving DecidableEq

/-- The links of an entry. It is in no chain where nothing points to it. -/
structure Links (B A : Type) where
  next : Option A
  pprev : Option (Slot B A)
  deriving DecidableEq

/-- The heads of the buckets and the links of the entries, by address. -/
structure Hlist (B A : Type) where
  first : B → Option A
  links : A → Links B A

/-- Which entries are in which bucket, in order. No entry is in two places. -/
structure Chains (B A : Type) where
  chain : B → List A
  nodup : ∀ b, (chain b).Nodup
  apart : ∀ b c, ∀ a ∈ chain b, a ∈ chain c → b = c

namespace Chains
variable {B A : Type} [DecidableEq B]

def empty : Chains B A := ⟨fun _ => [], fun _ => List.nodup_nil, fun _ _ _ mem => by cases mem⟩

theorem mem_update_cons {chain : B → List A}
    (mem : e ∈ Function.update chain b (a :: chain b) c) : c = b ∧ e = a ∨ e ∈ chain c := by
  rw [Function.update_apply] at mem
  split at mem
  · rename_i same
    rw [same]
    exact (List.mem_cons.mp mem).imp (⟨rfl, ·⟩) id
  · exact .inr mem

theorem mem_update_tail {chain : B → List A}
    (mem : e ∈ Function.update chain b (chain b).tail c) : e ∈ chain c := by
  rw [Function.update_apply] at mem
  split at mem
  · rename_i same
    rw [same]
    exact List.mem_of_mem_tail mem
  · exact mem

/-- The chains with a new entry at the head of one. -/
def push (x : Chains B A) (b : B) (a : A) (fresh : ∀ c, a ∉ x.chain c) : Chains B A where
  chain := Function.update x.chain b (a :: x.chain b)
  nodup c := by
    rw [Function.update_apply]
    split
    · exact List.nodup_cons.mpr ⟨fresh b, x.nodup b⟩
    · exact x.nodup c
  apart c d e mem mem' := by
    cases mem_update_cons mem with
    | inl here =>
      cases mem_update_cons mem' with
      | inl here' => exact here.1.trans here'.1.symm
      | inr old' => exact (fresh d (here.2 ▸ old')).elim
    | inr old =>
      cases mem_update_cons mem' with
      | inl here' => exact (fresh c (here'.2 ▸ old)).elim
      | inr old' => exact x.apart c d e old old'

/-- The chains without the first entry of one. -/
def pop (x : Chains B A) (b : B) : Chains B A where
  chain := Function.update x.chain b (x.chain b).tail
  nodup c := by
    rw [Function.update_apply]
    split
    · exact (x.nodup b).tail
    · exact x.nodup c
  apart c d e mem mem' := x.apart c d e (mem_update_tail mem) (mem_update_tail mem')

theorem pop_chain (x : Chains B A) (b c : B) :
    (x.pop b).chain c = if c = b then (x.chain c).tail else x.chain c := by
  apply (Function.update_apply ..).trans
  split
  · rename_i same
    rw [same]
  · rfl

theorem push_chain (x : Chains B A) (b : B) (a : A) (fresh : ∀ c, a ∉ x.chain c) (c : B) :
    (x.push b a fresh).chain c = if c = b then a :: x.chain c else x.chain c := by
  apply (Function.update_apply ..).trans
  split
  · rename_i same
    rw [same]
  · rfl

end Chains

namespace Hlist
variable {B A : Type} [DecidableEq B] [DecidableEq A]

def empty : Hlist B A := ⟨fun _ => none, fun _ => ⟨none, none⟩⟩

/-- The pointer in a slot. -/
def load (s : Hlist B A) : Slot B A → Option A
  | .head b => s.first b
  | .next a => (s.links a).next

def store (s : Hlist B A) (slot : Slot B A) (target : Option A) : Hlist B A :=
  match slot with
  | .head b => { s with first := Function.update s.first b target }
  | .next a => { s with links := Function.update s.links a { s.links a with next := target } }

/-- Note in an entry, if there is one, where the pointer to it is stored. -/
def setPprev (s : Hlist B A) (entry : Option A) (slot : Slot B A) : Hlist B A :=
  match entry with
  | none => s
  | some a => { s with links := Function.update s.links a { s.links a with pprev := some slot } }

/-- `hlist_add_head` -/
def add (s : Hlist B A) (b : B) (a : A) : Hlist B A :=
  let first := s.first b
  let s := s.store (.next a) first
  let s := s.setPprev first (.next a)
  let s := s.store (.head b) (some a)
  s.setPprev (some a) (.head b)

/-- `hlist_del_init` -/
def del (s : Hlist B A) (a : A) : Hlist B A :=
  match (s.links a).pprev with
  | none => s
  | some slot =>
    let next := (s.links a).next
    let s := s.store slot next
    let s := s.setPprev next slot
    { s with links := Function.update s.links a ⟨none, none⟩ }

/-- From the slot on, the entries are linked in this order. -/
def Path (s : Hlist B A) : Slot B A → List A → Prop
  | slot, [] => s.load slot = none
  | slot, a :: rest => s.load slot = some a ∧ (s.links a).pprev = some slot ∧ s.Path (.next a) rest

def Represents (s : Hlist B A) (x : Chains B A) : Prop := ∀ b, s.Path (.head b) (x.chain b)

omit [DecidableEq B] [DecidableEq A] in
theorem represents_empty : (empty : Hlist B A).Represents .empty := fun _ => rfl

omit [DecidableEq B] [DecidableEq A] in
theorem Path.load {s : Hlist B A} (path : s.Path slot l) : s.load slot = l.head? := by
  cases l with
  | nil => exact path
  | cons => exact path.1

omit [DecidableEq B] [DecidableEq A] in
theorem Represents.first {s : Hlist B A} (held : s.Represents x) (b : B) :
    s.first b = (x.chain b).head? := (held b).load

omit [DecidableEq B] [DecidableEq A] in
theorem Path.congr {s t : Hlist B A} (path : s.Path slot l) (load : t.load slot = s.load slot)
    (links : ∀ a ∈ l, t.links a = s.links a) : t.Path slot l := by
  induction l generalizing slot with
  | nil => exact load.trans path
  | cons a l ih =>
    obtain ⟨here, back, rest⟩ := path
    have same := links a List.mem_cons_self
    refine ⟨load.trans here, by rw [same]; exact back, ih rest ?_ ?_⟩
    · simp only [Hlist.load, same]
    · exact fun e mem => links e (List.mem_cons_of_mem a mem)

omit [DecidableEq B] in
theorem Path.moved {s t : Hlist B A} (path : s.Path slot l) (nodup : l.Nodup)
    (load : t.load slot' = l.head?) (links : ∀ e ∈ l, t.links e =
      if l.head? = some e then { s.links e with pprev := some slot' } else s.links e) :
    t.Path slot' l := by
  cases l with
  | nil => exact load
  | cons q rest =>
    obtain ⟨notRest, _⟩ := List.nodup_cons.mp nodup
    obtain ⟨_, _, path⟩ := path
    have first := links q List.mem_cons_self
    rw [List.head?_cons, if_pos rfl] at first
    refine ⟨load, by rw [first], path.congr (by simp only [Hlist.load, first]) ?_⟩
    intro e mem
    have other : q ≠ e := fun same => notRest (same ▸ mem)
    rw [links e (List.mem_cons_of_mem q mem), List.head?_cons,
      if_neg fun same => other (Option.some.inj same)]

section Add
variable (s : Hlist B A) (b : B) (a : A)

theorem add_first (c : B) : (s.add b a).first c = if c = b then some a else s.first c := by
  unfold add
  cases s.first b <;> exact Function.update_apply ..

theorem add_links (fresh : s.first b ≠ some a) (e : A) : (s.add b a).links e =
    if e = a then ⟨s.first b, some (.head b)⟩
    else if s.first b = some e then { s.links e with pprev := some (.next a) }
    else s.links e := by
  cases first : s.first b with
  | none => by_cases here : e = a <;> simp [add, first, setPprev, store, here]
  | some q =>
    have other : q ≠ a := fun same => fresh (by rw [first, same])
    by_cases here : e = a
    · simp [add, first, setPprev, store, here, Ne.symm other]
    · by_cases old : e = q
      · simp [add, first, setPprev, store, old, other]
      · simp [add, first, setPprev, store, here, old, Ne.symm old]

end Add

/-- `hlist_add_head` puts an entry that is in no chain at the head of one. -/
theorem Represents.add {s : Hlist B A} (held : s.Represents x) (b : B)
    (fresh : ∀ c, a ∉ x.chain c) : (s.add b a).Represents (x.push b a fresh) := by
  have first := held.first b
  have new : s.first b ≠ some a := by
    rw [first]
    exact fun there => fresh b (List.mem_of_head? there)
  have links : ∀ c, ∀ e ∈ x.chain c, (s.add b a).links e =
      if s.first b = some e then { s.links e with pprev := some (.next a) } else s.links e := by
    intro c e mem
    have other : e ≠ a := fun same => fresh c (same ▸ mem)
    rw [add_links s b a new, if_neg other]
  intro c
  by_cases here : c = b
  · subst here
    rw [Chains.push_chain, if_pos rfl]
    refine ⟨by simp only [load, add_first, if_true], by simp [add_links s c a new], ?_⟩
    apply (held c).moved (x.nodup c)
    · simp only [load, add_links s c a new, if_true, first]
    · rw [← first]
      exact links c
  · rw [Chains.push_chain, if_neg here]
    apply (held c).congr
    · simp only [load, add_first, if_neg here]
    · intro e mem
      rw [links c e mem, if_neg]
      rw [first]
      exact fun there => here (x.apart c b e mem (List.mem_of_head? there))

/-- Entries that are put in buckets one after the other. Each chain has the latest first. -/
theorem Represents.foldl_add {s : Hlist B A} (held : s.Represents x) (bucket : C → B)
    (addr : C → A) (l : List C) (fresh : ∀ c ∈ l, ∀ b, addr c ∉ x.chain b)
    (distinct : (l.map addr).Nodup) :
    ∃ y, (l.foldl (fun s c => s.add (bucket c) (addr c)) s).Represents y ∧
      ∀ b, y.chain b = ((l.filter (bucket · = b)).map addr).reverse ++ x.chain b := by
  induction l generalizing s x with
  | nil => exact ⟨x, held, fun _ => rfl⟩
  | cons c l ih =>
    obtain ⟨notLater, distinct⟩ := List.nodup_cons.mp distinct
    have new := fresh c List.mem_cons_self
    obtain ⟨y, represents, chains⟩ := ih (held.add (bucket c) new) (by
      intro d mem b
      rw [Chains.push_chain]
      have old := fresh d (List.mem_cons_of_mem c mem) b
      split
      · rw [List.mem_cons, not_or]
        refine ⟨fun same => notLater ?_, old⟩
        rw [← same]
        exact List.mem_map_of_mem mem
      · exact old) distinct
    refine ⟨y, represents, fun b => ?_⟩
    rw [chains, Chains.push_chain]
    by_cases here : bucket c = b
    · simp [here]
    · simp [here, Ne.symm here]

section Del
variable {s : Hlist B A} {b : B} {a : A} (back : (s.links a).pprev = some (.head b))
include back

theorem del_first (c : B) :
    (s.del a).first c = if c = b then (s.links a).next else s.first c := by
  simp only [del, back]
  cases (s.links a).next <;> exact Function.update_apply ..

theorem del_links (e : A) : (s.del a).links e =
    if e = a then ⟨none, none⟩
    else if (s.links a).next = some e then { s.links e with pprev := some (.head b) }
    else s.links e := by
  simp only [del, back]
  by_cases here : e = a
  · simp [here]
  · cases next : (s.links a).next with
    | none => simp [setPprev, store, here]
    | some q =>
      by_cases old : e = q
      · subst old
        simp [setPprev, store, here]
      · simp [setPprev, store, here, old, Ne.symm old]

end Del

/-- `hlist_del_init` of the first entry of a chain. Its own link is NULL afterwards. -/
theorem Represents.del {s : Hlist B A} (held : s.Represents x) (first : s.first b = some a) :
    (s.del a).Represents (x.pop b) ∧ (s.del a).load (.next a) = none := by
  obtain ⟨rest, chain⟩ : ∃ rest, x.chain b = a :: rest := by
    rw [held.first b] at first
    exact List.head?_eq_some_iff.mp first
  have path := held b
  have nodup := x.nodup b
  rw [chain] at path nodup
  obtain ⟨_, back, path⟩ := path
  have next : (s.links a).next = rest.head? := path.load
  have mine : ∀ e ∈ rest, e ∈ x.chain b := fun e mem => chain ▸ List.mem_cons_of_mem a mem
  constructor
  · intro c
    by_cases here : c = b
    · subst here
      rw [Chains.pop_chain, if_pos rfl, chain, List.tail_cons]
      apply path.moved (List.nodup_cons.mp nodup).2
      · simp only [load, del_first back, if_true, next]
      · intro e mem
        have other : e ≠ a := fun same => (List.nodup_cons.mp nodup).1 (same ▸ mem)
        rw [del_links back, if_neg other, next]
    · rw [Chains.pop_chain, if_neg here]
      apply (held c).congr
      · simp only [load, del_first back, if_neg here]
      · intro e mem
        have other : e ≠ a := by
          intro same
          exact here (x.apart c b e mem (by simp [chain, same]))
        rw [del_links back, if_neg other, if_neg]
        rw [next]
        exact fun there => here (x.apart c b e mem (mine e (List.mem_of_head? there)))
  · simp only [load, del_links back, if_true]

/-- What a walk that also deletes does to an entry. -/
inductive Access (A : Type) where
  | del (entry : A)
  | kfree (entry : A)
  | next (entry : A)
  deriving DecidableEq

def Access.entry : Access A → A
  | .del a => a
  | .kfree a => a
  | .next a => a

/-- `hlist_for_each_entry`: the next entry is read from the current one after the body.
The body may change the links. No result where the walk has more than `fuel` entries. -/
def forEachEntry (body : Hlist B A → A → Hlist B A × List (Access A)) :
    Nat → Hlist B A → Option A → Option (Hlist B A × List (Access A))
  | _, s, none => some (s, [])
  | 0, _, some _ => none
  | fuel + 1, s, some a => do
    let (s, done) := body s a
    let (t, later) ← forEachEntry body fuel s (s.load (.next a))
    return (t, done ++ .next a :: later)

/-- `hash_for_each` over the buckets in their order. A walk that ends leaves its cursor
NULL, so that the next bucket follows. -/
def hashForEach (body : Hlist B A → A → Hlist B A × List (Access A)) (fuel : Nat) :
    List B → Hlist B A → Option (Hlist B A × List (Access A))
  | [], s => some (s, [])
  | b :: rest, s => do
    let (s, done) ← forEachEntry body fuel s (s.first b)
    let (t, later) ← hashForEach body fuel rest s
    return (t, done ++ later)

end Hlist
end CSE306
