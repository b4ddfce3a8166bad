import Mathlib.Data.List.Nodup
import Mathlib.Logic.Function.Basic

/-! Hash tables with a chain of entries in each bucket. New entries go to the head of
their chain, and a search takes the first entry of the chain with its key. -/
namespace CSE306

structure HashTable (B E : Type) where
  buckets : B → List E

namespace HashTable
variable {B E K : Type} (hash : K → B) (key : E → K)

def empty : HashTable B E := ⟨fun _ => []⟩

instance : Membership E (HashTable B E) := ⟨fun t e => ∃ b, e ∈ t.buckets b⟩

/-- Entries are in the chains of their keys, and no two have the same key. -/
structure Keyed (t : HashTable B E) : Prop where
  placed : ∀ b, ∀ e ∈ t.buckets b, hash (key e) = b
  unique : ∀ b, ((t.buckets b).map key).Nodup

theorem keyed_empty : (empty : HashTable B E).Keyed hash key :=
  ⟨fun _ _ mem => absurd mem List.not_mem_nil, fun _ => List.nodup_nil⟩

variable [DecidableEq K]

def find? (t : HashTable B E) (k : K) : Option E := (t.buckets (hash k)).find? (key · = k)

/-- Change the first entry of a chain that has the key. -/
def updateFirst (k : K) (f : E → E) : List E → List E
  | [] => []
  | e :: rest => if key e = k then f e :: rest else e :: updateFirst k f rest

variable {hash key} {t : HashTable B E}

theorem find?_key (found : t.find? hash key k = some e) : key e = k := by
  simpa using List.find?_some found

theorem mem_of_find? (found : t.find? hash key k = some e) : e ∈ t :=
  ⟨hash k, List.mem_of_find?_eq_some found⟩

theorem Keyed.find? (keyed : t.Keyed hash key) (mem : e ∈ t) :
    t.find? hash key (key e) = some e := by
  obtain ⟨b, mem⟩ := mem
  obtain rfl := keyed.placed b e mem
  cases found : t.find? hash key (key e) with
  | none => simpa using List.find?_eq_none.mp found e mem
  | some e' =>
    have same := find?_key found
    rw [List.inj_on_of_nodup_map (keyed.unique _) (List.mem_of_find?_eq_some found) mem same]

/-- No two entries have the same key. -/
theorem Keyed.eq (keyed : t.Keyed hash key) (mem : e ∈ t) (mem' : e' ∈ t)
    (same : key e = key e') : e = e' := by
  have found := keyed.find? mem
  rw [same, keyed.find? mem'] at found
  exact (Option.some.inj found).symm

section UpdateFirst
variable {f : E → E} (keeps : ∀ e, key (f e) = key e)
include keeps

theorem map_updateFirst (k : K) (l : List E) : (updateFirst key k f l).map key = l.map key := by
  induction l with
  | nil => rfl
  | cons e l ih =>
    unfold updateFirst
    split
    · rw [List.map_cons, List.map_cons, keeps]
    · rw [List.map_cons, List.map_cons, ih]

theorem find?_updateFirst (k k' : K) (l : List E) :
    (updateFirst key k f l).find? (key · = k') =
      if k' = k then (l.find? (key · = k')).map f else l.find? (key · = k') := by
  induction l with
  | nil => simp [updateFirst]
  | cons e l ih =>
    unfold updateFirst
    by_cases here : key e = k
    · rw [if_pos here, List.find?_cons, List.find?_cons, keeps]
      by_cases wanted : k' = k
      · simp [wanted, here]
      · have other : key e ≠ k' := fun same => wanted (same.symm.trans here)
        simp [wanted, other]
    · rw [if_neg here, List.find?_cons, List.find?_cons, ih]
      by_cases same : key e = k'
      · have other : k' ≠ k := fun wanted => here (same.trans wanted)
        simp [same, other]
      · simp [same]

end UpdateFirst

variable [DecidableEq B]

def add (hash : K → B) (key : E → K) (t : HashTable B E) (e : E) : HashTable B E :=
  ⟨Function.update t.buckets (hash (key e)) (e :: t.buckets (hash (key e)))⟩

def update (hash : K → B) (key : E → K) (t : HashTable B E) (k : K) (f : E → E) :
    HashTable B E :=
  ⟨Function.update t.buckets (hash k) (updateFirst key k f (t.buckets (hash k)))⟩

omit [DecidableEq K] in
theorem buckets_add (t : HashTable B E) (e : E) (b : B) : (t.add hash key e).buckets b =
    if b = hash (key e) then e :: t.buckets b else t.buckets b := by
  apply (Function.update_apply ..).trans
  split
  · rename_i bucket
    rw [bucket]
  · rfl

theorem buckets_update (t : HashTable B E) (k : K) (f : E → E) (b : B) :
    (t.update hash key k f).buckets b =
      if b = hash k then updateFirst key k f (t.buckets b) else t.buckets b := by
  apply (Function.update_apply ..).trans
  split
  · rename_i bucket
    rw [bucket]
  · rfl

theorem find?_add (t : HashTable B E) (e : E) (k : K) :
    (t.add hash key e).find? hash key k = if key e = k then some e else t.find? hash key k := by
  rw [find?, find?, buckets_add]
  split
  · rw [List.find?_cons]
    split <;> simp_all
  · rename_i bucket
    have other : key e ≠ k := by
      rintro rfl
      exact bucket rfl
    rw [if_neg other]

theorem Keyed.add (keyed : t.Keyed hash key) (new : t.find? hash key (key e) = none) :
    (t.add hash key e).Keyed hash key := by
  refine ⟨fun b e' mem => ?_, fun b => ?_⟩ <;> rw [buckets_add] at *
  · split at mem
    · rename_i bucket
      rcases List.mem_cons.mp mem with rfl | old
      · exact bucket.symm
      · exact keyed.placed b e' old
    · exact keyed.placed b e' mem
  · split
    · rw [List.map_cons]
      refine List.nodup_cons.mpr ⟨fun old => ?_, keyed.unique b⟩
      obtain ⟨e', mem, same⟩ := List.mem_map.mp old
      have found := keyed.find? ⟨b, mem⟩
      rw [same, new] at found
      contradiction
    · exact keyed.unique b

section Update
variable {f : E → E} (keeps : ∀ e, key (f e) = key e)
include keeps

theorem find?_update (t : HashTable B E) (k k' : K) :
    (t.update hash key k f).find? hash key k' =
      if k' = k then (t.find? hash key k').map f else t.find? hash key k' := by
  rw [find?, find?, buckets_update]
  split
  · exact find?_updateFirst keeps k k' _
  · rename_i bucket
    have other : k' ≠ k := by
      rintro rfl
      exact bucket rfl
    rw [if_neg other]

theorem Keyed.update (keyed : t.Keyed hash key) (k : K) :
    (t.update hash key k f).Keyed hash key := by
  have keys : ∀ b, ((t.update hash key k f).buckets b).map key = (t.buckets b).map key := by
    intro b
    rw [buckets_update]
    split
    · exact map_updateFirst keeps k _
    · rfl
  refine ⟨fun b e mem => ?_, fun b => ?_⟩
  · have old : key e ∈ (t.buckets b).map key := by
      rw [← keys]
      exact List.mem_map_of_mem mem
    obtain ⟨e', mem, same⟩ := List.mem_map.mp old
    rw [← same]
    exact keyed.placed b e' mem
  · rw [keys]
    exact keyed.unique b

end Update
end HashTable
end CSE306
