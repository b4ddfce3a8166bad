import Mathlib.Data.List.Nodup
import Mathlib.Order.Lattice

/-! Arrays with few entries, such as radix trees and xarrays: each entry is at an index, and
may be marked. A walk visits the entries in ascending order of their indices. -/
namespace CSE306

structure MarkedArray.Slot (K V : Type) where
  index : K
  entry : V
  marked : Bool

structure MarkedArray (K V : Type) [LinearOrder K] where
  slots : List (MarkedArray.Slot K V)
  ascending : slots.Pairwise (·.index < ·.index)

namespace MarkedArray
variable {K V : Type} [LinearOrder K]

def empty : MarkedArray K V := ⟨[], List.Pairwise.nil⟩

def lookup (t : MarkedArray K V) (i : K) : Option V :=
  (t.slots.find? (·.index = i)).map Slot.entry

/-- Put an unmarked entry at an index. `occupied` says what becomes of one that is there. -/
def putSlot (i : K) (v : V) (occupied : V → V) : List (Slot K V) → List (Slot K V)
  | [] => [⟨i, v, false⟩]
  | s :: rest =>
    if i < s.index then ⟨i, v, false⟩ :: s :: rest
    else if s.index = i then { s with entry := occupied s.entry } :: rest
    else s :: putSlot i v occupied rest

section PutSlot
variable {i : K} {v : V} {occupied : V → V} {l : List (Slot K V)} {s : Slot K V}

theorem mem_putSlot (mem : s ∈ putSlot i v occupied l) :
    s = ⟨i, v, false⟩ ∨ s ∈ l ∨
      ∃ old ∈ l, old.index = i ∧ s = { old with entry := occupied old.entry } := by
  induction l with
  | nil => exact .inl (List.mem_singleton.mp mem)
  | cons head rest ih =>
    rw [putSlot] at mem
    split at mem
    · exact (List.mem_cons.mp mem).imp id .inl
    · split at mem
      · rename_i here
        cases List.mem_cons.mp mem with
        | inl changed => exact .inr (.inr ⟨head, List.mem_cons_self, here, changed⟩)
        | inr old => exact .inr (.inl (List.mem_cons_of_mem head old))
      · cases List.mem_cons.mp mem with
        | inl same => exact .inr (.inl (same ▸ List.mem_cons_self))
        | inr later =>
          rcases ih later with new | old | ⟨old, there, here, changed⟩
          · exact .inl new
          · exact .inr (.inl (List.mem_cons_of_mem head old))
          · exact .inr (.inr ⟨old, List.mem_cons_of_mem head there, here, changed⟩)

theorem mem_map_index_putSlot (j : K) :
    j ∈ (putSlot i v occupied l).map Slot.index ↔ j = i ∨ j ∈ l.map Slot.index := by
  induction l with
  | nil => simp [putSlot]
  | cons head rest ih =>
    rw [putSlot]
    split
    · rw [List.map_cons, List.mem_cons]
    · split
      · rename_i here
        simp [here]
      · rw [List.map_cons, List.mem_cons, ih, List.map_cons, List.mem_cons]
        exact or_left_comm

theorem putSlot_ascending (ascending : l.Pairwise (·.index < ·.index)) :
    (putSlot i v occupied l).Pairwise (·.index < ·.index) := by
  induction l with
  | nil => exact List.pairwise_singleton _ _
  | cons head rest ih =>
    obtain ⟨first, later⟩ := List.pairwise_cons.mp ascending
    rw [putSlot]
    split
    · rename_i before
      refine List.pairwise_cons.mpr ⟨fun s mem => ?_, ascending⟩
      cases List.mem_cons.mp mem with
      | inl same => exact same ▸ before
      | inr mem => exact lt_trans before (first s mem)
    · split
      · exact List.pairwise_cons.mpr ⟨first, later⟩
      · rename_i notBefore other
        refine List.pairwise_cons.mpr ⟨fun s mem => ?_, ih later⟩
        cases (mem_map_index_putSlot s.index).mp (List.mem_map_of_mem mem) with
        | inl new => exact new ▸ lt_of_le_of_ne (not_lt.mp notBefore) other
        | inr old =>
          obtain ⟨s', mem, same⟩ := List.mem_map.mp old
          exact same ▸ first s' mem

end PutSlot

def put (t : MarkedArray K V) (i : K) (v : V) (occupied : V → V) : MarkedArray K V :=
  ⟨putSlot i v occupied t.slots, putSlot_ascending t.ascending⟩

def delete (t : MarkedArray K V) (i : K) : MarkedArray K V :=
  ⟨t.slots.filter (·.index ≠ i), t.ascending.sublist List.filter_sublist⟩

/-- Mark the entry at an index, if there is one. -/
def setMark (t : MarkedArray K V) (i : K) : MarkedArray K V where
  slots := t.slots.map fun s => if s.index = i then { s with marked := true } else s
  ascending := by
    apply List.pairwise_map.mpr
    apply t.ascending.imp
    intro s s' before
    split <;> split <;> exact before

/-- The marked entries, as a walk visits them. -/
def markedEntries (t : MarkedArray K V) : List V := (t.slots.filter (·.marked)).map Slot.entry

variable {t : MarkedArray K V} {i : K} {s s' : Slot K V}

/-- There is one slot at an index. -/
theorem slot_eq (mem : s ∈ t.slots) (mem' : s' ∈ t.slots) (same : s.index = s'.index) : s = s' := by
  have distinct : (t.slots.map Slot.index).Nodup :=
    List.pairwise_map.mpr (t.ascending.imp ne_of_lt)
  exact List.inj_on_of_nodup_map distinct mem mem' same

theorem lookup_slot (mem : s ∈ t.slots) : t.lookup s.index = some s.entry := by
  rw [lookup]
  cases found : t.slots.find? (·.index = s.index) with
  | none => simpa using List.find?_eq_none.mp found s mem
  | some s' =>
    have same : s'.index = s.index := by simpa using List.find?_some found
    rw [slot_eq (List.mem_of_find?_eq_some found) mem same]
    rfl

theorem lookup_absent (absent : ∀ s ∈ t.slots, s.index ≠ i) : t.lookup i = none := by
  have none : t.slots.find? (·.index = i) = none :=
    List.find?_eq_none.mpr fun s mem => by simpa using absent s mem
  rw [lookup, none]
  rfl

theorem mem_delete : s ∈ (t.delete i).slots ↔ s ∈ t.slots ∧ s.index ≠ i := by
  rw [delete, List.mem_filter, decide_eq_true_eq]

theorem mem_setMark (mem : s ∈ (t.setMark i).slots) :
    ∃ old ∈ t.slots, s.index = old.index ∧ s.entry = old.entry ∧
      (s.marked = true ↔ old.marked = true ∨ s.index = i) := by
  obtain ⟨old, there, rfl⟩ := List.mem_map.mp mem
  refine ⟨old, there, ?_⟩
  split
  · rename_i here
    simp [here]
  · rename_i other
    simp [other]

theorem setMark_present (mem : s ∈ t.slots) (i : K) :
    ∃ s' ∈ (t.setMark i).slots, s'.index = s.index := by
  refine ⟨_, List.mem_map_of_mem mem, ?_⟩
  split <;> rfl

end MarkedArray
end CSE306
