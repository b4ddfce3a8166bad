import CSE306.CircularList
import CSE306.KDS.Module

/-! The linked list of the module in memory: entries that are allocated, linked, walked
backwards and freed, against the list of numbers that they stand for. -/
namespace CSE306.KDS
open CircularList

/-- What happens to an entry in the last loop. -/
def retired (x : Item) : List Event := shown .linkedList x ++ [.kfree x.cell]

theorem trace_retired (trace : List Event) (x : Item) (l : List Item) :
    trace ++ (x :: l).flatMap retired = trace ++ [.read x.cell, .printk (.linkedList x.data)] ++
      [.kfree x.cell] ++ l.flatMap retired := by
  simp [retired, shown]

theorem emptyList_retires {l : List Item} (distinct : (l.map Item.cell).Nodup) {k : Kernel}
    (live : ∀ x ∈ l, x.cell ∈ k.live) :
    emptyList l k = some ⟨k.live \ cells l, k.trace ++ l.flatMap retired⟩ := by
  induction l generalizing k with
  | nil => rw [cells_nil, Finset.sdiff_empty, List.flatMap_nil, List.append_nil]; rfl
  | cons x l ih =>
    have here := live x List.mem_cons_self
    have freed := Kernel.kfree_live
      (k := { k with trace := k.trace ++ [.read x.cell, .printk (.linkedList x.data)] }) here
    have rest := ih (k := ⟨k.live.erase x.cell, k.trace ++
      [.read x.cell, .printk (.linkedList x.data)] ++ [.kfree x.cell]⟩)
      (List.nodup_cons.mp distinct).2 (live_erase distinct live)
    rw [emptyList, k.printData_live .linkedList here, sdiff_cells_cons, trace_retired, ← rest]
    simp only [Option.bind_eq_bind, Option.bind_some, freed]

theorem listNode_injective : Function.Injective Cell.listNode := fun _ _ same => by cases same; rfl

theorem playLinkedList_all {fails : Cell → Bool} {nums : List (BitVec 32)}
    (all : ∀ x ∈ items .listNode 0 nums, fails x.cell = false) (k : Kernel) :
    playLinkedList fails nums k = some
      ⟨⟨(k.live ∪ cells (items .listNode 0 nums)) \ cells (items .listNode 0 nums),
        k.trace ++ (items .listNode 0 nums).flatMap retired⟩, 0, []⟩ := by
  have emptied := emptyList_retires (nodup_cells listNode_injective 0 nums)
    (k := { k with live := k.live ∪ cells (items .listNode 0 nums) }) mem_live_cells
  have added : (items .listNode 0 nums).foldl (fun t x => x :: t) [] =
      (items .listNode 0 nums).reverse := by simp
  rw [playLinkedList, allocate_all _ all, added]
  simp only [Option.bind_eq_bind, Option.bind_some, List.reverse_reverse, emptied]
  rfl

/-- Where a `struct list_head` is: the variable `mylinkedlist`, or the member of an
allocated structure. The two addresses that `list_del` leaves behind are no memory. -/
inductive Place where
  | mylinkedlist
  | list (position : Cell)
  | poison1
  | poison2
  deriving DecidableEq

def listPoison : ListHead Place := ⟨.poison1, .poison2⟩

/-- The members of the allocated structures. -/
structure Nodes where
  data : Cell → BitVec 32
  lists : Memory Place

/-- Store the integer, set the node to point to itself first, and add it. The allocated
memory holds anything before. -/
def addEntry (fresh : Cell → ListHead Place) (m : Nodes) (toAdd : Item) : Option Nodes := do
  let place := Place.list toAdd.cell
  let lists := m.lists.replace place (some (fresh toAdd.cell))
  let lists ← lists.initListHead place
  let lists ← lists.listAdd place .mylinkedlist
  return ⟨Function.update m.data toAdd.cell toAdd.data, lists⟩

/-- `list_for_each_entry_safe_reverse`: the entry after the next one is found through
the next one, when `position` has been freed. -/
def emptyNodes : Nat → Place → Place → Kernel → Nodes → Option (Kernel × Nodes)
  | 0, _, _, _, _ => none
  | _ + 1, .mylinkedlist, _, k, m => some (k, m)
  | fuel + 1, .list position, next, k, m => do
    let k ← k.printData .linkedList (some ⟨position, m.data position⟩)
    let lists ← m.lists.listDel listPoison (.list position)
    let k ← k.kfree (some position)
    let lists := lists.replace (.list position) none
    let following ← lists.prev next
    emptyNodes fuel next following k { m with lists := lists }
  | _ + 1, .poison1, _, _, _ | _ + 1, .poison2, _, _, _ => none

/-- `play_linked_list` -/
def playLinkedListNodes (fuel : Nat) (fails : Cell → Bool) (fresh : Cell → ListHead Place)
    (data : Cell → BitVec 32) (nums : List (BitVec 32)) (k : Kernel) : Option (Done Nodes) := do
  let head : ListHead Place := ⟨.mylinkedlist, .mylinkedlist⟩
  let lists := Memory.replace (fun _ => none) Place.mylinkedlist (some head)
  match ← allocate fails .listNode (addEntry fresh) 0 nums k ⟨data, lists⟩ with
  | (k, .error m) => return ⟨k, einval, m⟩
  | (k, .ok m) =>
    let position ← m.lists.prev .mylinkedlist
    let next ← m.lists.prev position
    let (k, m) ← emptyNodes fuel position next k m
    return ⟨k, 0, m⟩

/-- The entries in memory are those of the list, in order; no other memory can be read. -/
structure Nodes.Represents (m : Nodes) (l : List Item) : Prop where
  ring : m.lists.Ring .mylinkedlist (l.map (.list ·.cell))
  data : ∀ x ∈ l, m.data x.cell = x.data
  freed : ∀ c, (∀ x ∈ l, x.cell ≠ c) → m.lists (.list c) = none

namespace Nodes.Represents
variable {m : Nodes} {l : List Item}

theorem place_mem {c : Cell} : Place.list c ∈ l.map (fun x => Place.list x.cell) ↔
    ∃ x ∈ l, x.cell = c := by
  simp [List.mem_map]

theorem addEntry (held : m.Represents l) (fresh : Cell → ListHead Place) (n : BitVec 32)
    (unused : ∀ x ∈ l, x.cell ≠ c) :
    ∃ m', KDS.addEntry fresh m ⟨c, n⟩ = some m' ∧ m'.Represents (⟨c, n⟩ :: l) := by
  have away : Place.list c ∉ Place.mylinkedlist :: l.map (fun x => Place.list x.cell) := by
    rw [List.mem_cons, not_or, place_mem]
    exact ⟨nofun, fun ⟨x, mem, same⟩ => unused x mem same⟩
  let allocated := m.lists.replace (.list c) (some (fresh c))
  obtain ⟨m₁, first, s₁⟩ := Memory.initListHead_stores (m := allocated) (p := .list c)
    (by simp [allocated, Memory.replace])
  have others : ∀ p ∈ Place.mylinkedlist :: l.map (fun x => Place.list x.cell),
      m₁ p = m.lists p := by
    intro p mem
    have other : p ≠ .list c := fun same => away (same ▸ mem)
    rw [s₁.frame p other]
    exact Function.update_of_ne other _ _
  obtain ⟨m₂, second, ring, frame, _⟩ := (held.ring.congr others).listAdd away
    (by rw [s₁.valid]; simp [allocated, Memory.replace])
  refine ⟨⟨Function.update m.data c n, m₂⟩, ?_, ring, ?_, ?_⟩
  · simp only [KDS.addEntry]
    rw [show m.lists.replace (.list c) (some (fresh c)) = allocated from rfl, first]
    simp [second]
  · intro x mem
    rcases List.mem_cons.mp mem with rfl | mem
    · exact Function.update_self ..
    · exact (Function.update_of_ne (unused x mem) _ _).trans (held.data x mem)
  · intro d none
    obtain ⟨here, later⟩ := List.forall_mem_cons.mp none
    have other : Place.list d ≠ .list c := fun same => here (Place.list.inj same).symm
    change m₂ (.list d) = .none
    rw [frame, s₁.frame _ other]
    · exact (Function.update_of_ne other _ _).trans (held.freed d later)
    · rw [List.mem_cons, List.mem_cons, not_or, not_or, place_mem]
      exact ⟨nofun, other, fun ⟨x, mem, same⟩ => later x mem same⟩

end Nodes.Represents

theorem allocate_nodes (fails : Cell → Bool) (fresh : Cell → ListHead Place) (turn : Nat)
    (nums : List (BitVec 32)) (k : Kernel) {m : Nodes} {l : List Item} (held : m.Represents l)
    (before : ∀ x ∈ l, ∃ i < turn, x.cell = .listNode i) :
    ∃ k' m' l', m'.Represents l' ∧
      (allocate fails .listNode (addEntry fresh) turn nums k m = some (k', .ok m') ∧
        allocate fails .listNode (fun t x => some (x :: t)) turn nums k l = some (k', .ok l') ∨
      allocate fails .listNode (addEntry fresh) turn nums k m = some (k', .error m') ∧
        allocate fails .listNode (fun t x => some (x :: t)) turn nums k l =
          some (k', .error l')) := by
  induction nums generalizing turn k m l with
  | nil => exact ⟨k, m, l, held, .inl ⟨rfl, rfl⟩⟩
  | cons n rest ih =>
    cases failed : fails (.listNode turn) with
    | true =>
      refine ⟨k, m, l, held, .inr ?_⟩
      simp only [allocate, k.kmalloc_fails failed, and_self]
    | false =>
      have unused : ∀ x ∈ l, x.cell ≠ .listNode turn := by
        intro x mem same
        obtain ⟨i, small, here⟩ := before x mem
        cases here.symm.trans same
        exact Nat.lt_irrefl _ small
      obtain ⟨m', added, held'⟩ := held.addEntry fresh n unused
      simp only [allocate, k.kmalloc_succeeds failed, added, Option.bind_eq_bind, Option.bind_some]
      refine ih (turn + 1) _ held' ?_
      intro x mem
      rcases List.mem_cons.mp mem with rfl | mem
      · exact ⟨turn, Nat.lt_succ_self turn, rfl⟩
      · obtain ⟨i, small, here⟩ := before x mem
        exact ⟨i, Nat.lt_succ_of_lt small, here⟩

/-- Where the rest of the walk starts. -/
def place : List Item → Place
  | [] => .mylinkedlist
  | x :: _ => .list x.cell

theorem place_cons (x : Item) (l : List Item) : place (x :: l) = .list x.cell := rfl

theorem lastOf_places (l : List Item) :
    Memory.lastOf .mylinkedlist (l.reverse.map (Place.list ·.cell)) = place l := by
  cases l with
  | nil => rfl
  | cons x l => rw [List.reverse_cons, List.map_append]; exact Memory.lastOf_concat ..

theorem Nodes.Represents.prev_place {m : Nodes} (held : m.Represents l.reverse) :
    m.lists.prev .mylinkedlist = some (place l) ∧
      m.lists.prev (place l) = some (place l.tail) := by
  have first := held.ring.links.last
  rw [lastOf_places] at first
  refine ⟨first, ?_⟩
  cases l with
  | nil => exact first
  | cons x l =>
    have links := held.ring.links
    rw [List.reverse_cons, List.map_append] at links
    have back := links.split.1.last
    rwa [lastOf_places] at back

theorem Nodes.Represents.remove {m : Nodes} (held : m.Represents (x :: l).reverse) :
    ∃ lists, m.lists.listDel listPoison (.list x.cell) = some lists ∧
      Nodes.Represents { m with lists := lists.replace (.list x.cell) none } l.reverse := by
  have ring := held.ring
  have nodup := held.ring.nodup
  rw [List.reverse_cons, List.map_append] at ring nodup
  obtain ⟨lists, deleted, ring, frame, _⟩ := ring.listDel (x := .list x.cell) (k := []) listPoison
  rw [List.append_nil] at ring
  obtain ⟨_, distinct⟩ := List.nodup_cons.mp nodup
  have gone : Place.list x.cell ∉ l.reverse.map (fun x => Place.list x.cell) := fun mem =>
    (List.nodup_append.mp distinct).2.2 _ mem _ (List.mem_singleton_self _) rfl
  refine ⟨lists, deleted, ring.congr fun p mem => ?_, ?_, ?_⟩
  · refine Function.update_of_ne ?_ _ _
    rintro rfl
    rcases List.mem_cons.mp mem with same | mem
    · cases same
    · exact gone mem
  · exact fun y mem => held.data y (by rw [List.reverse_cons]; exact List.mem_append_left _ mem)
  · intro c none
    by_cases same : c = x.cell
    · subst same
      exact Function.update_self ..
    · have other : Place.list c ≠ .list x.cell := fun h => same (Place.list.inj h)
      refine (Function.update_of_ne other _ _).trans ?_
      have away : ∀ y ∈ (x :: l).reverse, y.cell ≠ c := by
        intro y mem
        rw [List.reverse_cons] at mem
        rcases List.mem_append.mp mem with mem | mem
        · exact none y mem
        · rw [List.mem_singleton.mp mem]
          exact Ne.symm same
      rw [frame]
      · exact held.freed c away
      · rw [List.mem_cons, not_or, List.mem_append, not_or, place_mem]
        exact ⟨nofun, fun ⟨y, mem, same⟩ => none y mem same, fun mem =>
          other (List.mem_singleton.mp mem)⟩

/-- The loop in memory walks the list from its end, and reads no entry that it has freed. -/
theorem emptyNodes_retires {l : List Item} {m : Nodes} (held : m.Represents l.reverse)
    (distinct : (l.map Item.cell).Nodup) {k : Kernel} (live : ∀ x ∈ l, x.cell ∈ k.live)
    (enough : l.length < fuel) :
    ∃ m', m'.Represents [] ∧ emptyNodes fuel (place l) (place l.tail) k m =
      some (⟨k.live \ cells l, k.trace ++ l.flatMap retired⟩, m') := by
  induction l generalizing fuel m k with
  | nil =>
    cases fuel with
    | zero => exact absurd enough (Nat.not_lt_zero _)
    | succ fuel =>
      refine ⟨m, held, ?_⟩
      simp [emptyNodes, place, cells_nil]
  | cons x l ih =>
    cases fuel with
    | zero => exact absurd enough (Nat.not_lt_zero _)
    | succ fuel =>
      have here := live x List.mem_cons_self
      have item : (⟨x.cell, m.data x.cell⟩ : Item) = x := by rw [held.data x (by simp)]
      obtain ⟨lists, deleted, held'⟩ := held.remove
      have following : (lists.replace (.list x.cell) none).prev (place l) = some (place l.tail) :=
        held'.prev_place.2
      obtain ⟨m', empty, walked⟩ := ih held' (List.nodup_cons.mp distinct).2
        (k := ⟨k.live.erase x.cell, k.trace ++ [.read x.cell, .printk (.linkedList x.data)] ++
          [.kfree x.cell]⟩) (live_erase distinct live) (Nat.lt_of_succ_lt_succ enough)
      have freed := Kernel.kfree_live
        (k := { k with trace := k.trace ++ [.read x.cell, .printk (.linkedList x.data)] }) here
      refine ⟨m', empty, ?_⟩
      rw [sdiff_cells_cons, trace_retired, ← walked, place_cons, List.tail_cons]
      simp only [emptyNodes, item, k.printData_live .linkedList here, Option.bind_eq_bind,
        Option.bind_some, deleted, freed, following]

/-- `play_linked_list` on entries in memory prints the numbers in the order of the array,
frees each entry when it has been printed and reads none after that, whatever was in the
memory; where an allocation fails, the entries allocated so far stay linked. -/
theorem linked_list_in_memory (fails : Cell → Bool) (fresh : Cell → ListHead Place)
    (data : Cell → BitVec 32) (nums : List (BitVec 32)) (k : Kernel) (fuel : Nat)
    (enough : nums.length < fuel) :
    ∃ done m, playLinkedList fails nums k = some done ∧
      playLinkedListNodes fuel fails fresh data nums k = some ⟨done.kernel, done.ret, m⟩ ∧
      m.Represents done.left ∧
      ((∀ x ∈ items .listNode 0 nums, fails x.cell = false) → done.ret = 0 ∧ done.left = [] ∧
        done.kernel = ⟨(k.live ∪ cells (items .listNode 0 nums)) \ cells (items .listNode 0 nums),
          k.trace ++ (items .listNode 0 nums).flatMap retired⟩) ∧
      (¬ (∀ x ∈ items .listNode 0 nums, fails x.cell = false) → done.ret = einval ∧
        done.left = (allocated fails (items .listNode 0 nums)).reverse ∧
        done.kernel = { k with
          live := k.live ∪ cells (allocated fails (items .listNode 0 nums)) }) := by
  have start : (Nodes.mk data (Memory.replace (fun _ => none) Place.mylinkedlist
      (some ⟨.mylinkedlist, .mylinkedlist⟩))).Represents [] := by
    refine ⟨⟨⟨?_, ?_⟩, List.nodup_singleton _⟩, nofun, fun c _ => rfl⟩
    · simp [Memory.next, Memory.replace]
    · simp [Memory.prev, Memory.replace]
  obtain ⟨k', m', l', held, outcome⟩ := allocate_nodes fails fresh 0 nums k start
    nofun
  have listed : allocate fails .listNode (fun t x => some (x :: t)) 0 nums k [] = _ :=
    allocate_eq (fun t x => x :: t) 0 nums k []
  have added : ∀ l : List Item, l.foldl (fun t x => x :: t) [] = l.reverse := fun l => by simp
  simp only [added] at listed
  by_cases all : ∀ x ∈ items .listNode 0 nums, fails x.cell = false
  · rw [if_pos all] at listed
    rcases outcome with ⟨filled, same⟩ | ⟨_, same⟩
    · rw [same] at listed
      cases listed
      have whole : allocated fails (items .listNode 0 nums) = items .listNode 0 nums :=
        List.takeWhile_eq_self_iff.mpr fun x mem => by simp [all x mem]
      obtain ⟨position, next⟩ := held.prev_place
      have short : (items .listNode 0 nums).length < fuel := by rwa [length_items]
      obtain ⟨m, empty, walked⟩ := emptyNodes_retires held
        (nodup_cells listNode_injective 0 nums)
        (k := { k with live := k.live ∪ cells (items .listNode 0 nums) }) mem_live_cells short
      rw [whole] at filled
      refine ⟨_, m, playLinkedList_all all k, ?_, empty, fun _ => ⟨rfl, rfl, rfl⟩, (absurd all ·)⟩
      rw [playLinkedListNodes]
      simp only [Option.bind_eq_bind, Option.bind_some, filled, position, next, walked]
      rfl
    · cases same.symm.trans listed
  · rw [if_neg all] at listed
    rcases outcome with ⟨_, same⟩ | ⟨filled, same⟩
    · cases same.symm.trans listed
    · rw [same] at listed
      cases listed
      refine ⟨⟨_, einval, _⟩, m', ?_, ?_, held, (absurd · all), fun _ => ⟨rfl, rfl, rfl⟩⟩
      · rw [playLinkedList, same]
        rfl
      · rw [playLinkedListNodes]
        simp only [Option.bind_eq_bind, Option.bind_some, filled]
        rfl

theorem linked_list_in_memory_pair : ∃ done m,
    playLinkedList (fun _ => false) [3, 1] ⟨∅, []⟩ = some done ∧
      playLinkedListNodes 3 (fun _ => false) (fun _ => listPoison) (fun _ => 0) [3, 1] ⟨∅, []⟩ =
        some ⟨done.kernel, done.ret, m⟩ ∧ m.Represents [] ∧ done.ret = 0 := by
  obtain ⟨done, m, played, nodes, held, all, _⟩ := linked_list_in_memory (fun _ => false)
    (fun _ => listPoison) (fun _ => 0) [3, 1] ⟨∅, []⟩ 3 (by decide)
  obtain ⟨ret, left, _⟩ := all fun _ _ => rfl
  exact ⟨done, m, played, nodes, left ▸ held, ret⟩

end CSE306.KDS
