import CSE306.RefCount
import CSE306.Transition

/-! The directory tree of a mounted file system: the inodes and dentries that the module makes,
with their reference counts, from `s2fs_fill_super` to `kill_litter_super`. -/
namespace CSE306.S2FS
open RefCount Transition

/-- An inode or a dentry, by the allocation that made it. -/
inductive Obj where
  | inode (k : Nat)
  | dentry (k : Nat)
  deriving DecidableEq

theorem inode_ne_dentry (j k : Nat) : Obj.inode j ≠ .dentry k := nofun

/-- The tables of operations that an inode can have. -/
inductive Ops where
  | simpleDirInode
  | simpleDir
  | s2fs
  deriving DecidableEq

structure Inode where
  mode : BitVec 32
  iOp : Option Ops
  iFop : Option Ops
  deriving DecidableEq

/-- A dentry with its parent, which is NULL for the root, and its inode, NULL until `d_add`. -/
structure Dentry where
  parent : Option Obj
  name : String
  inode : Option Obj
  deriving DecidableEq

inductive Data where
  | inode (i : Inode)
  | dentry (d : Dentry)
  deriving DecidableEq

/-- A dentry holds a reference to its parent and to its inode. -/
def holds : Data → List Obj
  | .inode _ => []
  | .dentry d => d.inode.toList ++ d.parent.toList

/-- What is live of the file system, how many allocations were tried, and `s_root`. -/
structure Super where
  store : Store Obj Data
  tried : Nat
  sRoot : Option Obj

namespace Super

/-- `dput` or `iput`, which free what has no reference left. A second free has no result. -/
def put (s : Super) (o : Obj) : Option Super :=
  (drop holds ((refs holds s.store).length + 1) s.store [o]).map fun store => { s with store }

variable (fails : Nat → Bool)

/-- An inode or a dentry of this kind, unless the allocation fails. -/
def make (s : Super) (kind : Nat → Obj) (data : Data) : Super × Option Obj :=
  if fails s.tried then ({ s with tried := s.tried + 1 }, none)
  else ({ s with
    store := alloc s.store (kind s.tried) data
    tried := s.tried + 1 }, some (kind s.tried))

/-- `new_inode` -/
def newInode (s : Super) : Super × Option Obj := s.make fails .inode (.inode ⟨0, none, none⟩)

/-- `d_alloc_name`, which reads `d_sb` of the parent before it allocates. -/
def dAllocName (s : Super) (parent : Option Obj) (name : String) :
    Option (Super × Option Obj) := do
  let parent ← parent
  let _ ← find s.store parent
  match s.make fails .dentry (.dentry ⟨some parent, name, none⟩) with
  | (s, none) => return (s, none)
  | (s, some dentry) =>
    let store ← get s.store parent
    return ({ s with store }, some dentry)

/-- `d_make_root`, which drops the inode if it fails. -/
def dMakeRoot (s : Super) (inode : Obj) : Option (Super × Option Obj) :=
  match s.make fails .dentry (.dentry ⟨none, "/", some inode⟩) with
  | (s, none) => (s.put inode).map (·, none)
  | (s, some dentry) => some (s, some dentry)

/-- An assignment to fields of an inode. -/
def setInode (s : Super) (inode : Obj) (f : Inode → Inode) : Option Super :=
  match find s.store inode with
  | some ⟨_, _, .inode i⟩ => some { s with store := setData s.store inode (.inode (f i)) }
  | _ => none

/-- `d_add`, to which the reference to the inode goes over. -/
def dAdd (s : Super) (dentry inode : Obj) : Option Super :=
  match find s.store dentry with
  | some ⟨_, _, .dentry d⟩ =>
    some { s with store := setData s.store dentry (.dentry { d with inode := some inode }) }
  | _ => none

def s2fsMakeInode (s : Super) (mode : BitVec 32) : Option (Super × Option Obj) :=
  match s.newInode fails with
  | (s, none) => some (s, none)
  | (s, some ret) => (s.setInode ret ({ · with mode })).map (·, some ret)

/-- What `s2fs_create_dir` and `s2fs_create_file` share. They differ in the inode. -/
def create (s : Super) (parent : Option Obj) (name : String) (made : Inode) :
    Option (Super × Option Obj) := do
  let (s, dentry) ← s.dAllocName fails parent name
  match dentry with
  | none => return (s, none)
  | some dentry =>
    let (s, inode) ← s.s2fsMakeInode fails made.mode
    match inode with
    | none =>
      let s ← s.put dentry
      return (s, none)
    | some inode =>
      let s ← s.setInode inode fun i => { i with iOp := made.iOp, iFop := made.iFop }
      let s ← s.dAdd dentry inode
      return (s, some dentry)

/-- `S_IFDIR | 0755` with the operations of a directory -/
def directory : Inode := ⟨0o040755, some .simpleDirInode, some .simpleDir⟩

/-- `S_IFREG | 0755` with the file operations of the module -/
def regular : Inode := ⟨0o100755, none, some .s2fs⟩

def s2fsCreateDir (s : Super) (parent : Option Obj) (dirname : String) :=
  s.create fails parent dirname directory

def s2fsCreateFile (s : Super) (dir : Option Obj) (filename : String) :=
  s.create fails dir filename regular

/-- `-ENOMEM` -/
def enomem : BitVec 32 := -12

def s2fsFillSuper (s : Super) : Option (Super × BitVec 32) := do
  let (s, root) ← s.s2fsMakeInode fails directory.mode
  match root with
  | none => return (s, enomem)
  | some root =>
    let s ← s.setInode root fun i => { i with iOp := directory.iOp, iFop := directory.iFop }
    let (s, rootDentry) ← s.dMakeRoot fails root
    match rootDentry with
    | none =>
      let s ← s.put root
      return (s, enomem)
    | some rootDentry =>
      let s := { s with sRoot := some rootDentry }
      let (s, fooDentry) ← s.s2fsCreateDir fails (some rootDentry) "foo"
      let (s, _) ← s.s2fsCreateFile fails fooDentry "bar"
      return (s, 0)

def dentries (s : Super) : List Obj :=
  s.store.filterMap fun c => match c.data with
    | .dentry _ => some c.addr
    | .inode _ => none

/-- `d_genocide` drops the reference that each dentry below the root was made with, then the
root itself is put. -/
def killLitterSuper (s : Super) : Option Super :=
  match s.sRoot with
  | none => some s
  | some root =>
    let pinned := s.dentries.filter (· != root) ++ [root]
    (drop holds (pinned ++ refs holds s.store).length s.store pinned).map fun store =>
      { s with store, sRoot := none }

def empty : Super := ⟨[], 0, none⟩

/-- `mount_nodev` with `s2fs_fill_super`: after an error the super block is killed. -/
def s2fsGetSuper : Option (Super × BitVec 32) := do
  let (s, ret) ← s2fsFillSuper fails empty
  if ret ≠ 0 then
    let s ← s.killLitterSuper
    return (s, ret)
  else return (s, ret)

section Create
variable {fails}

def Obj.number : Obj → Nat
  | .inode k | .dentry k => k

/-- Every object was made by an earlier allocation. -/
def Numbered (s : Super) : Prop := ∀ c ∈ s.store, Obj.number c.addr < s.tried

theorem Numbered.fresh {s : Super} (numbered : s.Numbered) (later : s.tried ≤ Obj.number o) :
    find s.store o = none := by
  refine find_eq_none.mpr fun c mem same => ?_
  have before := numbered c mem
  rw [same] at before
  exact Nat.not_lt.mpr later before

/-- The file system with one more entry. -/
def created (s : Super) (parent : Obj) (name : String) (made : Inode) : Super where
  store := ⟨.inode (s.tried + 1), 1, .inode made⟩ ::
    ⟨.dentry s.tried, 1, .dentry ⟨some parent, name, some (.inode (s.tried + 1))⟩⟩ ::
      modify s.store parent Cell.more
  tried := s.tried + 2
  sRoot := s.sRoot

theorem dAllocName_eq {s : Super} (numbered : s.Numbered) (live : find s.store parent = some c)
    (name : String) : s.dAllocName fails (some parent) name =
      if fails s.tried then some ({ s with tried := s.tried + 1 }, none)
      else some ({ s with
        store := ⟨.dentry s.tried, 1, .dentry ⟨some parent, name, none⟩⟩ ::
          modify s.store parent Cell.more
        tried := s.tried + 1 }, some (.dentry s.tried)) := by
  have other : Obj.dentry s.tried ≠ parent := by
    rintro rfl
    rw [numbered.fresh le_rfl] at live
    cases live
  simp only [dAllocName, Option.bind_eq_bind, Option.bind_some, live, make]
  by_cases failed : fails s.tried
  · simp only [if_pos failed]
    rfl
  · simp only [if_neg failed, RefCount.get, alloc, find_cons, if_neg other, live, Option.map_some,
      Option.bind_some]
    simp only [RefCount.modify, List.map_cons, if_neg other]
    rfl

theorem setInode_last {rest : Store Obj Data} (absent : find rest o = none) (k tried : Nat)
    (sRoot : Option Obj) (i : Inode) (f : Inode → Inode) :
    setInode ⟨⟨o, k, .inode i⟩ :: rest, tried, sRoot⟩ o f =
      some ⟨⟨o, k, .inode (f i)⟩ :: rest, tried, sRoot⟩ := by
  have changed := modify_self (f := ({ · with data := .inode (f i) }))
    (c := ⟨o, k, Data.inode i⟩) absent
  rw [setInode]
  simp only [find_cons, if_true, RefCount.setData]
  rw [changed]

theorem dAdd_second {rest : Store Obj Data} (absent : find rest o = none) (last : Cell Obj Data)
    (other : last.addr ≠ o) (k tried : Nat) (sRoot : Option Obj) (d : Dentry) (inode : Obj) :
    dAdd ⟨last :: ⟨o, k, .dentry d⟩ :: rest, tried, sRoot⟩ o inode =
      some ⟨last :: ⟨o, k, .dentry { d with inode := some inode }⟩ :: rest, tried, sRoot⟩ := by
  have changed := modify_self
    (f := ({ · with data := Data.dentry { d with inode := some inode } }))
    (c := ⟨o, k, Data.dentry d⟩) absent
  rw [dAdd]
  simp only [find_cons, if_true, if_neg other, RefCount.setData]
  rw [modify_of_ne other, changed]

/-- Where both allocations succeed there is one more entry, and where one fails nothing has
changed. -/
theorem create_eq {s : Super} (numbered : s.Numbered) (live : find s.store parent = some c)
    (positive : ∀ c ∈ s.store, 0 < c.count) (name : String) (made : Inode) :
    s.create fails (some parent) name made =
      if fails s.tried then some ({ s with tried := s.tried + 1 }, none)
      else if fails (s.tried + 1) then some ({ s with tried := s.tried + 2 }, none)
      else some (s.created parent name made, some (.dentry s.tried)) := by
  have differs {o : Obj} (unknown : find s.store o = none) : o ≠ parent := by
    rintro rfl
    rw [unknown] at live
    cases live
  have dentry := numbered.fresh (o := .dentry s.tried) le_rfl
  have inode := numbered.fresh (o := .inode (s.tried + 1)) (Nat.le_succ _)
  have fresh : find (RefCount.modify s.store parent Cell.more) (.dentry s.tried) = none :=
    (find_modify_of_ne Cell.more (fun _ => rfl) (differs dentry)).trans dentry
  have fresh' : find (RefCount.modify s.store parent Cell.more) (.inode (s.tried + 1)) = none :=
    (find_modify_of_ne Cell.more (fun _ => rfl) (differs inode)).trans inode
  rw [create, dAllocName_eq numbered live]
  by_cases failed : fails s.tried
  · simp only [if_pos failed]
    rfl
  simp only [if_neg failed, Option.bind_eq_bind, Option.bind_some, s2fsMakeInode, newInode, make]
  by_cases failed' : fails (s.tried + 1)
  · have taken : RefCount.get s.store parent = some (RefCount.modify s.store parent Cell.more) := by
      rw [RefCount.get, live]
      rfl
    have undone := drop_alloc holds fresh (.dentry ⟨some parent, name, none⟩)
      ((refs holds (RefCount.modify s.store parent Cell.more)).length + 1)
    rw [show holds (.dentry ⟨some parent, name, none⟩) = [parent] from rfl,
      drop_get holds taken positive] at undone
    have put : put ⟨⟨.dentry s.tried, 1, .dentry ⟨some parent, name, none⟩⟩ ::
        RefCount.modify s.store parent Cell.more, s.tried + 1 + 1, s.sRoot⟩ (.dentry s.tried) =
        some { s with tried := s.tried + 2 } := by
      rw [Super.put, refs, List.flatMap_cons]
      simp only [List.length_append]
      rw [show (holds (.dentry ⟨some parent, name, none⟩)).length = 1 from rfl, Nat.add_comm 1]
      exact congrArg (Option.map _) undone
    simp only [if_pos failed', put, Option.bind_some]
    rfl
  · have other := inode_ne_dentry (s.tried + 1) s.tried
    have absent : find (⟨.dentry s.tried, 1, .dentry ⟨some parent, name, none⟩⟩ ::
        RefCount.modify s.store parent Cell.more) (.inode (s.tried + 1)) = none := by
      rw [find_cons, if_neg other.symm, fresh']
    simp only [if_neg failed', alloc, setInode_last absent, Option.map_some, Option.bind_some]
    rw [dAdd_second fresh _ other]
    rfl

end Create

section Tree
variable {fails}

/-- References go to objects of lower rank. -/
def Obj.rank : Obj → Nat
  | .inode _ => 0
  | .dentry k => k + 1

/-- A tree in which each dentry is held once from outside, and whose objects are counted for
the references to them. -/
structure Tree (s : Super) : Prop where
  numbered : s.Numbered
  balanced : Balanced holds s.dentries s.store
  lower : ∀ c ∈ s.store, ∀ o ∈ holds c.data, Obj.rank o < Obj.rank c.addr
  rooted : ∃ root ∈ s.dentries, s.sRoot = some root

theorem dentries_created (s : Super) (parent : Obj) (name : String) (made : Inode) :
    (s.created parent name made).dentries = .dentry s.tried :: s.dentries := by
  simp only [dentries, created, List.filterMap_cons, RefCount.modify, List.filterMap_map]
  refine congrArg _ (List.filterMap_congr fun c _ => ?_)
  by_cases same : c.addr = parent
  · simp only [Function.comp_apply, if_pos same]
    rfl
  · simp only [Function.comp_apply, if_neg same]

theorem rank_le (o : Obj) : Obj.rank o ≤ Obj.number o + 1 := by
  cases o with
  | inode k => exact Nat.zero_le _
  | dentry k => exact le_rfl

theorem Tree.created {s : Super} (tree : s.Tree) (here : parent ∈ s.dentries) (name : String)
    (made : Inode) : (s.created parent name made).Tree := by
  obtain ⟨numbered, balanced, lower, root, rooted, same⟩ := tree
  obtain ⟨c, live⟩ := balanced.live here
  have dentry := numbered.fresh (o := .dentry s.tried) le_rfl
  have inode := numbered.fresh (o := .inode (s.tried + 1)) (Nat.le_succ _)
  have differs {o : Obj} (unknown : find s.store o = none) : o ≠ parent := by
    rintro rfl
    rw [unknown] at live
    cases live
  have fresh : find (RefCount.modify s.store parent Cell.more) (.dentry s.tried) = none :=
    (find_modify_of_ne Cell.more (fun _ => rfl) (differs dentry)).trans dentry
  have fresh' : find (RefCount.modify s.store parent Cell.more) (.inode (s.tried + 1)) = none :=
    (find_modify_of_ne Cell.more (fun _ => rfl) (differs inode)).trans inode
  refine ⟨?_, ?_, ?_, root, ?_, same⟩
  · intro d mem
    simp only [Super.created, List.mem_cons] at mem ⊢
    rcases mem with rfl | rfl | old
    · exact Nat.lt_succ_self _
    · exact Nat.lt_succ_of_lt (Nat.lt_succ_self _)
    · obtain ⟨d, older, rfl⟩ := List.mem_map.mp old
      have before := numbered d older
      split
      · exact before.trans (Nat.lt_succ_of_lt (Nat.lt_succ_self _))
      · exact before.trans (Nat.lt_succ_of_lt (Nat.lt_succ_self _))
  · rw [dentries_created]
    have other := inode_ne_dentry (s.tried + 1) s.tried
    obtain ⟨t, taken, shared⟩ := balanced.get live
    rw [RefCount.get, live] at taken
    cases taken
    have entered : Balanced holds (.dentry s.tried :: s.dentries)
        (alloc (RefCount.modify s.store parent Cell.more) (.dentry s.tried)
          (.dentry ⟨some parent, name, none⟩)) := Balanced.alloc _ shared fresh
    have unmade : find (alloc (RefCount.modify s.store parent Cell.more) (.dentry s.tried)
        (.dentry ⟨some parent, name, none⟩)) (.inode (s.tried + 1)) = none := by
      rw [alloc, find_cons, if_neg other.symm, fresh']
    have filled := Balanced.alloc (Data.inode made) entered unmade
    have known : find (alloc (alloc (RefCount.modify s.store parent Cell.more) (.dentry s.tried)
        (.dentry ⟨some parent, name, none⟩)) (.inode (s.tried + 1)) (.inode made))
        (.dentry s.tried) = some ⟨.dentry s.tried, 1, .dentry ⟨some parent, name, none⟩⟩ := by
      rw [alloc, find_cons, if_neg other, alloc, find_cons, if_pos rfl]
    have linked := Balanced.setData [Obj.inode (s.tried + 1)]
      (Data.dentry ⟨some parent, name, some (.inode (s.tried + 1))⟩) filled known
      (List.Perm.refl _)
    rw [RefCount.setData, alloc, modify_of_ne other, alloc, modify_self fresh] at linked
    exact linked
  · intro d mem
    simp only [Super.created, List.mem_cons] at mem
    rcases mem with rfl | rfl | old
    · intro o mem
      cases mem
    · intro o mem
      simp only [holds, Option.toList_some, List.singleton_append, List.mem_cons,
        List.not_mem_nil, or_false] at mem
      rcases mem with rfl | rfl
      · exact Nat.succ_pos _
      · obtain ⟨mem, place⟩ := mem_of_find live
        have before := numbered c mem
        rw [place] at before
        exact Nat.lt_succ_of_le ((rank_le o).trans before)
    · obtain ⟨d, older, rfl⟩ := List.mem_map.mp old
      have before := lower d older
      split <;> exact before
  · rw [dentries_created]
    exact List.mem_cons_of_mem _ rooted

theorem nodup_dentries {s : Super} (balanced : Balanced holds held s.store) :
    s.dentries.Nodup := by
  have sublist : s.dentries.Sublist (s.store.map Cell.addr) := by
    unfold dentries
    induction s.store with
    | nil => exact List.Sublist.refl _
    | cons c rest ih =>
      obtain ⟨addr, k, data⟩ := c
      cases data with
      | inode => exact ih.cons _
      | dentry => exact ih.cons_cons _
  exact balanced.distinct.sublist sublist

/-- The unmount frees every dentry and every inode, each once. -/
theorem Tree.killed {s : Super} (tree : s.Tree) :
    s.killLitterSuper = some ⟨[], s.tried, none⟩ := by
  obtain ⟨numbered, balanced, lower, root, rooted, same⟩ := tree
  have pinned : s.dentries.Perm (s.dentries.filter (· != root) ++ [root]) := by
    have whole := List.perm_cons_erase rooted
    rw [(nodup_dentries balanced).erase_eq_filter] at whole
    exact whole.trans (List.perm_append_singleton _ _).symm
  have held := balanced.perm (pinned.trans (List.Perm.of_eq (List.append_nil _).symm))
  obtain ⟨t, dropped, rest, kept⟩ := held.drop le_rfl
  have gone : t = [] := rest.eq_nil Obj.rank fun c mem o refers => by
    obtain ⟨d, old, place, data⟩ := kept c mem
    rw [← place]
    exact lower d old o (data ▸ refers)
  rw [killLitterSuper, same]
  simp only [dropped, gone]
  rfl

def inodeAt (s : Super) (o : Obj) : Option Inode :=
  (find s.store o).bind fun c => match c.data with
    | .inode i => some i
    | .dentry _ => none

/-- A file or a directory as a reader of the tree finds it. -/
structure Listed where
  dentry : Obj
  parent : Option Obj
  name : String
  inode : Option Inode
  deriving DecidableEq

def listed (inodeAt : Obj → Option Inode) (c : Cell Obj Data) : Option Listed :=
  match c.data with
  | .dentry d => some ⟨c.addr, d.parent, d.name, d.inode.bind inodeAt⟩
  | .inode _ => none

/-- All files and directories, the last one first. -/
def listing (s : Super) : List Listed := s.store.filterMap (listed s.inodeAt)

theorem inodeAt_created {s : Super} (numbered : s.Numbered) (live : find s.store o = some c)
    (parent : Obj) (name : String) (made : Inode) :
    (s.created parent name made).inodeAt o = s.inodeAt o := by
  have before := numbered c (mem_of_find live).1
  rw [(mem_of_find live).2] at before
  have notInode : Obj.inode (s.tried + 1) ≠ o := by
    rintro rfl
    exact absurd before (Nat.not_lt.mpr (Nat.le_succ _))
  have notDentry : Obj.dentry s.tried ≠ o := by
    rintro rfl
    exact absurd before (Nat.lt_irrefl _)
  simp only [inodeAt, Super.created, find_cons, if_neg notInode, if_neg notDentry]
  by_cases here : o = parent
  · subst here
    rw [find_modify live Cell.more fun _ => rfl, live]
    rfl
  · rw [find_modify_of_ne Cell.more (fun _ => rfl) here]

theorem listing_created {s : Super} (tree : s.Tree) (parent : Obj) (name : String)
    (made : Inode) : (s.created parent name made).listing =
      ⟨.dentry s.tried, some parent, name, some made⟩ :: s.listing := by
  have new : (s.created parent name made).inodeAt (.inode (s.tried + 1)) = some made := by
    simp [inodeAt, Super.created, find_cons]
  have old : ∀ c ∈ s.store, listed (s.created parent name made).inodeAt c =
      listed s.inodeAt c := by
    intro c mem
    unfold listed
    split
    · rename_i d data
      cases known : d.inode with
      | none => rfl
      | some o =>
        have refers : o ∈ refs holds s.store :=
          List.mem_flatMap.mpr ⟨c, mem, by simp [data, holds, known]⟩
        obtain ⟨e, here, rfl⟩ := tree.balanced.closed o (List.mem_append_right _ refers)
        rw [Option.bind_some, Option.bind_some,
          inodeAt_created tree.numbered (find_of_mem tree.balanced.distinct here)]
    · rfl
  have rest : (RefCount.modify s.store parent Cell.more).filterMap
      (listed (s.created parent name made).inodeAt) = s.listing := by
    rw [RefCount.modify, List.filterMap_map]
    refine List.filterMap_congr fun c mem => ?_
    rw [← old c mem, Function.comp_apply]
    split <;> rfl
  have first : listed (s.created parent name made).inodeAt
      ⟨.dentry s.tried, 1, .dentry ⟨some parent, name, some (.inode (s.tried + 1))⟩⟩ =
      some ⟨.dentry s.tried, some parent, name, some made⟩ := by
    rw [← new]
    rfl
  rw [← rest]
  exact (List.filterMap_cons_none rfl).trans (List.filterMap_cons_some first)

/-- A call of `s2fs_create_dir` or `s2fs_create_file`, with what it returns. -/
structure Creation where
  parent : Obj
  name : String
  made : Inode
  ret : Option Obj

def Creation.listed (e : Creation) : Option Listed :=
  e.ret.map (⟨·, some e.parent, e.name, some e.made⟩)

theorem Creation.toList_listed (e : Creation) :
    e.listed.toList = ([e].filterMap Creation.listed).reverse := by
  obtain ⟨parent, name, made, ret⟩ := e
  cases ret <;> rfl

/-- One more call, for a directory or file that is there. -/
inductive Step (fails : Nat → Bool) : Super → Option Creation → Super → Prop where
  | create : parent ∈ s.dentries → s.create fails (some parent) name made = some (t, ret) →
      Step fails s (some ⟨parent, name, made, ret⟩) t

/-- A call with these arguments, if the parent is there. -/
def step (fails : Nat → Bool) (s : Super) (call : Obj × String × Inode) :
    Option (Super × Option Creation) :=
  if call.1 ∈ s.dentries then
    (s.create fails (some call.1) call.2.1 call.2.2).map fun (t, ret) =>
      (t, some ⟨call.1, call.2.1, call.2.2, ret⟩)
  else none

theorem step_sound {s : Super} (moved : s.step fails call = some (t, e)) : Step fails s e t := by
  unfold step at moved
  split at moved
  · rename_i here
    obtain ⟨⟨t, ret⟩, called, same⟩ := Option.map_eq_some_iff.mp moved
    cases same
    exact .create here called
  · cases moved

theorem Tree.create {s : Super} (tree : s.Tree) (here : parent ∈ s.dentries) (name : String)
    (made : Inode) : s.create fails (some parent) name made =
      if fails s.tried then some ({ s with tried := s.tried + 1 }, none)
      else if fails (s.tried + 1) then some ({ s with tried := s.tried + 2 }, none)
      else some (s.created parent name made, some (.dentry s.tried)) := by
  obtain ⟨c, live⟩ := tree.balanced.live here
  exact create_eq tree.numbered live tree.balanced.positive name made

theorem Tree.tries {s : Super} (tree : s.Tree) (k : Nat) :
    Tree { s with tried := s.tried + k } where
  numbered c mem := (tree.numbered c mem).trans_le (Nat.le_add_right _ _)
  balanced := tree.balanced
  lower := tree.lower
  rooted := tree.rooted

/-- A call keeps the tree, and lists what it returns. -/
theorem Tree.step {s t : Super} (tree : s.Tree) (step : Step fails s (some e) t) :
    t.Tree ∧ t.listing = e.listed.toList ++ s.listing := by
  obtain ⟨here, called⟩ := step
  rw [tree.create here] at called
  split at called
  · cases called
    exact ⟨tree.tries 1, rfl⟩
  · split at called
    · cases called
      exact ⟨tree.tries 2, rfl⟩
    · cases called
      exact ⟨tree.created here _ _, listing_created tree _ _ _⟩

end Tree

section Mount
variable (fails : Nat → Bool)

def rooted : Super :=
  ⟨[⟨.dentry 1, 1, .dentry ⟨none, "/", some (.inode 0)⟩⟩, ⟨.inode 0, 1, .inode directory⟩], 2,
    some (.dentry 1)⟩

theorem rooted_tree : rooted.Tree where
  numbered := by simp [Numbered, rooted, Obj.number]
  balanced := by
    constructor <;> simp [rooted, dentries, refs, holds]
  lower := by simp [rooted, holds, Obj.rank]
  rooted := by simp [rooted, dentries]

def fooMade : Super := rooted.created (.dentry 1) "foo" directory

theorem fooMade_tree : fooMade.Tree :=
  rooted_tree.created (by simp [rooted, dentries]) "foo" directory

theorem foo_mem : Obj.dentry 2 ∈ fooMade.dentries := by
  rw [fooMade, dentries_created]
  exact List.mem_cons_self

theorem makeRoot_eq (first : fails 0 = false) : s2fsMakeInode fails empty directory.mode =
    some (⟨[⟨.inode 0, 1, .inode ⟨directory.mode, none, none⟩⟩], 1, none⟩, some (.inode 0)) := by
  simp [s2fsMakeInode, newInode, make, empty, first, setInode, find, alloc, RefCount.setData,
    RefCount.modify]

/-- Where `d_make_root` fails it has freed the inode, which is then put again. -/
theorem fillSuper_twice (first : fails 0 = false) (second : fails 1 = true) :
    s2fsFillSuper fails empty = none := by
  rw [s2fsFillSuper, makeRoot_eq fails first]
  simp [setInode, find, RefCount.setData, RefCount.modify, dMakeRoot, make, second, put, refs,
    holds, drop]

theorem fillSuper_rooted (first : fails 0 = false) (second : fails 1 = false) :
    s2fsFillSuper fails empty = (do
      let (s, fooDentry) ← rooted.s2fsCreateDir fails (some (.dentry 1)) "foo"
      let (s, _) ← s.s2fsCreateFile fails fooDentry "bar"
      return (s, 0)) := by
  rw [s2fsFillSuper, makeRoot_eq fails first]
  simp [setInode, find, RefCount.setData, RefCount.modify, dMakeRoot, make, second, alloc, rooted,
    directory]

theorem create_null (s : Super) (name : String) (made : Inode) :
    s.create fails none name made = none := rfl

/-- A mount, by which of its allocations fail. -/
theorem s2fsGetSuper_eq : s2fsGetSuper fails =
    if fails 0 then some (⟨[], 1, none⟩, enomem)
    else if fails 1 ∨ fails 2 ∨ fails 3 then none
    else if fails 4 then some ({ fooMade with tried := 5 }, 0)
    else if fails 5 then some ({ fooMade with tried := 6 }, 0)
    else some (fooMade.created (.dentry 2) "bar" regular, 0) := by
  rw [s2fsGetSuper]
  cases first : fails 0 with
  | true => simp [s2fsFillSuper, s2fsMakeInode, newInode, make, empty, first, enomem,
      killLitterSuper]
  | false =>
    cases second : fails 1 with
    | true => rw [fillSuper_twice fails first second]; simp
    | false =>
      rw [fillSuper_rooted fails first second]
      have foo : rooted.create fails (some (.dentry 1)) "foo" directory = _ :=
        rooted_tree.create (by simp [rooted, dentries]) "foo" directory
      have bar : fooMade.create fails (some (.dentry 2)) "bar" regular = _ :=
        fooMade_tree.create foo_mem "bar" regular
      rw [show rooted.tried = 2 from rfl] at foo
      rw [show fooMade.tried = 4 from rfl] at bar
      simp only [s2fsCreateDir, s2fsCreateFile, foo]
      cases third : fails 2 with
      | true => simp [create_null]
      | false =>
        cases fourth : fails 3 with
        | true => simp [create_null]
        | false =>
          simp only [Bool.false_eq_true, if_false, Option.bind_eq_bind, Option.bind_some,
            or_self]
          rw [show rooted.created (.dentry 1) "foo" directory = fooMade from rfl, bar]
          cases fails 4 with
          | true => rfl
          | false => cases fails 5 <;> rfl

/-- The file system after a mount that succeeded and any calls that make more directories and
files. -/
def Mounted (h : List Creation) (s : Super) : Prop :=
  ∃ s₀, s2fsGetSuper fails = some (s₀, 0) ∧ Run (Step fails) s₀ h s

variable {fails}

theorem tree_of_mounted {s : Super} (mounted : s2fsGetSuper fails = some (s, 0)) :
    s.Tree := by
  rw [s2fsGetSuper_eq] at mounted
  split at mounted
  · cases mounted
  split at mounted
  · cases mounted
  split at mounted
  · cases mounted
    exact fooMade_tree.tries 1
  split at mounted
  · cases mounted
    exact fooMade_tree.tries 2
  · cases mounted
    exact fooMade_tree.created foo_mem _ _

theorem tree_of_run {s₀ s : Super} (tree : s₀.Tree) (run : Run (Step fails) s₀ h s) :
    s.Tree ∧ s.listing = (h.filterMap Creation.listed).reverse ++ s₀.listing := by
  induction run with
  | start => exact ⟨tree, rfl⟩
  | next head step ih =>
    obtain ⟨tree, listing⟩ := ih
    cases step with
    | create here called =>
      obtain ⟨tree', grown⟩ := tree.step (.create here called)
      refine ⟨tree', ?_⟩
      rw [grown, listing, Option.toList_some, List.filterMap_append, List.reverse_append,
        List.append_assoc, Creation.toList_listed]

def fooListing : List Listed :=
  [⟨.dentry 2, some (.dentry 1), "foo", some directory⟩,
    ⟨.dentry 1, none, "/", some directory⟩]

theorem listing_fooMade : fooMade.listing = fooListing :=
  listing_created rooted_tree _ _ _

/-- A mount returns exactly if the first allocation fails, or the next three succeed: a root
dentry that fails has its inode freed twice, and a `foo` that fails is used all the same. Where
it succeeds `foo` is there, and `bar` if its two allocations succeed. -/
theorem mount_returns_iff (fails : Nat → Bool) :
    (s2fsGetSuper fails ≠ none ↔
      fails 0 = true ∨ fails 1 = false ∧ fails 2 = false ∧ fails 3 = false) ∧
    ∀ s ret, s2fsGetSuper fails = some (s, ret) →
      (ret = enomem ∧ s.store = [] ∨ ret = 0 ∧
        s.listing = if fails 4 ∨ fails 5 then fooListing
          else ⟨.dentry 4, some (.dentry 2), "bar", some regular⟩ :: fooListing) := by
  rw [s2fsGetSuper_eq]
  cases fails 0 with
  | true =>
    refine ⟨by simp, fun s ret same => .inl ?_⟩
    cases same
    exact ⟨rfl, rfl⟩
  | false =>
    cases fails 1 with
    | true => simp
    | false =>
      cases fails 2 with
      | true => simp
      | false =>
        cases fails 3 with
        | true => simp
        | false =>
          cases fails 4 with
          | true =>
            refine ⟨by simp, fun s ret same => .inr ?_⟩
            cases same
            exact ⟨rfl, listing_fooMade⟩
          | false =>
            cases fails 5 with
            | true =>
              refine ⟨by simp, fun s ret same => .inr ?_⟩
              cases same
              exact ⟨rfl, listing_fooMade⟩
            | false =>
              refine ⟨by simp, fun s ret same => .inr ?_⟩
              cases same
              refine ⟨rfl, (listing_created fooMade_tree _ _ _).trans ?_⟩
              rw [listing_fooMade]
              rfl

/-- A dentry for `bar` that is not made does not show in the return value. -/
theorem mount_returns_iff_foo : ∃ s, s2fsGetSuper (fun k => k = 4) = some (s, 0) ∧
    s.listing = fooListing := by
  obtain ⟨s, returned⟩ : ∃ s, s2fsGetSuper (fun k => k = 4) = some (s, 0) :=
    ⟨_, s2fsGetSuper_eq _⟩
  rcases (mount_returns_iff fun k => k = 4).2 s 0 returned with ⟨failed, _⟩ | ⟨_, listed⟩
  · cases failed
  · exact ⟨s, returned, listed⟩

/-- Whatever is made below a mounted root, and whichever allocations fail: a call that fails
leaves no trace, the others are all listed, and the unmount frees every inode and dentry. -/
theorem unmount_frees (mounted : Mounted fails h s) :
    (∃ s₀, s2fsGetSuper fails = some (s₀, 0) ∧
      s.listing = (h.filterMap Creation.listed).reverse ++ s₀.listing) ∧
    (∀ parent ∈ s.dentries, ∀ name made, ∃ t ret, s.create fails (some parent) name made =
      some (t, ret) ∧ (ret = none → t.store = s.store)) ∧
    s.killLitterSuper = some ⟨[], s.tried, none⟩ := by
  obtain ⟨s₀, returned, run⟩ := mounted
  obtain ⟨tree, listing⟩ := tree_of_run (tree_of_mounted returned) run
  refine ⟨⟨s₀, returned, listing⟩, fun parent here name made => ?_, tree.killed⟩
  rw [tree.create here]
  split
  · exact ⟨_, _, rfl, fun _ => rfl⟩
  · split
    · exact ⟨_, _, rfl, fun _ => rfl⟩
    · exact ⟨_, _, rfl, nofun⟩

/-- Two files after the mount, of which the first is not made. -/
theorem unmount_frees_two : ∃ h s, Mounted (fun k => k = 6) h s ∧ h.length = 2 ∧
    s.listing.length = 4 ∧ s.killLitterSuper = some ⟨[], 9, none⟩ := by
  have followed : (exec (step fun k => k = 6) (fooMade.created (.dentry 2) "bar" regular)
      [(.dentry 2, "baz", regular), (.dentry 1, "qux", regular)]).any (fun r =>
        r.2.length = 2 ∧ r.1.listing.length = 4 ∧ r.1.tried = 9) := by decide +kernel
  obtain ⟨s, h, run, two, four, tried⟩ := exec_any followed step_sound
  have mounted : Mounted (fun k => k = 6) h s := ⟨_, s2fsGetSuper_eq _, run⟩
  exact ⟨h, s, mounted, two, four, tried ▸ (unmount_frees mounted).2.2⟩

end Mount

end Super
end CSE306.S2FS
