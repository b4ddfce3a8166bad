import CSE306.Perftop.Ledger
import Mathlib.Data.List.Dedup

/-! What reading `/proc/perftop` shows of the tree. -/
namespace CSE306.Perftop
open Transition

/-- The line of one task: the pid and the total passed to `seq_printf`. -/
structure TaskLine where
  pid : Pid
  ttsc : UInt64
  deriving DecidableEq

structure Report where
  preCount : BitVec 32
  postCount : BitVec 32
  contextSwitch : BitVec 32
  tasks : List TaskLine
  deriving DecidableEq

/-- The pids that were `prev` of a counted switch, each once. -/
def switchedPids (h : List Call) : List Pid :=
  (h.filterMap fun c => c.switch.map (·.1.pid)).dedup

namespace Profiler
variable {b : OrderedTree.Balance Node}

def perftopProcShow (preCount : BitVec 32) (s : Profiler) : Report where
  preCount := preCount
  postCount := s.postCount
  contextSwitch := s.contextSwitchCounter
  tasks := (s.mytree.backwards 10 s.mytree.last?).map fun n => ⟨n.pid, n.ttsc⟩

theorem mem_switchedPids {h : List Call} : pid ∈ switchedPids h ↔ Switched h pid := by
  simp only [switchedPids, List.mem_dedup, List.mem_filterMap, Option.map_eq_some_iff,
    Prod.exists, Switched]

theorem Linked.pids_nodup {s : Profiler} (linked : s.Linked) :
    (s.mytree.inorder.map Node.pid).Nodup := by
  have nodup : s.mytree.inorder.Nodup := linked.addrs.of_map
  exact nodup.map_on fun n mem n' mem' same => linked.eq_of_pid mem mem' same

theorem Runs.length_inorder (run : Runs b h s) :
    s.mytree.inorder.length = (switchedPids h).length := by
  have same : (s.mytree.inorder.map Node.pid).Perm (switchedPids h) := by
    apply (List.perm_ext_iff_of_nodup run.linked.pids_nodup (List.nodup_dedup _)).mpr
    intro pid
    change _ ↔ pid ∈ switchedPids h
    rw [mem_switchedPids, ← run.sorted.2, List.mem_map]
  rw [← same.length_eq, List.length_map]

/-- What the tasks in a report say about the runs `h` of the handler. -/
structure TopTen (h : List Call) (s : Profiler) (tasks : List TaskLine) : Prop where
  length : tasks.length = min 10 (switchedPids h).length
  distinct : (tasks.map TaskLine.pid).Nodup
  current : ∀ x ∈ tasks, s.total x.pid = some x.ttsc
  ordered : tasks.Pairwise fun x y => y.ttsc ≤ x.ttsc
  busiest : ∀ pid ttsc, s.total pid = some ttsc → pid ∉ tasks.map TaskLine.pid →
    ∃ last, tasks.getLast? = some last ∧ ttsc ≤ last.ttsc

/-- In every reachable state the report lists ten tasks, or all there are, once each with
their totals, and no task that it leaves out has spent more than those it lists. -/
theorem top_ten (run : Runs b h s) (preCount : BitVec 32) :
    TopTen h s (s.perftopProcShow preCount).tasks := by
  have linked := run.linked
  have nodup : s.mytree.inorder.Nodup := linked.addrs.of_map
  have falling : s.mytree.inorder.reverse.Pairwise fun m n => n.ttsc ≤ m.ttsc := by
    apply List.pairwise_reverse.mpr
    exact run.sorted.1.imp UInt64.le_iff_toNat_le.mpr
  have shown : (s.perftopProcShow preCount).tasks =
      (s.mytree.inorder.reverse.take 10).map fun n => ⟨n.pid, n.ttsc⟩ := by
    rw [← s.mytree.backwards_last nodup]
    rfl
  rw [shown]
  constructor
  · rw [List.length_map, List.length_take, List.length_reverse, run.length_inorder]
  · rw [List.map_map]
    have pids := List.nodup_reverse.mpr linked.pids_nodup
    rw [← List.map_reverse] at pids
    exact pids.sublist ((List.take_sublist _ _).map _)
  · intro x mem
    obtain ⟨n, listed, rfl⟩ := List.mem_map.mp mem
    exact linked.total (List.mem_reverse.mp (List.mem_of_mem_take listed))
  · exact List.pairwise_map.mpr (falling.sublist (List.take_sublist _ _))
  · intro pid ttsc known missing
    obtain ⟨n, found, rfl⟩ := Option.map_eq_some_iff.mp known
    have owner : n.pid = pid := by simpa using List.find?_some found
    subst owner
    have there : n ∈ s.mytree.inorder.reverse :=
      List.mem_reverse.mpr (List.mem_of_find?_eq_some found)
    rw [← List.take_append_drop 10 s.mytree.inorder.reverse] at there falling
    cases List.mem_append.mp there with
    | inl listed =>
      refine (missing ?_).elim
      rw [List.map_map]
      exact List.mem_map.mpr ⟨n, listed, rfl⟩
    | inr left_ =>
      have some_ : s.mytree.inorder.reverse.take 10 ≠ [] := by
        intro none
        rw [List.take_eq_nil_iff] at none
        rcases none with zero | none
        · cases zero
        · rw [none] at left_
          cases left_
      obtain ⟨last, ends⟩ := Option.ne_none_iff_exists'.mp
        (mt List.getLast?_eq_none_iff.mp some_)
      refine ⟨⟨last.pid, last.ttsc⟩, by rw [List.getLast?_map, ends]; rfl, ?_⟩
      exact (List.pairwise_append.mp falling).2.2 last (List.mem_of_getLast? ends) n left_

theorem top_ten_three_switches : ∃ s, Runs .unbalanced threeSwitches s ∧
    (s.perftopProcShow 3).tasks = [⟨1, 200⟩, ⟨2, 0⟩] ∧
    TopTen threeSwitches s (s.perftopProcShow 3).tasks := by
  have followed : (exec (step .unbalanced) empty threeSwitches).any (fun r =>
      r.2 = threeSwitches ∧ (r.1.perftopProcShow 3).tasks = [⟨1, 200⟩, ⟨2, 0⟩]) := by
    decide +kernel
  obtain ⟨s, h, run, rfl, shown⟩ := exec_any followed step_sound
  exact ⟨s, run, shown, top_ten run 3⟩

end Profiler
end CSE306.Perftop
