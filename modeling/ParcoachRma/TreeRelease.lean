import ParcoachRma.TreeOperations
import ParcoachRma.NotifOperations

/-!
# Freeing the trees

`free_interval_tree` and `free_notif_tree` delete the root by its own key until the tree is empty.
A round takes out a node only if the deletion finds one with that key, and in the two-child case if
the second deletion finds one on the right side; the search order, which every call keeps, leads
both to one.

`freesNodeByNode_of_run`: from any calls on, freeing either tree takes out one node in each round
and ends with the empty tree after as many rounds as there are nodes.
-/

namespace ParcoachRma

open Run AvlTree

/-- As long as there are nodes, a round of the loop takes out one, and the loop ends, with the empty
tree, within `n` rounds exactly if there are no more nodes than that. -/
def FreesNodeByNode {α κ : Type*} [LinearOrder κ] (key : α → κ) (resize : UInt64 → UInt64)
    (t : AvlTree α) : Prop :=
  (∀ n < t.numNodes,
    ((freeRound key resize)^[n + 1] t).numNodes + 1 = ((freeRound key resize)^[n] t).numNodes) ∧
  ∀ n u, freeLoop key resize n t = some u ↔ u = nil ∧ t.numNodes ≤ n

theorem freesNodeByNode_of_sorted {α κ : Type*} [LinearOrder κ] {key : α → κ}
    {resize : UInt64 → UInt64} {t : AvlTree α} (ht : Sorted key t) :
    FreesNodeByNode key resize t := by
  constructor
  · intro n hn
    rw [ht.numNodes_iterate_freeRound, ht.numNodes_iterate_freeRound]
    omega
  · intro n u
    exact ht.freeLoop_eq_some_iff

/-- A round of the loop is the call `delete_interval_tree(temp, temp->itv)`. -/
theorem deleteIntervalTree_root {root : IntervalTree} {p : IntervalPtr} {l r : IntervalTree}
    {h : Int} {s : UInt64} (hroot : root = .node p l r h s) :
    deleteIntervalTree root (some p) = .ok (freeRound lowKey id root) := by
  subst hroot
  rfl

/-- A round of the loop is the call `delete_notif_tree(temp, temp->notif_id)`. -/
theorem deleteNotifTree_root {root : NotifTree} {e : NotifEntry} {l r : NotifTree} {h : Int}
    {s : UInt64} (hroot : root = .node e l r h s) :
    deleteNotifTree root e.notifId = freeRound NotifEntry.notifId (· - 1) root := by
  subst hroot
  rfl

/-- Whatever calls have built the trees, freeing them is the loop that deletes the root as long as
there is one; it takes out node by node and ends with the empty tree. -/
theorem freesNodeByNode_of_run (ops : List TreeOp) (notifOps : List NotifTreeOp) :
    (∃ root, run treeStep .nil ops = .ok root ∧
      (∀ p l r h s, root = .node p l r h s →
        deleteIntervalTree root (some p) = .ok (freeRound lowKey id root)) ∧
      (∀ n, root.numNodes ≤ n → freeIntervalTree root = freeLoop lowKey id n root) ∧
      FreesNodeByNode lowKey id root ∧ freeIntervalTree root = some .nil) ∧
    ∃ root, run notifTreeStep .nil notifOps = .ok root ∧
      (∀ e l r h s, root = .node e l r h s →
        deleteNotifTree root e.notifId = freeRound NotifEntry.notifId (· - 1) root) ∧
      (∀ n, root.numNodes ≤ n →
        freeNotifTree root = freeLoop NotifEntry.notifId (· - 1) n root) ∧
      FreesNodeByNode NotifEntry.notifId (· - 1) root ∧ freeNotifTree root = some .nil := by
  constructor
  · rcases represents_nil.run ops with ⟨root, hrun, h⟩
    have hfree : freeIntervalTree root = some .nil := h.sorted.freeLoop_numNodes
    refine ⟨root, hrun, fun p l r b s hroot => deleteIntervalTree_root hroot, fun n hn => ?_,
      freesNodeByNode_of_sorted h.sorted, hfree⟩
    rw [hfree, h.sorted.freeLoop_eq_some_iff.mpr ⟨rfl, hn⟩]
  · rcases indexed_nil.exists_run notifOps with ⟨root, hrun, h⟩
    have hfree : freeNotifTree root = some .nil := h.sorted.freeLoop_numNodes
    refine ⟨root, hrun, fun e l r b s hroot => deleteNotifTree_root hroot, fun n hn => ?_,
      freesNodeByNode_of_sorted h.sorted, hfree⟩
    rw [hfree, h.sorted.freeLoop_eq_some_iff.mpr ⟨rfl, hn⟩]

end ParcoachRma
