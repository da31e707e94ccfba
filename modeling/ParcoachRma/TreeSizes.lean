import ParcoachRma.TreeOperations
import ParcoachRma.NotifOperations
import ParcoachRma.Lib.AvlSize

/-!
# The statistics of the trees

`print_interval_tree_stats` and `print_notif_tree_stats` report the size cached at the root as the
number of nodes.  Insertions add one to it.  `delete_interval_tree` does not touch it, and
`delete_notif_tree` takes one off in any case, unless it rotates the node.  A rotation of the root
brings up a node with the size that it had below.

`reportsRight_iff`: along calls that do not rotate the root, the reports are right after each call
exactly if every call changes the size at the root as it changes the number of nodes.
-/

namespace ParcoachRma

open Run AvlTree

/-- What is printed of a tree. -/
structure TreeStats where
  numberOfNodes : UInt64
  size : UInt64
  depth : Int
  deriving DecidableEq, Repr

/-- The statistics of a tree whose nodes take so many bytes; nothing is printed of an empty one. -/
def treeStats {α : Type*} (nodeBytes : UInt64) : AvlTree α → Option TreeStats
  | .nil => none
  | .node _ _ _ h s => some ⟨s, s * nodeBytes, h⟩

/-- A node has three pointers, an `int` and an `unsigned long`. -/
def printIntervalTreeStats (root : IntervalTree) : Option TreeStats := treeStats 40 root

/-- A node has one more `int`. -/
def printNotifTreeStats (root : NotifTree) : Option TreeStats := treeStats 48 root

/-- The number of nodes that is printed, if it is, is that of the tree. -/
def ReportsRight {α : Type*} (print : AvlTree α → Option TreeStats) (root : AvlTree α) : Prop :=
  ∀ stats, print root = some stats → stats.numberOfNodes.toNat = root.numNodes

theorem reportsRight_treeStats {α : Type*} {nodeBytes : UInt64} {root : AvlTree α} :
    ReportsRight (treeStats nodeBytes) root ↔ SizeRight root := by
  cases root with
  | nil =>
      apply iff_of_true
      · intro stats hstats
        cases hstats
      · exact sizeRight_nil
  | node v l r h s =>
      constructor
      · intro hreports
        exact hreports _ rfl
      · intro hright stats hstats
        cases hstats
        exact hright

/-! ## Conditions on a call -/

/-- The call rotates the root of the interval tree on its way back up. -/
def TreeOp.RotatesRoot (root : IntervalTree) : TreeOp → Prop
  | .insert itv =>
      let above := (itv.itv.lowBound + 1).toNat
      let below := (itv.itv.lowBound - 1).toNat
      RotatesInsert lowKey (lowKey itv) above below (insertBelow lowKey above below itv root)
  | .delete itv => Leans (deleteBelow lowKey id (lowKey itv) root)

/-- An insertion does not overflow the count.  A deletion finds no interval with the low bound, or
the root goes and leaves no node or a child with the right size. -/
def TreeOp.CountsRight (root : IntervalTree) : TreeOp → Prop
  | .insert _ => root.numNodes + 1 < 2 ^ 64
  | .delete itv =>
      lowKey itv ∉ keys lowKey root ∨
        RootGoes lowKey (lowKey itv) root ∧ SizeRight root.loneChild

/-- The call rotates the root of the notification tree on its way back up. -/
def NotifTreeOp.RotatesRoot (root : NotifTree) : NotifTreeOp → Prop
  | .insert itv =>
      let id := itv.itv.notificationId
      RotatesInsert NotifEntry.notifId id (id + 1) (id - 1)
        (insertBelow NotifEntry.notifId (id + 1) (id - 1) (newNotifEntry itv) root)
  | .delete notifId => Leans (deleteBelow NotifEntry.notifId (· - 1) notifId root)

/-- An insertion does not overflow the count.  A deletion finds the tree empty, or it finds the id
and, if the root goes, this leaves no node or a child that counts one more than it has. -/
def NotifTreeOp.CountsRight (root : NotifTree) : NotifTreeOp → Prop
  | .insert _ => root.numNodes + 1 < 2 ^ 64
  | .delete notifId =>
      root = .nil ∨ notifId ∈ keys NotifEntry.notifId root ∧
        (RootGoes NotifEntry.notifId notifId root → root.loneChild = .nil ∨
          root.loneChild.treeSize.toNat = root.loneChild.numNodes + 1)

/-! ## One call -/

theorem sorted_treeStep {root root' : IntervalTree} {op : TreeOp} (hs : Sorted lowKey root)
    (hstep : treeStep root op = .ok root') : Sorted lowKey root' := by
  cases op with
  | insert itv =>
      obtain rfl := Except.ok.inj hstep
      exact hs.insert itv
  | delete itv =>
      rcases deleteIntervalTree_ok hstep with ⟨k, rfl⟩
      exact hs.delete k

theorem reportsRight_treeStep_iff {root root' : IntervalTree} {op : TreeOp}
    (hs : Sorted lowKey root) (hright : ReportsRight printIntervalTreeStats root)
    (hrot : ¬ op.RotatesRoot root) (hstep : treeStep root op = .ok root') :
    ReportsRight printIntervalTreeStats root' ↔ op.CountsRight root := by
  have hsize : SizeRight root := reportsRight_treeStats.mp hright
  apply reportsRight_treeStats.trans
  cases op with
  | insert itv =>
      obtain rfl := Except.ok.inj hstep
      exact sizeRight_insert_iff hsize hrot
  | delete itv =>
      obtain rfl := Except.ok.inj ((deleteIntervalTree_some root itv).symm.trans hstep)
      exact hs.sizeRight_delete_id_iff hsize hrot

theorem reportsRight_notifTreeStep_iff {root root' : NotifTree} {op : NotifTreeOp}
    (hs : Sorted NotifEntry.notifId root) (hright : ReportsRight printNotifTreeStats root)
    (hrot : ¬ op.RotatesRoot root) (hstep : notifTreeStep root op = .ok root') :
    ReportsRight printNotifTreeStats root' ↔ op.CountsRight root := by
  have hsize : SizeRight root := reportsRight_treeStats.mp hright
  apply reportsRight_treeStats.trans
  cases op with
  | insert itv =>
      obtain rfl := Except.ok.inj hstep
      exact sizeRight_insert_iff hsize hrot
  | delete notifId =>
      obtain rfl := Except.ok.inj hstep
      exact hs.sizeRight_delete_pred_iff hsize hrot

/-! ## Runs -/

/-- Along calls that do not rotate the root, the number of nodes reported is right after each of
them exactly if each of them counts right, in either tree. -/
theorem reportsRight_iff {ops : List TreeOp} {notifOps : List NotifTreeOp}
    (hrot : EachStep treeStep (fun _ root op _ => ¬ op.RotatesRoot root) .nil ops)
    (hrotNotif : EachStep notifTreeStep (fun _ root op _ => ¬ op.RotatesRoot root) .nil notifOps) :
    (EachStep treeStep (fun _ _ _ root' => ReportsRight printIntervalTreeStats root') .nil ops ↔
      EachStep treeStep (fun _ root op _ => op.CountsRight root) .nil ops) ∧
    (EachStep notifTreeStep (fun _ _ _ root' => ReportsRight printNotifTreeStats root') .nil
        notifOps ↔
      EachStep notifTreeStep (fun _ root op _ => op.CountsRight root) .nil notifOps) := by
  constructor
  · apply forall_step_iff_of_each
      (I := fun _ root => Sorted lowKey root ∧ ReportsRight printIntervalTreeStats root) hrot
    · exact ⟨sorted_nil, reportsRight_treeStats.mpr rfl⟩
    · intro _ op root root' _ hI hstays hstep
      exact reportsRight_treeStep_iff hI.1 hI.2 hstays hstep
    · intro _ op root root' _ hI _ hstep hright
      exact ⟨sorted_treeStep hI.1 hstep, hright⟩
  · apply forall_step_iff_of_each
      (I := fun _ root => Indexed root ∧ ReportsRight printNotifTreeStats root) hrotNotif
    · exact ⟨indexed_nil, reportsRight_treeStats.mpr rfl⟩
    · intro _ op root root' _ hI hstays hstep
      exact reportsRight_notifTreeStep_iff hI.1.sorted hI.2 hstays hstep
    · intro _ op root root' _ hI _ hstep hright
      exact ⟨hI.1.step hstep, hright⟩

/-- A load of the four bytes at the address, with that id for the notification. -/
def notifiedLoad (address : UInt64) (notifId : Int) : IntervalPtr :=
  ⟨address.toNat, createInterval address (address + 3) .localRead notifId 10 none⟩

/-- Two insertions count.  The deletion of an absent low bound leaves the size of the interval tree
right, and that of a present id the one of the notification tree. -/
theorem reportsRight_of_two_insertions :
    EachStep treeStep (fun _ _ _ root' => ReportsRight printIntervalTreeStats root') .nil
        [.insert (notifiedLoad 10 1), .insert (notifiedLoad 20 2),
          .delete (notifiedLoad 30 3)] ∧
      EachStep notifTreeStep (fun _ _ _ root' => ReportsRight printNotifTreeStats root') .nil
        [.insert (notifiedLoad 10 1), .insert (notifiedLoad 20 2), .delete 2] := by
  have hrot : EachStep treeStep (fun _ root op _ => ¬ op.RotatesRoot root) .nil
      [.insert (notifiedLoad 10 1), .insert (notifiedLoad 20 2),
        .delete (notifiedLoad 30 3)] := by
    refine eachStep_three rfl rfl rfl ?_ ?_ ?_
    all_goals
      unfold TreeOp.RotatesRoot
      decide
  have hrotNotif : EachStep notifTreeStep (fun _ root op _ => ¬ op.RotatesRoot root) .nil
      [.insert (notifiedLoad 10 1), .insert (notifiedLoad 20 2), .delete 2] := by
    refine eachStep_three rfl rfl rfl ?_ ?_ ?_
    all_goals
      unfold NotifTreeOp.RotatesRoot
      decide
  constructor
  · apply (reportsRight_iff hrot hrotNotif).1.mpr
    refine eachStep_three rfl rfl rfl ?_ ?_ ?_
    · change 1 < 2 ^ 64
      decide
    · change 2 < 2 ^ 64
      decide
    · left
      decide
  · apply (reportsRight_iff hrot hrotNotif).2.mpr
    refine eachStep_three rfl rfl rfl ?_ ?_ ?_
    · change 1 < 2 ^ 64
      decide
    · change 2 < 2 ^ 64
      decide
    · refine .inr ⟨by decide, fun hgoes => ?_⟩
      exact absurd hgoes.1 (by decide)

/-- Three insertions in order. -/
def threeInOrder : List IntervalPtr :=
  [notifiedLoad 10 1, notifiedLoad 20 2, notifiedLoad 30 3]

/-- The third of them rotates the root, and the report says two nodes, for either tree. -/
theorem not_reportsRight_of_threeInOrder :
    ((∃ root, run treeStep .nil (threeInOrder.map .insert) = .ok root ∧ root.numNodes = 3 ∧
        printIntervalTreeStats root = some ⟨2, 80, 2⟩) ∧
      ∃ root, run notifTreeStep .nil (threeInOrder.map .insert) = .ok root ∧ root.numNodes = 3 ∧
        printNotifTreeStats root = some ⟨2, 96, 2⟩) ∧
    ¬ (∀ ops root, run treeStep .nil ops = .ok root →
        ReportsRight printIntervalTreeStats root) ∧
    ¬ ∀ ops root, run notifTreeStep .nil ops = .ok root →
        ReportsRight printNotifTreeStats root := by
  obtain ⟨root, hrun, hnodes, hprint⟩ : ∃ root,
      run treeStep .nil (threeInOrder.map .insert) = .ok root ∧ root.numNodes = 3 ∧
      printIntervalTreeStats root = some ⟨2, 80, 2⟩ :=
    ⟨_, rfl, by decide, by decide⟩
  obtain ⟨notifRoot, hrun', hnodes', hprint'⟩ : ∃ root,
      run notifTreeStep .nil (threeInOrder.map .insert) = .ok root ∧ root.numNodes = 3 ∧
      printNotifTreeStats root = some ⟨2, 96, 2⟩ :=
    ⟨_, rfl, by decide, by decide⟩
  refine ⟨⟨⟨root, hrun, hnodes, hprint⟩, notifRoot, hrun', hnodes', hprint'⟩, ?_, ?_⟩
  · intro hall
    have htwo : (2 : UInt64).toNat = root.numNodes := hall _ root hrun _ hprint
    rw [hnodes] at htwo
    exact absurd htwo (by decide)
  · intro hall
    have htwo : (2 : UInt64).toNat = notifRoot.numNodes := hall _ notifRoot hrun' _ hprint'
    rw [hnodes'] at htwo
    exact absurd htwo (by decide)

end ParcoachRma
