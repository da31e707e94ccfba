import ParcoachRma.IntervalStores
import ParcoachRma.Lib.AvlInsert
import ParcoachRma.Lib.Run

/-!
# The operations on the trees

What `insert_interval_tree`, `delete_interval_tree` and `delete_notif_tree` keep, whatever keys
repeat.

* `exists_run_treeOps`: any sequence of insertions and deletions leaves the interval tree sorted,
  with exact heights and the low bounds that a multiset of them would have.
* `isAvl_of_deletions`: a deletion keeps either tree balanced.
* `balanced_insertIntervalTree_iff`: an insertion keeps the interval tree balanced unless a node on
  the way down gets stuck.
* `deletesExactly_iff_deletesOnly`: the deletions of a run take out the intervals they are given
  exactly if every one of these is the first on the way down to its low bound.
-/

namespace ParcoachRma

open Run AvlTree

/-- A call of the interval tree. -/
inductive TreeOp where
  | insert (itv : IntervalPtr)
  | delete (itv : IntervalPtr)

/-- One call, on the tree that the last one has returned. -/
def treeStep (root : IntervalTree) : TreeOp → Except Fault IntervalTree
  | .insert itv => .ok (insertIntervalTree root itv)
  | .delete itv => deleteIntervalTree root (some itv)

/-- A deletion that returns has gone by the low bound of an interval, unless the tree was empty. -/
theorem deleteIntervalTree_ok {root root' : IntervalTree} {itv : Option IntervalPtr}
    (h : deleteIntervalTree root itv = .ok root') :
    ∃ k, root' = root.delete lowKey id k := by
  cases itv with
  | none =>
      cases root with
      | nil => exact ⟨0, (Except.ok.inj h).symm⟩
      | node => cases h
  | some p =>
      rw [deleteIntervalTree_some] at h
      exact ⟨lowKey p, (Except.ok.inj h).symm⟩

/-! ## The representation invariant -/

/-- What a call does to a multiset of low bounds: an insertion adds one, a deletion removes one
occurrence, if there is one. -/
def TreeOp.onKeys (s : Multiset Nat) : TreeOp → Multiset Nat
  | .insert itv => lowKey itv ::ₘ s
  | .delete itv => s.erase (lowKey itv)

/-- Sorted, with exact heights and the low bounds `s`. -/
structure Represents (root : IntervalTree) (s : Multiset Nat) : Prop where
  sorted : Sorted lowKey root
  heights : HeightsExact root
  keys : keys lowKey root = s

theorem represents_nil : Represents .nil 0 := ⟨sorted_nil, trivial, rfl⟩

/-- Every call returns, and keeps the representation. -/
theorem Represents.treeStep {root : IntervalTree} {s : Multiset Nat} (h : Represents root s)
    (op : TreeOp) :
    ∃ root', treeStep root op = .ok root' ∧ Represents root' (op.onKeys s) := by
  cases op with
  | insert itv =>
      refine ⟨_, rfl, h.sorted.insert itv, h.heights.insert itv, ?_⟩
      rw [insertIntervalTree, keys_insert, h.keys]
      rfl
  | delete itv =>
      refine ⟨_, deleteIntervalTree_some root itv, h.sorted.delete _, h.heights.delete _, ?_⟩
      rw [h.sorted.keys_delete, h.keys]
      rfl

/-- By induction on the calls, each of which keeps the representation. -/
theorem Represents.run {root : IntervalTree} {s : Multiset Nat} (h : Represents root s)
    (ops : List TreeOp) :
    ∃ root', run ParcoachRma.treeStep root ops = .ok root' ∧
      Represents root' (ops.foldl TreeOp.onKeys s) := by
  induction ops generalizing root s with
  | nil => exact ⟨root, rfl, h⟩
  | cons op ops ih =>
      rcases h.treeStep op with ⟨t, hstep, ht⟩
      rcases ih ht with ⟨root', hrun, hroot'⟩
      exact ⟨root', run_cons_ok.mpr ⟨t, hstep, hrun⟩, hroot'⟩

/-- From the empty tree, any calls lead to a tree whose low bounds do not decrease from left to
right, whose cached heights are exact, and whose low bounds are those of the multiset, sorted. -/
theorem exists_run_treeOps (ops : List TreeOp) :
    ∃ root, run treeStep .nil ops = .ok root ∧ Sorted lowKey root ∧ HeightsExact root ∧
      root.toList.map lowKey = (ops.foldl TreeOp.onKeys 0).sort := by
  rcases represents_nil.run ops with ⟨root, hrun, h⟩
  refine ⟨root, hrun, h.sorted, h.heights, ?_⟩
  rw [h.sorted.map_toList, h.keys]

/-! ## Balance -/

/-- An AVL tree is one after a deletion, too, and has the height it had or one less. -/
theorem isAvl_of_deletions :
    (∀ (root root' : IntervalTree) (itv : Option IntervalPtr), IsAvl root →
      deleteIntervalTree root itv = .ok root' →
      IsAvl root' ∧ (root'.height = root.height ∨ root'.height = root.height - 1)) ∧
    ∀ (root : NotifTree) (notifId : Int), IsAvl root →
      IsAvl (deleteNotifTree root notifId) ∧
        ((deleteNotifTree root notifId).height = root.height ∨
          (deleteNotifTree root notifId).height = root.height - 1) := by
  constructor
  · intro root root' itv havl h
    rcases deleteIntervalTree_ok h with ⟨k, rfl⟩
    have hlow : AtMostOneLower (AvlTree.delete lowKey id k root) root := havl.delete k
    rcases hlow with ⟨havl', hge, hle⟩
    exact ⟨havl', by omega⟩
  · intro root notifId havl
    have hlow : AtMostOneLower (deleteNotifTree root notifId) root := havl.delete notifId
    rcases hlow with ⟨havl', hge, hle⟩
    exact ⟨havl', by omega⟩

/-- A load of the first four bytes at 4096. -/
def sameLoad (addr : Nat) : IntervalPtr :=
  ⟨addr, createInterval 4096 4099 .localRead (-1) 10 none⟩

/-- The tree after two loads of the same bytes. -/
def twoLoads : IntervalTree :=
  insertIntervalTree (insertIntervalTree .nil (sameLoad 0)) (sameLoad 1)

/-- The deletion of one of the two loads leaves a tree of height one, and so does that of one of
two notified accesses. -/
theorem isAvl_of_deletions_twoLoads :
    IsAvl (twoLoads.delete lowKey id 4096) ∧
      IsAvl (deleteNotifTree (insertNotifTree (insertNotifTree .nil ⟨0, createInterval 4096 4099
        .rmaWrite 5 10 none⟩) ⟨1, createInterval 4096 4099 .rmaWrite 7 10 none⟩) 5) :=
  ⟨(isAvl_of_deletions.1 twoLoads _ (some (sameLoad 0)) ⟨by decide, by decide⟩ rfl).1,
    (isAvl_of_deletions.2 _ 5 ⟨by decide, by decide⟩).1⟩

/-- An insertion keeps an AVL tree balanced exactly if no node on the way down gets stuck without
one above that repairs the balance. -/
theorem balanced_insertIntervalTree_iff {root : IntervalTree} (havl : IsAvl root)
    (itv : IntervalPtr) :
    Balanced (insertIntervalTree root itv) ↔ ¬ Unbalances lowKey (lowKey itv) root :=
  balanced_insert_iff itv havl

/-- A load of other bytes finds its place next to the two. -/
theorem balanced_insertIntervalTree_twoLoads :
    Balanced (insertIntervalTree twoLoads ⟨2, createInterval 8 11 .localRead (-1) 20 none⟩) :=
  (balanced_insertIntervalTree_iff ⟨by decide, by decide⟩ _).mpr (by decide)

/-- The third load of the same bytes leaves the tree a list. -/
theorem not_balanced_of_three_loads :
    ¬ ∀ (ops : List TreeOp) (root : IntervalTree) (itv : IntervalPtr),
      run treeStep .nil ops = .ok root → Sorted lowKey root → IsAvl root →
        Balanced (insertIntervalTree root itv) := by
  intro h
  have hbal : Balanced (insertIntervalTree twoLoads (sameLoad 2)) :=
    h [.insert (sameLoad 0), .insert (sameLoad 1)] twoLoads (sameLoad 2) rfl
      (by decide) ⟨by decide, by decide⟩
  revert hbal
  decide

/-! ## The interval that is deleted -/

/-- The interval that a deletion is meant to take out: the one it is given or, if that one is not
stored, the first one with its low bound. -/
def deletedInterval (root : IntervalTree) (itv : IntervalPtr) : Option IntervalPtr :=
  if itv ∈ root.toList then some itv else root.lookup lowKey (lowKey itv)

/-- The call has taken out that interval and no other one. -/
def DeletesExactly (root : IntervalTree) (op : TreeOp) (root' : IntervalTree) : Prop :=
  ∀ itv q, op = .delete itv → deletedInterval root itv = some q →
    root.toList.Perm (q :: root'.toList)

/-- A search for the low bound of that interval finds the interval first and, where it has two
children, a search on its right for the low bound of the leftmost interval there finds that one
first. -/
def MeetsFirst (root : IntervalTree) (op : TreeOp) : Prop :=
  ∀ itv q, op = .delete itv → deletedInterval root itv = some q → DeletesOnly lowKey q root

theorem lowKey_of_deletedInterval {root : IntervalTree} {itv q : IntervalPtr}
    (h : deletedInterval root itv = some q) : lowKey q = lowKey itv := by
  unfold deletedInterval at h
  split_ifs at h with hmem
  · rw [Option.some.inj h]
  · exact (mem_of_lookup h).2

/-- On a tree of distinct objects a call deletes what it is meant to exactly if the searches by low
bound meet it first. -/
theorem deletesExactly_iff_meetsFirst {root root' : IntervalTree} (nodup : root.toList.Nodup)
    {op : TreeOp} (hstep : treeStep root op = .ok root') :
    DeletesExactly root op root' ↔ MeetsFirst root op := by
  refine forall_congr' fun itv => forall_congr' fun q => imp_congr_right fun hop =>
    imp_congr_right fun hq => ?_
  subst hop
  change deleteIntervalTree root (some itv) = .ok root' at hstep
  rw [deleteIntervalTree_some, ← lowKey_of_deletedInterval hq] at hstep
  rw [← Except.ok.inj hstep]
  exact perm_delete_iff nodup

theorem nodup_treeStep {root root' : IntervalTree} {op : TreeOp} (nodup : root.toList.Nodup)
    (fresh : ∀ itv, op = .insert itv → itv ∉ root.toList)
    (hstep : treeStep root op = .ok root') (hdel : DeletesExactly root op root') :
    root'.toList.Nodup := by
  cases op with
  | insert itv =>
      rw [← Except.ok.inj hstep]
      rw [insertIntervalTree, (toList_insert_perm itv root).nodup_iff]
      exact List.nodup_cons.mpr ⟨fresh itv rfl, nodup⟩
  | delete itv =>
      cases hq : deletedInterval root itv with
      | some q =>
          have hperm : root.toList.Perm (q :: root'.toList) := hdel itv q rfl hq
          exact (List.nodup_cons.mp (hperm.nodup_iff.mp nodup)).2
      | none =>
          unfold deletedInterval at hq
          split_ifs at hq
          change deleteIntervalTree root (some itv) = .ok root' at hstep
          rw [deleteIntervalTree_some] at hstep
          rw [← Except.ok.inj hstep, toList_delete_of_lookup_eq_none hq]
          exact nodup

/-- Along a run that inserts objects that are not stored yet, every deletion takes out exactly the
interval it is given if and only if every deletion meets that interval first. -/
theorem deletesExactly_iff_deletesOnly {ops : List TreeOp}
    (fresh : EachStep treeStep
      (fun _ root op _ => ∀ itv, op = .insert itv → itv ∉ root.toList) .nil ops) :
    EachStep treeStep (fun _ root op root' => DeletesExactly root op root') .nil ops ↔
      EachStep treeStep (fun _ root op _ => MeetsFirst root op) .nil ops := by
  apply forall_step_iff_of_each (I := fun _ root => root.toList.Nodup) fresh
  · exact List.nodup_nil
  · intro pre op root root' hpre nodup hfresh hstep
    exact deletesExactly_iff_meetsFirst nodup hstep
  · intro pre op root root' hpre nodup hfresh hstep hdel
    exact nodup_treeStep nodup hfresh hstep hdel

/-- The first load inserted is at the root, and its deletion takes it out. -/
theorem deletesExactly_of_first_load :
    EachStep treeStep (fun _ root op root' => DeletesExactly root op root') .nil
      [.insert (sameLoad 0), .insert (sameLoad 1), .delete (sameLoad 0)] := by
  refine (deletesExactly_iff_deletesOnly ?_).mpr ?_
  · refine eachStep_three rfl rfl rfl ?_ ?_ ?_ <;> intro itv hop <;> cases hop <;> decide
  · refine eachStep_three rfl rfl rfl ?_ ?_ ?_ <;> intro itv q hop hq <;> cases hop
    cases hq
    decide

/-- Of two loads of the same bytes, the deletion of the second one takes out the first one. -/
theorem not_perm_delete_of_second_load :
    ¬ ∀ (ops : List TreeOp) (root root' : IntervalTree) (itv : IntervalPtr),
      run treeStep .nil ops = .ok root → itv ∈ root.toList →
        deleteIntervalTree root (some itv) = .ok root' →
          root.toList.Perm (itv :: root'.toList) := by
  intro h
  have hperm := h [.insert (sameLoad 0), .insert (sameLoad 1)] twoLoads _ (sameLoad 1)
    rfl (by decide) (deleteIntervalTree_some _ _)
  revert hperm
  decide

end ParcoachRma
