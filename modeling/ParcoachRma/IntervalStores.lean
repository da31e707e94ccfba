import ParcoachRma.Interval
import ParcoachRma.Lib.AvlDelete

/-!
# The stores of a window

* `IntervalTree` (`interval_avl_tree.c`): intervals ordered by low bound, searched for a conflict
  along one path.
* `NotifTree` (`notif_avl_tree.c`): the same tree ordered by notification id, each node caching
  the id of its interval.
* The interval list (`interval_list.c`), which the `USE_LIST` build scans from end to end.

Both trees are `AvlTree`s; they differ in the key and in what deletion does to the cached size.
-/

namespace ParcoachRma

/-! ## Interval tree -/

abbrev IntervalTree := AvlTree IntervalPtr

/-- The key of the interval tree: the low bound, compared as an unsigned number. -/
def lowKey (p : IntervalPtr) : Nat := p.itv.lowBound.toNat

/-- Insert an interval by its low bound.  A missing child counts as a low bound one above or one
below the new one. -/
def insertIntervalTree (node : IntervalTree) (itv : IntervalPtr) : IntervalTree :=
  node.insert lowKey (itv.itv.lowBound + 1).toNat (itv.itv.lowBound - 1).toNat itv

/-- Remove an interval from the tree, by its low bound.  The cached size of a node is left as it
is.  The pointer is only read if the tree is not empty. -/
def deleteIntervalTree (root : IntervalTree) (itv : Option IntervalPtr) :
    Except Fault IntervalTree :=
  match root, itv with
  | .nil, _ => .ok .nil
  | .node .., none => .error .nullDereference
  | root, some p => .ok (root.delete lowKey id (lowKey p))

theorem deleteIntervalTree_some (root : IntervalTree) (itv : IntervalPtr) :
    deleteIntervalTree root (some itv) = .ok (root.delete lowKey id (lowKey itv)) := by
  cases root with
  | nil => rfl
  | node => rfl

/-- Free the whole tree: delete the interval of the root until the tree is empty. -/
def freeIntervalTree (root : IntervalTree) : Option IntervalTree :=
  root.freeLoop lowKey id root.numNodes

/-- Check if the given interval overlaps with an interval of the tree, and return that one. -/
def overlapSearch : IntervalTree → IntervalPtr → Option IntervalPtr
  | .nil, _ => none
  | .node p l r _ _, i =>
      if ifIntersects p.itv i.itv then some p
      else if lowKey i < lowKey p then overlapSearch l i
      else if lowKey i > lowKey p then overlapSearch r i
      else none

/-- The search reports intervals of the tree that are in conflict with the given one, and only
such that are exposed to its low bound. -/
theorem exposed_of_overlapSearch {t : IntervalTree} {i p : IntervalPtr}
    (h : overlapSearch t i = some p) :
    AvlTree.Exposed lowKey (lowKey i) t p ∧ ifIntersects p.itv i.itv = true := by
  induction t with
  | nil => cases h
  | node q l r _ _ ihl ihr =>
      simp only [overlapSearch, gt_iff_lt] at h
      split_ifs at h with hq hlt hgt
      · cases h
        exact ⟨.root, hq⟩
      · exact ⟨.left hlt (ihl h).1, (ihl h).2⟩
      · exact ⟨.right hgt (ihr h).1, (ihr h).2⟩

theorem overlapSearch_isSome_of_exposed {t : IntervalTree} {i p : IntervalPtr}
    (hp : AvlTree.Exposed lowKey (lowKey i) t p) (hi : ifIntersects p.itv i.itv = true) :
    (overlapSearch t i).isSome = true := by
  induction hp with
  | root => simp [overlapSearch, hi]
  | left hlt _ ih =>
      simp only [overlapSearch, hlt, if_true]
      split_ifs
      · rfl
      · exact ih hi
  | right hgt _ ih =>
      simp only [overlapSearch, gt_iff_lt, hgt, hgt.not_gt, if_false, if_true]
      split_ifs
      · rfl
      · exact ih hi

/-- The search finds a conflict exactly if an interval in conflict is exposed to the low bound of
the given one. -/
theorem overlapSearch_isSome_iff {t : IntervalTree} {i : IntervalPtr} :
    (overlapSearch t i).isSome = true ↔
      ∃ p, AvlTree.Exposed lowKey (lowKey i) t p ∧ ifIntersects p.itv i.itv = true := by
  refine ⟨fun h => ?_, fun ⟨_, hp, hi⟩ => overlapSearch_isSome_of_exposed hp hi⟩
  obtain ⟨p, hp⟩ := Option.isSome_iff_exists.mp h
  exact ⟨p, exposed_of_overlapSearch hp⟩

/-! ## Notification tree -/

/-- The fields of a node of the notification tree besides its links. -/
structure NotifEntry where
  notifId : Int
  itv : IntervalPtr
  deriving DecidableEq, Repr

abbrev NotifTree := AvlTree NotifEntry

/-- A new entry for an interval, with its id. -/
def newNotifEntry (itv : IntervalPtr) : NotifEntry := ⟨itv.itv.notificationId, itv⟩

/-- Insert an interval by its notification id. -/
def insertNotifTree (node : NotifTree) (itv : IntervalPtr) : NotifTree :=
  node.insert NotifEntry.notifId (itv.itv.notificationId + 1) (itv.itv.notificationId - 1)
    (newNotifEntry itv)

/-- Remove a notification id from the tree.  A node that is not rotated on the way back up counts
one node less. -/
def deleteNotifTree (root : NotifTree) (notifId : Int) : NotifTree :=
  root.delete NotifEntry.notifId (· - 1) notifId

/-- Free the whole tree: delete the id of the root until the tree is empty. -/
def freeNotifTree (root : NotifTree) : Option NotifTree :=
  root.freeLoop NotifEntry.notifId (· - 1) root.numNodes

/-- Find an interval from its notification id. -/
def findIntervalFromNotif (root : NotifTree) (notifId : Int) : Option IntervalPtr :=
  (root.lookup NotifEntry.notifId notifId).map NotifEntry.itv

/-! ## Interval list -/

/-- Add an interval at the head of the list. -/
def insertIntervalHead (li : List Interval) (itv : Interval) : List Interval := itv :: li

/-- Check the links of the list one by one. -/
def ifIntersectsIntervalList (itv : Interval) : List Interval → Bool
  | [] => false
  | link :: rest => if ifIntersects itv link then true else ifIntersectsIntervalList itv rest

theorem ifIntersectsIntervalList_iff {itv : Interval} {li : List Interval} :
    ifIntersectsIntervalList itv li = true ↔ ∃ x ∈ li, ifIntersects x itv = true := by
  induction li with
  | nil => simp [ifIntersectsIntervalList]
  | cons link rest ih =>
      simp only [ifIntersectsIntervalList, List.mem_cons, exists_eq_or_imp]
      rw [ifIntersects_comm link itv, ← ih]
      cases ifIntersects itv link <;> simp

end ParcoachRma
