import ParcoachRma.Detection
import ParcoachRma.Lib.SearchTree

/-!
# The search tree without balancing

`interval_tree.c` implements the header of the interval tree a second time, with a search tree that
is never rotated.  The search is the same in both files.

* `toList_plainTree`: the two trees of the same insertions hold the same intervals in the same
  order.
* `sameSearch_iff`: their searches agree on a query exactly if both hide all conflicts from it or
  neither does.  The balanced tree hides a conflict behind a node above it, the plain tree behind an
  interval inserted before it.
-/

namespace ParcoachRma

open AvlTree

namespace PlainTree

/-- Insert an interval by its low bound.  A subtree grows in height if the one below it does. -/
def insertIntervalTree (root : IntervalTree) (i : IntervalPtr) : IntervalTree :=
  root.insertLeaf lowKey i

/-- Check if the given interval overlaps with an interval of the tree, along the same path as in
the balanced tree. -/
def overlapSearch (root : IntervalTree) (i : IntervalPtr) : Option IntervalPtr :=
  ParcoachRma.overlapSearch root i

end PlainTree

/-- The plain tree that the insertions of the intervals lead to. -/
def plainTree (itvs : List IntervalPtr) : IntervalTree :=
  itvs.foldl PlainTree.insertIntervalTree .nil

/-- Balancing does not show in the order of the intervals. -/
theorem toList_plainTree (itvs : List IntervalPtr) :
    (plainTree itvs).toList = (savedTree itvs).toList := by
  have hboth : Sorted lowKey (savedTree itvs) ∧
      (plainTree itvs).toList = (savedTree itvs).toList := by
    induction itvs using List.reverseRecOn with
    | nil => exact ⟨sorted_nil, rfl⟩
    | append_singleton itvs p ih =>
        rcases ih with ⟨hsorted, hlist⟩
        have hplain : Sorted lowKey (plainTree itvs) := hsorted.of_toList_eq hlist
        rw [savedTree_snoc, plainTree, List.foldl_append]
        refine ⟨hsorted.insert p, ?_⟩
        calc ((plainTree itvs).insertLeaf lowKey p).toList
            = insertInOrder lowKey p (savedTree itvs).toList := by
              rw [hplain.toList_insertLeaf, hlist]
          _ = (insertIntervalTree (savedTree itvs) p).toList := (hsorted.toList_insert p).symm
  exact hboth.2

/-- In the balanced tree, every interval in conflict with the query lies below a node that has the
low bound of the query or sends the search to the other side. -/
def HiddenInAvl (itvs : List IntervalPtr) (q : IntervalPtr) : Prop :=
  ∀ p ∈ itvs, Conflicts p q → ¬ Exposed lowKey (lowKey q) (savedTree itvs) p

/-- Before every interval in conflict with the query, one has been inserted whose low bound lies
between theirs, with the bound of the query included, and that of the interval if it is the greater
one. -/
def HiddenInPlain (itvs : List IntervalPtr) (q : IntervalPtr) : Prop :=
  ∀ pre p, pre ++ [p] <+: itvs → Conflicts p q → ∃ y ∈ pre, Separates lowKey (lowKey q) y p

theorem overlapSearch_savedTree_iff {itvs : List IntervalPtr} {q : IntervalPtr} :
    (overlapSearch (savedTree itvs) q).isSome = true ↔ ¬ HiddenInAvl itvs q := by
  rw [overlapSearch_isSome_iff]
  constructor
  · intro hfound hidden
    rcases hfound with ⟨p, hp, hc⟩
    exact hidden p (mem_savedTree.mp hp.mem) hc hp
  · intro hshown
    simp only [HiddenInAvl, not_forall, not_not] at hshown
    rcases hshown with ⟨p, -, hc, hp⟩
    exact ⟨p, hp, hc⟩

/-- Which intervals the search of the plain tree meets depends on the order of the insertions
alone. -/
theorem overlapSearch_plainTree_iff {itvs : List IntervalPtr} {q : IntervalPtr} :
    (PlainTree.overlapSearch (plainTree itvs) q).isSome = true ↔ ¬ HiddenInPlain itvs q := by
  have hexposed : ∀ p, Exposed lowKey (lowKey q) (plainTree itvs) p ↔
      ∃ pre, pre ++ [p] <+: itvs ∧ ∀ y ∈ pre, ¬ Separates lowKey (lowKey q) y p :=
    fun p => exposed_ofList_iff
  rw [PlainTree.overlapSearch, overlapSearch_isSome_iff]
  constructor
  · intro hfound hidden
    rcases hfound with ⟨p, hp, hc⟩
    rcases (hexposed p).mp hp with ⟨pre, hpre, hsep⟩
    rcases hidden pre p hpre hc with ⟨y, hy, hy'⟩
    exact hsep y hy hy'
  · intro hshown
    simp only [HiddenInPlain, not_forall, not_exists, not_and] at hshown
    rcases hshown with ⟨pre, p, hpre, hc, hsep⟩
    exact ⟨p, (hexposed p).mpr ⟨pre, hpre, hsep⟩, hc⟩

/-- For any insertions and any query, the searches of the two trees agree exactly if both hide all
conflicts from the query or neither does. -/
theorem sameSearch_iff (itvs : List IntervalPtr) (q : IntervalPtr) :
    ((overlapSearch (savedTree itvs) q).isSome = true ↔
      (PlainTree.overlapSearch (plainTree itvs) q).isSome = true) ↔
      (HiddenInAvl itvs q ↔ HiddenInPlain itvs q) := by
  rw [overlapSearch_savedTree_iff, overlapSearch_plainTree_iff, not_iff_not]

/-- A load of four bytes. -/
def loadAt (address : UInt64) : IntervalPtr :=
  ⟨address.toNat, createInterval address (address + 3) .localRead (-1) 10 none⟩

/-- After a get of 100 bytes and two loads, the rotation brings the first load up.  It sends the
search for a store to the right, while the get, which was at the root, is on its left now. -/
theorem not_sameSearch_of_rotation :
    ¬ ∀ (itvs : List IntervalPtr) (q : IntervalPtr),
      (overlapSearch (savedTree itvs) q).isSome = true ↔
        (PlainTree.overlapSearch (plainTree itvs) q).isSome = true := by
  intro h
  have hsame := h [exampleGet, loadAt 4100, loadAt 4108]
    ⟨3, createInterval 4120 4123 .localWrite (-1) 20 none⟩
  revert hsame
  decide

end ParcoachRma
