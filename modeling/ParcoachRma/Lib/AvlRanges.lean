import ParcoachRma.Lib.AvlDelete
import Mathlib.Data.List.Pairwise

/-!
# Trees of disjoint ranges

An `AvlTree` whose values stand for closed ranges `[lo v, hi v]`, ordered by `lo`.  While the ranges
are disjoint, a single path is enough to search for an overlap: a node that the range of the query
does not meet lies to one side of it, and so does everything behind that node.

* `RangesApart` is the invariant.  Insertion keeps it if the new range meets no stored one, deletion
  always does.
* `RangesApart.exists_exposed`: a range that meets a stored one meets one on its search path.
-/

namespace ParcoachRma.AvlTree

variable {α κ : Type*} [LinearOrder κ] {lo hi : α → κ} {above below : κ}
  {resize : UInt64 → UInt64}

/-- The ranges are not empty, and from left to right each ends before the next one starts. -/
structure RangesApart (lo hi : α → κ) (t : AvlTree α) : Prop where
  valid : ∀ x ∈ t.toList, lo x ≤ hi x
  apart : t.toList.Pairwise fun x y => hi x < lo y

namespace RangesApart

theorem nil : RangesApart lo hi (nil : AvlTree α) := ⟨by simp, List.Pairwise.nil⟩

theorem lt {t : AvlTree α} (ht : RangesApart lo hi t) :
    t.toList.Pairwise fun x y => lo x < lo y := by
  apply ht.apart.imp_of_mem
  intro x y hx _ hxy
  exact lt_of_le_of_lt (ht.valid x hx) hxy

theorem sorted {t : AvlTree α} (ht : RangesApart lo hi t) : Sorted lo t :=
  ht.lt.imp fun hxy => hxy.le

theorem keys_nodup {t : AvlTree α} (ht : RangesApart lo hi t) : (keys lo t).Nodup :=
  Multiset.coe_nodup.mpr (List.pairwise_map.mpr (ht.lt.imp fun hxy => hxy.ne))

/-- Two stored ranges that do not start at the same point do not meet. -/
theorem separate {t : AvlTree α} (ht : RangesApart lo hi t) {x y : α} (hx : x ∈ t.toList)
    (hy : y ∈ t.toList) (hxy : lo x < lo y) : hi x < lo y := by
  have hall : ∀ ⦃x⦄, x ∈ t.toList → ∀ ⦃y⦄, y ∈ t.toList → lo x < lo y → hi x < lo y := by
    apply List.Pairwise.forall_of_forall_of_flip
    · intro x _ hlt
      exact absurd hlt (lt_irrefl _)
    · apply ht.apart.imp
      intro x y hxy _
      exact hxy
    · apply ht.lt.imp
      intro x y hxy hyx
      exact absurd hyx hxy.not_gt
  exact hall hx hy hxy

theorem node {v : α} {l r : AvlTree α} {h : Int} {s : UInt64}
    (ht : RangesApart lo hi (node v l r h s)) :
    RangesApart lo hi l ∧ RangesApart lo hi r ∧ lo v ≤ hi v ∧
      (∀ x ∈ l.toList, hi x < lo v) ∧ ∀ x ∈ r.toList, hi v < lo x := by
  rcases ht with ⟨valid, apart⟩
  rw [toList_node, List.pairwise_append, List.pairwise_cons] at apart
  rcases apart with ⟨hl, ⟨hvr, hr⟩, hlr⟩
  refine ⟨⟨fun x hx => valid x (by simp [hx]), hl⟩, ⟨fun x hx => valid x (by simp [hx]), hr⟩,
    valid v (by simp), fun x hx => ?_, hvr⟩
  exact hlr x hx v List.mem_cons_self

/-- A range that meets no stored one goes between those before it and those behind it. -/
theorem insert {t : AvlTree α} (ht : RangesApart lo hi t) {v : α} (hv : lo v ≤ hi v)
    (free : ∀ x ∈ t.toList, hi x < lo v ∨ hi v < lo x) :
    RangesApart lo hi (AvlTree.insert lo above below v t) := by
  have hsorted : Sorted lo (AvlTree.insert lo above below v t) := ht.sorted.insert v
  obtain ⟨xs, ys, hlist, hins⟩ : ∃ xs ys, t.toList = xs ++ ys ∧
      (AvlTree.insert lo above below v t).toList = xs ++ v :: ys := exists_toList_insert v t
  rcases ht with ⟨valid, apart⟩
  rw [hlist] at valid apart free
  rw [Sorted, hins, List.pairwise_append, List.pairwise_cons] at hsorted
  rcases hsorted with ⟨-, ⟨hvys, -⟩, hxsv⟩
  rcases List.pairwise_append.mp apart with ⟨hxs, hys, hxy⟩
  have hbefore : ∀ x ∈ xs, hi x < lo v := by
    intro x hx
    rcases free x (List.mem_append_left _ hx) with h | h
    · exact h
    · exact absurd (hxsv x hx v List.mem_cons_self) (hv.trans_lt h).not_ge
  have hbehind : ∀ y ∈ ys, hi v < lo y := by
    intro y hy
    rcases free y (List.mem_append_right _ hy) with h | h
    · exact absurd (hvys y hy) ((valid y (List.mem_append_right _ hy)).trans_lt h).not_ge
    · exact h
  constructor
  · intro x hx
    rw [mem_insert, hlist] at hx
    rcases hx with rfl | hx
    · exact hv
    · exact valid x hx
  · rw [hins]
    refine List.pairwise_append.mpr ⟨hxs, List.pairwise_cons.mpr ⟨hbehind, hys⟩, ?_⟩
    intro x hx y hy
    rcases List.mem_cons.mp hy with rfl | hy
    · exact hbefore x hx
    · exact hxy x hx y hy

/-- The keys are distinct, so a deletion leaves a sorted choice of the stored ranges. -/
theorem delete {t : AvlTree α} (ht : RangesApart lo hi t) (k : κ) :
    RangesApart lo hi (AvlTree.delete lo resize k t) := by
  have hmem : ∀ x ∈ (AvlTree.delete lo resize k t).toList, x ∈ t.toList := fun x hx =>
    mem_of_mem_delete hx
  have hsorted : Sorted lo (AvlTree.delete lo resize k t) := ht.sorted.delete k
  have hnodup : (keys lo (AvlTree.delete lo resize k t)).Nodup := by
    rw [ht.sorted.keys_delete]
    exact ht.keys_nodup.erase k
  have hne : (AvlTree.delete lo resize k t).toList.Pairwise fun x y => lo x ≠ lo y :=
    List.pairwise_map.mp (Multiset.coe_nodup.mp hnodup)
  constructor
  · intro x hx
    exact ht.valid x (hmem x hx)
  · apply (hsorted.and hne).imp_of_mem
    intro x y hx hy hxy
    exact ht.separate (hmem x hx) (hmem y hy) (lt_of_le_of_ne hxy.1 hxy.2)

theorem nodup {t : AvlTree α} (ht : RangesApart lo hi t) : t.toList.Nodup :=
  ht.lt.imp fun hxy heq => hxy.ne (congrArg lo heq)

/-- A deletion takes out the range that starts at its key, and no other one. -/
theorem mem_delete {t : AvlTree α} (ht : RangesApart lo hi t) {k : κ} {x : α} :
    x ∈ (AvlTree.delete lo resize k t).toList ↔ x ∈ t.toList ∧ lo x ≠ k := by
  have hkey : ∀ j, j ∈ keys lo (AvlTree.delete lo resize k t) ↔ j ≠ k ∧ j ∈ keys lo t := by
    intro j
    rw [ht.sorted.keys_delete, ht.keys_nodup.mem_erase_iff]
  constructor
  · intro hx
    exact ⟨mem_of_mem_delete hx, ((hkey (lo x)).mp (mem_keys.mpr ⟨x, hx, rfl⟩)).1⟩
  · rintro ⟨hx, hne⟩
    obtain ⟨y, hy, hyx⟩ := mem_keys.mp ((hkey (lo x)).mpr ⟨hne, mem_keys.mpr ⟨x, hx, rfl⟩⟩)
    have heq : y = x := List.inj_on_of_nodup_map (Multiset.coe_nodup.mp ht.keys_nodup)
      (mem_of_mem_delete hy) hx hyx
    rwa [← heq]

theorem perm_delete {t : AvlTree α} (ht : RangesApart lo hi t) (k : κ) :
    (AvlTree.delete lo resize k t).toList.Perm (t.toList.filter fun x => lo x ≠ k) := by
  rw [List.perm_ext_iff_of_nodup (ht.delete k).nodup (ht.nodup.filter _)]
  intro x
  rw [ht.mem_delete, List.mem_filter, decide_eq_true_iff]

/-- By induction on the tree: a node that the range `[a, b]` does not meet sends the search to the
side of every stored range that it meets. -/
theorem exists_exposed {t : AvlTree α} (ht : RangesApart lo hi t) {a b : κ} (hab : a ≤ b) {x : α}
    (hx : x ∈ t.toList) (hlo : lo x ≤ b) (hhi : a ≤ hi x) :
    ∃ y, Exposed lo a t y ∧ lo y ≤ b ∧ a ≤ hi y := by
  induction t with
  | nil => simp at hx
  | node v l r h s ihl ihr =>
      rcases ht.node with ⟨hl, hr, hv, hlv, hvr⟩
      by_cases hleft : b < lo v
      · have hxl : x ∈ l.toList := by
          rw [toList_node, List.mem_append, List.mem_cons] at hx
          rcases hx with hx | rfl | hx
          · exact hx
          · exact absurd hlo hleft.not_ge
          · exact absurd hlo (hleft.trans_le (hv.trans (hvr x hx).le)).not_ge
        rcases ihl hl hxl with ⟨y, hy, hmeet⟩
        exact ⟨y, .left (hab.trans_lt hleft) hy, hmeet⟩
      by_cases hright : hi v < a
      · have hxr : x ∈ r.toList := by
          rw [toList_node, List.mem_append, List.mem_cons] at hx
          rcases hx with hx | rfl | hx
          · exact absurd hhi ((hlv x hx).trans_le (hv.trans hright.le)).not_ge
          · exact absurd hhi hright.not_ge
          · exact hx
        rcases ihr hr hxr with ⟨y, hy, hmeet⟩
        exact ⟨y, .right (hv.trans_lt hright) hy, hmeet⟩
      · exact ⟨v, .root, not_lt.mp hleft, not_lt.mp hright⟩

end RangesApart

end ParcoachRma.AvlTree
