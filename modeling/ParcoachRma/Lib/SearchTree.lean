import ParcoachRma.Lib.AvlTree
import Mathlib.Data.List.Induction

/-!
# Search trees without balancing

Insertion as a leaf, with the nodes and caches of `AvlTree` but without rotations.

* `toList_insert` and `toList_insertLeaf`: in a sorted tree both insertions put the value behind
  those with its key, so balancing does not show in the traversal.
* `exposed_ofList_iff`: which values a search meets can be read off the order of the insertions.  A
  value is met exactly if none that came before it has a key between its own and the one that is
  searched for (`Separates`).
-/

namespace ParcoachRma.AvlTree

variable {α κ : Type*} [LinearOrder κ] {key : α → κ}

/-- Insert a value as a new leaf, equal keys to the right, and leave the shape as it is. -/
def insertLeaf (key : α → κ) (v : α) : AvlTree α → AvlTree α
  | nil => leaf v
  | node w l r h s =>
      if key v < key w then
        let l' := insertLeaf key v l
        node w l' r (max h (l'.height + 1)) (s + 1)
      else
        let r' := insertLeaf key v r
        node w l r' (max h (r'.height + 1)) (s + 1)

/-- The tree that the insertions of the values lead to. -/
def ofList (key : α → κ) (vs : List α) : AvlTree α :=
  vs.foldl (fun t v => insertLeaf key v t) nil

theorem ofList_snoc (vs : List α) (v : α) :
    ofList key (vs ++ [v]) = insertLeaf key v (ofList key vs) := by
  simp [ofList]

/-! ## The traversal -/

/-- Insert a value into a list, in front of the first one with a greater key. -/
def insertInOrder (key : α → κ) (v : α) (l : List α) : List α :=
  l.orderedInsert (fun x y => key x < key y) v

theorem insertInOrder_of_lt {v w : α} (l r : List α) (hlt : key v < key w) :
    insertInOrder key v (l ++ w :: r) = insertInOrder key v l ++ w :: r := by
  induction l with
  | nil => simp [insertInOrder, hlt]
  | cons x l ih =>
      simp only [insertInOrder, List.cons_append, List.orderedInsert_cons] at ih ⊢
      split_ifs with hx
      · rfl
      · rw [ih]
        rfl

theorem insertInOrder_of_not_lt {v w : α} {l : List α} (r : List α)
    (hl : ∀ x ∈ l, key x ≤ key w) (hlt : ¬ key v < key w) :
    insertInOrder key v (l ++ w :: r) = l ++ w :: insertInOrder key v r := by
  induction l with
  | nil => simp [insertInOrder, hlt]
  | cons x l ih =>
      have hx : ¬ key v < key x := fun h => hlt (h.trans_le (hl x List.mem_cons_self))
      have hrest := ih fun y hy => hl y (List.mem_cons_of_mem _ hy)
      simp only [insertInOrder, List.cons_append, List.orderedInsert_cons, if_neg hx] at hrest ⊢
      rw [hrest]

theorem Sorted.toList_insert {above below : κ} (v : α) {t : AvlTree α} (ht : Sorted key t) :
    (AvlTree.insert key above below v t).toList = insertInOrder key v t.toList := by
  induction t with
  | nil => rfl
  | node w l r h s ihl ihr =>
      obtain ⟨hl, hr, hlw, -⟩ := sorted_node.mp ht
      by_cases hlt : key v < key w
      · rw [toList_node, insertInOrder_of_lt _ _ hlt, ← ihl hl]
        simp [AvlTree.insert, hlt]
      · rw [toList_node, insertInOrder_of_not_lt _ hlw hlt, ← ihr hr]
        simp [AvlTree.insert, hlt]

theorem Sorted.toList_insertLeaf (v : α) {t : AvlTree α} (ht : Sorted key t) :
    (insertLeaf key v t).toList = insertInOrder key v t.toList := by
  induction t with
  | nil => rfl
  | node w l r h s ihl ihr =>
      obtain ⟨hl, hr, hlw, -⟩ := sorted_node.mp ht
      by_cases hlt : key v < key w
      · rw [toList_node, insertInOrder_of_lt _ _ hlt, ← ihl hl]
        simp [insertLeaf, hlt]
      · rw [toList_node, insertInOrder_of_not_lt _ hlw hlt, ← ihr hr]
        simp [insertLeaf, hlt]

theorem Sorted.toList_insertLeaf_eq {t : AvlTree α} (ht : Sorted key t) (above below : κ) (v : α) :
    (insertLeaf key v t).toList = (AvlTree.insert key above below v t).toList := by
  rw [ht.toList_insertLeaf, ht.toList_insert]

theorem Sorted.insertLeaf (v : α) {t : AvlTree α} (ht : Sorted key t) :
    Sorted key (insertLeaf key v t) := by
  have hins : Sorted key (AvlTree.insert key (key v) (key v) v t) := ht.insert v
  exact hins.of_toList_eq (ht.toList_insertLeaf_eq _ _ v)

theorem sorted_ofList (vs : List α) : Sorted key (ofList key vs) := by
  induction vs using List.reverseRecOn with
  | nil => exact sorted_nil
  | append_singleton vs v ih =>
      rw [ofList_snoc]
      exact ih.insertLeaf v

/-! ## What a search meets -/

/-- A node with the value `y` keeps a search for `k` away from `x` that came later: the two go to
different sides of it, or the search ends there. -/
def Separates (key : α → κ) (k : κ) (y x : α) : Prop :=
  k ≤ key y ∧ key y ≤ key x ∨ key x < key y ∧ key y ≤ k

theorem mem_insertLeaf {v x : α} {t : AvlTree α} :
    x ∈ (insertLeaf key v t).toList ↔ x = v ∨ x ∈ t.toList := by
  induction t with
  | nil => simp [insertLeaf, leaf]
  | node w l r h s ihl ihr =>
      simp only [insertLeaf]
      split_ifs
      · simp only [toList_node, List.mem_append, List.mem_cons, ihl, or_assoc]
      · simp only [toList_node, List.mem_append, List.mem_cons, ihr]
        grind

theorem mem_ofList {vs : List α} {x : α} : x ∈ (ofList key vs).toList ↔ x ∈ vs := by
  induction vs using List.reverseRecOn with
  | nil => simp [ofList]
  | append_singleton vs v ih =>
      rw [ofList_snoc, mem_insertLeaf, ih, List.mem_append, List.mem_singleton, or_comm]

theorem exposed_node {k : κ} {v x : α} {l r : AvlTree α} {h : Int} {s : UInt64} :
    Exposed key k (node v l r h s) x ↔
      x = v ∨ k < key v ∧ Exposed key k l x ∨ key v < k ∧ Exposed key k r x := by
  constructor
  · intro hx
    cases hx with
    | root => exact .inl rfl
    | left hlt hx => exact .inr (.inl ⟨hlt, hx⟩)
    | right hlt hx => exact .inr (.inr ⟨hlt, hx⟩)
  · intro hx
    rcases hx with rfl | ⟨hlt, hx⟩ | ⟨hlt, hx⟩
    · exact .root
    · exact .left hlt hx
    · exact .right hlt hx

/-- On the left of a node, only the node itself and the values there can separate. -/
theorem not_separates_left {k : κ} {v w : α} {l r : AvlTree α} (hlt : key v < key w)
    (hwr : ∀ y ∈ r.toList, key w ≤ key y) :
    (∀ y ∈ l.toList ++ w :: r.toList, ¬ Separates key k y v) ↔
      k < key w ∧ ∀ y ∈ l.toList, ¬ Separates key k y v := by
  simp only [List.mem_append, List.mem_cons, or_imp, forall_and, forall_eq]
  constructor
  · intro hall
    rcases hall with ⟨hl, hw, -⟩
    exact ⟨not_le.mp fun hle => hw (.inr ⟨hlt, hle⟩), hl⟩
  · intro hparts
    rcases hparts with ⟨hk, hl⟩
    have hge : ∀ y, key w ≤ key y → ¬ Separates key k y v := by
      intro y hy hsep
      rcases hsep with ⟨-, hle⟩ | ⟨-, hle⟩
      · exact absurd (hy.trans hle) hlt.not_ge
      · exact absurd (hy.trans hle) hk.not_ge
    exact ⟨hl, hge w le_rfl, fun y hy => hge y (hwr y hy)⟩

/-- On the right of a node, only the node itself and the values there can separate. -/
theorem not_separates_right {k : κ} {v w : α} {l r : AvlTree α} (hlt : ¬ key v < key w)
    (hlw : ∀ y ∈ l.toList, key y ≤ key w) :
    (∀ y ∈ l.toList ++ w :: r.toList, ¬ Separates key k y v) ↔
      key w < k ∧ ∀ y ∈ r.toList, ¬ Separates key k y v := by
  simp only [List.mem_append, List.mem_cons, or_imp, forall_and, forall_eq]
  constructor
  · intro hall
    rcases hall with ⟨-, hw, hr⟩
    exact ⟨not_le.mp fun hle => hw (.inl ⟨hle, not_lt.mp hlt⟩), hr⟩
  · intro hparts
    rcases hparts with ⟨hk, hr⟩
    have hle : ∀ y, key y ≤ key w → ¬ Separates key k y v := by
      intro y hy hsep
      rcases hsep with ⟨hge, -⟩ | ⟨hgt, -⟩
      · exact absurd (hge.trans hy) hk.not_ge
      · exact hlt (hgt.trans_le hy)
    exact ⟨fun y hy => hle y (hlw y hy), hle w le_rfl, hr⟩

/-- By induction on the tree: a search goes the way of the new value as long as no node separates
them. -/
theorem Sorted.exposed_insertLeaf_iff {t : AvlTree α} (ht : Sorted key t) {k : κ} {v x : α} :
    Exposed key k (AvlTree.insertLeaf key v t) x ↔
      Exposed key k t x ∨ x = v ∧ ∀ y ∈ t.toList, ¬ Separates key k y v := by
  induction t with
  | nil =>
      have hnil : ∀ {z : α}, ¬ Exposed key k nil z := fun hz => by cases hz
      simp only [AvlTree.insertLeaf, leaf, exposed_node, hnil, toList_nil, List.not_mem_nil]
      grind
  | node w l r h s ihl ihr =>
      obtain ⟨hl, hr, hlw, hwr⟩ := sorted_node.mp ht
      by_cases hlt : key v < key w
      · simp only [AvlTree.insertLeaf, if_pos hlt, exposed_node, ihl hl, toList_node,
          not_separates_left hlt hwr]
        grind
      · simp only [AvlTree.insertLeaf, if_neg hlt, exposed_node, ihr hr, toList_node,
          not_separates_right hlt hlw]
        simp only [and_or_left, or_assoc, and_left_comm]

/-- A search for `k` in the tree of some insertions meets `x` exactly if `x` is inserted at a point
where nothing inserted before separates it from `k`. -/
theorem exposed_ofList_iff {vs : List α} {k : κ} {x : α} :
    Exposed key k (ofList key vs) x ↔
      ∃ pre, pre ++ [x] <+: vs ∧ ∀ y ∈ pre, ¬ Separates key k y x := by
  induction vs using List.reverseRecOn with
  | nil =>
      constructor
      · intro hx
        cases hx
      · intro hx
        rcases hx with ⟨pre, hpre, -⟩
        simp at hpre
  | append_singleton vs v ih =>
      rw [ofList_snoc, (sorted_ofList vs).exposed_insertLeaf_iff, ih]
      simp only [mem_ofList]
      constructor
      · intro hx
        rcases hx with ⟨pre, hpre, hsep⟩ | ⟨rfl, hsep⟩
        · exact ⟨pre, hpre.trans (List.prefix_append _ _), hsep⟩
        · exact ⟨vs, List.prefix_rfl, hsep⟩
      · intro hx
        rcases hx with ⟨pre, hpre, hsep⟩
        rcases List.prefix_concat_iff.mp hpre with hlast | hin
        · obtain ⟨rfl, hlast⟩ := List.append_inj' hlast rfl
          obtain rfl : x = v := by simpa using hlast
          exact .inr ⟨rfl, hsep⟩
        · exact .inl ⟨pre, hin, hsep⟩

end ParcoachRma.AvlTree
