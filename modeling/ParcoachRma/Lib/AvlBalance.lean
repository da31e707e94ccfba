import ParcoachRma.Lib.AvlDelete
import Mathlib.Data.Int.Order.Basic

/-!
# Heights and balance

Every operation on an `AvlTree` keeps the cached heights exact, whatever the balance.

Deletion rotates by the balance of the child, so it keeps an AVL tree one and lowers it by at most
one (`IsAvl.delete`).  Insertion rotates by comparing keys, which is another matter.
-/

namespace ParcoachRma.AvlTree

variable {α κ : Type*}

/-- The number of nodes on the longest way down. -/
def depth : AvlTree α → Int
  | nil => 0
  | node _ l r _ _ => 1 + max l.depth r.depth

/-- Every cached height is that of the subtree. -/
def HeightsExact : AvlTree α → Prop
  | nil => True
  | node _ l r h _ => HeightsExact l ∧ HeightsExact r ∧ h = 1 + max l.depth r.depth

/-- Every balance factor is -1, 0 or 1. -/
def Balanced : AvlTree α → Prop
  | nil => True
  | node _ l r _ _ => Balanced l ∧ Balanced r ∧
      -1 ≤ l.height - r.height ∧ l.height - r.height ≤ 1

instance decidableHeightsExact : (t : AvlTree α) → Decidable (HeightsExact t)
  | nil => inferInstanceAs (Decidable True)
  | node _ l r _ _ =>
      have := decidableHeightsExact l
      have := decidableHeightsExact r
      inferInstanceAs (Decidable (_ ∧ _ ∧ _))

instance decidableBalanced : (t : AvlTree α) → Decidable (Balanced t)
  | nil => inferInstanceAs (Decidable True)
  | node _ l r _ _ =>
      have := decidableBalanced l
      have := decidableBalanced r
      inferInstanceAs (Decidable (_ ∧ _ ∧ _ ∧ _))

/-- Exact heights and balance factors of -1, 0 or 1. -/
structure IsAvl (t : AvlTree α) : Prop where
  heights : HeightsExact t
  balanced : Balanced t

/-! ## Exact heights -/

@[simp] theorem height_nil : (nil : AvlTree α).height = 0 := rfl

@[simp] theorem height_node (v : α) (l r : AvlTree α) (h : Int) (s : UInt64) :
    (node v l r h s).height = h := rfl

@[simp] theorem getBalance_node (v : α) (l r : AvlTree α) (h : Int) (s : UInt64) :
    (node v l r h s).getBalance = l.height - r.height := rfl

/-- The choice of the rotation after a deletion, by the heights. -/
theorem rebalanceDelete_node (resize : UInt64 → UInt64) (v : α) (l r : AvlTree α) (h : Int)
    (s : UInt64) : rebalanceDelete resize (node v l r h s) =
      let h' := 1 + max l.height r.height
      if l.height - r.height > 1 ∧ l.getBalance ≥ 0 then (node v l r h' s).rightRotate
      else if l.height - r.height > 1 ∧ l.getBalance < 0 then
        (node v l.leftRotate r h' s).rightRotate
      else if l.height - r.height < -1 ∧ r.getBalance ≤ 0 then (node v l r h' s).leftRotate
      else if l.height - r.height < -1 ∧ r.getBalance > 0 then
        (node v l r.rightRotate h' s).leftRotate
      else node v l r h' (resize s) := rfl

/-- The choice of the rotation after an insertion, by the heights and the keys. -/
theorem rebalanceInsert_node [LinearOrder κ] (key : α → κ) (k above below : κ) (v : α)
    (l r : AvlTree α) (h : Int) (s : UInt64) :
    rebalanceInsert key k above below (node v l r h s) =
      if l.height - r.height > 1 ∧ k < l.rootKeyD key above then (node v l r h s).rightRotate
      else if l.height - r.height < -1 ∧ r.rootKeyD key below < k then
        (node v l r h s).leftRotate
      else if l.height - r.height > 1 ∧ l.rootKeyD key above < k then
        (node v l.leftRotate r h s).rightRotate
      else if l.height - r.height < -1 ∧ k < r.rootKeyD key below then
        (node v l r.rightRotate h s).leftRotate
      else node v l r h s := rfl

theorem depth_nonneg (t : AvlTree α) : 0 ≤ t.depth := by
  cases t with
  | nil => exact le_rfl
  | node v l r h s =>
      have hl := depth_nonneg l
      simp only [depth]
      omega

theorem HeightsExact.height_eq {t : AvlTree α} (ht : HeightsExact t) : t.height = t.depth := by
  cases t with
  | nil => rfl
  | node => exact ht.2.2

theorem HeightsExact.height_nonneg {t : AvlTree α} (ht : HeightsExact t) : 0 ≤ t.height := by
  rw [ht.height_eq]
  exact depth_nonneg t

theorem heightsExact_node {v : α} {l r : AvlTree α} {h : Int} {s : UInt64} :
    HeightsExact (node v l r h s) ↔
      HeightsExact l ∧ HeightsExact r ∧ h = 1 + max l.height r.height := by
  refine and_congr_right fun hl => and_congr_right fun hr => ?_
  rw [hl.height_eq, hr.height_eq]

theorem exists_node {t : AvlTree α} (hpos : 0 < t.height) : ∃ v l r h s, t = node v l r h s := by
  cases t with
  | nil => exact absurd hpos (lt_irrefl 0)
  | node v l r h s => exact ⟨v, l, r, h, s, rfl⟩

theorem ne_nil_of_height_pos {t : AvlTree α} (hpos : 0 < t.height) : t ≠ nil := by
  rintro rfl
  exact lt_irrefl 0 hpos

/-- The rotation of a node with a left child computes both heights anew. -/
theorem heightsExact_rightRotate {v : α} {l r : AvlTree α} {h : Int} {s : UInt64}
    (hl : HeightsExact l) (hr : HeightsExact r) (hne : l ≠ nil) :
    HeightsExact (node v l r h s).rightRotate := by
  cases l with
  | nil => exact absurd rfl hne
  | node w a b h' s' =>
      obtain ⟨ha, hb, -⟩ := heightsExact_node.mp hl
      simp only [rightRotate, heightsExact_node, ha, hb, hr, height_node, Int.add_comm, and_self]

theorem heightsExact_leftRotate {v : α} {l r : AvlTree α} {h : Int} {s : UInt64}
    (hl : HeightsExact l) (hr : HeightsExact r) (hne : r ≠ nil) :
    HeightsExact (node v l r h s).leftRotate := by
  cases r with
  | nil => exact absurd rfl hne
  | node w a b h' s' =>
      obtain ⟨ha, hb, -⟩ := heightsExact_node.mp hr
      simp only [leftRotate, heightsExact_node, ha, hb, hl, height_node, Int.add_comm, and_self]

theorem HeightsExact.rightRotate {t : AvlTree α} (ht : HeightsExact t) :
    HeightsExact t.rightRotate := by
  rcases t with _ | ⟨v, _ | ⟨w, a, b, h', s'⟩, r, h, s⟩
  · exact ht
  · exact ht
  · obtain ⟨hl, hr, -⟩ := heightsExact_node.mp ht
    exact heightsExact_rightRotate hl hr (by simp)

theorem HeightsExact.leftRotate {t : AvlTree α} (ht : HeightsExact t) :
    HeightsExact t.leftRotate := by
  rcases t with _ | ⟨v, l, _ | ⟨w, a, b, h', s'⟩, h, s⟩
  · exact ht
  · exact ht
  · obtain ⟨hl, hr, -⟩ := heightsExact_node.mp ht
    exact heightsExact_leftRotate hl hr (by simp)

@[simp] theorem rightRotate_eq_nil {t : AvlTree α} : t.rightRotate = nil ↔ t = nil := by
  rcases t with _ | ⟨v, _ | ⟨w, a, b, h', s'⟩, r, h, s⟩ <;> simp [AvlTree.rightRotate]

@[simp] theorem leftRotate_eq_nil {t : AvlTree α} : t.leftRotate = nil ↔ t = nil := by
  rcases t with _ | ⟨v, l, _ | ⟨w, a, b, h', s'⟩, h, s⟩ <;> simp [AvlTree.leftRotate]

/-- Rebalancing after a deletion computes the heights of the node and of those it rotates. -/
theorem heightsExact_rebalanceDelete {resize : UInt64 → UInt64} {v : α} {l r : AvlTree α}
    {h : Int} {s : UInt64} (hl : HeightsExact l) (hr : HeightsExact r) :
    HeightsExact (rebalanceDelete resize (node v l r h s)) := by
  have hl0 := hl.height_nonneg
  have hr0 := hr.height_nonneg
  rw [rebalanceDelete_node]
  split_ifs
  · exact heightsExact_rightRotate hl hr (ne_nil_of_height_pos (by omega))
  · apply heightsExact_rightRotate hl.leftRotate hr
    rw [Ne, leftRotate_eq_nil]
    exact ne_nil_of_height_pos (by omega)
  · exact heightsExact_leftRotate hl hr (ne_nil_of_height_pos (by omega))
  · apply heightsExact_leftRotate hl hr.rightRotate
    rw [Ne, rightRotate_eq_nil]
    exact ne_nil_of_height_pos (by omega)
  · exact heightsExact_node.mpr ⟨hl, hr, rfl⟩

variable [LinearOrder κ] {key : α → κ} {resize : UInt64 → UInt64} {above below : κ}

/-- So does rebalancing after an insertion, for a node whose height is up to date. -/
theorem HeightsExact.rebalanceInsert {t : AvlTree α} (ht : HeightsExact t) (k : κ) :
    HeightsExact (rebalanceInsert key k above below t) := by
  cases t with
  | nil => exact ht
  | node v l r h s =>
      obtain ⟨hl, hr, -⟩ := heightsExact_node.mp ht
      have hl0 := hl.height_nonneg
      have hr0 := hr.height_nonneg
      rw [rebalanceInsert_node]
      split_ifs
      · exact ht.rightRotate
      · exact ht.leftRotate
      · apply heightsExact_rightRotate hl.leftRotate hr
        rw [Ne, leftRotate_eq_nil]
        exact ne_nil_of_height_pos (by omega)
      · apply heightsExact_leftRotate hl hr.rightRotate
        rw [Ne, rightRotate_eq_nil]
        exact ne_nil_of_height_pos (by omega)
      · exact ht

theorem HeightsExact.insert {t : AvlTree α} (ht : HeightsExact t) (v : α) :
    HeightsExact (insert key above below v t) := by
  induction t with
  | nil => exact heightsExact_node.mpr ⟨trivial, trivial, rfl⟩
  | node w l r h s ihl ihr =>
      obtain ⟨hl, hr, -⟩ := heightsExact_node.mp ht
      simp only [AvlTree.insert]
      split_ifs
      · exact HeightsExact.rebalanceInsert (heightsExact_node.mpr ⟨ihl hl, hr, rfl⟩) _
      · exact HeightsExact.rebalanceInsert (heightsExact_node.mpr ⟨hl, ihr hr, rfl⟩) _

/-- A deletion ends in a rebalancing of trees whose heights are exact. -/
theorem HeightsExact.delete {t : AvlTree α} (ht : HeightsExact t) (k : κ) :
    HeightsExact (delete key resize k t) := by
  induction t generalizing k with
  | nil => exact ht
  | node v l r h s ihl ihr =>
      obtain ⟨hl, hr, -⟩ := heightsExact_node.mp ht
      simp only [AvlTree.delete]
      split_ifs
      · exact heightsExact_rebalanceDelete (ihl hl k) hr
      · exact heightsExact_rebalanceDelete hl (ihr hr k)
      · cases r with
        | nil => trivial
        | node v' l' r' h' s' =>
            obtain ⟨hl', hr', -⟩ := heightsExact_node.mp hr
            exact heightsExact_rebalanceDelete hl' hr'
      · cases l with
        | nil => trivial
        | node v' l' r' h' s' =>
            obtain ⟨hl', hr', -⟩ := heightsExact_node.mp hl
            exact heightsExact_rebalanceDelete hl' hr'
      · exact heightsExact_rebalanceDelete hl (ihr hr _)

/-! ## Deletion from an AVL tree -/

theorem isAvl_nil : IsAvl (nil : AvlTree α) := ⟨trivial, trivial⟩

theorem isAvl_node {v : α} {l r : AvlTree α} {h : Int} {s : UInt64} :
    IsAvl (node v l r h s) ↔ IsAvl l ∧ IsAvl r ∧ h = 1 + max l.height r.height ∧
      -1 ≤ l.height - r.height ∧ l.height - r.height ≤ 1 := by
  constructor
  · intro hparts
    rcases hparts with ⟨hh, hb⟩
    obtain ⟨hl, hr, heq⟩ := heightsExact_node.mp hh
    exact ⟨⟨hl, hb.1⟩, ⟨hr, hb.2.1⟩, heq, hb.2.2⟩
  · intro hparts
    rcases hparts with ⟨hl, hr, heq, hbal⟩
    exact ⟨heightsExact_node.mpr ⟨hl.heights, hr.heights, heq⟩, hl.balanced, hr.balanced, hbal⟩

/-- A single rotation brings a left side back that is two higher and does not lean to the right. -/
theorem isAvl_rightRotate {v w : α} {a b r : AvlTree α} {h h' : Int} {s s' : UInt64}
    (hl : IsAvl (node w a b h' s')) (hr : IsAvl r) (hdiff : h' = r.height + 2)
    (hside : b.height ≤ a.height) :
    IsAvl (node v (node w a b h' s') r h s).rightRotate ∧
      (node v (node w a b h' s') r h s).rightRotate.height = 2 + b.height := by
  obtain ⟨ha, hb, hh, hbal⟩ := isAvl_node.mp hl
  simp only [rightRotate, isAvl_node, height_node]
  refine ⟨⟨ha, ⟨hb, hr, ?_, ?_⟩, ?_, ?_⟩, ?_⟩ <;> omega

theorem isAvl_leftRotate {v w : α} {l a b : AvlTree α} {h h' : Int} {s s' : UInt64}
    (hl : IsAvl l) (hr : IsAvl (node w a b h' s')) (hdiff : h' = l.height + 2)
    (hside : a.height ≤ b.height) :
    IsAvl (node v l (node w a b h' s') h s).leftRotate ∧
      (node v l (node w a b h' s') h s).leftRotate.height = 2 + a.height := by
  obtain ⟨ha, hb, hh, hbal⟩ := isAvl_node.mp hr
  simp only [leftRotate, isAvl_node, height_node]
  refine ⟨⟨⟨hl, ha, ?_, ?_⟩, hb, ?_, ?_⟩, ?_⟩ <;> omega

/-- A double rotation brings a left side back that is two higher and leans to the right. -/
theorem isAvl_leftRotate_rightRotate {v w : α} {a b r : AvlTree α} {h h' : Int} {s s' : UInt64}
    (hl : IsAvl (node w a b h' s')) (hr : IsAvl r) (hdiff : h' = r.height + 2)
    (hside : a.height < b.height) :
    IsAvl (node v (node w a b h' s').leftRotate r h s).rightRotate ∧
      (node v (node w a b h' s').leftRotate r h s).rightRotate.height = 2 + r.height := by
  obtain ⟨ha, hb, hh, hbal⟩ := isAvl_node.mp hl
  have ha0 := ha.heights.height_nonneg
  cases b with
  | nil => exact absurd hside (not_lt.mpr ha0)
  | node x c d h'' s'' =>
      obtain ⟨hc, hd, hh', hbal'⟩ := isAvl_node.mp hb
      simp only [height_node] at hside hbal hh
      simp only [leftRotate, rightRotate, isAvl_node, height_node]
      refine ⟨⟨⟨ha, hc, ?_, ?_⟩, ⟨hd, hr, ?_, ?_⟩, ?_, ?_⟩, ?_⟩ <;> omega

theorem isAvl_rightRotate_leftRotate {v w : α} {l a b : AvlTree α} {h h' : Int} {s s' : UInt64}
    (hl : IsAvl l) (hr : IsAvl (node w a b h' s')) (hdiff : h' = l.height + 2)
    (hside : b.height < a.height) :
    IsAvl (node v l (node w a b h' s').rightRotate h s).leftRotate ∧
      (node v l (node w a b h' s').rightRotate h s).leftRotate.height = 2 + l.height := by
  obtain ⟨ha, hb, hh, hbal⟩ := isAvl_node.mp hr
  have hb0 := hb.heights.height_nonneg
  cases a with
  | nil => exact absurd hside (not_lt.mpr hb0)
  | node x c d h'' s'' =>
      obtain ⟨hc, hd, hh', hbal'⟩ := isAvl_node.mp ha
      simp only [height_node] at hside hbal hh
      simp only [leftRotate, rightRotate, isAvl_node, height_node]
      refine ⟨⟨⟨hl, hc, ?_, ?_⟩, ⟨hd, hb, ?_, ?_⟩, ?_, ?_⟩, ?_⟩ <;> omega

/-- Two AVL trees whose heights differ by at most two become one whose height is that of their node
or, where they differ by two, possibly one less. -/
theorem isAvl_rebalanceDelete (resize : UInt64 → UInt64) {v : α} {l r : AvlTree α} {h : Int}
    {s : UInt64} (hl : IsAvl l) (hr : IsAvl r) (hlo : -2 ≤ l.height - r.height)
    (hhi : l.height - r.height ≤ 2) :
    IsAvl (rebalanceDelete resize (node v l r h s)) ∧
      max l.height r.height ≤ (rebalanceDelete resize (node v l r h s)).height ∧
      (rebalanceDelete resize (node v l r h s)).height ≤ 1 + max l.height r.height ∧
      (-1 ≤ l.height - r.height → l.height - r.height ≤ 1 →
        (rebalanceDelete resize (node v l r h s)).height = 1 + max l.height r.height) := by
  have hl0 := hl.heights.height_nonneg
  have hr0 := hr.heights.height_nonneg
  rw [rebalanceDelete_node]
  split_ifs
  · obtain ⟨w, a, b, h', s', rfl⟩ := exists_node (t := l) (by omega)
    obtain ⟨-, -, hh, hbal⟩ := isAvl_node.mp hl
    simp only [height_node, getBalance_node] at *
    obtain ⟨havl, hheight⟩ := isAvl_rightRotate (v := v) (h := 1 + max h' r.height) (s := s) hl hr
      (by omega) (by omega)
    refine ⟨havl, ?_⟩
    rw [hheight]
    omega
  · obtain ⟨w, a, b, h', s', rfl⟩ := exists_node (t := l) (by omega)
    simp only [height_node, getBalance_node] at *
    obtain ⟨havl, hheight⟩ := isAvl_leftRotate_rightRotate (v := v) (h := 1 + max h' r.height)
      (s := s) hl hr (by omega) (by omega)
    refine ⟨havl, ?_⟩
    rw [hheight]
    omega
  · obtain ⟨w, a, b, h', s', rfl⟩ := exists_node (t := r) (by omega)
    obtain ⟨-, -, hh, hbal⟩ := isAvl_node.mp hr
    simp only [height_node, getBalance_node] at *
    obtain ⟨havl, hheight⟩ := isAvl_leftRotate (v := v) (h := 1 + max l.height h') (s := s) hl hr
      (by omega) (by omega)
    refine ⟨havl, ?_⟩
    rw [hheight]
    omega
  · obtain ⟨w, a, b, h', s', rfl⟩ := exists_node (t := r) (by omega)
    simp only [height_node, getBalance_node] at *
    obtain ⟨havl, hheight⟩ := isAvl_rightRotate_leftRotate (v := v) (h := 1 + max l.height h')
      (s := s) hl hr (by omega) (by omega)
    refine ⟨havl, ?_⟩
    rw [hheight]
    omega
  · have hb : -1 ≤ l.height - r.height ∧ l.height - r.height ≤ 1 := by omega
    refine ⟨isAvl_node.mpr ⟨hl, hr, rfl, hb⟩, ?_⟩
    rw [height_node]
    omega

/-- An AVL tree whose height is that of `t` or one less. -/
structure AtMostOneLower (u t : AvlTree α) : Prop where
  isAvl : IsAvl u
  ge : t.height - 1 ≤ u.height
  le : u.height ≤ t.height

/-- A node one of whose sides has become at most one lower. -/
theorem AtMostOneLower.rebalanceDelete_left {v w : α} {l l' r : AvlTree α} {h h' : Int}
    {s s' : UInt64} (ht : IsAvl (node v l r h s)) (hl' : AtMostOneLower l' l) :
    AtMostOneLower (rebalanceDelete resize (node w l' r h' s')) (node v l r h s) := by
  obtain ⟨-, hr, hh, hlo, hhi⟩ := isAvl_node.mp ht
  obtain ⟨havl, hge, hle⟩ := hl'
  obtain ⟨hres, hlow, hup, heq⟩ := isAvl_rebalanceDelete resize (v := w) (h := h') (s := s') havl
    hr (by omega) (by omega)
  refine ⟨hres, ?_, ?_⟩ <;> rw [height_node] <;> omega

theorem AtMostOneLower.rebalanceDelete_right {v w : α} {l r r' : AvlTree α} {h h' : Int}
    {s s' : UInt64} (ht : IsAvl (node v l r h s)) (hr' : AtMostOneLower r' r) :
    AtMostOneLower (rebalanceDelete resize (node w l r' h' s')) (node v l r h s) := by
  obtain ⟨hl, -, hh, hlo, hhi⟩ := isAvl_node.mp ht
  obtain ⟨havl, hge, hle⟩ := hr'
  obtain ⟨hres, hlow, hup, heq⟩ := isAvl_rebalanceDelete resize (v := w) (h := h') (s := s') hl
    havl (by omega) (by omega)
  refine ⟨hres, ?_, ?_⟩ <;> rw [height_node] <;> omega

/-- An AVL tree that is rebalanced keeps its height. -/
theorem IsAvl.rebalanceDelete (resize : UInt64 → UInt64) {t : AvlTree α} (ht : IsAvl t) :
    IsAvl (rebalanceDelete resize t) ∧ (AvlTree.rebalanceDelete resize t).height = t.height := by
  cases t with
  | nil => exact ⟨ht, rfl⟩
  | node v l r h s =>
      obtain ⟨hl, hr, hh, hlo, hhi⟩ := isAvl_node.mp ht
      obtain ⟨hres, -, -, heq⟩ := isAvl_rebalanceDelete resize (v := v) (h := h) (s := s) hl hr
        (by omega) (by omega)
      exact ⟨hres, (heq hlo hhi).trans hh.symm⟩

/-- The induction follows the three ways down; at a node with two children the deletion goes on
with another key on the right. -/
theorem IsAvl.delete {t : AvlTree α} (ht : IsAvl t) (k : κ) :
    AtMostOneLower (delete key resize k t) t := by
  induction t generalizing k with
  | nil => exact ⟨isAvl_nil, by simp [AvlTree.delete], le_rfl⟩
  | node v l r h s ihl ihr =>
      obtain ⟨hl, hr, hh, hlo, hhi⟩ := isAvl_node.mp ht
      have hl0 := hl.heights.height_nonneg
      have hr0 := hr.heights.height_nonneg
      simp only [AvlTree.delete]
      split_ifs with hlt hgt hnil hlnil
      · exact (ihl hl k).rebalanceDelete_left ht
      · exact (ihr hr k).rebalanceDelete_right ht
      · obtain rfl := isNil_iff.mp hlnil
        obtain ⟨hres, heq⟩ := hr.rebalanceDelete resize
        rw [height_nil] at hh hlo hhi
        refine ⟨hres, ?_, ?_⟩ <;> rw [heq, height_node] <;> omega
      · have hrnil : r = nil := by simpa [hlnil, isNil_iff] using hnil
        subst hrnil
        obtain ⟨hres, heq⟩ := hl.rebalanceDelete resize
        rw [height_nil] at hh hlo hhi
        refine ⟨hres, ?_, ?_⟩ <;> rw [heq, height_node] <;> omega
      · exact (ihr hr _).rebalanceDelete_right ht

end ParcoachRma.AvlTree
