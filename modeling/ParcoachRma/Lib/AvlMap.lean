import ParcoachRma.Lib.AvlBalance

/-!
# Trees of images

The operations of an `AvlTree` look at the keys of its values only.  So a function `f` that keeps
the keys goes through every operation: what an operation does to the images is the image of what it
does to the values.  `map_insert`, `map_delete`, `map_freeLoop` and `map_lookup` are the rules.
-/

namespace ParcoachRma.AvlTree

variable {α β κ : Type*} {f : α → β}

/-- The tree of the images, with the cached heights and sizes. -/
def map (f : α → β) : AvlTree α → AvlTree β
  | nil => nil
  | node v l r h s => node (f v) (map f l) (map f r) h s

@[simp] theorem map_nil : (nil : AvlTree α).map f = nil := rfl

@[simp] theorem map_node (v : α) (l r : AvlTree α) (h : Int) (s : UInt64) :
    (node v l r h s).map f = node (f v) (l.map f) (r.map f) h s := rfl

@[simp] theorem height_map (t : AvlTree α) : (t.map f).height = t.height := by
  cases t <;> rfl

@[simp] theorem isNil_map (t : AvlTree α) : (t.map f).isNil = t.isNil := by
  cases t <;> rfl

@[simp] theorem getBalance_map (t : AvlTree α) : (t.map f).getBalance = t.getBalance := by
  cases t with
  | nil => rfl
  | node v l r h s => simp [getBalance]

@[simp] theorem numNodes_map (t : AvlTree α) : (t.map f).numNodes = t.numNodes := by
  induction t with
  | nil => rfl
  | node v l r h s ihl ihr => simp [numNodes, ihl, ihr]

@[simp] theorem toList_map (t : AvlTree α) : (t.map f).toList = t.toList.map f := by
  induction t with
  | nil => rfl
  | node v l r h s ihl ihr => simp [ihl, ihr]

@[simp] theorem map_rightRotate (t : AvlTree α) :
    (t.map f).rightRotate = t.rightRotate.map f := by
  rcases t with _ | ⟨v, _ | ⟨w, a, b, h', s'⟩, r, h, s⟩ <;> simp [rightRotate]

@[simp] theorem map_leftRotate (t : AvlTree α) : (t.map f).leftRotate = t.leftRotate.map f := by
  rcases t with _ | ⟨v, l, _ | ⟨w, a, b, h', s'⟩, h, s⟩ <;> simp [leftRotate]

@[simp] theorem minValueNode_map (v : α) (t : AvlTree α) :
    (t.map f).minValueNode (f v) = f (t.minValueNode v) := by
  induction t generalizing v with
  | nil => rfl
  | node w l r h s ihl _ => exact ihl w

@[simp] theorem map_rebalanceDelete (resize : UInt64 → UInt64) (t : AvlTree α) :
    rebalanceDelete resize (t.map f) = (rebalanceDelete resize t).map f := by
  cases t with
  | nil => rfl
  | node v l r h s =>
      simp only [map_node, rebalanceDelete, height_map]
      simp only [← map_node, getBalance_map]
      split_ifs <;> simp only [← map_node, map_leftRotate, map_rightRotate]

/-! ## Functions that keep the keys -/

section Keys

variable [LinearOrder κ] {key : α → κ} {key' : β → κ} {above below : κ}
  {resize : UInt64 → UInt64}

omit [LinearOrder κ] in
theorem rootKeyD_map (hkey : ∀ x, key' (f x) = key x) (k : κ) (t : AvlTree α) :
    (t.map f).rootKeyD key' k = t.rootKeyD key k := by
  cases t with
  | nil => rfl
  | node v l r h s => exact hkey v

theorem map_rebalanceInsert (hkey : ∀ x, key' (f x) = key x) (k : κ) (t : AvlTree α) :
    rebalanceInsert key' k above below (t.map f) =
      (rebalanceInsert key k above below t).map f := by
  cases t with
  | nil => rfl
  | node v l r h s =>
      simp only [map_node, rebalanceInsert, rootKeyD_map hkey]
      simp only [← map_node, getBalance_map]
      split_ifs <;> simp only [← map_node, map_leftRotate, map_rightRotate]

/-- Inserting the image of a value. -/
theorem map_insert (hkey : ∀ x, key' (f x) = key x) (v : α) (t : AvlTree α) :
    insert key' above below (f v) (t.map f) = (insert key above below v t).map f := by
  induction t with
  | nil => rfl
  | node w l r h s ihl ihr =>
      simp only [map_node, insert, hkey, height_map]
      split_ifs
      · rw [ihl, ← map_rebalanceInsert hkey, map_node, height_map]
      · rw [ihr, ← map_rebalanceInsert hkey, map_node, height_map]

/-- Deleting a key. -/
theorem map_delete (hkey : ∀ x, key' (f x) = key x) (k : κ) (t : AvlTree α) :
    delete key' resize k (t.map f) = (delete key resize k t).map f := by
  induction t generalizing k with
  | nil => rfl
  | node v l r h s ihl ihr =>
      simp only [map_node, delete, hkey, isNil_map]
      split_ifs
      · rw [ihl, ← map_rebalanceDelete, map_node]
      · rw [ihr, ← map_rebalanceDelete, map_node]
      · rw [map_rebalanceDelete]
      · rw [map_rebalanceDelete]
      · rw [minValueNode_map, hkey, ihr, ← map_rebalanceDelete, map_node]

/-- Freeing the tree. -/
theorem map_freeLoop (hkey : ∀ x, key' (f x) = key x) (n : Nat) (t : AvlTree α) :
    freeLoop key' resize n (t.map f) = (freeLoop key resize n t).map (AvlTree.map f) := by
  induction n generalizing t with
  | zero => cases t <;> rfl
  | succ n ih =>
      cases t with
      | nil => rfl
      | node v l r h s =>
          rw [map_node, freeLoop, hkey, ← map_node, map_delete hkey, ih, freeLoop]

/-- Looking up a key. -/
theorem map_lookup (hkey : ∀ x, key' (f x) = key x) (k : κ) (t : AvlTree α) :
    lookup key' k (t.map f) = (lookup key k t).map f := by
  induction t with
  | nil => rfl
  | node v l r h s ihl ihr =>
      simp only [map_node, lookup, hkey]
      split_ifs
      · rfl
      · exact ihl
      · exact ihr

end Keys

end ParcoachRma.AvlTree
