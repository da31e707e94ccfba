import Mathlib.Data.List.Perm.Basic
import Mathlib.Data.List.Sort
import Mathlib.Order.Defs.LinearOrder
import Mathlib.Order.Basic

/-!
# Height-caching search trees with repeated keys

Binary trees whose nodes cache a height and a size, ordered by a key of their values.  Insertion
sends equal keys to the right and picks its rotation by comparing the new key with the key of the
child; deletion goes by key alone, takes out the first node it meets with that key, and where that
node has two children overwrites its value with the leftmost value on the right and deletes that
value's key there.

* `toList` is the in-order traversal.  Rotations keep it, so what an operation does to the values
  can be read off without the balancing.
* `Sorted` is the search order that survives rotations: non-decreasing keys.
* `Exposed k t x`: every node above `x` sends a search for `k` to the side of `x`.

The key type is any linear order.  `above` and `below` are the keys that insertion compares with
where a child is missing; `resize` is what deletion does to the cached size of a node it does not
rotate.
-/

namespace ParcoachRma

/-- A binary tree whose nodes cache their height and their size. -/
inductive AvlTree (α : Type*) where
  | nil
  | node (val : α) (left right : AvlTree α) (height : Int) (treeSize : UInt64)
  deriving DecidableEq, Repr

namespace AvlTree

variable {α κ : Type*}

/-! ## Operations -/

/-- The cached height, 0 for the empty tree. -/
def height : AvlTree α → Int
  | nil => 0
  | node _ _ _ h _ => h

/-- A new node without children. -/
def leaf (v : α) : AvlTree α := node v nil nil 1 1

def isNil : AvlTree α → Bool
  | nil => true
  | node .. => false

/-- Bring the left child up; trees without one stay as they are. -/
def rightRotate : AvlTree α → AvlTree α
  | node vy (node vx a t₂ _ sx) c _ sy =>
      let y := node vy t₂ c (max t₂.height c.height + 1) sy
      node vx a y (max a.height y.height + 1) sx
  | t => t

/-- Bring the right child up; trees without one stay as they are. -/
def leftRotate : AvlTree α → AvlTree α
  | node vx a (node vy t₂ c _ sy) _ sx =>
      let x := node vx a t₂ (max a.height t₂.height + 1) sx
      node vy x c (max x.height c.height + 1) sy
  | t => t

/-- Left height minus right height. -/
def getBalance : AvlTree α → Int
  | nil => 0
  | node _ l r _ _ => l.height - r.height

/-- The key at the root, or `k` for the empty tree. -/
def rootKeyD (key : α → κ) (k : κ) : AvlTree α → κ
  | nil => k
  | node v _ _ _ _ => key v

variable [LinearOrder κ]

/-- Choose the rotation after an insertion of the key `k`: by the balance of the node and by the
side of its child's key that `k` is on. -/
def rebalanceInsert (key : α → κ) (k above below : κ) : AvlTree α → AvlTree α
  | nil => nil
  | node v l r h s =>
      let t := node v l r h s
      let keyLeft := l.rootKeyD key above
      let keyRight := r.rootKeyD key below
      if t.getBalance > 1 ∧ k < keyLeft then t.rightRotate
      else if t.getBalance < -1 ∧ keyRight < k then t.leftRotate
      else if t.getBalance > 1 ∧ keyLeft < k then (node v l.leftRotate r h s).rightRotate
      else if t.getBalance < -1 ∧ k < keyRight then (node v l r.rightRotate h s).leftRotate
      else t

/-- Insert a value as a new leaf, equal keys to the right, and rebalance on the way back up. -/
def insert (key : α → κ) (above below : κ) (v : α) : AvlTree α → AvlTree α
  | nil => leaf v
  | node w l r _ s =>
      if key v < key w then
        let l' := insert key above below v l
        rebalanceInsert key (key v) above below
          (node w l' r (1 + max l'.height r.height) (1 + s))
      else
        let r' := insert key above below v r
        rebalanceInsert key (key v) above below
          (node w l r' (1 + max l.height r'.height) (1 + s))

/-- The leftmost value of a tree; `v` is the value above the tree and the answer if it is empty. -/
def minValueNode (v : α) : AvlTree α → α
  | nil => v
  | node w l _ _ _ => minValueNode w l

/-- Refresh the height of a node after a deletion and rotate by the balance of its children.  The
cached size is only touched on the path that does not rotate. -/
def rebalanceDelete (resize : UInt64 → UInt64) : AvlTree α → AvlTree α
  | nil => nil
  | node v l r _ s =>
      let h := 1 + max l.height r.height
      let t := node v l r h s
      if t.getBalance > 1 ∧ l.getBalance ≥ 0 then t.rightRotate
      else if t.getBalance > 1 ∧ l.getBalance < 0 then (node v l.leftRotate r h s).rightRotate
      else if t.getBalance < -1 ∧ r.getBalance ≤ 0 then t.leftRotate
      else if t.getBalance < -1 ∧ r.getBalance > 0 then (node v l r.rightRotate h s).leftRotate
      else node v l r h (resize s)

/-- Delete the first node with the key `k`. -/
def delete (key : α → κ) (resize : UInt64 → UInt64) (k : κ) : AvlTree α → AvlTree α
  | nil => nil
  | node v l r h s =>
      if k < key v then rebalanceDelete resize (node v (delete key resize k l) r h s)
      else if key v < k then rebalanceDelete resize (node v l (delete key resize k r) h s)
      else if l.isNil || r.isNil then rebalanceDelete resize (if l.isNil then r else l)
      else
        let m := minValueNode v r
        rebalanceDelete resize (node m l (delete key resize (key m) r) h s)

/-- Delete the root by its own key until the tree is empty, at most `n` times. -/
def freeLoop (key : α → κ) (resize : UInt64 → UInt64) : Nat → AvlTree α → Option (AvlTree α)
  | _, nil => some nil
  | 0, node .. => none
  | n + 1, node v l r h s => freeLoop key resize n (delete key resize (key v) (node v l r h s))

/-- The first value with the key `k` on the way down from the root. -/
def lookup (key : α → κ) (k : κ) : AvlTree α → Option α
  | nil => none
  | node v l r _ _ =>
      if k = key v then some v
      else if k < key v then lookup key k l
      else lookup key k r

/-! ## In-order traversal -/

/-- The values from left to right. -/
def toList : AvlTree α → List α
  | nil => []
  | node v l r _ _ => l.toList ++ v :: r.toList

/-- The number of nodes. -/
def numNodes : AvlTree α → Nat
  | nil => 0
  | node _ l r _ _ => l.numNodes + 1 + r.numNodes

@[simp] theorem toList_nil : (nil : AvlTree α).toList = [] := rfl

@[simp] theorem toList_node (v : α) (l r : AvlTree α) (h : Int) (s : UInt64) :
    (node v l r h s).toList = l.toList ++ v :: r.toList := rfl

theorem length_toList (t : AvlTree α) : t.toList.length = t.numNodes := by
  induction t with
  | nil => rfl
  | node v l r h s ihl ihr => simp [numNodes, ihl, ihr]; omega

theorem isNil_iff {t : AvlTree α} : t.isNil = true ↔ t = nil := by
  cases t <;> simp [isNil]

@[simp] theorem toList_rightRotate (t : AvlTree α) : t.rightRotate.toList = t.toList := by
  rcases t with _ | ⟨v, _ | ⟨w, a, b, h', s'⟩, r, h, s⟩ <;> simp [rightRotate]

@[simp] theorem toList_leftRotate (t : AvlTree α) : t.leftRotate.toList = t.toList := by
  rcases t with _ | ⟨v, l, _ | ⟨w, a, b, h', s'⟩, h, s⟩ <;> simp [leftRotate]

@[simp] theorem toList_rebalanceDelete (resize : UInt64 → UInt64) (t : AvlTree α) :
    (rebalanceDelete resize t).toList = t.toList := by
  cases t with
  | nil => rfl
  | node v l r h s =>
      simp only [rebalanceDelete]
      split_ifs <;> simp

@[simp] theorem toList_rebalanceInsert (key : α → κ) (k above below : κ) (t : AvlTree α) :
    (rebalanceInsert key k above below t).toList = t.toList := by
  cases t with
  | nil => rfl
  | node v l r h s =>
      simp only [rebalanceInsert]
      split_ifs <;> simp

/-! ## Insertion -/

section Insert

variable {key : α → κ} {above below : κ}

/-- Insertion puts the new value at one place of the traversal and moves nothing else. -/
theorem exists_toList_insert (v : α) (t : AvlTree α) :
    ∃ xs ys, t.toList = xs ++ ys ∧ (insert key above below v t).toList = xs ++ v :: ys := by
  induction t with
  | nil => exact ⟨[], [], rfl, rfl⟩
  | node w l r h s ihl ihr =>
      by_cases hlt : key v < key w
      · obtain ⟨xs, ys, hl, hins⟩ := ihl
        refine ⟨xs, ys ++ w :: r.toList, by simp [hl], ?_⟩
        simp [insert, hlt, hins]
      · obtain ⟨xs, ys, hr, hins⟩ := ihr
        refine ⟨l.toList ++ w :: xs, ys, by simp [hr], ?_⟩
        simp [insert, hlt, hins]

theorem toList_insert_perm (v : α) (t : AvlTree α) :
    (insert key above below v t).toList.Perm (v :: t.toList) := by
  obtain ⟨xs, ys, ht, hins⟩ : ∃ xs ys, t.toList = xs ++ ys ∧
      (insert key above below v t).toList = xs ++ v :: ys := exists_toList_insert v t
  rw [hins, ht]
  exact List.perm_middle

@[simp] theorem mem_insert {v x : α} {t : AvlTree α} :
    x ∈ (insert key above below v t).toList ↔ x = v ∨ x ∈ t.toList := by
  rw [(toList_insert_perm v t).mem_iff, List.mem_cons]

end Insert

/-! ## Search order -/

/-- Keys do not decrease from left to right.  Rotations move equal keys to either side of a node,
so nothing stronger survives them. -/
def Sorted (key : α → κ) (t : AvlTree α) : Prop :=
  t.toList.Pairwise fun x y => key x ≤ key y

instance (key : α → κ) (t : AvlTree α) : Decidable (Sorted key t) :=
  inferInstanceAs (Decidable (List.Pairwise _ _))

section Sorted

variable {key : α → κ} {above below : κ} {resize : UInt64 → UInt64}

theorem sorted_nil : Sorted key (nil : AvlTree α) := List.Pairwise.nil

theorem sorted_node {v : α} {l r : AvlTree α} {h : Int} {s : UInt64} :
    Sorted key (node v l r h s) ↔ Sorted key l ∧ Sorted key r ∧
      (∀ x ∈ l.toList, key x ≤ key v) ∧ ∀ x ∈ r.toList, key v ≤ key x := by
  simp only [Sorted, toList_node, List.pairwise_append, List.pairwise_cons, List.mem_cons]
  constructor
  · intro hparts
    rcases hparts with ⟨hl, ⟨hv, hr⟩, hlr⟩
    exact ⟨hl, hr, fun x hx => hlr x hx v (.inl rfl), hv⟩
  · intro hparts
    rcases hparts with ⟨hl, hr, hlv, hvr⟩
    refine ⟨hl, ⟨hvr, hr⟩, fun x hx y hy => ?_⟩
    rcases hy with rfl | hy
    · exact hlv x hx
    · exact (hlv x hx).trans (hvr y hy)

theorem Sorted.of_toList_eq {t u : AvlTree α} (h : u.toList = t.toList) (ht : Sorted key t) :
    Sorted key u := by
  rw [Sorted, h]
  exact ht

theorem Sorted.insert (v : α) {t : AvlTree α} (ht : Sorted key t) :
    Sorted key (insert key above below v t) := by
  induction t with
  | nil => simp [AvlTree.insert, leaf, Sorted]
  | node w l r h s ihl ihr =>
      obtain ⟨hl, hr, hlw, hwr⟩ := sorted_node.mp ht
      by_cases hlt : key v < key w
      · have hnode : Sorted key (node w (AvlTree.insert key above below v l) r h s) := by
          refine sorted_node.mpr ⟨ihl hl, hr, fun x hx => ?_, hwr⟩
          rcases mem_insert.mp hx with rfl | hx
          · exact hlt.le
          · exact hlw x hx
        exact hnode.of_toList_eq (by simp [AvlTree.insert, hlt])
      · have hnode : Sorted key (node w l (AvlTree.insert key above below v r) h s) := by
          refine sorted_node.mpr ⟨hl, ihr hr, hlw, fun x hx => ?_⟩
          rcases mem_insert.mp hx with rfl | hx
          · exact not_lt.mp hlt
          · exact hwr x hx
        exact hnode.of_toList_eq (by simp [AvlTree.insert, hlt])

end Sorted

/-! ## What a search by key can see -/

/-- Every node above `x` sends a search for `k` to the side `x` is on; a node whose key is `k`
stops the search. -/
inductive Exposed (key : α → κ) (k : κ) : AvlTree α → α → Prop
  | root {v : α} {l r : AvlTree α} {h : Int} {s : UInt64} : Exposed key k (node v l r h s) v
  | left {v x : α} {l r : AvlTree α} {h : Int} {s : UInt64} :
    k < key v → Exposed key k l x → Exposed key k (node v l r h s) x
  | right {v x : α} {l r : AvlTree α} {h : Int} {s : UInt64} :
    key v < k → Exposed key k r x → Exposed key k (node v l r h s) x

theorem Exposed.mem {key : α → κ} {k : κ} {t : AvlTree α} {x : α} (hx : Exposed key k t x) :
    x ∈ t.toList := by
  induction hx with
  | root => simp
  | left _ _ ih => simp [ih]
  | right _ _ ih => simp [ih]

end AvlTree

end ParcoachRma
