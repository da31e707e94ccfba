import ParcoachRma.Lib.AvlTree
import Mathlib.Data.Finmap
import Mathlib.Data.Finset.Card

/-!
# Height-caching search trees in memory

The nodes that have been allocated and not been freed are a finite map from their addresses.
`TreeAt heap p t A` says that the tree from the pointer `p` runs over the live nodes at the
addresses `A`, each of which it meets once, and is `t`.

The operations are those of `AvlTree` as a program does them in place: a rotation rewrites the links
of two nodes, an insertion links a node that has just been allocated, a deletion frees one node.  An
access to a node that is not live is a fault, and so is a call that goes down further than there are
live nodes.

* `TreeAt.frame`: what happens at other addresses does not matter.
* `TreeAt.card_eq`: a tree has as many nodes as addresses, and no more than are live.
-/

namespace ParcoachRma

/-- A node: its value, the pointers to its children, its cached height and size. -/
structure TreeCell (α : Type*) where
  val : α
  left : Option Nat
  right : Option Nat
  height : Int
  treeSize : UInt64
  deriving DecidableEq, Repr

/-- The live nodes by their addresses. -/
abbrev TreeHeap (α : Type*) := Finmap fun _ : Nat => TreeCell α

/-- What may happen instead of returning. -/
inductive TreeFault where
  /-- An access through a null pointer. -/
  | nullDereference
  /-- An access to a node that is not live, or a second `free` of it. -/
  | danglingPointer
  /-- A recursion or a loop that goes on after it has met every live node. -/
  | doesNotReturn
  /-- A write through the null pointer that the allocator returns when it has no memory. -/
  | outOfMemory
  /-- What no allocator does: to give out an address in use. -/
  | notEnabled
  deriving DecidableEq, Repr

/-! ## Trees in memory -/

/-- The tree from the pointer is `t`, and its nodes are those at the addresses. -/
inductive TreeAt {α : Type*} (heap : TreeHeap α) : Option Nat → AvlTree α → Finset Nat → Prop
  | nil : TreeAt heap none .nil ∅
  | node {addr : Nat} {v : α} {pl pr : Option Nat} {l r : AvlTree α} {h : Int} {s : UInt64}
      {Al Ar : Finset Nat} :
    heap.lookup addr = some ⟨v, pl, pr, h, s⟩ → TreeAt heap pl l Al → TreeAt heap pr r Ar →
    addr ∉ Al → addr ∉ Ar → Disjoint Al Ar →
    TreeAt heap (some addr) (.node v l r h s) (insert addr (Al ∪ Ar))

namespace TreeAt

variable {α : Type*} {heap heap' : TreeHeap α} {p : Option Nat} {t : AvlTree α} {A : Finset Nat}

theorem isNone_eq (h : TreeAt heap p t A) : p.isNone = t.isNil := by
  cases h <;> rfl

/-- Nodes at other addresses may change. -/
theorem frame (h : TreeAt heap p t A)
    (hsame : ∀ addr ∈ A, heap'.lookup addr = heap.lookup addr) : TreeAt heap' p t A := by
  induction h with
  | nil => exact .nil
  | @node addr v pl pr l r h s Al Ar hcell _ _ hl hr hdisj ihl ihr =>
      refine .node ?_ (ihl fun b hb => hsame b ?_) (ihr fun b hb => hsame b ?_) hl hr hdisj
      · rw [hsame addr (Finset.mem_insert_self ..), hcell]
      · exact Finset.mem_insert_of_mem (Finset.mem_union_left _ hb)
      · exact Finset.mem_insert_of_mem (Finset.mem_union_right _ hb)

theorem mem_heap (h : TreeAt heap p t A) {addr : Nat} (haddr : addr ∈ A) : addr ∈ heap := by
  induction h with
  | nil => exact absurd haddr (Finset.notMem_empty _)
  | node hcell _ _ _ _ _ ihl ihr =>
      rcases Finset.mem_insert.mp haddr with rfl | hchild
      · exact Finmap.mem_of_lookup_eq_some hcell
      · rcases Finset.mem_union.mp hchild with hleft | hright
        · exact ihl hleft
        · exact ihr hright

theorem card_eq (h : TreeAt heap p t A) : A.card = t.numNodes := by
  induction h with
  | nil => rfl
  | node _ _ _ hl hr hdisj ihl ihr =>
      have hnew := Finset.notMem_union.mpr ⟨hl, hr⟩
      rw [Finset.card_insert_of_notMem hnew, Finset.card_union_of_disjoint hdisj, ihl, ihr,
        AvlTree.numNodes]
      omega

/-- A tree has no more nodes than are live. -/
theorem numNodes_le (h : TreeAt heap p t A) : t.numNodes ≤ heap.keys.card := by
  rw [← h.card_eq]
  exact Finset.card_le_card fun addr haddr => Finmap.mem_keys.mpr (h.mem_heap haddr)

end TreeAt

namespace HeapTree

variable {α κ : Type}

/-! ## Access to nodes -/

/-- Read the node at a pointer. -/
def load (heap : TreeHeap α) : Option Nat → Except TreeFault (TreeCell α)
  | none => .error .nullDereference
  | some addr =>
      match heap.lookup addr with
      | none => .error .danglingPointer
      | some cell => .ok cell

/-- Write to the node at a pointer. -/
def modify (heap : TreeHeap α) (f : TreeCell α → TreeCell α) :
    Option Nat → Except TreeFault (TreeHeap α)
  | none => .error .nullDereference
  | some addr =>
      match heap.lookup addr with
      | none => .error .danglingPointer
      | some cell => .ok (heap.insert addr (f cell))

/-- Free the node at a pointer. -/
def free (heap : TreeHeap α) : Option Nat → Except TreeFault (TreeHeap α)
  | none => .ok heap
  | some addr => if addr ∈ heap then .ok (heap.erase addr) else .error .danglingPointer

/-- A new node without children, at the address that the allocator has returned.  A null pointer is
not checked for. -/
def newNode (heap : TreeHeap α) (v : α) : Option Nat → Except TreeFault (TreeHeap α × Option Nat)
  | none => .error .outOfMemory
  | some addr =>
      if addr ∈ heap then .error .notEnabled
      else .ok (heap.insert addr ⟨v, none, none, 1, 1⟩, some addr)

/-- The cached height, 0 for a null pointer. -/
def height (heap : TreeHeap α) : Option Nat → Except TreeFault Int
  | none => .ok 0
  | some addr => return (← load heap (some addr)).height

/-- Write the height of a node from those of its children. -/
def updateHeight (heap : TreeHeap α) (p : Option Nat) : Except TreeFault (TreeHeap α) := do
  let cell ← load heap p
  let left ← height heap cell.left
  let right ← height heap cell.right
  modify heap (fun c => { c with height := max left right + 1 }) p

/-- Left height minus right height. -/
def getBalance (heap : TreeHeap α) : Option Nat → Except TreeFault Int
  | none => .ok 0
  | some addr => do
      let cell ← load heap (some addr)
      return (← height heap cell.left) - (← height heap cell.right)

/-- The key at a pointer, or `k` if it is null. -/
def rootKeyD (key : α → κ) (k : κ) (heap : TreeHeap α) : Option Nat → Except TreeFault κ
  | none => .ok k
  | some addr => return key (← load heap (some addr)).val

/-- `node->left = call`. -/
def assignLeft (node : Option Nat) (call : Except TreeFault (TreeHeap α × Option Nat)) :
    Except TreeFault (TreeHeap α) := do
  let (heap, left) ← call
  modify heap (fun c => { c with left }) node

/-- `node->right = call`. -/
def assignRight (node : Option Nat) (call : Except TreeFault (TreeHeap α × Option Nat)) :
    Except TreeFault (TreeHeap α) := do
  let (heap, right) ← call
  modify heap (fun c => { c with right }) node

/-! ## Rotations -/

/-- Bring the left child up, if there is one. -/
def rightRotate (heap : TreeHeap α) : Option Nat → Except TreeFault (TreeHeap α × Option Nat)
  | none => .ok (heap, none)
  | some y => do
      let cell ← load heap (some y)
      if cell.left.isNone then return (heap, some y)
      else
        let x := cell.left
        let t₂ := (← load heap x).right
        let heap ← modify heap (fun c => { c with right := some y }) x
        let heap ← modify heap (fun c => { c with left := t₂ }) (some y)
        let heap ← updateHeight heap (some y)
        let heap ← updateHeight heap x
        return (heap, x)

/-- Bring the right child up, if there is one. -/
def leftRotate (heap : TreeHeap α) : Option Nat → Except TreeFault (TreeHeap α × Option Nat)
  | none => .ok (heap, none)
  | some x => do
      let cell ← load heap (some x)
      if cell.right.isNone then return (heap, some x)
      else
        let y := cell.right
        let t₂ := (← load heap y).left
        let heap ← modify heap (fun c => { c with left := some x }) y
        let heap ← modify heap (fun c => { c with right := t₂ }) (some x)
        let heap ← updateHeight heap (some x)
        let heap ← updateHeight heap y
        return (heap, y)

/-- `node->left = leftRotate(node->left)`. -/
def leftRotateLeft (heap : TreeHeap α) (p : Option Nat) : Except TreeFault (TreeHeap α) := do
  let cell ← load heap p
  assignLeft p (leftRotate heap cell.left)

/-- `node->right = rightRotate(node->right)`. -/
def rightRotateRight (heap : TreeHeap α) (p : Option Nat) : Except TreeFault (TreeHeap α) := do
  let cell ← load heap p
  assignRight p (rightRotate heap cell.right)

variable [LinearOrder κ]

/-! ## Insertion -/

/-- Choose the rotation after an insertion of the key `k`. -/
def rebalanceInsert (key : α → κ) (k above below : κ) (heap : TreeHeap α) (node : Option Nat) :
    Except TreeFault (TreeHeap α × Option Nat) := do
  let balance ← getBalance heap node
  let keyLeft ← rootKeyD key above heap (← load heap node).left
  let keyRight ← rootKeyD key below heap (← load heap node).right
  if balance > 1 ∧ k < keyLeft then rightRotate heap node
  else if balance < -1 ∧ keyRight < k then leftRotate heap node
  else if balance > 1 ∧ keyLeft < k then rightRotate (← leftRotateLeft heap node) node
  else if balance < -1 ∧ k < keyRight then leftRotate (← rightRotateRight heap node) node
  else return (heap, node)

/-- Insert a value in a new node, equal keys to the right, and rebalance on the way back up.  The
recursion goes down `fuel` links at most. -/
def insert (key : α → κ) (above below : κ) (fresh : Option Nat) (v : α) :
    Nat → TreeHeap α → Option Nat → Except TreeFault (TreeHeap α × Option Nat)
  | _, heap, none => newNode heap v fresh
  | 0, _, some _ => .error .doesNotReturn
  | fuel + 1, heap, some node => do
      let cell ← load heap (some node)
      let heap ←
        if key v < key cell.val then
          assignLeft (some node) (insert key above below fresh v fuel heap cell.left)
        else
          assignRight (some node) (insert key above below fresh v fuel heap cell.right)
      let heap ← modify heap (fun c => { c with treeSize := 1 + c.treeSize }) (some node)
      let heap ← updateHeight heap (some node)
      rebalanceInsert key (key v) above below heap (some node)

/-! ## Deletion -/

/-- The pointer to the leftmost node from a pointer on. -/
def minValueNode : Nat → TreeHeap α → Option Nat → Except TreeFault (Option Nat)
  | fuel, heap, current => do
      let cell ← load heap current
      if cell.left.isNone then return current
      else
        match fuel with
        | 0 => .error .doesNotReturn
        | fuel + 1 => minValueNode fuel heap cell.left

/-- Refresh the height of a node after a deletion and rotate by the balance of its children. -/
def rebalanceDelete (resize : UInt64 → UInt64) (heap : TreeHeap α) (root : Option Nat) :
    Except TreeFault (TreeHeap α × Option Nat) :=
  if root.isNone then .ok (heap, none)
  else do
    let heap ← updateHeight heap root
    let balance ← getBalance heap root
    let balanceLeft ← getBalance heap (← load heap root).left
    let balanceRight ← getBalance heap (← load heap root).right
    if balance > 1 ∧ balanceLeft ≥ 0 then rightRotate heap root
    else if balance > 1 ∧ balanceLeft < 0 then rightRotate (← leftRotateLeft heap root) root
    else if balance < -1 ∧ balanceRight ≤ 0 then leftRotate heap root
    else if balance < -1 ∧ balanceRight > 0 then leftRotate (← rightRotateRight heap root) root
    else return (← modify heap (fun c => { c with treeSize := resize c.treeSize }) root, root)

/-- Delete the first node with the key `k`.  The recursion goes down `fuel` links at most. -/
def delete (key : α → κ) (resize : UInt64 → UInt64) :
    Nat → κ → TreeHeap α → Option Nat → Except TreeFault (TreeHeap α × Option Nat)
  | _, _, heap, none => .ok (heap, none)
  | 0, _, _, some _ => .error .doesNotReturn
  | fuel + 1, k, heap, some root => do
      let cell ← load heap (some root)
      if k < key cell.val then
        let heap ← assignLeft (some root) (delete key resize fuel k heap cell.left)
        rebalanceDelete resize heap (some root)
      else if key cell.val < k then
        let heap ← assignRight (some root) (delete key resize fuel k heap cell.right)
        rebalanceDelete resize heap (some root)
      else if cell.left.isNone || cell.right.isNone then
        let temp := if cell.left.isNone then cell.right else cell.left
        let heap ← free heap (some root)
        rebalanceDelete resize heap temp
      else
        let temp ← minValueNode heap.keys.card heap cell.right
        let v := (← load heap temp).val
        let heap ← modify heap (fun c => { c with val := v }) (some root)
        let heap ← assignRight (some root) (delete key resize fuel (key v) heap cell.right)
        rebalanceDelete resize heap (some root)

/-- Delete the root by its own key until the pointer is null, at most `n` times. -/
def freeLoop (key : α → κ) (resize : UInt64 → UInt64) :
    Nat → TreeHeap α → Option Nat → Except TreeFault (TreeHeap α × Option Nat)
  | _, heap, none => .ok (heap, none)
  | 0, _, some _ => .error .doesNotReturn
  | n + 1, heap, some temp => do
      let cell ← load heap (some temp)
      let (heap, temp) ← delete key resize heap.keys.card (key cell.val) heap (some temp)
      freeLoop key resize n heap temp

/-- The first value with the key `k` on the way down from a pointer. -/
def lookup (key : α → κ) (k : κ) : Nat → TreeHeap α → Option Nat → Except TreeFault (Option α)
  | _, _, none => .ok none
  | 0, _, some _ => .error .doesNotReturn
  | fuel + 1, heap, some root => do
      let cell ← load heap (some root)
      if k = key cell.val then return some cell.val
      else if k < key cell.val then lookup key k fuel heap cell.left
      else lookup key k fuel heap cell.right

end HeapTree

end ParcoachRma
