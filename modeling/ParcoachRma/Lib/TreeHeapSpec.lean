import ParcoachRma.Lib.TreeHeap
import ParcoachRma.Lib.HeapFrame
import ParcoachRma.Lib.Run

/-!
# The operations in memory are those on trees

Each operation on a tree in memory returns, frees exactly the nodes it drops, leaves the nodes that
others own alone, and makes the tree that the operation of the same name on `AvlTree` makes.
`Makes` and `Changes` say so of a call that returns a pointer and of one that writes below a
pointer; they compose along the statements of a body (`Makes.bind`, `Changes.bind_makes`), and from
a child to its parent (`TreeAt.replaceLeft`, `TreeAt.replaceRight`).

* `TreeAt.insert`, `TreeAt.delete`, `TreeAt.freeLoop`, `TreeAt.lookup`: the operations.
* `insert_eq_error`: an insertion for which the allocator has no node fails before it writes.
* `ForestAt.update`: among several trees without a common node, a call on one leaves the others
  alone, and no live node is lost.
-/

namespace ParcoachRma

open Run AvlTree

variable {α κ : Type} {heap heap' : TreeHeap α} {p : Option Nat} {t t' t'' : AvlTree α}
  {A A' A'' Al Al' Ar Ar' B B' : Finset Nat} {addr : Nat} {cell : TreeCell α} {v v' : α}
  {l l' r r' : AvlTree α} {h h' : Int} {s s' : UInt64} {pl pr : Option Nat}

namespace HeapTree

/-! ## Reading -/

theorem load_of_lookup (hcell : heap.lookup addr = some cell) :
    load heap (some addr) = .ok cell := by
  simp only [load, hcell]

theorem modify_of_lookup {f : TreeCell α → TreeCell α} (hcell : heap.lookup addr = some cell) :
    modify heap f (some addr) = .ok (heap.insert addr (f cell)) := by
  simp only [modify, hcell]

theorem free_of_lookup (hcell : heap.lookup addr = some cell) :
    free heap (some addr) = .ok (heap.erase addr) := by
  rw [free, if_pos (Finmap.mem_of_lookup_eq_some hcell)]

theorem height_of_treeAt (ht : TreeAt heap p t A) : height heap p = .ok t.height := by
  cases ht with
  | nil => rfl
  | node hcell =>
      rw [height, load_of_lookup hcell]
      rfl

theorem getBalance_of_treeAt (ht : TreeAt heap p t A) : getBalance heap p = .ok t.getBalance := by
  cases ht with
  | nil => rfl
  | node hcell hl hr =>
      simp only [getBalance, load_of_lookup hcell, bind, Except.bind, height_of_treeAt hl,
        height_of_treeAt hr]
      rfl

theorem rootKeyD_of_treeAt {key : α → κ} {k : κ} (ht : TreeAt heap p t A) :
    rootKeyD key k heap p = .ok (t.rootKeyD key k) := by
  cases ht with
  | nil => rfl
  | node hcell =>
      rw [rootKeyD, load_of_lookup hcell]
      rfl

end HeapTree

/-! ## What a call makes -/

/-- The call returns a pointer to the tree `t` at `A'`, made of the nodes at `A`. -/
def Makes (heap : TreeHeap α) (A : Finset Nat)
    (call : Except TreeFault (TreeHeap α × Option Nat)) (t : AvlTree α) (A' : Finset Nat) : Prop :=
  ∃ heap' p, call = .ok (heap', p) ∧ TreeAt heap' p t A' ∧ Turns heap A heap' A'

/-- The call makes of the nodes at `A` the tree `t` at `A'`, from the pointer. -/
def Changes (heap : TreeHeap α) (p : Option Nat) (A : Finset Nat)
    (call : Except TreeFault (TreeHeap α)) (t : AvlTree α) (A' : Finset Nat) : Prop :=
  ∃ heap', call = .ok heap' ∧ TreeAt heap' p t A' ∧ Turns heap A heap' A'

section Sequence

variable {call : Except TreeFault (TreeHeap α)} {f : TreeHeap α → Except TreeFault (TreeHeap α)}
  {g : TreeHeap α → Except TreeFault (TreeHeap α × Option Nat)}

theorem TreeAt.makes (ht : TreeAt heap p t A) : Makes heap A (.ok (heap, p)) t A :=
  ⟨heap, p, rfl, ht, .refl heap A⟩

theorem Changes.bind (hcall : Changes heap p A call t A')
    (hf : ∀ heap', TreeAt heap' p t A' → Changes heap' p A' (f heap') t' A'') :
    Changes heap p A (call >>= f) t' A'' := by
  obtain ⟨heap₁, rfl, ht, hturns⟩ := hcall
  obtain ⟨heap₂, hrun, ht', hturns'⟩ := hf heap₁ ht
  exact ⟨heap₂, hrun, ht', hturns.trans hturns'⟩

theorem Changes.bind_makes (hcall : Changes heap p A call t A')
    (hg : ∀ heap', TreeAt heap' p t A' → Makes heap' A' (g heap') t' A'') :
    Makes heap A (call >>= g) t' A'' := by
  obtain ⟨heap₁, rfl, ht, hturns⟩ := hcall
  obtain ⟨heap₂, q, hrun, ht', hturns'⟩ := hg heap₁ ht
  exact ⟨heap₂, q, hrun, ht', hturns.trans hturns'⟩

/-- After writes that have made a tree of the nodes at `A`, a call makes the next one. -/
theorem Turns.makes {call : Except TreeFault (TreeHeap α × Option Nat)}
    (hturns : Turns heap A heap' A') (hcall : Makes heap' A' call t A'') :
    Makes heap A call t A'' := by
  obtain ⟨heap₂, q, hrun, ht', hturns'⟩ := hcall
  exact ⟨heap₂, q, hrun, ht', hturns.trans hturns'⟩

end Sequence

/-! ## From a child to its parent -/

namespace TreeAt

theorem of_turns (ht : TreeAt heap p t A) (hturns : Turns heap B heap' B') (hdisj : Disjoint B A) :
    TreeAt heap' p t A :=
  ht.frame fun _ => hturns.lookup_eq hdisj fun _ => ht.mem_heap

/-- What is done to one child leaves the parent and the other child alone. -/
theorem of_turns_child (ht : TreeAt heap p t A) (hcell : heap.lookup addr = some cell)
    (hturns : Turns heap B heap' B') (haddr : addr ∉ B) (hdisj : Disjoint B A) :
    heap'.lookup addr = some cell ∧ TreeAt heap' p t A ∧ addr ∉ B' ∧ Disjoint B' A := by
  have hmem : ∀ b ∈ insert addr A, b ∈ heap := by
    intro b hb
    rcases Finset.mem_insert.mp hb with rfl | hb
    · exact Finmap.mem_of_lookup_eq_some hcell
    · exact ht.mem_heap hb
  have hdisj' : Disjoint B (insert addr A) := Finset.disjoint_insert_right.mpr ⟨haddr, hdisj⟩
  have hkept := Finset.disjoint_insert_right.mp (hturns.disjoint hdisj' hmem)
  refine ⟨?_, ht.of_turns hturns hdisj, hkept⟩
  rw [hturns.lookup_eq hdisj' hmem (Finset.mem_insert_self ..), hcell]

/-- `node->left = call(node->left)`. -/
theorem replaceLeft {call : Except TreeFault (TreeHeap α × Option Nat)}
    (hcell : heap.lookup addr = some ⟨v, pl, pr, h, s⟩) (hcall : Makes heap Al call l' Al')
    (hr : TreeAt heap pr r Ar) (hal : addr ∉ Al) (har : addr ∉ Ar) (hdisj : Disjoint Al Ar) :
    Changes heap (some addr) (insert addr (Al ∪ Ar))
      (HeapTree.assignLeft (some addr) call)
      (.node v l' r h s) (insert addr (Al' ∪ Ar)) := by
  obtain ⟨heap₁, q, rfl, hl', hturns⟩ := hcall
  obtain ⟨hcell₁, hr₁, hal', hdisj'⟩ := hr.of_turns_child hcell hturns hal hdisj
  have hwrite : Turns heap₁ {addr} (heap₁.insert addr ⟨v, q, pr, h, s⟩) {addr} :=
    .write (Finset.mem_singleton_self addr)
  have hframe := (hturns.frame (insert addr Ar)).trans
    (show Turns _ _ (heap₁.insert addr ⟨v, q, pr, h, s⟩) _ from .write (by simp))
  refine ⟨_, HeapTree.modify_of_lookup hcell₁, ?_, ?_⟩
  · exact .node (Finmap.lookup_insert _)
      (hl'.of_turns hwrite (Finset.disjoint_singleton_left.mpr hal'))
      (hr₁.of_turns hwrite (Finset.disjoint_singleton_left.mpr har)) hal' har hdisj'
  · rwa [Finset.union_insert, Finset.union_insert] at hframe

/-- `node->right = call(node->right)`. -/
theorem replaceRight {call : Except TreeFault (TreeHeap α × Option Nat)}
    (hcell : heap.lookup addr = some ⟨v, pl, pr, h, s⟩) (hl : TreeAt heap pl l Al)
    (hcall : Makes heap Ar call r' Ar') (hal : addr ∉ Al) (har : addr ∉ Ar)
    (hdisj : Disjoint Al Ar) :
    Changes heap (some addr) (insert addr (Al ∪ Ar))
      (HeapTree.assignRight (some addr) call)
      (.node v l r' h s) (insert addr (Al ∪ Ar')) := by
  obtain ⟨heap₁, q, rfl, hr', hturns⟩ := hcall
  obtain ⟨hcell₁, hl₁, har', hdisj'⟩ := hl.of_turns_child hcell hturns har hdisj.symm
  have hwrite : Turns heap₁ {addr} (heap₁.insert addr ⟨v, pl, q, h, s⟩) {addr} :=
    .write (Finset.mem_singleton_self addr)
  have hframe := (hturns.frame (insert addr Al)).trans
    (show Turns _ _ (heap₁.insert addr ⟨v, pl, q, h, s⟩) _ from .write (by simp))
  refine ⟨_, HeapTree.modify_of_lookup hcell₁, ?_, ?_⟩
  · exact .node (Finmap.lookup_insert _)
      (hl₁.of_turns hwrite (Finset.disjoint_singleton_left.mpr hal))
      (hr'.of_turns hwrite (Finset.disjoint_singleton_left.mpr har')) hal har' hdisj'.symm
  · rwa [Finset.union_insert, Finset.union_insert, Finset.union_comm,
      Finset.union_comm Ar'] at hframe

/-- A call that writes to nodes of the left child only. -/
theorem changeLeft {call : Except TreeFault (TreeHeap α)}
    (hcell : heap.lookup addr = some ⟨v, pl, pr, h, s⟩) (hcall : Changes heap pl Al call l' Al')
    (hr : TreeAt heap pr r Ar) (hal : addr ∉ Al) (har : addr ∉ Ar) (hdisj : Disjoint Al Ar) :
    Changes heap (some addr) (insert addr (Al ∪ Ar)) call (.node v l' r h s)
      (insert addr (Al' ∪ Ar)) := by
  obtain ⟨heap₁, hrun, hl', hturns⟩ := hcall
  obtain ⟨hcell₁, hr₁, hal', hdisj'⟩ := hr.of_turns_child hcell hturns hal hdisj
  have hframe := hturns.frame (insert addr Ar)
  rw [Finset.union_insert, Finset.union_insert] at hframe
  exact ⟨heap₁, hrun, .node hcell₁ hl' hr₁ hal' har hdisj', hframe⟩

/-- A call that writes to nodes of the right child only. -/
theorem changeRight {call : Except TreeFault (TreeHeap α)}
    (hcell : heap.lookup addr = some ⟨v, pl, pr, h, s⟩) (hl : TreeAt heap pl l Al)
    (hcall : Changes heap pr Ar call r' Ar') (hal : addr ∉ Al) (har : addr ∉ Ar)
    (hdisj : Disjoint Al Ar) :
    Changes heap (some addr) (insert addr (Al ∪ Ar)) call (.node v l r' h s)
      (insert addr (Al ∪ Ar')) := by
  obtain ⟨heap₁, hrun, hr', hturns⟩ := hcall
  obtain ⟨hcell₁, hl₁, har', hdisj'⟩ := hl.of_turns_child hcell hturns har hdisj.symm
  have hframe := hturns.frame (insert addr Al)
  rw [Finset.union_insert, Finset.union_insert, Finset.union_comm, Finset.union_comm Ar'] at hframe
  exact ⟨heap₁, hrun, .node hcell₁ hl₁ hr' hal har' hdisj'.symm, hframe⟩

end TreeAt

/-! ## Writing to the root -/

/-- The children stay where they are. -/
theorem TreeAt.changes_modify {f : TreeCell α → TreeCell α} (ht : TreeAt heap p (.node v l r h s) A)
    (hf : ∀ pl pr, f ⟨v, pl, pr, h, s⟩ = ⟨v', pl, pr, h', s'⟩) :
    Changes heap p A (HeapTree.modify heap f p) (.node v' l r h' s') A := by
  cases ht with
  | @node addr _ pl pr _ _ _ _ Al Ar hcell hl hr hal har hdisj =>
      have hwrite : Turns heap {addr} (heap.insert addr (f ⟨v, pl, pr, h, s⟩)) {addr} :=
        .write (Finset.mem_singleton_self addr)
      refine ⟨_, HeapTree.modify_of_lookup hcell, ?_, .write (Finset.mem_insert_self ..)⟩
      refine .node ?_ (hl.of_turns hwrite (Finset.disjoint_singleton_left.mpr hal))
        (hr.of_turns hwrite (Finset.disjoint_singleton_left.mpr har)) hal har hdisj
      rw [hf, Finmap.lookup_insert]

theorem TreeAt.changes_updateHeight (ht : TreeAt heap p (.node v l r h s) A) :
    Changes heap p A (HeapTree.updateHeight heap p)
      (.node v l r (max l.height r.height + 1) s) A := by
  have hmodify : Changes heap p A
      (HeapTree.modify heap (fun c => { c with height := max l.height r.height + 1 }) p)
      (.node v l r (max l.height r.height + 1) s) A := ht.changes_modify fun _ _ => rfl
  cases ht with
  | node hcell hl hr =>
      simp only [HeapTree.updateHeight, HeapTree.load_of_lookup hcell, bind, Except.bind,
        HeapTree.height_of_treeAt hl, HeapTree.height_of_treeAt hr]
      exact hmodify

/-- The height as insertion and deletion write it. -/
theorem TreeAt.changes_refreshHeight (ht : TreeAt heap p (.node v l r h s) A) :
    Changes heap p A (HeapTree.updateHeight heap p)
      (.node v l r (1 + max l.height r.height) s) A := by
  rw [add_comm]
  exact ht.changes_updateHeight

theorem TreeAt.changes_resize (ht : TreeAt heap p (.node v l r h s) A) (f : UInt64 → UInt64) :
    Changes heap p A (HeapTree.modify heap (fun c => { c with treeSize := f c.treeSize }) p)
      (.node v l r h (f s)) A :=
  ht.changes_modify fun _ _ => rfl

/-! ## Rotations -/

theorem TreeAt.makes_rightRotate (ht : TreeAt heap p t A) :
    Makes heap A (HeapTree.rightRotate heap p) t.rightRotate A := by
  cases ht with
  | nil => exact TreeAt.nil.makes
  | @node y vy px pc l c hy sy Ax Ac hycell hx hc hyAx hyAc hdisj =>
      cases hx with
      | nil =>
          refine ⟨heap, some y, ?_, .node hycell .nil hc hyAx hyAc hdisj, .refl heap _⟩
          rw [HeapTree.rightRotate, HeapTree.load_of_lookup hycell]
          rfl
      | @node x vx pa pt a t₂ hx sx Aa At hxcell ha ht hxAa hxAt hdisj' =>
          simp only [Finset.mem_insert, Finset.mem_union, not_or] at hyAx
          simp only [Finset.disjoint_insert_left, Finset.disjoint_union_left] at hdisj
          obtain ⟨hyx, hyAa, hyAt⟩ := hyAx
          obtain ⟨hxAc, hdisjA, hdisjT⟩ := hdisj
          -- the links after the two writes
          let heap₁ := heap.insert x ⟨vx, pa, some y, hx, sx⟩
          let heap₂ := heap₁.insert y ⟨vy, pt, pc, hy, sy⟩
          have hycell₁ : heap₁.lookup y = some ⟨vy, some x, pc, hy, sy⟩ := by
            rw [Finmap.lookup_insert_of_ne _ hyx, hycell]
          have hxcell₂ : heap₂.lookup x = some ⟨vx, pa, some y, hx, sx⟩ := by
            rw [Finmap.lookup_insert_of_ne _ (Ne.symm hyx), Finmap.lookup_insert]
          have hlinks : Turns heap {x, y} heap₂ {x, y} :=
            (Turns.write (by simp)).trans (.write (by simp))
          have ha₂ : TreeAt heap₂ pa a Aa := ha.of_turns hlinks (by simp [hxAa, hyAa])
          have hy₂ : TreeAt heap₂ (some y) (.node vy t₂ c hy sy) (insert y (At ∪ Ac)) :=
            .node (Finmap.lookup_insert _) (ht.of_turns hlinks (by simp [hxAt, hyAt]))
              (hc.of_turns hlinks (by simp [hxAc, hyAc])) hyAt hyAc hdisjT
          have hturns : Turns heap (insert x (Aa ∪ insert y (At ∪ Ac))) heap₂
              (insert x (Aa ∪ insert y (At ∪ Ac))) :=
            (Turns.write (by simp)).trans (.write (by simp))
          -- the heights, from the lower node up
          have hlower := ha₂.changeRight hxcell₂ hy₂.changes_updateHeight hxAa
            (by simp [hxAt, hxAc, Ne.symm hyx]) (by simp [hyAa, hdisj', hdisjA])
          have hreturn := hlower.bind_makes fun _ hx₃ =>
            hx₃.changes_updateHeight.bind_makes fun _ hx₄ => hx₄.makes
          have hrun : HeapTree.rightRotate heap (some y) = (do
              let heap ← HeapTree.updateHeight heap₂ (some y)
              let heap ← HeapTree.updateHeight heap (some x)
              return (heap, some x)) := by
            have hx₁ : HeapTree.modify heap (fun c => { c with right := some y }) (some x) =
                .ok heap₁ := HeapTree.modify_of_lookup hxcell
            have hy₁ : HeapTree.modify heap₁ (fun c => { c with left := pt }) (some y) =
                .ok heap₂ := HeapTree.modify_of_lookup hycell₁
            simp only [HeapTree.rightRotate, HeapTree.load_of_lookup hycell,
              HeapTree.load_of_lookup hxcell, hx₁, hy₁, bind, Except.bind, Option.isNone_some,
              Bool.false_eq_true, if_false]
          have hA : insert y (insert x (Aa ∪ At) ∪ Ac) = insert x (Aa ∪ insert y (At ∪ Ac)) := by
            grind
          rw [hA, hrun]
          exact hturns.makes hreturn

theorem TreeAt.makes_leftRotate (ht : TreeAt heap p t A) :
    Makes heap A (HeapTree.leftRotate heap p) t.leftRotate A := by
  cases ht with
  | nil => exact TreeAt.nil.makes
  | @node x vx pa py a r hx sx Aa Ay hxcell ha hy hxAa hxAy hdisj =>
      cases hy with
      | nil =>
          refine ⟨heap, some x, ?_, .node hxcell ha .nil hxAa hxAy hdisj, .refl heap _⟩
          rw [HeapTree.leftRotate, HeapTree.load_of_lookup hxcell]
          rfl
      | @node y vy pt pc t₂ c hy sy At Ac hycell ht hc hyAt hyAc hdisj' =>
          simp only [Finset.mem_insert, Finset.mem_union, not_or] at hxAy
          simp only [Finset.disjoint_insert_right, Finset.disjoint_union_right] at hdisj
          obtain ⟨hxy, hxAt, hxAc⟩ := hxAy
          obtain ⟨hyAa, hdisjT, hdisjC⟩ := hdisj
          -- the links after the two writes
          let heap₁ := heap.insert y ⟨vy, some x, pc, hy, sy⟩
          let heap₂ := heap₁.insert x ⟨vx, pa, pt, hx, sx⟩
          have hxcell₁ : heap₁.lookup x = some ⟨vx, pa, some y, hx, sx⟩ := by
            rw [Finmap.lookup_insert_of_ne _ hxy, hxcell]
          have hycell₂ : heap₂.lookup y = some ⟨vy, some x, pc, hy, sy⟩ := by
            rw [Finmap.lookup_insert_of_ne _ (Ne.symm hxy), Finmap.lookup_insert]
          have hlinks : Turns heap {x, y} heap₂ {x, y} :=
            (Turns.write (by simp)).trans (.write (by simp))
          have hc₂ : TreeAt heap₂ pc c Ac := hc.of_turns hlinks (by simp [hxAc, hyAc])
          have hx₂ : TreeAt heap₂ (some x) (.node vx a t₂ hx sx) (insert x (Aa ∪ At)) :=
            .node (Finmap.lookup_insert _) (ha.of_turns hlinks (by simp [hxAa, hyAa]))
              (ht.of_turns hlinks (by simp [hxAt, hyAt])) hxAa hxAt hdisjT
          have hturns : Turns heap (insert y (insert x (Aa ∪ At) ∪ Ac)) heap₂
              (insert y (insert x (Aa ∪ At) ∪ Ac)) :=
            (Turns.write (by simp)).trans (.write (by simp))
          -- the heights, from the lower node up
          have hlower := hc₂.changeLeft hycell₂ hx₂.changes_updateHeight
            (by simp [hyAt, hyAa, Ne.symm hxy]) hyAc (by simp [hxAc, hdisj', hdisjC])
          have hreturn := hlower.bind_makes fun _ hy₃ =>
            hy₃.changes_updateHeight.bind_makes fun _ hy₄ => hy₄.makes
          have hrun : HeapTree.leftRotate heap (some x) = (do
              let heap ← HeapTree.updateHeight heap₂ (some x)
              let heap ← HeapTree.updateHeight heap (some y)
              return (heap, some y)) := by
            have hy₁ : HeapTree.modify heap (fun c => { c with left := some x }) (some y) =
                .ok heap₁ := HeapTree.modify_of_lookup hycell
            have hx₁ : HeapTree.modify heap₁ (fun c => { c with right := pt }) (some x) =
                .ok heap₂ := HeapTree.modify_of_lookup hxcell₁
            simp only [HeapTree.leftRotate, HeapTree.load_of_lookup hxcell,
              HeapTree.load_of_lookup hycell, hx₁, hy₁, bind, Except.bind, Option.isNone_some,
              Bool.false_eq_true, if_false]
          have hA : insert x (Aa ∪ insert y (At ∪ Ac)) = insert y (insert x (Aa ∪ At) ∪ Ac) := by
            grind
          rw [hA, hrun]
          exact hturns.makes hreturn

/-- `node->left = leftRotate(node->left)`. -/
theorem TreeAt.changes_leftRotateLeft (ht : TreeAt heap p (.node v l r h s) A) :
    Changes heap p A (HeapTree.leftRotateLeft heap p) (.node v l.leftRotate r h s) A := by
  cases ht with
  | node hcell hl hr hal har hdisj =>
      rw [HeapTree.leftRotateLeft, HeapTree.load_of_lookup hcell]
      exact TreeAt.replaceLeft hcell hl.makes_leftRotate hr hal har hdisj

/-- `node->right = rightRotate(node->right)`. -/
theorem TreeAt.changes_rightRotateRight (ht : TreeAt heap p (.node v l r h s) A) :
    Changes heap p A (HeapTree.rightRotateRight heap p) (.node v l r.rightRotate h s) A := by
  cases ht with
  | node hcell hl hr hal har hdisj =>
      rw [HeapTree.rightRotateRight, HeapTree.load_of_lookup hcell]
      exact TreeAt.replaceRight hcell hl hr.makes_rightRotate hal har hdisj

/-! ## Insertion -/

section Insert

variable [LinearOrder κ] {key : α → κ} {k above below : κ}

theorem TreeAt.makes_rebalanceInsert (ht : TreeAt heap p (.node v l r h s) A) :
    Makes heap A (HeapTree.rebalanceInsert key k above below heap p)
      (AvlTree.rebalanceInsert key k above below (.node v l r h s)) A := by
  have hleft := ht.changes_leftRotateLeft.bind_makes fun _ ht' => ht'.makes_rightRotate
  have hright := ht.changes_rightRotateRight.bind_makes fun _ ht' => ht'.makes_leftRotate
  have hbalance := HeapTree.getBalance_of_treeAt ht
  have hrotate := ht.makes_rightRotate
  have hrotate' := ht.makes_leftRotate
  have hsame := ht.makes
  cases ht with
  | node hcell hl hr =>
      simp only [HeapTree.rebalanceInsert, hbalance, HeapTree.load_of_lookup hcell, ok_bind,
        HeapTree.rootKeyD_of_treeAt hl, HeapTree.rootKeyD_of_treeAt hr, AvlTree.rebalanceInsert]
      split_ifs
      · exact hrotate
      · exact hrotate'
      · exact hleft
      · exact hright
      · exact hsame

/-- An insertion into a node that the allocator has just given out. -/
theorem TreeAt.makes_insert (ht : TreeAt heap p t A) (hfresh : addr ∉ heap) {fuel : Nat}
    (hfuel : t.numNodes ≤ fuel) :
    Makes heap A (HeapTree.insert key above below (some addr) v fuel heap p)
      (t.insert key above below v) (insert addr A) := by
  induction t generalizing fuel p A with
  | nil =>
      cases ht
      have hnode : TreeAt (heap.insert addr ⟨v, none, none, 1, 1⟩) (some addr) (leaf v) {addr} :=
        .node (Finmap.lookup_insert heap) .nil .nil (Finset.notMem_empty _) (Finset.notMem_empty _)
          (Finset.disjoint_empty_left _)
      refine ⟨_, some addr, ?_, hnode, .alloc hfresh⟩
      rw [HeapTree.insert, HeapTree.newNode, if_neg hfresh]
  | node w l r h s ihl ihr =>
      rw [numNodes] at hfuel
      obtain ⟨fuel, rfl⟩ : ∃ n, fuel = n + 1 := ⟨fuel - 1, by omega⟩
      cases ht with
      | @node a _ pl pr _ _ _ _ Al Ar hcell hl hr hal har hdisj =>
          by_cases hlt : key v < key w
          · have hchild := TreeAt.replaceLeft hcell (ihl hl (show l.numNodes ≤ fuel by omega)) hr
              hal har hdisj
            have hA : insert addr (insert a (Al ∪ Ar)) = insert a (insert addr Al ∪ Ar) := by grind
            rw [hA]
            simp only [HeapTree.insert, HeapTree.load_of_lookup hcell, ok_bind, AvlTree.insert,
              if_pos hlt]
            exact hchild.bind_makes fun _ h₁ => (h₁.changes_resize (1 + ·)).bind_makes fun _ h₂ =>
              h₂.changes_refreshHeight.bind_makes fun _ h₃ => h₃.makes_rebalanceInsert
          · have hchild := TreeAt.replaceRight hcell hl (ihr hr (show r.numNodes ≤ fuel by omega))
              hal har hdisj
            have hA : insert addr (insert a (Al ∪ Ar)) = insert a (Al ∪ insert addr Ar) := by grind
            rw [hA]
            simp only [HeapTree.insert, HeapTree.load_of_lookup hcell, ok_bind, AvlTree.insert,
              if_neg hlt]
            exact hchild.bind_makes fun _ h₁ => (h₁.changes_resize (1 + ·)).bind_makes fun _ h₂ =>
              h₂.changes_refreshHeight.bind_makes fun _ h₃ => h₃.makes_rebalanceInsert

/-- Without a new node the insertion fails before it writes. -/
theorem insert_eq_error (ht : TreeAt heap p t A) {fresh : Option Nat} {f : TreeFault}
    (hnew : HeapTree.newNode heap v fresh = .error f) {fuel : Nat} (hfuel : t.numNodes ≤ fuel) :
    HeapTree.insert key above below fresh v fuel heap p = .error f := by
  induction t generalizing fuel p A with
  | nil =>
      cases ht
      rw [HeapTree.insert, hnew]
  | node w l r h s ihl ihr =>
      rw [numNodes] at hfuel
      obtain ⟨fuel, rfl⟩ : ∃ n, fuel = n + 1 := ⟨fuel - 1, by omega⟩
      cases ht with
      | node hcell hl hr =>
          by_cases hlt : key v < key w
          · have hchild := ihl hl (show l.numNodes ≤ fuel by omega)
            simp only [HeapTree.insert, HeapTree.load_of_lookup hcell, ok_bind, if_pos hlt, hchild]
            rfl
          · have hchild := ihr hr (show r.numNodes ≤ fuel by omega)
            simp only [HeapTree.insert, HeapTree.load_of_lookup hcell, ok_bind, if_neg hlt, hchild]
            rfl

end Insert

/-! ## Deletion -/

section Delete

variable {key : α → κ} {k : κ} {resize : UInt64 → UInt64} {fuel : Nat}

/-- The loop stops at a node of the tree that holds the leftmost value. -/
theorem TreeAt.minValueNode (ht : TreeAt heap p t A) (hne : t ≠ .nil) (v₀ : α)
    (hfuel : t.numNodes ≤ fuel) :
    ∃ b cell, HeapTree.minValueNode fuel heap p = .ok (some b) ∧ b ∈ A ∧
      heap.lookup b = some cell ∧ cell.val = t.minValueNode v₀ := by
  induction ht generalizing fuel v₀ with
  | nil => exact absurd rfl hne
  | @node addr v pl pr l r h s Al Ar hcell hl _ _ _ _ ihl _ =>
      rw [numNodes] at hfuel
      by_cases hleft : l = .nil
      · subst hleft
        refine ⟨addr, _, ?_, Finset.mem_insert_self .., hcell, rfl⟩
        cases hl
        unfold HeapTree.minValueNode
        rw [HeapTree.load_of_lookup hcell, ok_bind]
        rfl
      · obtain ⟨fuel, rfl⟩ : ∃ n, fuel = n + 1 := ⟨fuel - 1, by omega⟩
        obtain ⟨b, cell, hrun, hb, hlookup, hval⟩ := ihl hleft v (show l.numNodes ≤ fuel by omega)
        refine ⟨b, cell, ?_, Finset.mem_insert_of_mem (Finset.mem_union_left _ hb), hlookup, hval⟩
        have hsome : pl.isNone = false := by
          rw [hl.isNone_eq, ← Bool.not_eq_true, isNil_iff]
          exact hleft
        rw [HeapTree.minValueNode, HeapTree.load_of_lookup hcell, ok_bind]
        simp only [hsome, Bool.false_eq_true, if_false]
        exact hrun

theorem TreeAt.makes_rebalanceDelete (ht : TreeAt heap p t A) :
    Makes heap A (HeapTree.rebalanceDelete resize heap p) (t.rebalanceDelete resize) A := by
  cases t with
  | nil =>
      cases ht
      exact TreeAt.nil.makes
  | node v l r h s =>
      have hsome : p.isNone = false := ht.isNone_eq
      simp only [HeapTree.rebalanceDelete, hsome, Bool.false_eq_true, if_false]
      refine ht.changes_refreshHeight.bind_makes fun heap₁ ht₁ => ?_
      have hleft := ht₁.changes_leftRotateLeft.bind_makes fun _ ht' => ht'.makes_rightRotate
      have hright := ht₁.changes_rightRotateRight.bind_makes fun _ ht' => ht'.makes_leftRotate
      have hbalance := HeapTree.getBalance_of_treeAt ht₁
      have hrotate := ht₁.makes_rightRotate
      have hrotate' := ht₁.makes_leftRotate
      have hsize := (ht₁.changes_resize resize).bind_makes fun _ ht' => ht'.makes
      cases ht₁ with
      | node hcell hl hr =>
          simp only [hbalance, HeapTree.load_of_lookup hcell, ok_bind,
            HeapTree.getBalance_of_treeAt hl, HeapTree.getBalance_of_treeAt hr,
            AvlTree.rebalanceDelete]
          split_ifs
          · exact hrotate
          · exact hleft
          · exact hrotate'
          · exact hright
          · exact hsize

/-- The root is freed, and what was below it comes up. -/
theorem TreeAt.makes_drop (ht : TreeAt heap p t A) (hcell : heap.lookup addr = some cell)
    (haddr : addr ∉ A) :
    Makes heap (insert addr A)
      (HeapTree.free heap (some addr) >>= fun heap => HeapTree.rebalanceDelete resize heap p)
      (t.rebalanceDelete resize) A := by
  have hfree : Turns heap {addr} (heap.erase addr) ∅ := .free heap addr
  have hturns := hfree.frame A
  rw [Finset.singleton_union, Finset.empty_union] at hturns
  rw [HeapTree.free_of_lookup hcell, ok_bind]
  exact hturns.makes
    (ht.of_turns hfree (Finset.disjoint_singleton_left.mpr haddr)).makes_rebalanceDelete

variable [LinearOrder κ]

/-- A deletion drops some of the nodes of the tree. -/
theorem TreeAt.makes_delete (key : α → κ) (resize : UInt64 → UInt64) (k : κ)
    (ht : TreeAt heap p t A) (hfuel : t.numNodes ≤ fuel) :
    ∃ A' ⊆ A, Makes heap A (HeapTree.delete key resize fuel k heap p) (t.delete key resize k)
      A' := by
  induction t generalizing heap p A fuel k with
  | nil =>
      cases ht
      refine ⟨∅, subset_rfl, ?_⟩
      rw [HeapTree.delete]
      exact TreeAt.nil.makes
  | node w l r h s ihl ihr =>
      rw [numNodes] at hfuel
      obtain ⟨fuel, rfl⟩ : ∃ n, fuel = n + 1 := ⟨fuel - 1, by omega⟩
      have hroot := ht
      cases ht with
      | @node a _ pl pr _ _ _ _ Al Ar hcell hl hr hal har hdisj =>
          simp only [HeapTree.delete, HeapTree.load_of_lookup hcell, ok_bind, AvlTree.delete]
          by_cases hlt : k < key w
          · obtain ⟨A', hA', hchild⟩ := ihl hl (k := k) (show l.numNodes ≤ fuel by omega)
            refine ⟨insert a (A' ∪ Ar), by grind, ?_⟩
            simp only [if_pos hlt]
            exact (TreeAt.replaceLeft hcell hchild hr hal har hdisj).bind_makes fun _ h₁ =>
              h₁.makes_rebalanceDelete
          · simp only [if_neg hlt]
            by_cases hgt : key w < k
            · obtain ⟨A', hA', hchild⟩ := ihr hr (k := k) (show r.numNodes ≤ fuel by omega)
              refine ⟨insert a (Al ∪ A'), by grind, ?_⟩
              simp only [if_pos hgt]
              exact (TreeAt.replaceRight hcell hl hchild hal har hdisj).bind_makes fun _ h₁ =>
                h₁.makes_rebalanceDelete
            · simp only [if_neg hgt, hl.isNone_eq, hr.isNone_eq]
              by_cases hlone : (l.isNil || r.isNil) = true
              · simp only [hlone, if_true]
                by_cases hnil : l = .nil
                · subst hnil
                  cases hl
                  refine ⟨Ar, by grind, ?_⟩
                  rw [Finset.empty_union]
                  exact hr.makes_drop hcell har
                · have hleft : l.isNil = false := by
                    rw [← Bool.not_eq_true, isNil_iff]
                    exact hnil
                  have hright : r = .nil := isNil_iff.mp (by simpa [hleft] using hlone)
                  subst hright
                  cases hr
                  refine ⟨Al, by grind, ?_⟩
                  rw [Finset.union_empty, hleft]
                  exact hl.makes_drop hcell hal
              · simp only [hlone]
                have hrne : r ≠ .nil := by
                  rintro rfl
                  simp [isNil] at hlone
                obtain ⟨b, cell, hmin, hb, hbcell, hval⟩ :=
                  hr.minValueNode hrne w hr.numNodes_le
                let heap₁ := heap.insert a ⟨r.minValueNode w, pl, pr, h, s⟩
                have hwrite : Turns heap {a} heap₁ {a} := .write (Finset.mem_singleton_self a)
                have hl₁ : TreeAt heap₁ pl l Al :=
                  hl.of_turns hwrite (Finset.disjoint_singleton_left.mpr hal)
                have hr₁ : TreeAt heap₁ pr r Ar :=
                  hr.of_turns hwrite (Finset.disjoint_singleton_left.mpr har)
                obtain ⟨A', hA', hchild⟩ := ihr hr₁ (k := key (r.minValueNode w))
                  (show r.numNodes ≤ fuel by omega)
                refine ⟨insert a (Al ∪ A'), by grind, ?_⟩
                have hstore : HeapTree.modify heap
                    (fun c => { c with val := r.minValueNode w }) (some a) = .ok heap₁ :=
                  HeapTree.modify_of_lookup hcell
                simp only [hmin, ok_bind, HeapTree.load_of_lookup hbcell, hval, hstore]
                have hchanges := TreeAt.replaceRight (Finmap.lookup_insert heap) hl₁ hchild hal har
                  hdisj
                have hturns : Turns heap (insert a (Al ∪ Ar)) heap₁ (insert a (Al ∪ Ar)) :=
                  .write (Finset.mem_insert_self ..)
                exact hturns.makes (hchanges.bind_makes fun _ h₁ => h₁.makes_rebalanceDelete)

/-- The loop drops nodes until it ends. -/
theorem TreeAt.makes_freeLoop (ht : TreeAt heap p t A) {n : Nat}
    (hloop : t.freeLoop key resize n = some t') :
    ∃ A' ⊆ A, Makes heap A (HeapTree.freeLoop key resize n heap p) t' A' := by
  induction n generalizing heap p t A with
  | zero =>
      cases ht with
      | nil =>
          obtain rfl := Option.some.inj hloop
          exact ⟨∅, subset_rfl, TreeAt.nil.makes⟩
      | node => cases hloop
  | succ n ih =>
      cases ht with
      | nil =>
          obtain rfl := Option.some.inj hloop
          exact ⟨∅, subset_rfl, TreeAt.nil.makes⟩
      | @node a v _ _ _ _ _ _ _ _ hcell hl hr hal har hdisj =>
          have ht := TreeAt.node hcell hl hr hal har hdisj
          obtain ⟨A₁, hA₁, heap₁, q, hrun, ht₁, hturns⟩ :=
            ht.makes_delete key resize (key v) ht.numNodes_le
          obtain ⟨A', hA', hmakes⟩ := ih ht₁ hloop
          refine ⟨A', hA'.trans hA₁, ?_⟩
          simp only [HeapTree.freeLoop, HeapTree.load_of_lookup hcell, ok_bind, hrun]
          exact hturns.makes hmakes

theorem TreeAt.lookup_eq (ht : TreeAt heap p t A) (hfuel : t.numNodes ≤ fuel) :
    HeapTree.lookup key k fuel heap p = .ok (t.lookup key k) := by
  induction ht generalizing fuel with
  | nil => rw [HeapTree.lookup, AvlTree.lookup]
  | node hcell _ _ _ _ _ ihl ihr =>
      rw [numNodes] at hfuel
      obtain ⟨fuel, rfl⟩ : ∃ n, fuel = n + 1 := ⟨fuel - 1, by omega⟩
      simp only [HeapTree.lookup, HeapTree.load_of_lookup hcell, ok_bind, AvlTree.lookup]
      split_ifs
      · rfl
      · exact ihl (by omega)
      · exact ihr (by omega)

end Delete

/-! ## Several trees -/

/-- The pointers lead to the trees, no two trees have a node in common, and every live node is one
of theirs. -/
def ForestAt {ι : Type*} (heap : TreeHeap α) (root : ι → Option Nat) (trees : ι → AvlTree α) :
    Prop :=
  ∃ A : ι → Finset Nat, (∀ i, TreeAt heap (root i) (trees i) (A i)) ∧
    (∀ i j, i ≠ j → Disjoint (A i) (A j)) ∧ ∀ b ∈ heap, ∃ i, b ∈ A i

namespace ForestAt

variable {ι : Type*} {root : ι → Option Nat} {trees : ι → AvlTree α}

/-- Nothing is allocated. -/
theorem empty : ForestAt (∅ : TreeHeap α) (fun _ : ι => none) fun _ => .nil :=
  ⟨fun _ => ∅, fun _ => .nil, fun _ _ _ => Finset.disjoint_empty_left _,
    fun _ hb => absurd hb Finmap.notMem_empty⟩

theorem exists_treeAt (hf : ForestAt heap root trees) (i : ι) :
    ∃ A, TreeAt heap (root i) (trees i) A := by
  obtain ⟨A, htrees, -⟩ := hf
  exact ⟨A i, htrees i⟩

/-- A call that makes a new tree of the nodes of one leaves the others alone. -/
theorem update [DecidableEq ι] (hf : ForestAt heap root trees) {i : ι}
    {call : Except TreeFault (TreeHeap α × Option Nat)}
    (hcall : ∀ A, TreeAt heap (root i) (trees i) A → ∃ A', Makes heap A call t A') :
    ∃ heap' p, call = .ok (heap', p) ∧
      ForestAt heap' (Function.update root i p) (Function.update trees i t) := by
  obtain ⟨A, htrees, hdisj, hlive⟩ := hf
  obtain ⟨A', heap', p, hrun, ht, hturns⟩ := hcall (A i) (htrees i)
  have hothers : ∀ j, j ≠ i → Disjoint (A i) (A j) := fun j hj => hdisj i j (Ne.symm hj)
  have hnew : ∀ j, j ≠ i → Disjoint A' (A j) := fun j hj =>
    hturns.disjoint (hothers j hj) fun _ => (htrees j).mem_heap
  refine ⟨heap', p, hrun, Function.update A i A', fun j => ?_, fun j k hjk => ?_, fun b hb => ?_⟩
  · by_cases hj : j = i
    · subst hj
      simpa only [Function.update_self] using ht
    · simpa only [Function.update_of_ne hj] using (htrees j).of_turns hturns (hothers j hj)
  · by_cases hj : j = i
    · subst hj
      rw [Function.update_self, Function.update_of_ne (Ne.symm hjk)]
      exact hnew k (Ne.symm hjk)
    · rw [Function.update_of_ne hj]
      by_cases hk : k = i
      · subst hk
        rw [Function.update_self]
        exact (hnew j hj).symm
      · rw [Function.update_of_ne hk]
        exact hdisj j k hjk
  · rcases (hturns.mem_heap_iff fun _ => ht.mem_heap).mp hb with hb | ⟨hbi, hb⟩
    · exact ⟨i, by rwa [Function.update_self]⟩
    · obtain ⟨j, hj⟩ := hlive b hb
      have hne : j ≠ i := fun h => hbi (h ▸ hj)
      exact ⟨j, by rwa [Function.update_of_ne hne]⟩

/-- Where all trees are empty, no node is live. -/
theorem eq_empty (hf : ForestAt heap root trees) (hnil : ∀ i, trees i = .nil) : heap = ∅ := by
  obtain ⟨A, htrees, -, hlive⟩ := hf
  refine Finmap.ext_lookup fun b => ?_
  rw [Finmap.lookup_empty, Finmap.lookup_eq_none]
  intro hb
  obtain ⟨i, hi⟩ := hlive b hb
  have ht := htrees i
  rw [hnil i] at ht
  have hcard : (A i).card = 0 := ht.card_eq
  rw [Finset.card_eq_zero.mp hcard] at hi
  exact Finset.notMem_empty b hi

end ForestAt

end ParcoachRma
