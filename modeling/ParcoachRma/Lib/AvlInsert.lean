import ParcoachRma.Lib.AvlBalance

/-!
# Insertion by comparing keys

`AvlTree.insert` picks its rotation by comparing the new key with the key of the child.  The two
are never equal where keys do not repeat.  Where they are equal no rotation is done, and the node
stays out of balance (`Stuck`), unless the rotation of a node above happens to repair it.

* A node is seen from the search path: `d.node v p o` has the path on its side `d`.
* `Grows key k t`: an insertion of `k` makes the tree one higher.
* `balanced_insert_iff`: an AVL tree stays balanced exactly if it is not one that `Unbalances` for
  the new key, a condition on the heights and keys along the search path.
-/

namespace ParcoachRma.AvlTree

variable {α κ : Type*}

/-! ## Nodes seen from the search path -/

/-- The side of a node. -/
inductive Side where
  | left
  | right
  deriving DecidableEq, Repr

namespace Side

def flip : Side → Side
  | left => right
  | right => left

/-- A node with the subtree `p` on this side and `o` on the other one. -/
def node (d : Side) (v : α) (p o : AvlTree α) (h : Int) (s : UInt64) : AvlTree α :=
  match d with
  | left => .node v p o h s
  | right => .node v o p h s

theorem flip_node (d : Side) (v : α) (p o : AvlTree α) (h : Int) (s : UInt64) :
    d.flip.node v p o h s = d.node v o p h s := by
  cases d <;> rfl

/-- The rotation that brings the child on this side up. -/
def bringUp : Side → AvlTree α → AvlTree α
  | left => rightRotate
  | right => leftRotate

end Side

@[simp] theorem height_side (d : Side) (v : α) (p o : AvlTree α) (h : Int) (s : UInt64) :
    (d.node v p o h s).height = h := by
  cases d <;> rfl

theorem balanced_side {d : Side} {v : α} {p o : AvlTree α} {h : Int} {s : UInt64} :
    Balanced (d.node v p o h s) ↔ Balanced p ∧ Balanced o ∧
      -1 ≤ p.height - o.height ∧ p.height - o.height ≤ 1 := by
  cases d
  · exact Iff.rfl
  · simp only [Side.node, Balanced]
    constructor
    · intro hparts
      rcases hparts with ⟨ho, hp, hlo, hhi⟩
      exact ⟨hp, ho, by omega, by omega⟩
    · intro hparts
      rcases hparts with ⟨hp, ho, hlo, hhi⟩
      exact ⟨ho, hp, by omega, by omega⟩

theorem heightsExact_side {d : Side} {v : α} {p o : AvlTree α} {h : Int} {s : UInt64} :
    HeightsExact (d.node v p o h s) ↔
      HeightsExact p ∧ HeightsExact o ∧ h = 1 + max p.height o.height := by
  cases d
  · exact heightsExact_node
  · simp only [Side.node, heightsExact_node, max_comm o.height, ← and_assoc, and_comm]

theorem isAvl_side {d : Side} {v : α} {p o : AvlTree α} {h : Int} {s : UInt64} :
    IsAvl (d.node v p o h s) ↔ IsAvl p ∧ IsAvl o ∧ h = 1 + max p.height o.height ∧
      -1 ≤ p.height - o.height ∧ p.height - o.height ≤ 1 := by
  constructor
  · intro hparts
    rcases hparts with ⟨hh, hb⟩
    obtain ⟨hp, ho, heq⟩ := heightsExact_side.mp hh
    obtain ⟨bp, bo, hbal⟩ := balanced_side.mp hb
    exact ⟨⟨hp, bp⟩, ⟨ho, bo⟩, heq, hbal⟩
  · intro hparts
    rcases hparts with ⟨hp, ho, heq, hbal⟩
    exact ⟨heightsExact_side.mpr ⟨hp.heights, ho.heights, heq⟩,
      balanced_side.mpr ⟨hp.balanced, ho.balanced, hbal⟩⟩

/-- A single rotation of a node whose child leans to the outside. -/
theorem bringUp_outer (d : Side) (v w : α) (q s o : AvlTree α) (h h' : Int) (z z' : UInt64) :
    ∃ h₁ h₂, d.bringUp (d.node w (d.node v q s h' z') o h z) =
      d.node v q (d.node w s o h₁ z) h₂ z' := by
  cases d <;> exact ⟨_, _, rfl⟩

/-- A double rotation of a node whose child leans to the inside. -/
theorem bringUp_inner (d : Side) (v w x : α) (a b s o : AvlTree α) (h h' h'' : Int)
    (z z' z'' : UInt64) :
    ∃ h₁ h₂ h₃, d.bringUp (d.node w
        (d.flip.bringUp (d.flip.node v (d.node x a b h'' z'') s h' z')) o h z) =
      d.node x (d.flip.node v a s h₁ z') (d.node w b o h₂ z) h₃ z'' := by
  cases d <;> exact ⟨_, _, _, rfl⟩

/-- The value at the root has the key. -/
def HasRootKey (key : α → κ) (k : κ) : AvlTree α → Prop
  | nil => False
  | node v _ _ _ _ => key v = k

@[simp] theorem hasRootKey_side {key : α → κ} {k : κ} {d : Side} {v : α} {p o : AvlTree α}
    {h : Int} {s : UInt64} : HasRootKey key k (d.node v p o h s) ↔ key v = k := by
  cases d <;> exact Iff.rfl

variable [LinearOrder κ] {key : α → κ} {above below : κ}

/-- The side of a node with value `w` that a search for `k` goes to. -/
def sideOf (key : α → κ) (k : κ) (w : α) : Side := if k < key w then .left else .right

theorem sideOf_of_eq {k : κ} {w : α} (hw : key w = k) : sideOf key k w = .right :=
  if_neg (hw ▸ lt_irrefl _)

/-- Induction along the search path of `k`. -/
@[elab_as_elim] theorem path_induction (key : α → κ) (k : κ) {P : AvlTree α → Prop} (nil : P nil)
    (node : ∀ (d : Side) (w : α) (p o : AvlTree α) (h : Int) (s : UInt64), sideOf key k w = d →
      P p → P (d.node w p o h s)) (t : AvlTree α) : P t := by
  induction t with
  | nil => exact nil
  | node w l r h s ihl ihr =>
      by_cases hlt : k < key w
      · exact node .left w l r h s (if_pos hlt) ihl
      · exact node .right w r l h s (if_neg hlt) ihr

/-! ## Rebalancing after an insertion -/

theorem insert_side {v w : α} {d : Side} (hd : sideOf key (key v) w = d) (p o : AvlTree α)
    (h : Int) (s : UInt64) :
    insert key above below v (d.node w p o h s) = rebalanceInsert key (key v) above below
      (d.node w (insert key above below v p) o
        (1 + max (insert key above below v p).height o.height) (1 + s)) := by
  unfold sideOf at hd
  split_ifs at hd with hlt
  · subst hd
    simp only [Side.node, insert, if_pos hlt]
  · subst hd
    simp only [Side.node, insert, if_neg hlt, max_comm]

/-- A node in balance stays as it is. -/
theorem rebalanceInsert_of_le {k : κ} {d : Side} {w : α} {p o : AvlTree α} {h : Int} {s : UInt64}
    (hhi : p.height ≤ o.height + 1) (hlo : o.height ≤ p.height + 1) :
    rebalanceInsert key k above below (d.node w p o h s) = d.node w p o h s := by
  cases d <;>
  · simp only [Side.node]
    rw [rebalanceInsert_node, if_neg (by omega), if_neg (by omega), if_neg (by omega),
      if_neg (by omega)]

/-- So does one that is out of balance to a child with the new key. -/
theorem rebalanceInsert_of_rootKey {k : κ} {d : Side} {w : α} {p o : AvlTree α} {h : Int}
    {s : UInt64} (hp : p.height = o.height + 2) (hkey : HasRootKey key k p) :
    rebalanceInsert key k above below (d.node w p o h s) = d.node w p o h s := by
  cases p with
  | nil => exact hkey.elim
  | node v a b h' s' =>
      obtain rfl : key v = k := hkey
      have hroot : ∀ k, rootKeyD key k (node v a b h' s') = key v := fun _ => rfl
      cases d
      · simp only [Side.node]
        rw [rebalanceInsert_node, if_neg (by simp [hroot]), if_neg (by omega),
          if_neg (by simp [hroot]), if_neg (by omega)]
      · simp only [Side.node]
        rw [rebalanceInsert_node, if_neg (by omega), if_neg (by simp [hroot]), if_neg (by omega),
          if_neg (by simp [hroot])]

/-- One that is out of balance to a child with another key is rotated by the side of that key the
new key is on. -/
theorem rebalanceInsert_of_ne {k : κ} {d e : Side} {v w : α} {q s o : AvlTree α} {h h' : Int}
    {z z' : UInt64} (hp : h' = o.height + 2) (he : sideOf key k v = e) (hkey : key v ≠ k) :
    rebalanceInsert key k above below (d.node w (e.node v q s h' z') o h z) =
      d.bringUp (d.node w
        (if e = d then e.node v q s h' z' else e.bringUp (e.node v q s h' z')) o h z) := by
  have hh : (e.node v q s h' z').height = h' := height_side ..
  have hroot : ∀ k, rootKeyD key k (e.node v q s h' z') = key v := fun _ => by cases e <;> rfl
  unfold sideOf at he
  split_ifs at he with hlt
  · subst he
    cases d
    · change rebalanceInsert key k above below (node w (Side.left.node v q s h' z') o h z) = _
      rw [rebalanceInsert_node, if_pos ⟨by omega, (hroot above).symm ▸ hlt⟩, if_pos rfl]
      rfl
    · change rebalanceInsert key k above below (node w o (Side.left.node v q s h' z') h z) = _
      rw [rebalanceInsert_node, if_neg (by omega),
        if_neg (fun hc => (hroot below ▸ hc.2).not_gt hlt), if_neg (by omega),
        if_pos ⟨by omega, (hroot below).symm ▸ hlt⟩, if_neg (by decide)]
      rfl
  · subst he
    have hgt : key v < k := lt_of_le_of_ne (not_lt.mp hlt) hkey
    cases d
    · change rebalanceInsert key k above below (node w (Side.right.node v q s h' z') o h z) = _
      rw [rebalanceInsert_node, if_neg (fun hc => hlt (hroot above ▸ hc.2)), if_neg (by omega),
        if_pos ⟨by omega, (hroot above).symm ▸ hgt⟩, if_neg (by decide)]
      rfl
    · change rebalanceInsert key k above below (node w o (Side.right.node v q s h' z') h z) = _
      rw [rebalanceInsert_node, if_neg (by omega),
        if_pos ⟨by omega, (hroot below).symm ▸ hgt⟩, if_pos rfl]
      rfl

/-- The insertion rotates nothing at a node that is in balance after it. -/
theorem insert_of_le {v w : α} {d : Side} {p o : AvlTree α} {h : Int} {s : UInt64}
    (hd : sideOf key (key v) w = d)
    (hhi : (insert key above below v p).height ≤ o.height + 1)
    (hlo : o.height ≤ (insert key above below v p).height + 1) :
    insert key above below v (d.node w p o h s) = d.node w (insert key above below v p) o
      (1 + max (insert key above below v p).height o.height) (1 + s) :=
  (insert_side hd p o h s).trans (rebalanceInsert_of_le hhi hlo)

/-- Nor does it at a node that is out of balance to a child with the new key. -/
theorem insert_of_rootKey {v w : α} {d : Side} {p o : AvlTree α} {h : Int} {s : UInt64}
    (hd : sideOf key (key v) w = d)
    (hp : (insert key above below v p).height = o.height + 2)
    (hkey : HasRootKey key (key v) (insert key above below v p)) :
    insert key above below v (d.node w p o h s) = d.node w (insert key above below v p) o
      (1 + max (insert key above below v p).height o.height) (1 + s) :=
  (insert_side hd p o h s).trans (rebalanceInsert_of_rootKey hp hkey)

/-! ## The height after an insertion -/

/-- Insertion of the key `k` makes the tree one higher: no node on the way leans to the other side,
and those that lean to the path have a child with the key `k` there, so they are not rotated. -/
def Grows (key : α → κ) (k : κ) : AvlTree α → Prop
  | nil => True
  | .node w l r _ _ =>
      if k < key w then
        r.height ≤ l.height ∧ (l.height = r.height + 1 → HasRootKey key k l) ∧ Grows key k l
      else l.height ≤ r.height ∧ (r.height = l.height + 1 → HasRootKey key k r) ∧ Grows key k r

theorem grows_side {k : κ} {d : Side} {w : α} {p o : AvlTree α} {h : Int} {s : UInt64}
    (hd : sideOf key k w = d) : Grows key k (d.node w p o h s) ↔
      o.height ≤ p.height ∧ (p.height = o.height + 1 → HasRootKey key k p) ∧ Grows key k p := by
  unfold sideOf at hd
  split_ifs at hd with hlt <;> subst hd
  · simp only [Side.node, Grows, if_pos hlt]
  · simp only [Side.node, Grows, if_neg hlt]

/-- The root is the same after the insertion of `v`, and the side of the path has got it. -/
def KeepsRoot (key : α → κ) (above below : κ) (v : α) (t : AvlTree α) : Prop :=
  ∀ d w p o h s, t = Side.node d w p o h s → sideOf key (key v) w = d →
    ∃ h' s', insert key above below v t = d.node w (insert key above below v p) o h' s'

theorem keepsRoot_side {v w : α} {d : Side} {p o : AvlTree α} {h h' : Int} {s s' : UInt64}
    (hd : sideOf key (key v) w = d)
    (heq : insert key above below v (d.node w p o h s) =
      d.node w (insert key above below v p) o h' s') :
    KeepsRoot key above below v (d.node w p o h s) := by
  intro e x p' o' h'' s'' ht he
  have hroot : w = x ∧ (d = e → p = p' ∧ o = o') := by
    cases d <;> cases e <;> cases ht <;> exact ⟨rfl, by simp⟩
  obtain ⟨rfl, hchild⟩ := hroot
  obtain rfl := hd.symm.trans he
  obtain ⟨rfl, rfl⟩ := hchild rfl
  exact ⟨h', s', heq⟩

theorem KeepsRoot.hasRootKey {v : α} {t : AvlTree α} (hkeep : KeepsRoot key above below v t)
    {k : κ} (ht : HasRootKey key k t) : HasRootKey key k (insert key above below v t) := by
  cases t with
  | nil => exact ht.elim
  | node w l r h s =>
      by_cases hlt : key v < key w
      · obtain ⟨h', s', heq⟩ := hkeep .left w l r h s rfl (if_pos hlt)
        rw [heq]
        exact ht
      · obtain ⟨h', s', heq⟩ := hkeep .right w r l h s rfl (if_neg hlt)
        rw [heq]
        exact ht

/-- What an insertion does to the height of an AVL tree. -/
structure InsertHeight (key : α → κ) (above below : κ) (v : α) (t : AvlTree α) : Prop where
  grows : Grows key (key v) t →
    (insert key above below v t).height = t.height + 1 ∧ KeepsRoot key above below v t
  same : ¬ Grows key (key v) t → (insert key above below v t).height = t.height

/-- A tree that is not empty is a node seen from the search path. -/
theorem exists_path_node (key : α → κ) (k : κ) {t : AvlTree α} (ht : t ≠ nil) :
    ∃ d w p o h s, sideOf key k w = d ∧ t = Side.node d w p o h s := by
  cases t with
  | nil => exact absurd rfl ht
  | node w l r h s =>
      by_cases hlt : k < key w
      · exact ⟨.left, w, l, r, h, s, if_pos hlt, rfl⟩
      · exact ⟨.right, w, r, l, h, s, if_neg hlt, rfl⟩

omit [LinearOrder κ] in
/-- It is a node seen from either side, too. -/
theorem Side.exists_node (d : Side) {t : AvlTree α} (ht : t ≠ nil) :
    ∃ v p o h s, t = d.node v p o h s := by
  cases t with
  | nil => exact absurd rfl ht
  | node v l r h s =>
      cases d
      · exact ⟨v, l, r, h, s, rfl⟩
      · exact ⟨v, r, l, h, s, rfl⟩

theorem insert_ne_nil (v : α) (t : AvlTree α) : insert key above below v t ≠ nil := by
  intro hnil
  have hmem : v ∈ (insert key above below v t).toList := mem_insert.mpr (.inl rfl)
  rw [hnil] at hmem
  cases hmem

section Rotated

variable {v w x : α} {d : Side} {q s o : AvlTree α} {h h' : Int} {z z' : UInt64}

/-- A node whose path side has become two higher, by an insertion to the outside of its child. -/
theorem insert_outer (hd : sideOf key (key v) w = d) (he : sideOf key (key v) x = d)
    (hne : key x ≠ key v) (hkeep : KeepsRoot key above below v (d.node x q s h' z'))
    (hheight : (insert key above below v (d.node x q s h' z')).height = o.height + 2) :
    ∃ h₁ z₁ h₂ z₂, insert key above below v (d.node w (d.node x q s h' z') o h z) =
      d.node x (insert key above below v q) (d.node w s o h₁ z₁) h₂ z₂ := by
  obtain ⟨h'', z'', heq⟩ := hkeep d x q s h' z' rfl he
  rw [heq, height_side] at hheight
  rw [insert_side hd, heq, rebalanceInsert_of_ne hheight he hne, if_pos rfl]
  obtain ⟨h₁, h₂, hrot⟩ := bringUp_outer d x w (insert key above below v q) s o
    (1 + max (d.node x (insert key above below v q) s h'' z'').height o.height) h'' (1 + z) z''
  exact ⟨h₁, _, h₂, _, hrot⟩

/-- The same by an insertion to the inside of its child. -/
theorem insert_inner {y : α} {a b : AvlTree α} {h₀ : Int} {z₀ : UInt64}
    (hd : sideOf key (key v) w = d) (he : sideOf key (key v) x = d.flip) (hne : key x ≠ key v)
    (hkeep : KeepsRoot key above below v (d.flip.node x q s h' z'))
    (hheight : (insert key above below v (d.flip.node x q s h' z')).height = o.height + 2)
    (hq : insert key above below v q = d.node y a b h₀ z₀) :
    ∃ h₁ z₁ h₂ z₂ h₃ z₃, insert key above below v (d.node w (d.flip.node x q s h' z') o h z) =
      d.node y (d.flip.node x a s h₁ z₁) (d.node w b o h₂ z₂) h₃ z₃ := by
  obtain ⟨h'', z'', heq⟩ := hkeep d.flip x q s h' z' rfl he
  rw [heq, height_side] at hheight
  have hflip : d.flip ≠ d := by cases d <;> decide
  rw [insert_side hd, heq, rebalanceInsert_of_ne hheight he hne, if_neg hflip, hq]
  obtain ⟨h₁, h₂, h₃, hrot⟩ := bringUp_inner d x w y a b s o
    (1 + max (d.flip.node x (d.node y a b h₀ z₀) s h'' z'').height o.height) h'' h₀ (1 + z) z'' z₀
  exact ⟨h₁, _, h₂, _, h₃, _, hrot⟩

end Rotated

/-- The rotation takes the height back that the insertion has added. -/
theorem height_insert_rotated {v w : α} {d : Side} {p o : AvlTree α} {h : Int} {z : UInt64}
    (hd : sideOf key (key v) w = d) (hp : IsAvl p) (ho : IsAvl o) (hlean : p.height = o.height + 1)
    (hkey : ¬ HasRootKey key (key v) p) (hkeep : KeepsRoot key above below v p)
    (hheight : (insert key above below v p).height = p.height + 1)
    (hexact : HeightsExact (insert key above below v (d.node w p o h z))) :
    (insert key above below v (d.node w p o h z)).height = o.height + 2 := by
  have ho0 := ho.heights.height_nonneg
  have hpne : p ≠ nil := ne_nil_of_height_pos (by omega)
  obtain ⟨e, x, q, s, h', z', he, rfl⟩ := exists_path_node key (key v) hpne
  rw [hasRootKey_side] at hkey
  rw [height_side] at hlean hheight
  -- The side of the path is what makes the child higher, so it is the higher one below it.
  obtain ⟨h'', z'', hins⟩ := hkeep e x q s h' z' rfl he
  obtain ⟨-, -, hh'⟩ := heightsExact_side.mp hp.heights
  have hpexact : HeightsExact (insert key above below v (e.node x q s h' z')) :=
    hp.heights.insert v
  rw [hins] at hpexact
  obtain ⟨hqexact, -, hh''⟩ := heightsExact_side.mp hpexact
  have hheight' := hheight
  rw [hins, height_side] at hheight'
  by_cases hed : e = d
  · subst hed
    obtain ⟨h₁, z₁, h₂, z₂, hrot⟩ :=
      insert_outer (o := o) (h := h) (z := z) hd he hkey hkeep (by omega)
    rw [hrot] at hexact ⊢
    obtain ⟨-, hlow, hh₂⟩ := heightsExact_side.mp hexact
    obtain ⟨-, -, hh₁⟩ := heightsExact_side.mp hlow
    rw [height_side] at hh₂ ⊢
    omega
  · obtain rfl : e = d.flip := by cases e <;> cases d <;> first | rfl | exact absurd rfl hed
    have hqne : insert key above below v q ≠ nil := insert_ne_nil v q
    obtain ⟨y, a, b, h₀, z₀, hnode⟩ := d.exists_node hqne
    obtain ⟨h₁, z₁, h₂, z₂, h₃, z₃, hrot⟩ :=
      insert_inner (o := o) (h := h) (z := z) hd he hkey hkeep (by omega) hnode
    rw [hnode] at hqexact
    rw [hnode, height_side] at hh''
    obtain ⟨-, -, hh₀⟩ := heightsExact_side.mp hqexact
    rw [hrot] at hexact ⊢
    obtain ⟨hinner, houter, hh₃⟩ := heightsExact_side.mp hexact
    obtain ⟨-, -, hh₁⟩ := heightsExact_side.mp hinner
    obtain ⟨-, -, hh₂⟩ := heightsExact_side.mp houter
    rw [height_side, height_side] at hh₃
    rw [height_side]
    omega

/-- By induction along the search path: a side that grows makes its node higher unless the other
side was higher or the node is rotated. -/
theorem insertHeight (above below : κ) (v : α) {t : AvlTree α} (ht : IsAvl t) :
    InsertHeight key above below v t := by
  induction t using path_induction key (key v) with
  | nil =>
      refine ⟨fun _ => ⟨rfl, fun d w p o h s hnil => ?_⟩, fun hnot => absurd trivial hnot⟩
      cases d <;> cases hnil
  | node d w p o h s hd ih =>
      obtain ⟨hp, ho, hh, hlo, hhi⟩ := isAvl_side.mp ht
      obtain ⟨hgrows, hsame⟩ := ih hp
      by_cases hg : Grows key (key v) p
      · obtain ⟨hheight, hkeep⟩ := hgrows hg
        rcases lt_or_ge o.height p.height with hlean | hle
        · by_cases hkey : HasRootKey key (key v) p
          · have heq := insert_of_rootKey (o := o) (h := h) (s := s) hd (by omega)
              (hkeep.hasRootKey hkey)
            refine ⟨fun _ => ⟨?_, keepsRoot_side hd heq⟩, fun hnot => absurd ?_ hnot⟩
            · rw [heq, height_side, height_side]
              omega
            · exact (grows_side hd).mpr ⟨by omega, fun _ => hkey, hg⟩
          · have hrot := height_insert_rotated (h := h) (z := s) hd hp ho (by omega) hkey hkeep
              hheight (ht.heights.insert v)
            refine ⟨fun hgt => absurd ((grows_side hd).mp hgt).2.1 ?_, fun _ => ?_⟩
            · exact fun hroot => hkey (hroot (by omega))
            · rw [hrot, height_side]
              omega
        · have heq : insert key above below v (d.node w p o h s) = _ :=
            insert_of_le hd (by omega) (by omega)
          refine ⟨fun hgt => ⟨?_, keepsRoot_side hd heq⟩, fun hnot => ?_⟩
          · have hge := ((grows_side hd).mp hgt).1
            rw [heq, height_side, height_side]
            omega
          · have hlt : ¬ o.height ≤ p.height := fun hge =>
              hnot ((grows_side hd).mpr ⟨hge, fun hc => absurd hc (by omega), hg⟩)
            rw [heq, height_side, height_side]
            omega
      · have hheight := hsame hg
        have heq : insert key above below v (d.node w p o h s) = _ :=
          insert_of_le hd (by omega) (by omega)
        refine ⟨fun hgt => absurd ((grows_side hd).mp hgt).2.2 hg, fun _ => ?_⟩
        rw [heq, height_side, height_side, hheight]
        exact hh.symm

/-! ## Balance after an insertion -/

section Unbalances

/-- No node on the way leans to a side. -/
def Level (key : α → κ) (k : κ) : AvlTree α → Prop
  | nil => True
  | .node w l r _ _ => l.height = r.height ∧ if k < key w then Level key k l else Level key k r

/-- The root leans to the path and nothing below it leans, and the child on the path has the key
`k`: the root gets out of balance and is not rotated. -/
def Stuck (key : α → κ) (k : κ) : AvlTree α → Prop
  | nil => False
  | .node w l r _ _ =>
      if k < key w then l.height = r.height + 1 ∧ Level key k l ∧ HasRootKey key k l
      else r.height = l.height + 1 ∧ Level key k r ∧ HasRootKey key k r

/-- The root leans to a stuck child with the key `k`, and gets out of balance, too. -/
def StuckTwice (key : α → κ) (k : κ) : AvlTree α → Prop
  | nil => False
  | .node w l r _ _ =>
      if k < key w then l.height = r.height + 1 ∧ Stuck key k l ∧ HasRootKey key k l
      else r.height = l.height + 1 ∧ Stuck key k r ∧ HasRootKey key k r

/-- The key at the root is less than `k`. -/
def RootKeyLt (key : α → κ) (k : κ) : AvlTree α → Prop
  | nil => False
  | .node w _ _ _ _ => key w < k

/-- The rotation of a node with the path `p` on its side `d` takes apart what is out of balance:
a stuck child, or the two stuck nodes on the right of a left child. -/
def Repairs (key : α → κ) (k : κ) (d : Side) (p o : AvlTree α) : Prop :=
  p.height = o.height + 1 ∧ ¬ HasRootKey key k p ∧
    (Stuck key k p ∨ d = .left ∧ RootKeyLt key k p ∧ StuckTwice key k p)

/-- Some node on the path is stuck, and none above it repairs the balance. -/
def Unbalances (key : α → κ) (k : κ) : AvlTree α → Prop
  | nil => False
  | .node w l r h s =>
      Stuck key k (.node w l r h s) ∨
        if k < key w then Unbalances key k l ∧ ¬ Repairs key k .left l r
        else Unbalances key k r ∧ ¬ Repairs key k .right r l

section Decidable

variable (key : α → κ) (k : κ)

instance decidableHasRootKey : (t : AvlTree α) → Decidable (HasRootKey key k t)
  | nil => inferInstanceAs (Decidable False)
  | .node w _ _ _ _ => inferInstanceAs (Decidable (key w = k))

instance decidableLevel : (t : AvlTree α) → Decidable (Level key k t)
  | nil => inferInstanceAs (Decidable True)
  | .node w l r _ _ =>
      have := decidableLevel l
      have := decidableLevel r
      inferInstanceAs (Decidable (l.height = r.height ∧ if k < key w then _ else _))

instance decidableStuck : (t : AvlTree α) → Decidable (Stuck key k t)
  | nil => inferInstanceAs (Decidable False)
  | .node w _ _ _ _ => inferInstanceAs (Decidable (if k < key w then _ ∧ _ ∧ _ else _ ∧ _ ∧ _))

instance decidableStuckTwice : (t : AvlTree α) → Decidable (StuckTwice key k t)
  | nil => inferInstanceAs (Decidable False)
  | .node w _ _ _ _ => inferInstanceAs (Decidable (if k < key w then _ ∧ _ ∧ _ else _ ∧ _ ∧ _))

instance decidableRootKeyLt : (t : AvlTree α) → Decidable (RootKeyLt key k t)
  | nil => inferInstanceAs (Decidable False)
  | .node w _ _ _ _ => inferInstanceAs (Decidable (key w < k))

instance (d : Side) (p o : AvlTree α) : Decidable (Repairs key k d p o) :=
  inferInstanceAs (Decidable (_ ∧ _ ∧ (_ ∨ _ ∧ _ ∧ _)))

instance decidableUnbalances : (t : AvlTree α) → Decidable (Unbalances key k t)
  | nil => inferInstanceAs (Decidable False)
  | .node w l r _ _ =>
      have := decidableUnbalances l
      have := decidableUnbalances r
      inferInstanceAs (Decidable (_ ∨ if k < key w then _ ∧ ¬ _ else _ ∧ ¬ _))

end Decidable

variable {k : κ} {d : Side} {w : α} {p o : AvlTree α} {h : Int} {s : UInt64}

theorem level_side (hd : sideOf key k w = d) : Level key k (d.node w p o h s) ↔
    p.height = o.height ∧ Level key k p := by
  unfold sideOf at hd
  split_ifs at hd with hlt <;> subst hd
  · simp only [Side.node, Level, if_pos hlt]
  · simp only [Side.node, Level, if_neg hlt, eq_comm]

theorem stuck_side (hd : sideOf key k w = d) : Stuck key k (d.node w p o h s) ↔
    p.height = o.height + 1 ∧ Level key k p ∧ HasRootKey key k p := by
  unfold sideOf at hd
  split_ifs at hd with hlt <;> subst hd
  · simp only [Side.node, Stuck, if_pos hlt]
  · simp only [Side.node, Stuck, if_neg hlt]

theorem stuckTwice_side (hd : sideOf key k w = d) : StuckTwice key k (d.node w p o h s) ↔
    p.height = o.height + 1 ∧ Stuck key k p ∧ HasRootKey key k p := by
  unfold sideOf at hd
  split_ifs at hd with hlt <;> subst hd
  · simp only [Side.node, StuckTwice, if_pos hlt]
  · simp only [Side.node, StuckTwice, if_neg hlt]

theorem rootKeyLt_side {d : Side} : RootKeyLt key k (d.node w p o h s) ↔ key w < k := by
  cases d <;> exact Iff.rfl

theorem unbalances_side (hd : sideOf key k w = d) : Unbalances key k (d.node w p o h s) ↔
    Stuck key k (d.node w p o h s) ∨ Unbalances key k p ∧ ¬ Repairs key k d p o := by
  unfold sideOf at hd
  split_ifs at hd with hlt <;> subst hd
  · simp only [Side.node, Unbalances, if_pos hlt]
  · simp only [Side.node, Unbalances, if_neg hlt]

theorem Level.grows {t : AvlTree α} (ht : Level key k t) : Grows key k t := by
  induction t using path_induction key k with
  | nil => trivial
  | node d w p o h s hd ih =>
      obtain ⟨heq, hp⟩ := (level_side hd).mp ht
      exact (grows_side hd).mpr ⟨heq.ge, fun hlean => by omega, ih hp⟩

theorem Stuck.grows {t : AvlTree α} (ht : Stuck key k t) : Grows key k t := by
  obtain ⟨d, w, p, o, h, s, hd, rfl⟩ := exists_path_node key k (t := t) (by rintro rfl; exact ht)
  obtain ⟨hlean, hp, hkey⟩ := (stuck_side hd).mp ht
  exact (grows_side hd).mpr ⟨by omega, fun _ => hkey, hp.grows⟩

theorem StuckTwice.grows {t : AvlTree α} (ht : StuckTwice key k t) : Grows key k t := by
  obtain ⟨d, w, p, o, h, s, hd, rfl⟩ := exists_path_node key k (t := t) (by rintro rfl; exact ht)
  obtain ⟨hlean, hp, hkey⟩ := (stuckTwice_side hd).mp ht
  exact (grows_side hd).mpr ⟨by omega, fun _ => hkey, hp.grows⟩

/-- Only a tree that grows without the rotation gives a rotation above it something to repair. -/
theorem Repairs.grows (hrep : Repairs key k d p o) : Grows key k p := by
  obtain ⟨-, -, hstuck | ⟨-, -, hstuck⟩⟩ := hrep
  · exact hstuck.grows
  · exact hstuck.grows

theorem Level.not_unbalances {t : AvlTree α} (ht : Level key k t) : ¬ Unbalances key k t := by
  induction t using path_induction key k with
  | nil => exact id
  | node d w p o h s hd ih =>
      obtain ⟨heq, hp⟩ := (level_side hd).mp ht
      rw [unbalances_side hd, stuck_side hd]
      intro hcase
      rcases hcase with ⟨hlean, -⟩ | ⟨hun, -⟩
      · omega
      · exact ih hp hun

/-- The lowest node that leans on the path of a tree that grows is stuck, and so is every one above
it. -/
theorem Grows.unbalances {t : AvlTree α} (havl : IsAvl t) (ht : Grows key k t)
    (hnot : ¬ Level key k t) : Unbalances key k t := by
  induction t using path_induction key k with
  | nil => exact absurd trivial hnot
  | node d w p o h s hd ih =>
      obtain ⟨hp, -, -, -, hhi⟩ := isAvl_side.mp havl
      obtain ⟨hle, hkey, hg⟩ := (grows_side hd).mp ht
      rw [level_side hd] at hnot
      rw [unbalances_side hd, stuck_side hd]
      by_cases hlevel : Level key k p
      · have hlean : p.height = o.height + 1 := by
          have hne : p.height ≠ o.height := fun heq => hnot ⟨heq, hlevel⟩
          omega
        exact .inl ⟨hlean, hlevel, hkey hlean⟩
      · exact .inr ⟨ih hp hg hlevel, fun hrep => hrep.2.1 (hkey hrep.1)⟩

theorem insert_nil_side (v : α) (d : Side) :
    insert key above below v nil = d.node v nil nil 1 1 := by
  cases d <;> rfl

omit [LinearOrder κ] in
theorem balanced_leaf (v : α) : Balanced (leaf v) :=
  ⟨trivial, trivial, by simp, by simp⟩

/-- Where an insertion rotates nothing, only a tree without a leaning node keeps its balance. -/
theorem balanced_insert_of_grows {v : α} {t : AvlTree α} (havl : IsAvl t)
    (ht : Grows key (key v) t) :
    Balanced (insert key above below v t) ↔ Level key (key v) t := by
  induction t using path_induction key (key v) with
  | nil => exact iff_of_true (balanced_leaf v) trivial
  | node d w p o h s hd ih =>
      obtain ⟨hp, ho, -, -, hhi⟩ := isAvl_side.mp havl
      obtain ⟨hle, hkey, hg⟩ := (grows_side hd).mp ht
      obtain ⟨hheight, hkeep⟩ := (insertHeight _ _ v hp).grows hg
      rw [level_side hd]
      rcases hle.lt_or_eq with hlean | heq
      · rw [insert_of_rootKey hd (by omega) (hkeep.hasRootKey (hkey (by omega))), balanced_side]
        constructor
        · intro hparts
          rcases hparts with ⟨-, -, -, hfar⟩
          omega
        · intro hparts
          rcases hparts with ⟨heq, -⟩
          omega
      · rw [insert_of_le hd (by omega) (by omega), balanced_side, ih hp hg]
        constructor
        · intro hparts
          rcases hparts with ⟨hlevel, -⟩
          exact ⟨heq.symm, hlevel⟩
        · intro hparts
          rcases hparts with ⟨-, hlevel⟩
          exact ⟨hlevel, ho.balanced, by omega, by omega⟩

/-- A node that is rotated because its child has got higher on the outside. -/
theorem balanced_insert_outer {v x : α} {q s' : AvlTree α} {h' : Int} {z : UInt64}
    (havl : IsAvl (d.node w (d.node x q s' h' z) o h s)) (hd : sideOf key (key v) w = d)
    (he : sideOf key (key v) x = d) (hne : key x ≠ key v) (hlean : h' = o.height + 1)
    (hg : Grows key (key v) (d.node x q s' h' z)) :
    Balanced (insert key above below v (d.node w (d.node x q s' h' z) o h s)) ↔
      Level key (key v) q := by
  obtain ⟨hp, ho, -, -, -⟩ := isAvl_side.mp havl
  obtain ⟨hq, hs, hh', -, hhi⟩ := isAvl_side.mp hp
  obtain ⟨hle, -, hgq⟩ := (grows_side he).mp hg
  obtain ⟨hheight, hkeep⟩ := (insertHeight _ _ v hp).grows hg
  obtain ⟨hheightq, -⟩ := (insertHeight above below v hq).grows hgq
  rw [height_side] at hheight
  have hexact : HeightsExact (insert key above below v _) := havl.heights.insert v
  obtain ⟨h₁, z₁, h₂, z₂, hrot⟩ :=
    insert_outer (o := o) (h := h) (z := s) hd he hne hkeep (by omega)
  rw [hrot] at hexact ⊢
  obtain ⟨-, hlow, -⟩ := heightsExact_side.mp hexact
  obtain ⟨-, -, hh₁⟩ := heightsExact_side.mp hlow
  rw [balanced_side, balanced_side, balanced_insert_of_grows hq hgq, height_side]
  constructor
  · intro hparts
    rcases hparts with ⟨hlevel, -⟩
    exact hlevel
  · intro hlevel
    exact ⟨hlevel, ⟨hs.balanced, ho.balanced, by omega, by omega⟩, by omega, by omega⟩

omit [LinearOrder κ] in
/-- The tree a double rotation leaves, by the heights of the four subtrees. -/
theorem balanced_rotated_inner {x y : α} {a b s' o : AvlTree α} {h₁ h₂ h₃ : Int}
    {z₁ z₂ z₃ : UInt64}
    (hexact : HeightsExact (d.node y (d.flip.node x a s' h₁ z₁) (d.node w b o h₂ z₂) h₃ z₃)) :
    Balanced (d.node y (d.flip.node x a s' h₁ z₁) (d.node w b o h₂ z₂) h₃ z₃) ↔
      (Balanced a ∧ Balanced s' ∧ -1 ≤ a.height - s'.height ∧ a.height - s'.height ≤ 1) ∧
      (Balanced b ∧ Balanced o ∧ -1 ≤ b.height - o.height ∧ b.height - o.height ≤ 1) ∧
      -1 ≤ max a.height s'.height - max b.height o.height ∧
      max a.height s'.height - max b.height o.height ≤ 1 := by
  obtain ⟨hinner, houter, -⟩ := heightsExact_side.mp hexact
  obtain ⟨-, -, hh₁⟩ := heightsExact_side.mp hinner
  obtain ⟨-, -, hh₂⟩ := heightsExact_side.mp houter
  rw [balanced_side, balanced_side, balanced_side, height_side, height_side, hh₁, hh₂,
    Int.add_sub_add_left]

/-- A node that is rotated because its child has got higher on the inside. -/
theorem balanced_insert_inner {v x : α} {q s' : AvlTree α} {h' : Int} {z : UInt64}
    (havl : IsAvl (d.node w (d.flip.node x q s' h' z) o h s)) (hd : sideOf key (key v) w = d)
    (he : sideOf key (key v) x = d.flip) (hne : key x ≠ key v) (hlean : h' = o.height + 1)
    (hg : Grows key (key v) (d.flip.node x q s' h' z)) :
    Balanced (insert key above below v (d.node w (d.flip.node x q s' h' z) o h s)) ↔
      Level key (key v) q ∨
        d = .left ∧ StuckTwice key (key v) (d.flip.node x q s' h' z) := by
  obtain ⟨hp, ho, -, -, -⟩ := isAvl_side.mp havl
  obtain ⟨hq, hs, hh', -, hhi⟩ := isAvl_side.mp hp
  obtain ⟨hle, hkey, hgq⟩ := (grows_side he).mp hg
  obtain ⟨hheight, hkeep⟩ := (insertHeight _ _ v hp).grows hg
  obtain ⟨hheightq, hkeepq⟩ := (insertHeight above below v hq).grows hgq
  rw [height_side] at hheight
  have hexact : HeightsExact (insert key above below v _) := havl.heights.insert v
  have hqne : insert key above below v q ≠ nil := insert_ne_nil v q
  rw [stuckTwice_side he]
  by_cases hnil : q = nil
  · subst hnil
    obtain ⟨h₁, z₁, h₂, z₂, h₃, z₃, hrot⟩ :=
      insert_inner (o := o) (h := h) (z := s) hd he hne hkeep (by omega) (insert_nil_side v d)
    rw [hrot] at hexact ⊢
    rw [balanced_rotated_inner hexact]
    refine iff_of_true ⟨⟨trivial, hs.balanced, ?_⟩, ⟨trivial, ho.balanced, ?_⟩, ?_⟩ (.inl trivial)
    all_goals
      have hs0 := hs.heights.height_nonneg
      rw [height_nil] at *
      omega
  · obtain ⟨f, y, a, b, h₀, z₀, hf, rfl⟩ := exists_path_node key (key v) hnil
    obtain ⟨h'', z'', hins⟩ := hkeepq f y a b h₀ z₀ rfl hf
    obtain ⟨ha, hb, hh₀, -, hhi'⟩ := isAvl_side.mp hq
    obtain ⟨hle', hkey', hga⟩ := (grows_side hf).mp hgq
    obtain ⟨hheighta, -⟩ := (insertHeight above below v ha).grows hga
    rw [level_side hf, stuck_side hf, hasRootKey_side]
    rw [hasRootKey_side] at hkey
    rw [height_side] at *
    by_cases hfd : f = d
    · subst hfd
      obtain ⟨h₁, z₁, h₂, z₂, h₃, z₃, hrot⟩ :=
        insert_inner (o := o) (h := h) (z := s) hd he hne hkeep (by omega) hins
      rw [hrot] at hexact ⊢
      rw [balanced_rotated_inner hexact, balanced_insert_of_grows ha hga]
      constructor
      · intro hparts
        rcases hparts with ⟨⟨hlevel, -⟩, ⟨-, -, hnear, -⟩, -⟩
        exact .inl ⟨by omega, hlevel⟩
      · intro hcase
        rcases hcase with ⟨heq, hlevel⟩ | ⟨hleft, -, -, hroot⟩
        · exact ⟨⟨hlevel, hs.balanced, by omega, by omega⟩, ⟨hb.balanced, ho.balanced, by omega,
            by omega⟩, by omega, by omega⟩
        · -- A node with the new key has the path on its right.
          rw [sideOf_of_eq hroot] at hf
          rw [← hf] at hleft
          cases hleft
    · obtain rfl : f = d.flip := by cases f <;> cases d <;> first | rfl | exact absurd rfl hfd
      obtain ⟨h₁, z₁, h₂, z₂, h₃, z₃, hrot⟩ :=
        insert_inner (o := o) (h := h) (z := s) hd he hne hkeep (by omega)
          (hins.trans (d.flip_node ..))
      rw [hrot] at hexact ⊢
      rw [balanced_rotated_inner hexact, balanced_insert_of_grows ha hga]
      constructor
      · intro hparts
        rcases hparts with ⟨⟨-, -, hnear, -⟩, ⟨hlevel, -⟩, -⟩
        by_cases heq : a.height = b.height
        · exact .inl ⟨heq, hlevel⟩
        · have hroot : key y = key v := hkey (by omega)
          refine .inr ⟨?_, by omega, ⟨by omega, hlevel, hkey' (by omega)⟩, hroot⟩
          rw [sideOf_of_eq hroot] at hf
          cases d
          · rfl
          · cases hf
      · intro hcase
        rcases hcase with ⟨heq, hlevel⟩ | ⟨-, hlow, ⟨hlean', hlevel, -⟩, -⟩
        · exact ⟨⟨hb.balanced, hs.balanced, by omega, by omega⟩, ⟨hlevel, ho.balanced, by omega,
            by omega⟩, by omega, by omega⟩
        · exact ⟨⟨hb.balanced, hs.balanced, by omega, by omega⟩, ⟨hlevel, ho.balanced, by omega,
            by omega⟩, by omega, by omega⟩

/-- The child of a node that is rotated is one that grows, so that it is level or out of balance,
and which of the trees out of balance the rotation repairs is seen by the sides of the path. -/
theorem balanced_insert_rotated {v : α} (havl : IsAvl (d.node w p o h s))
    (hd : sideOf key (key v) w = d) (hlean : p.height = o.height + 1)
    (hkey : ¬ HasRootKey key (key v) p) (hg : Grows key (key v) p) :
    Balanced (insert key above below v (d.node w p o h s)) ↔
      Level key (key v) p ∨ Repairs key (key v) d p o := by
  obtain ⟨hp, ho, -, -, -⟩ := isAvl_side.mp havl
  have ho0 := ho.heights.height_nonneg
  have hpne : p ≠ nil := ne_nil_of_height_pos (by omega)
  obtain ⟨e, x, q, s', h', z, he, rfl⟩ := exists_path_node key (key v) hpne
  obtain ⟨-, -, -, -, hhi⟩ := isAvl_side.mp hp
  obtain ⟨hle, hroot, -⟩ := (grows_side he).mp hg
  -- A level grandchild makes the child level or stuck, by its balance.
  have hlevel : Level key (key v) q ↔ Level key (key v) (e.node x q s' h' z) ∨
      Stuck key (key v) (e.node x q s' h' z) := by
    rw [level_side he, stuck_side he]
    constructor
    · intro hq
      rcases hle.lt_or_eq with hlt | heq
      · exact .inr ⟨by omega, hq, hroot (by omega)⟩
      · exact .inl ⟨heq.symm, hq⟩
    · intro hcase
      rcases hcase with ⟨-, hq⟩ | ⟨-, hq, -⟩
      · exact hq
      · exact hq
  rw [Repairs, and_iff_right hlean, and_iff_right hkey, ← or_assoc, ← hlevel, rootKeyLt_side]
  rw [hasRootKey_side] at hkey
  rw [height_side] at hlean
  by_cases hed : e = d
  · subst hed
    rw [balanced_insert_outer havl hd he hkey hlean hg]
    refine (or_iff_left ?_).symm
    intro hparts
    rcases hparts with ⟨rfl, hlt, -⟩
    rw [sideOf, if_neg hlt.not_gt] at he
    cases he
  · obtain rfl : e = d.flip := by cases e <;> cases d <;> first | rfl | exact absurd rfl hed
    rw [balanced_insert_inner havl hd he hkey hlean hg]
    refine or_congr_right (and_congr_right fun hleft => (and_iff_right ?_).symm)
    subst hleft
    by_contra hnot
    rw [sideOf, if_pos (lt_of_le_of_ne (not_lt.mp hnot) (Ne.symm hkey))] at he
    cases he

/-- An AVL tree stays balanced under an insertion unless a node on the path is stuck and no
rotation above repairs it. -/
theorem balanced_insert_iff (v : α) {t : AvlTree α} (havl : IsAvl t) :
    Balanced (insert key above below v t) ↔ ¬ Unbalances key (key v) t := by
  induction t using path_induction key (key v) with
  | nil => exact iff_of_true (balanced_leaf v) id
  | node d w p o h s hd ih =>
      obtain ⟨hp, ho, -, hlo, hhi⟩ := isAvl_side.mp havl
      rw [unbalances_side hd, stuck_side hd]
      by_cases hg : Grows key (key v) p
      · obtain ⟨hheight, hkeep⟩ := (insertHeight _ _ v hp).grows hg
        rcases lt_or_ge o.height p.height with hlean | hle
        · by_cases hkey : HasRootKey key (key v) p
          · rw [insert_of_rootKey hd (by omega) (hkeep.hasRootKey hkey), balanced_side]
            refine iff_of_false (fun hbal => ?_) (not_not.mpr ?_)
            · obtain ⟨-, -, -, hfar⟩ := hbal
              omega
            · by_cases hlevel : Level key (key v) p
              · exact .inl ⟨by omega, hlevel, hkey⟩
              · exact .inr ⟨hg.unbalances hp hlevel, fun hrep => hrep.2.1 hkey⟩
          · rw [balanced_insert_rotated havl hd (by omega) hkey hg]
            constructor
            · rintro (hlevel | hrep) (⟨-, -, hroot⟩ | ⟨hun, hnot⟩)
              · exact hkey hroot
              · exact hlevel.not_unbalances hun
              · exact hkey hroot
              · exact hnot hrep
            · intro hbal
              by_contra hnot
              obtain ⟨hlevel, hrep⟩ := not_or.mp hnot
              exact hbal (.inr ⟨hg.unbalances hp hlevel, hrep⟩)
        · have hstuck : ¬ (p.height = o.height + 1 ∧ Level key (key v) p ∧
              HasRootKey key (key v) p) := fun hc => by omega
          have hrep : ¬ Repairs key (key v) d p o := fun hc => by
            have hlean := hc.1
            omega
          rw [insert_of_le hd (by omega) (by omega), balanced_side, ih hp, or_iff_right hstuck,
            and_iff_left hrep]
          exact and_iff_left ⟨ho.balanced, by omega, by omega⟩
      · have hheight := (insertHeight above below v hp).same hg
        have hstuck : ¬ (p.height = o.height + 1 ∧ Level key (key v) p ∧
            HasRootKey key (key v) p) := fun hc => hg hc.2.1.grows
        have hrep : ¬ Repairs key (key v) d p o := fun hc => hg hc.grows
        rw [insert_of_le hd (by omega) (by omega), balanced_side, ih hp, or_iff_right hstuck,
          and_iff_left hrep]
        exact and_iff_left ⟨ho.balanced, by omega, by omega⟩

end Unbalances

end ParcoachRma.AvlTree
