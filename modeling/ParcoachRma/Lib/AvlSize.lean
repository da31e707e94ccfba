import ParcoachRma.Lib.AvlDelete
import Mathlib.Algebra.Ring.Nat

/-!
# The size cached at the root

An insertion adds one to the sizes on its way down, a deletion leaves the sizes on its way to
`resize`, and rotations move nodes with the sizes they have.  So the size at the root is kept right
by what is done to the root alone, as long as no rotation brings another node up.

* `insertBelow`, `deleteBelow`: an operation before the rebalancing of the root.
* `sizeRight_insert_iff`: an insertion that does not rotate the root counts.
* `Sorted.sizeRight_delete_id_iff`, `Sorted.sizeRight_delete_pred_iff`: which deletions leave the
  size right that do not rotate the root, where they leave the sizes as they are and where they take
  one off.
-/

namespace ParcoachRma.AvlTree

variable {α κ : Type*}

/-- The cached size, 0 for the empty tree. -/
def treeSize : AvlTree α → UInt64
  | nil => 0
  | node _ _ _ _ s => s

/-- The size cached at the root is the number of nodes. -/
def SizeRight (t : AvlTree α) : Prop := t.treeSize.toNat = t.numNodes

instance (t : AvlTree α) : Decidable (SizeRight t) := inferInstanceAs (Decidable (_ = _))

theorem sizeRight_nil : SizeRight (nil : AvlTree α) := rfl

theorem numNodes_eq_of_toList_eq {t u : AvlTree α} (h : t.toList = u.toList) :
    t.numNodes = u.numNodes := by
  rw [← length_toList, h, length_toList]

/-- The other child of a root that lacks one. -/
def loneChild : AvlTree α → AvlTree α
  | nil => nil
  | node _ l r _ _ => if l.isNil then r else l

/-- The children of the root differ in height by more than one. -/
def Leans : AvlTree α → Prop
  | nil => False
  | node _ l r _ _ => l.height - r.height > 1 ∨ l.height - r.height < -1

instance : (t : AvlTree α) → Decidable (Leans t)
  | nil => inferInstanceAs (Decidable False)
  | node .. => inferInstanceAs (Decidable (_ ∨ _))

theorem rebalanceDelete_of_not_leans {resize : UInt64 → UInt64} {v : α} {l r : AvlTree α}
    {h : Int} {s : UInt64} (hleans : ¬ Leans (node v l r h s)) :
    rebalanceDelete resize (node v l r h s) =
      node v l r (1 + max l.height r.height) (resize s) := by
  rcases not_or.mp hleans with ⟨hleft, hright⟩
  simp only [rebalanceDelete, getBalance, hleft, hright, false_and, if_false]

variable [LinearOrder κ] {key : α → κ} {above below k : κ} {resize : UInt64 → UInt64} {v : α}
  {t : AvlTree α}

/-- The root leans to a side whose child has another key than the new one. -/
def RotatesInsert (key : α → κ) (k above below : κ) : AvlTree α → Prop
  | nil => False
  | node _ l r _ _ =>
      l.height - r.height > 1 ∧ l.rootKeyD key above ≠ k ∨
        l.height - r.height < -1 ∧ r.rootKeyD key below ≠ k

instance (key : α → κ) (k above below : κ) :
    (t : AvlTree α) → Decidable (RotatesInsert key k above below t)
  | nil => inferInstanceAs (Decidable False)
  | node .. => inferInstanceAs (Decidable (_ ∨ _))

theorem rebalanceInsert_of_not_rotates (hrot : ¬ RotatesInsert key k above below t) :
    rebalanceInsert key k above below t = t := by
  cases t with
  | nil => rfl
  | node v l r h s =>
      rcases not_or.mp hrot with ⟨hleft, hright⟩
      rw [rebalanceInsert]
      apply (if_neg fun hguard => hleft ⟨hguard.1, hguard.2.ne'⟩).trans
      apply (if_neg fun hguard => hright ⟨hguard.1, hguard.2.ne⟩).trans
      apply (if_neg fun hguard => hleft ⟨hguard.1, hguard.2.ne⟩).trans
      exact if_neg fun hguard => hright ⟨hguard.1, hguard.2.ne'⟩

omit [LinearOrder κ] in
theorem not_rotatesInsert_leaf : ¬ RotatesInsert key k above below (leaf v) := by
  intro hrot
  have hlevel : (nil : AvlTree α).height - (nil : AvlTree α).height = 0 := rfl
  rcases hrot with ⟨hleft, -⟩ | ⟨hright, -⟩
  · rw [hlevel] at hleft
    omega
  · rw [hlevel] at hright
    omega

/-! ## Insertion -/

/-- The tree with the value inserted below its root, which is not rebalanced yet. -/
def insertBelow (key : α → κ) (above below : κ) (v : α) : AvlTree α → AvlTree α
  | nil => leaf v
  | node w l r _ s =>
      if key v < key w then
        let l' := insert key above below v l
        node w l' r (1 + max l'.height r.height) (1 + s)
      else
        let r' := insert key above below v r
        node w l r' (1 + max l.height r'.height) (1 + s)

theorem insert_eq_rebalanceInsert (v : α) (t : AvlTree α) :
    insert key above below v t =
      rebalanceInsert key (key v) above below (insertBelow key above below v t) := by
  cases t with
  | nil => exact (rebalanceInsert_of_not_rotates not_rotatesInsert_leaf).symm
  | node w l r h s =>
      simp only [insert, insertBelow]
      split_ifs <;> rfl

theorem treeSize_insertBelow (v : α) (t : AvlTree α) :
    (insertBelow key above below v t).treeSize = 1 + t.treeSize := by
  cases t with
  | nil => rfl
  | node w l r h s =>
      simp only [insertBelow]
      split_ifs <;> rfl

theorem numNodes_insert (v : α) (t : AvlTree α) :
    (insert key above below v t).numNodes = t.numNodes + 1 := by
  rw [← length_toList, (toList_insert_perm v t).length_eq, List.length_cons, length_toList]

/-- An insertion that does not rotate the root counts one more, which is right as long as the count
does not overflow. -/
theorem sizeRight_insert_iff (ht : SizeRight t)
    (hrot : ¬ RotatesInsert key (key v) above below (insertBelow key above below v t)) :
    SizeRight (insert key above below v t) ↔ t.numNodes + 1 < 2 ^ 64 := by
  have hsize : (insert key above below v t).treeSize = 1 + t.treeSize := by
    rw [insert_eq_rebalanceInsert, rebalanceInsert_of_not_rotates hrot, treeSize_insertBelow]
  unfold SizeRight at *
  have hlt : t.treeSize.toNat < 2 ^ 64 := t.treeSize.toNat_lt
  rw [hsize, numNodes_insert, UInt64.toNat_add, UInt64.toNat_one]
  omega

/-! ## Deletion -/

/-- The tree with the key deleted below its root, or with the root replaced by its lone child,
before it is rebalanced. -/
def deleteBelow (key : α → κ) (resize : UInt64 → UInt64) (k : κ) : AvlTree α → AvlTree α
  | nil => nil
  | node v l r h s =>
      if k < key v then node v (delete key resize k l) r h s
      else if key v < k then node v l (delete key resize k r) h s
      else if l.isNil || r.isNil then if l.isNil then r else l
      else
        let m := minValueNode v r
        node m l (delete key resize (key m) r) h s

theorem delete_eq_rebalanceDelete (k : κ) (t : AvlTree α) :
    delete key resize k t = rebalanceDelete resize (deleteBelow key resize k t) := by
  cases t with
  | nil => rfl
  | node v l r h s =>
      simp only [delete, deleteBelow]
      split_ifs <;> rfl

/-- The root has the key and lacks a child. -/
def RootGoes (key : α → κ) (k : κ) : AvlTree α → Prop
  | nil => False
  | node v l r _ _ => key v = k ∧ (l = nil ∨ r = nil)

theorem deleteBelow_of_rootGoes (hgoes : RootGoes key k t) :
    deleteBelow key resize k t = t.loneChild := by
  cases t with
  | nil => exact hgoes.elim
  | node v l r h s =>
      rcases hgoes with ⟨rfl, hnil⟩
      have hlack : (l.isNil || r.isNil) = true := by simpa [isNil_iff] using hnil
      simp [deleteBelow, hlack, loneChild]

/-- A root that stays keeps its size until it is rebalanced. -/
theorem exists_deleteBelow {w : α} {l r : AvlTree α} {h : Int} {s : UInt64}
    (hstays : ¬ RootGoes key k (node w l r h s)) :
    ∃ w' l' r' h', deleteBelow key resize k (node w l r h s) = node w' l' r' h' s := by
  rw [deleteBelow]
  split_ifs with hlt hgt hlack hnil
  · exact ⟨_, _, _, _, rfl⟩
  · exact ⟨_, _, _, _, rfl⟩
  · exact absurd ⟨le_antisymm (not_lt.mp hlt) (not_lt.mp hgt),
      .inl (isNil_iff.mp hnil)⟩ hstays
  · refine absurd ⟨le_antisymm (not_lt.mp hlt) (not_lt.mp hgt), .inr (isNil_iff.mp ?_)⟩ hstays
    simpa [hnil] using hlack
  · exact ⟨_, _, _, _, rfl⟩

theorem numNodes_deleteBelow (k : κ) (t : AvlTree α) :
    (deleteBelow key resize k t).numNodes = (delete key resize k t).numNodes := by
  apply numNodes_eq_of_toList_eq
  rw [delete_eq_rebalanceDelete, toList_rebalanceDelete]

/-- The size at the root after a deletion that does not rotate it. -/
theorem treeSize_delete (hleans : ¬ Leans (deleteBelow key resize k t))
    (hne : deleteBelow key resize k t ≠ nil) :
    (delete key resize k t).treeSize = resize (deleteBelow key resize k t).treeSize := by
  rw [delete_eq_rebalanceDelete]
  cases hbelow : deleteBelow key resize k t with
  | nil => exact absurd hbelow hne
  | node w l r h s =>
      rw [hbelow] at hleans
      rw [rebalanceDelete_of_not_leans hleans]
      rfl

/-- Where the root goes, the lone child brings its own size. -/
theorem sizeRight_delete_of_rootGoes (hgoes : RootGoes key k t)
    (hleans : ¬ Leans (deleteBelow key resize k t)) :
    SizeRight (delete key resize k t) ↔
      t.loneChild = nil ∨ (resize t.loneChild.treeSize).toNat = t.loneChild.numNodes := by
  have hbelow : deleteBelow key resize k t = t.loneChild := deleteBelow_of_rootGoes hgoes
  by_cases hnil : t.loneChild = nil
  · rw [delete_eq_rebalanceDelete, hbelow, hnil]
    exact iff_of_true sizeRight_nil (.inl rfl)
  · rw [SizeRight, treeSize_delete hleans (hbelow ▸ hnil), ← numNodes_deleteBelow, hbelow,
      or_iff_right hnil]

/-- Where the root stays, it keeps its size but for `resize`. -/
theorem sizeRight_delete_of_rootStays (hne : t ≠ nil) (hstays : ¬ RootGoes key k t)
    (hleans : ¬ Leans (deleteBelow key resize k t)) :
    SizeRight (delete key resize k t) ↔
      (resize t.treeSize).toNat = (delete key resize k t).numNodes := by
  cases t with
  | nil => exact absurd rfl hne
  | node w l r h s =>
      obtain ⟨w', l', r', h', hbelow⟩ : ∃ w' l' r' h',
          deleteBelow key resize k (node w l r h s) = node w' l' r' h' s :=
        exists_deleteBelow hstays
      rw [SizeRight, treeSize_delete hleans (hbelow ▸ by simp), hbelow]
      rfl

omit [LinearOrder κ] in
theorem RootGoes.mem_keys (hgoes : RootGoes key k t) : k ∈ keys key t := by
  cases t with
  | nil => exact hgoes.elim
  | node w l r h s => exact AvlTree.mem_keys.mpr ⟨w, by simp, hgoes.1⟩

/-- On a sorted tree a deletion takes out one node if there is one with the key. -/
theorem Sorted.numNodes_delete_eq (hs : Sorted key t) (k : κ) :
    (AvlTree.delete key resize k t).numNodes = t.numNodes - (if k ∈ keys key t then 1 else 0) := by
  split_ifs with hk
  · obtain ⟨x, hx, rfl⟩ := AvlTree.mem_keys.mp hk
    have hdel : t.numNodes = (AvlTree.delete key resize (key x) t).numNodes + 1 :=
      hs.numNodes_delete hx
    rw [hdel]
    rfl
  · exact numNodes_eq_of_toList_eq
      (toList_delete_of_lookup_eq_none (lookup_eq_none_of_notMem hk))

/-- Where deletions leave the sizes as they are, the size stays right if nothing is taken out, or if
the root is replaced by a child with the right size. -/
theorem Sorted.sizeRight_delete_id_iff (hs : Sorted key t) (ht : SizeRight t)
    (hleans : ¬ Leans (deleteBelow key id k t)) :
    SizeRight (AvlTree.delete key id k t) ↔
      k ∉ keys key t ∨ RootGoes key k t ∧ SizeRight t.loneChild := by
  by_cases hgoes : RootGoes key k t
  · rw [sizeRight_delete_of_rootGoes hgoes hleans, or_iff_right (not_not.mpr hgoes.mem_keys),
      and_iff_right hgoes]
    constructor
    · intro hright
      rcases hright with hnil | hright
      · rw [hnil]
        exact sizeRight_nil
      · exact hright
    · exact .inr
  · rw [or_iff_left fun h => hgoes h.1]
    cases t with
    | nil => exact iff_of_true sizeRight_nil fun hk => absurd hk (Multiset.notMem_zero k)
    | node w l r h s =>
        rw [sizeRight_delete_of_rootStays (by simp) hgoes hleans, hs.numNodes_delete_eq, id, ht]
        constructor
        · intro hsame hk
          rw [if_pos hk] at hsame
          simp only [numNodes] at hsame
          omega
        · intro hk
          rw [if_neg hk, Nat.sub_zero]

omit [LinearOrder κ] in
theorem numNodes_loneChild (hgoes : RootGoes key k t) :
    t.loneChild.numNodes + 1 = t.numNodes := by
  cases t with
  | nil => exact hgoes.elim
  | node w l r h s =>
      rcases hgoes with ⟨-, rfl | rfl⟩
      · simp [loneChild, isNil, numNodes, Nat.add_comm]
      · cases l <;> simp [loneChild, isNil, numNodes]

/-- Where deletions take one off, the size stays right if the tree is empty, if a node is taken out
and the root stays, or if the root is replaced by no node or by a child that counts one more than it
has. -/
theorem Sorted.sizeRight_delete_pred_iff (hs : Sorted key t) (ht : SizeRight t)
    (hleans : ¬ Leans (deleteBelow key (· - 1) k t)) :
    SizeRight (AvlTree.delete key (· - 1) k t) ↔
      t = nil ∨ k ∈ keys key t ∧ (RootGoes key k t → t.loneChild = nil ∨
        t.loneChild.treeSize.toNat = t.loneChild.numNodes + 1) := by
  have hlt : t.treeSize.toNat < 2 ^ 64 := t.treeSize.toNat_lt
  by_cases hgoes : RootGoes key k t
  · have hlone := numNodes_loneChild hgoes
    have hpred : (t.loneChild.treeSize - 1).toNat = t.loneChild.numNodes ↔
        t.loneChild.treeSize.toNat = t.loneChild.numNodes + 1 := by
      have hlt' : t.loneChild.treeSize.toNat < 2 ^ 64 := t.loneChild.treeSize.toNat_lt
      rw [UInt64.toNat_sub, UInt64.toNat_one]
      unfold SizeRight at ht
      omega
    have hne : t ≠ nil := by
      rintro rfl
      exact hgoes
    rw [sizeRight_delete_of_rootGoes hgoes hleans, hpred, or_iff_right hne,
      and_iff_right hgoes.mem_keys, imp_iff_right hgoes]
  · cases t with
    | nil => exact iff_of_true sizeRight_nil (.inl rfl)
    | node w l r h s =>
        have hpos : 0 < (node w l r h s).numNodes := by
          rw [numNodes]
          omega
        rw [sizeRight_delete_of_rootStays (by simp) hgoes hleans, hs.numNodes_delete_eq,
          or_iff_right (by simp), and_iff_left fun h => absurd h hgoes, UInt64.toNat_sub,
          UInt64.toNat_one]
        unfold SizeRight at ht
        split_ifs with hk
        · exact iff_of_true (by omega) hk
        · exact iff_of_false (by omega) hk

end ParcoachRma.AvlTree
