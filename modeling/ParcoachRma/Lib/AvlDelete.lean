import ParcoachRma.Lib.AvlTree
import Mathlib.Data.List.Nodup
import Mathlib.Data.Multiset.Sort

/-!
# Deletion by key

What `AvlTree.delete` takes out of a tree with repeated keys.

* On a sorted tree the keys are right: `keys_delete_perm` loses one occurrence of the key, so
  deleting the root by its own key empties a sorted tree in as many rounds as it has nodes
  (`freeLoop_numNodes`).
* The values need not be: `DeletesOnly v t` is the exact condition under which deleting the key of
  `v` takes out `v` itself and nothing else (`perm_delete_iff`).
-/

namespace ParcoachRma.AvlTree

variable {α κ : Type*} [LinearOrder κ] {key : α → κ} {resize : UInt64 → UInt64}

/-! ## The leftmost value -/

theorem exists_toList_eq_minValueNode (v : α) {t : AvlTree α} (ht : t ≠ nil) :
    ∃ tl, t.toList = minValueNode v t :: tl := by
  induction t generalizing v with
  | nil => exact absurd rfl ht
  | node w l r h s ihl _ =>
      cases l with
      | nil => exact ⟨r.toList, rfl⟩
      | node v' l' r' h' s' =>
          obtain ⟨tl, htl⟩ := ihl w (by simp)
          exact ⟨tl ++ w :: r.toList, by rw [toList_node, htl]; rfl⟩

theorem minValueNode_mem (v : α) {t : AvlTree α} (ht : t ≠ nil) :
    minValueNode v t ∈ t.toList := by
  obtain ⟨tl, htl⟩ := exists_toList_eq_minValueNode v ht
  rw [htl]
  exact List.mem_cons_self

theorem Sorted.minValueNode_le {t : AvlTree α} (hs : Sorted key t) (v : α) {x : α}
    (hx : x ∈ t.toList) : key (minValueNode v t) ≤ key x := by
  have ht : t ≠ nil := by rintro rfl; simp at hx
  obtain ⟨tl, htl⟩ := exists_toList_eq_minValueNode v ht
  rw [Sorted, htl, List.pairwise_cons] at hs
  rw [htl, List.mem_cons] at hx
  rcases hx with rfl | hx
  · exact le_rfl
  · exact hs.1 x hx

/-! ## The three ways down -/

theorem toList_delete_of_lt {k : κ} {v : α} {l r : AvlTree α} {h : Int} {s : UInt64}
    (hlt : k < key v) : (delete key resize k (node v l r h s)).toList =
      (delete key resize k l).toList ++ v :: r.toList := by
  simp [delete, hlt]

theorem toList_delete_of_gt {k : κ} {v : α} {l r : AvlTree α} {h : Int} {s : UInt64}
    (hgt : key v < k) : (delete key resize k (node v l r h s)).toList =
      l.toList ++ v :: (delete key resize k r).toList := by
  simp [delete, hgt, hgt.not_gt]

/-- At a node with the key and a missing child, the node is what goes. -/
theorem toList_delete_of_eq_of_nil {v : α} {l r : AvlTree α} {h : Int} {s : UInt64}
    (hnil : l = nil ∨ r = nil) :
    (delete key resize (key v) (node v l r h s)).toList = l.toList ++ r.toList := by
  rcases hnil with rfl | rfl
  · simp [delete, isNil]
  · cases l <;> simp [delete, isNil]

/-- At a node with the key and two children, the leftmost value of the right side takes its
place and its key is deleted on the right. -/
theorem toList_delete_of_eq {v : α} {l r : AvlTree α} {h : Int} {s : UInt64}
    (hl : l ≠ nil) (hr : r ≠ nil) :
    (delete key resize (key v) (node v l r h s)).toList =
      l.toList ++ minValueNode v r ::
        (delete key resize (key (minValueNode v r)) r).toList := by
  have hnil : (l.isNil || r.isNil) = false := by
    simp [Bool.eq_false_iff, isNil_iff, hl, hr]
  simp [delete, hnil]

/-- Deletion invents no values. -/
theorem mem_of_mem_delete {k : κ} {t : AvlTree α} {x : α}
    (hx : x ∈ (delete key resize k t).toList) : x ∈ t.toList := by
  induction t generalizing k with
  | nil => simp [delete] at hx
  | node v l r h s ihl ihr =>
      rw [toList_node, List.mem_append, List.mem_cons]
      rcases lt_trichotomy k (key v) with hlt | rfl | hgt
      · rw [toList_delete_of_lt hlt, List.mem_append, List.mem_cons] at hx
        exact hx.imp_left ihl
      · by_cases hnil : l = nil ∨ r = nil
        · rw [toList_delete_of_eq_of_nil hnil, List.mem_append] at hx
          exact hx.imp_right .inr
        · obtain ⟨hl, hr⟩ := not_or.mp hnil
          rw [toList_delete_of_eq hl hr, List.mem_append, List.mem_cons] at hx
          rcases hx with hx | rfl | hx
          · exact .inl hx
          · exact .inr (.inr (minValueNode_mem v hr))
          · exact .inr (.inr (ihr hx))
      · rw [toList_delete_of_gt hgt, List.mem_append, List.mem_cons] at hx
        exact hx.imp_right fun hx => hx.imp_right ihr

theorem Sorted.delete {t : AvlTree α} (ht : Sorted key t) (k : κ) :
    Sorted key (delete key resize k t) := by
  induction t generalizing k with
  | nil => exact ht
  | node v l r h s ihl ihr =>
      obtain ⟨hl, hr, hlv, hvr⟩ := sorted_node.mp ht
      rcases lt_trichotomy k (key v) with hlt | rfl | hgt
      · have hnode : Sorted key (node v (AvlTree.delete key resize k l) r h s) :=
          sorted_node.mpr ⟨ihl hl k, hr, fun x hx => hlv x (mem_of_mem_delete hx), hvr⟩
        exact hnode.of_toList_eq (toList_delete_of_lt hlt)
      · by_cases hnil : l = nil ∨ r = nil
        · rw [Sorted, toList_delete_of_eq_of_nil hnil]
          exact List.Pairwise.sublist (by simp) ht
        · obtain ⟨hln, hrn⟩ := not_or.mp hnil
          have hmem := minValueNode_mem v hrn
          have hnode : Sorted key (node (minValueNode v r) l
              (AvlTree.delete key resize (key (minValueNode v r)) r) h s) :=
            sorted_node.mpr ⟨hl, ihr hr _, fun x hx => (hlv x hx).trans (hvr _ hmem),
              fun x hx => hr.minValueNode_le v (mem_of_mem_delete hx)⟩
          exact hnode.of_toList_eq (toList_delete_of_eq hln hrn)
      · have hnode : Sorted key (node v l (AvlTree.delete key resize k r) h s) :=
          sorted_node.mpr ⟨hl, ihr hr k, hlv, fun x hx => hvr x (mem_of_mem_delete hx)⟩
        exact hnode.of_toList_eq (toList_delete_of_gt hgt)

/-! ## Lookup -/

theorem mem_of_lookup {k : κ} {t : AvlTree α} {v : α} (h : lookup key k t = some v) :
    v ∈ t.toList ∧ key v = k := by
  induction t with
  | nil => simp [lookup] at h
  | node w l r _ _ ihl ihr =>
      simp only [lookup] at h
      split_ifs at h with heq hlt
      · cases h
        exact ⟨by simp, heq.symm⟩
      · exact (ihl h).imp_left fun hv => by simp [hv]
      · exact (ihr h).imp_left fun hv => by simp [hv]

/-- The search order leads a lookup to some value with the key. -/
theorem Sorted.exists_lookup {t : AvlTree α} (ht : Sorted key t) {x : α} (hx : x ∈ t.toList) :
    ∃ v, lookup key (key x) t = some v := by
  induction t with
  | nil => simp at hx
  | node w l r _ _ ihl ihr =>
      obtain ⟨hl, hr, hlw, hwr⟩ := sorted_node.mp ht
      rw [toList_node, List.mem_append, List.mem_cons] at hx
      simp only [lookup]
      split_ifs with heq hlt
      · exact ⟨w, rfl⟩
      · rcases hx with hx | rfl | hx
        · exact ihl hl hx
        · exact absurd rfl heq
        · exact absurd hlt (hwr x hx).not_gt
      · rcases hx with hx | rfl | hx
        · exact absurd (lt_of_le_of_ne (hlw x hx) heq) hlt
        · exact absurd rfl heq
        · exact ihr hr hx

/-! ## The keys that are left -/

/-- An absent key takes nothing out. -/
theorem toList_delete_of_lookup_eq_none {k : κ} {t : AvlTree α} (h : lookup key k t = none) :
    (delete key resize k t).toList = t.toList := by
  induction t with
  | nil => rfl
  | node v l r _ _ ihl ihr =>
      simp only [lookup] at h
      split_ifs at h with heq hlt
      · rw [toList_delete_of_lt hlt, ihl h, toList_node]
      · rw [toList_delete_of_gt (lt_of_le_of_ne (not_lt.mp hlt) (Ne.symm heq)), ihr h, toList_node]

/-- On a sorted tree the deletion of a present key takes out one occurrence of that key. -/
theorem Sorted.keys_delete_perm {t : AvlTree α} (ht : Sorted key t) {x : α}
    (hx : x ∈ t.toList) :
    (t.toList.map key).Perm (key x :: (AvlTree.delete key resize (key x) t).toList.map key) := by
  induction t generalizing x with
  | nil => simp at hx
  | node v l r h s ihl ihr =>
      obtain ⟨hl, hr, hlv, hvr⟩ := sorted_node.mp ht
      rw [toList_node, List.mem_append, List.mem_cons] at hx
      rcases lt_trichotomy (key x) (key v) with hlt | heq | hgt
      · have hxl : x ∈ l.toList := by
          rcases hx with hx | rfl | hx
          · exact hx
          · exact absurd rfl hlt.ne
          · exact absurd hlt (hvr x hx).not_gt
        rw [toList_delete_of_lt hlt]
        simpa using (ihl hl hxl).append_right (key v :: r.toList.map key)
      · rw [heq]
        by_cases hnil : l = nil ∨ r = nil
        · rw [toList_delete_of_eq_of_nil hnil]
          simp
        · obtain ⟨hln, hrn⟩ := not_or.mp hnil
          rw [toList_delete_of_eq hln hrn]
          have hrest := ihr hr (minValueNode_mem v hrn)
          simp only [toList_node, List.map_append, List.map_cons]
          exact List.perm_middle.trans ((hrest.append_left _).cons _)
      · have hxr : x ∈ r.toList := by
          rcases hx with hx | rfl | hx
          · exact absurd hgt (hlv x hx).not_gt
          · exact absurd rfl hgt.ne
          · exact hx
        rw [toList_delete_of_gt hgt]
        simp only [toList_node, List.map_append, List.map_cons]
        exact (((ihr hr hxr).cons _).append_left _).trans
          (((List.Perm.swap _ _ _).append_left _).trans List.perm_middle)

/-! ## The keys of a tree -/

/-- The keys of the values, each as often as it occurs. -/
def keys (key : α → κ) (t : AvlTree α) : Multiset κ := t.toList.map key

omit [LinearOrder κ] in
theorem mem_keys {k : κ} {t : AvlTree α} : k ∈ keys key t ↔ ∃ x ∈ t.toList, key x = k := by
  rw [keys, Multiset.mem_coe, List.mem_map]

theorem lookup_eq_none_of_notMem {k : κ} {t : AvlTree α} (hk : k ∉ keys key t) :
    lookup key k t = none := by
  refine Option.eq_none_iff_forall_ne_some.mpr fun v hv => hk ?_
  exact mem_keys.mpr ⟨v, mem_of_lookup hv⟩

theorem keys_insert {above below : κ} (v : α) (t : AvlTree α) :
    keys key (insert key above below v t) = key v ::ₘ keys key t :=
  Multiset.coe_eq_coe.mpr ((toList_insert_perm v t).map key)

/-- A deletion erases one occurrence of the key, or nothing if there is none. -/
theorem Sorted.keys_delete {t : AvlTree α} (ht : Sorted key t) (k : κ) :
    keys key (AvlTree.delete key resize k t) = (keys key t).erase k := by
  by_cases hk : k ∈ keys key t
  · obtain ⟨x, hx, rfl⟩ := mem_keys.mp hk
    have hperm : keys key t = key x ::ₘ keys key (AvlTree.delete key resize (key x) t) :=
      Multiset.coe_eq_coe.mpr (ht.keys_delete_perm hx)
    rw [hperm, Multiset.erase_cons_head]
  · rw [Multiset.erase_of_notMem hk, keys,
      toList_delete_of_lookup_eq_none (lookup_eq_none_of_notMem hk), keys]

/-- On a sorted tree the traversal meets the keys in the order of their sorted multiset. -/
theorem Sorted.map_toList {t : AvlTree α} (ht : Sorted key t) :
    t.toList.map key = (keys key t).sort := by
  refine List.Perm.eq_of_pairwise' (r := (· ≤ ·)) (List.pairwise_map.mpr ht)
    (Multiset.pairwise_sort _ _) (Multiset.coe_eq_coe.mp (Multiset.sort_eq _ _).symm)

theorem Sorted.numNodes_delete {t : AvlTree α} (ht : Sorted key t) {x : α}
    (hx : x ∈ t.toList) :
    t.numNodes = (AvlTree.delete key resize (key x) t).numNodes + 1 := by
  have hkeys : (t.toList.map key).Perm
      (key x :: (AvlTree.delete key resize (key x) t).toList.map key) := ht.keys_delete_perm hx
  simpa [length_toList] using hkeys.length_eq

/-- A tree that has been freed is empty. -/
theorem eq_nil_of_freeLoop {n : Nat} {t u : AvlTree α} (h : freeLoop key resize n t = some u) :
    u = nil := by
  induction n generalizing t with
  | zero =>
      cases t with
      | nil => exact (Option.some.inj h).symm
      | node => cases h
  | succ n ih =>
      cases t with
      | nil => exact (Option.some.inj h).symm
      | node => exact ih h

/-- One round of freeing: the root goes by its own key. -/
def freeRound (key : α → κ) (resize : UInt64 → UInt64) : AvlTree α → AvlTree α
  | nil => nil
  | node v l r h s => delete key resize (key v) (node v l r h s)

theorem freeLoop_succ (n : Nat) (t : AvlTree α) :
    freeLoop key resize (n + 1) t = freeLoop key resize n (freeRound key resize t) := by
  cases t with
  | nil => cases n <;> rfl
  | node v l r h s => rfl

theorem Sorted.freeRound {t : AvlTree α} (ht : Sorted key t) :
    Sorted key (freeRound key resize t) := by
  cases t with
  | nil => exact ht
  | node v l r h s => exact ht.delete _

/-- In a sorted tree the deletion by the key of the root finds a node to take out. -/
theorem Sorted.numNodes_freeRound {t : AvlTree α} (ht : Sorted key t) :
    (AvlTree.freeRound key resize t).numNodes = t.numNodes - 1 := by
  cases t with
  | nil => rfl
  | node v l r h s =>
      have hdel : (node v l r h s).numNodes =
          (AvlTree.delete key resize (key v) (node v l r h s)).numNodes + 1 :=
        ht.numNodes_delete (by simp)
      rw [hdel]
      rfl

theorem Sorted.numNodes_iterate_freeRound {t : AvlTree α} (ht : Sorted key t) (n : Nat) :
    ((AvlTree.freeRound key resize)^[n] t).numNodes = t.numNodes - n := by
  induction n generalizing t with
  | zero => rfl
  | succ n ih =>
      rw [Function.iterate_succ_apply, ih ht.freeRound, ht.numNodes_freeRound]
      omega

/-- Freeing a sorted tree ends within `n` rounds exactly if there are no more nodes than that, and
it ends with the empty tree. -/
theorem Sorted.freeLoop_eq_some_iff {t u : AvlTree α} (ht : Sorted key t) {n : Nat} :
    freeLoop key resize n t = some u ↔ u = nil ∧ t.numNodes ≤ n := by
  induction n generalizing t with
  | zero =>
      cases t with
      | nil => simp [freeLoop, numNodes, eq_comm]
      | node v l r h s => simp [freeLoop, numNodes]
  | succ n ih =>
      rw [freeLoop_succ, ih ht.freeRound, ht.numNodes_freeRound]
      apply and_congr_right
      intro _
      omega

/-- Freeing a sorted tree takes one round for each of its nodes. -/
theorem Sorted.freeLoop_numNodes {t : AvlTree α} (ht : Sorted key t) :
    freeLoop key resize t.numNodes t = some nil :=
  ht.freeLoop_eq_some_iff.mpr ⟨rfl, le_rfl⟩

/-! ## Deleting one value and no other -/

/-- Deleting the key of `v` takes out `v`: the first node with that key holds `v`, and if it has
two children, the leftmost value of its right side is the first with its own key there. -/
def DeletesOnly (key : α → κ) (v : α) : AvlTree α → Prop
  | nil => False
  | node w l r _ _ =>
      if key v < key w then DeletesOnly key v l
      else if key w < key v then DeletesOnly key v r
      else w = v ∧ (l = nil ∨ r = nil ∨
        lookup key (key (minValueNode w r)) r = some (minValueNode w r))

instance decidableDeletesOnly [DecidableEq α] (v : α) :
    (t : AvlTree α) → Decidable (DeletesOnly key v t)
  | nil => inferInstanceAs (Decidable False)
  | node _ l r _ _ =>
      have := decidableDeletesOnly v l
      have := decidableDeletesOnly v r
      inferInstanceAs (Decidable (ite _ _ _))

theorem lookup_of_deletesOnly {v : α} {t : AvlTree α} (h : DeletesOnly key v t) :
    lookup key (key v) t = some v := by
  induction t with
  | nil => exact h.elim
  | node w l r _ _ ihl ihr =>
      simp only [DeletesOnly] at h
      simp only [lookup]
      rcases lt_trichotomy (key v) (key w) with hlt | heq | hgt
      · rw [if_pos hlt] at h
        rw [if_neg hlt.ne, if_pos hlt]
        exact ihl h
      · rw [if_neg heq.not_lt, if_neg heq.not_gt] at h
        rw [if_pos heq, h.1]
      · rw [if_neg hgt.not_gt, if_pos hgt] at h
        rw [if_neg hgt.ne', if_neg hgt.not_gt]
        exact ihr h

/-- A leftmost value that a lookup of its key finds has no left child, so its deletion takes out
nothing else. -/
theorem perm_delete_minValueNode {v : α} {t : AvlTree α} (ht : t ≠ nil) (nodup : t.toList.Nodup)
    (found : lookup key (key (minValueNode v t)) t = some (minValueNode v t)) :
    t.toList.Perm (minValueNode v t :: (delete key resize (key (minValueNode v t)) t).toList) := by
  induction t generalizing v with
  | nil => exact absurd rfl ht
  | node w l r h s ihl _ =>
      change (l.toList ++ w :: r.toList).Perm (minValueNode w l :: _)
      simp only [minValueNode] at found ⊢
      rw [toList_node, List.nodup_append] at nodup
      obtain ⟨nodupl, -, disj⟩ := nodup
      by_cases hl : l = nil
      · subst hl
        simp only [minValueNode, toList_nil, List.nil_append]
        rw [toList_delete_of_eq_of_nil (.inl rfl), toList_nil, List.nil_append]
      · have hmem := minValueNode_mem w hl
        simp only [lookup] at found
        split_ifs at found with heq hlt
        · exact absurd (Option.some.inj found).symm (disj _ hmem _ List.mem_cons_self)
        · rw [toList_delete_of_lt hlt]
          exact (ihl hl nodupl found).append_right _
        · exact absurd rfl (disj _ hmem _ (List.mem_cons_of_mem _ (mem_of_lookup found).1))

/-- Where values are distinct, `DeletesOnly v t` says exactly that deleting the key of `v` takes
out `v` and leaves every other value in place once. -/
theorem perm_delete_iff {v : α} {t : AvlTree α} (nodup : t.toList.Nodup) :
    t.toList.Perm (v :: (delete key resize (key v) t).toList) ↔ DeletesOnly key v t := by
  induction t generalizing v with
  | nil => simp [DeletesOnly, delete]
  | node w l r h s ihl ihr =>
      have hw : w ∉ r.toList := by
        rw [toList_node, List.nodup_middle, List.nodup_cons] at nodup
        exact fun hwr => nodup.1 (List.mem_append_right _ hwr)
      rw [toList_node, List.nodup_append, List.nodup_cons] at nodup
      obtain ⟨nodupl, ⟨-, nodupr⟩, -⟩ := nodup
      simp only [DeletesOnly, toList_node]
      rcases lt_trichotomy (key v) (key w) with hlt | heq | hgt
      · rw [if_pos hlt, toList_delete_of_lt hlt, ← ihl nodupl, ← List.cons_append,
          List.perm_append_right_iff]
      · rw [if_neg heq.not_lt, if_neg heq.not_gt, heq]
        by_cases hnil : l = nil ∨ r = nil
        · rw [toList_delete_of_eq_of_nil hnil]
          have hcons : (l.toList ++ w :: r.toList).Perm (w :: (l.toList ++ r.toList)) :=
            List.perm_middle
          rw [List.Perm.congr_left hcons]
          constructor
          · intro hp
            have hp : ([w] ++ (l.toList ++ r.toList)).Perm ([v] ++ (l.toList ++ r.toList)) := hp
            have hwv : w = v := by simpa using (List.perm_append_right_iff _).mp hp
            exact ⟨hwv, hnil.imp_right .inl⟩
          · intro hparts
            rcases hparts with ⟨rfl, -⟩
            exact List.Perm.refl _
        · obtain ⟨hln, hrn⟩ := not_or.mp hnil
          rw [toList_delete_of_eq hln hrn]
          set m := minValueNode w r with hm
          have hsplit : (v :: (l.toList ++ m :: (delete key resize (key m) r).toList)).Perm
              (l.toList ++ v :: m :: (delete key resize (key m) r).toList) :=
            List.perm_middle.symm
          rw [hsplit.congr_right, List.perm_append_left_iff]
          simp only [hln, hrn, false_or]
          constructor
          · intro hp
            -- The root's value is gone from below, so it can only be `v`.
            have hwv : w = v := by
              have hmem : w ∈ v :: m :: (delete key resize (key m) r).toList :=
                hp.subset List.mem_cons_self
              rw [List.mem_cons, List.mem_cons] at hmem
              rcases hmem with hv | hm' | hd
              · exact hv
              · exact absurd (hm' ▸ minValueNode_mem w hrn) hw
              · exact absurd (mem_of_mem_delete hd) hw
            subst hwv
            exact ⟨rfl, lookup_of_deletesOnly ((ihr nodupr).mp (List.Perm.cons_inv hp))⟩
          · intro hparts
            rcases hparts with ⟨rfl, found⟩
            exact (perm_delete_minValueNode hrn nodupr found).cons _
      · rw [if_neg hgt.not_gt, if_pos hgt, toList_delete_of_gt hgt, ← ihr nodupr]
        have hsplit : (v :: (l.toList ++ w :: (delete key resize (key v) r).toList)).Perm
            (l.toList ++ v :: w :: (delete key resize (key v) r).toList) :=
          List.perm_middle.symm
        rw [hsplit.congr_right, List.perm_append_left_iff,
          (List.Perm.swap w v _).congr_right, List.perm_cons]

/-- If the first node with the key `k` has two children, the leftmost value of its right side is
the first with its own key there. -/
def SuccessorFirst (key : α → κ) (k : κ) : AvlTree α → Prop
  | nil => True
  | node w l r _ _ =>
      if k < key w then SuccessorFirst key k l
      else if key w < k then SuccessorFirst key k r
      else l = nil ∨ r = nil ∨ lookup key (key (minValueNode w r)) r = some (minValueNode w r)

instance decidableSuccessorFirst [DecidableEq α] (k : κ) :
    (t : AvlTree α) → Decidable (SuccessorFirst key k t)
  | nil => inferInstanceAs (Decidable True)
  | node _ l r _ _ =>
      have := decidableSuccessorFirst k l
      have := decidableSuccessorFirst k r
      inferInstanceAs (Decidable (ite _ _ _))

/-- For the value that a lookup finds, only the successor is left to ask for. -/
theorem deletesOnly_iff_successorFirst {v : α} {t : AvlTree α}
    (found : lookup key (key v) t = some v) :
    DeletesOnly key v t ↔ SuccessorFirst key (key v) t := by
  induction t with
  | nil => cases found
  | node w l r h s ihl ihr =>
      simp only [lookup] at found
      simp only [DeletesOnly, SuccessorFirst]
      rcases lt_trichotomy (key v) (key w) with hlt | heq | hgt
      · rw [if_neg hlt.ne, if_pos hlt] at found
        rw [if_pos hlt, if_pos hlt]
        exact ihl found
      · rw [if_pos heq] at found
        rw [if_neg heq.not_lt, if_neg heq.not_gt, if_neg heq.not_lt, if_neg heq.not_gt]
        exact and_iff_right (Option.some.inj found)
      · rw [if_neg hgt.ne', if_neg hgt.not_gt] at found
        rw [if_neg hgt.not_gt, if_pos hgt, if_neg hgt.not_gt, if_pos hgt]
        exact ihr found

/-- An absent key has no first node. -/
theorem successorFirst_of_lookup_eq_none {k : κ} {t : AvlTree α} (h : lookup key k t = none) :
    SuccessorFirst key k t := by
  induction t with
  | nil => exact trivial
  | node w l r _ _ ihl ihr =>
      simp only [lookup] at h
      simp only [SuccessorFirst]
      split_ifs at h with heq hlt
      · rw [if_pos hlt]
        exact ihl h
      · rw [if_neg hlt, if_pos (lt_of_le_of_ne (not_lt.mp hlt) (Ne.symm heq))]
        exact ihr h

end ParcoachRma.AvlTree
