import Mathlib.Data.Finmap
import Mathlib.Data.Finset.Card

/-!
# What a computation does to the nodes it owns

The live nodes are a finite map from their addresses.  `Turns heap A heap' A'` says that a
computation that owned the nodes at `A` ends owning those at `A'`: what it has added was not live
before, what it has dropped is not live any more, and the nodes at all other addresses are as they
were.

* `Turns.write`, `Turns.alloc`, `Turns.free`: the three things a computation can do to one node.
* `Turns.trans`: one computation after another.
* `Turns.frame`: a computation that owns more does no more.
* `Turns.lookup_eq`, `Turns.disjoint`: what others own stays as it is, and stays theirs.
-/

namespace ParcoachRma

variable {β : Type*} {heap heap' heap'' : Finmap fun _ : Nat => β} {A A' A'' B : Finset Nat}
  {addr : Nat} {cell : β}

/-- The nodes at `A'` have been made of those at `A`, and no others have been touched. -/
structure Turns (heap : Finmap fun _ : Nat => β) (A : Finset Nat)
    (heap' : Finmap fun _ : Nat => β) (A' : Finset Nat) : Prop where
  fresh : ∀ b ∈ A', b ∈ A ∨ b ∉ heap
  same : ∀ b, b ∉ A' → heap'.lookup b = if b ∈ A then none else heap.lookup b

namespace Turns

theorem refl (heap : Finmap fun _ : Nat => β) (A : Finset Nat) : Turns heap A heap A where
  fresh _ hb := .inl hb
  same b hb := by rw [if_neg hb]

/-- A write to a node that is owned. -/
theorem write (haddr : addr ∈ A) : Turns heap A (heap.insert addr cell) A where
  fresh _ hb := .inl hb
  same b hb := by
    have hne : b ≠ addr := fun h => hb (h ▸ haddr)
    rw [if_neg hb, Finmap.lookup_insert_of_ne heap hne]

/-- A new node. -/
theorem alloc (haddr : addr ∉ heap) : Turns heap ∅ (heap.insert addr cell) {addr} where
  fresh b hb := by
    rw [Finset.mem_singleton.mp hb]
    exact .inr haddr
  same b hb := by
    have hne : b ≠ addr := fun h => hb (Finset.mem_singleton.mpr h)
    rw [if_neg (Finset.notMem_empty b), Finmap.lookup_insert_of_ne heap hne]

theorem free (heap : Finmap fun _ : Nat => β) (addr : Nat) :
    Turns heap {addr} (heap.erase addr) ∅ where
  fresh b hb := absurd hb (Finset.notMem_empty b)
  same b _ := by
    split_ifs with hb
    · rw [Finset.mem_singleton.mp hb, Finmap.lookup_erase]
    · exact Finmap.lookup_erase_ne fun h => hb (Finset.mem_singleton.mpr h)

theorem trans (h : Turns heap A heap' A') (h' : Turns heap' A' heap'' A'') :
    Turns heap A heap'' A'' where
  fresh b hb := by
    by_cases hA' : b ∈ A'
    · exact h.fresh b hA'
    · have hnew : b ∉ heap' := (h'.fresh b hb).resolve_left hA'
      by_cases hA : b ∈ A
      · exact .inl hA
      · have hsame := h.same b hA'
        rw [if_neg hA, Finmap.lookup_eq_none.mpr hnew] at hsame
        exact .inr (Finmap.lookup_eq_none.mp hsame.symm)
  same b hb := by
    rw [h'.same b hb]
    by_cases hA' : b ∈ A'
    · rw [if_pos hA']
      rcases h.fresh b hA' with hA | hnew
      · rw [if_pos hA]
      · rw [Finmap.lookup_eq_none.mpr hnew, ite_self]
    · rw [if_neg hA', h.same b hA']

/-- What is owned besides does not matter. -/
theorem frame (h : Turns heap A heap' A') (B : Finset Nat) :
    Turns heap (A ∪ B) heap' (A' ∪ B) where
  fresh b hb := by
    rcases Finset.mem_union.mp hb with hA' | hB
    · exact (h.fresh b hA').imp_left (Finset.mem_union_left B)
    · exact .inl (Finset.mem_union_right A hB)
  same b hb := by
    obtain ⟨hA', hB⟩ := Finset.notMem_union.mp hb
    rw [h.same b hA']
    simp only [Finset.mem_union, hB, or_false]

/-- New nodes are not among those that others own. -/
theorem disjoint (h : Turns heap A heap' A') (hdisj : Disjoint A B) (hB : ∀ b ∈ B, b ∈ heap) :
    Disjoint A' B := by
  rw [Finset.disjoint_left] at hdisj ⊢
  intro b hA' hb
  rcases h.fresh b hA' with hA | hnew
  · exact hdisj hA hb
  · exact hnew (hB b hb)

/-- What others own is left alone. -/
theorem lookup_eq (h : Turns heap A heap' A') (hdisj : Disjoint A B) (hB : ∀ b ∈ B, b ∈ heap)
    {b : Nat} (hb : b ∈ B) : heap'.lookup b = heap.lookup b := by
  have hA : b ∉ A := Finset.disjoint_right.mp hdisj hb
  have hA' : b ∉ A' := Finset.disjoint_right.mp (h.disjoint hdisj hB) hb
  rw [h.same b hA', if_neg hA]

/-- The live nodes are those that others own and those that are owned in the end. -/
theorem mem_heap_iff (h : Turns heap A heap' A') (hA' : ∀ b ∈ A', b ∈ heap') {b : Nat} :
    b ∈ heap' ↔ b ∈ A' ∨ b ∉ A ∧ b ∈ heap := by
  by_cases hb : b ∈ A'
  · simp only [hA' b hb, hb, true_or]
  · have hsame := h.same b hb
    simp only [hb, false_or]
    by_cases hA : b ∈ A
    · rw [if_pos hA] at hsame
      simp only [Finmap.lookup_eq_none.mp hsame, hA, not_true, false_and]
    · rw [if_neg hA] at hsame
      simp only [hA, not_false_iff, true_and]
      rw [← Finmap.lookup_isSome, ← Finmap.lookup_isSome, hsame]

end Turns

end ParcoachRma
