import Mathlib.Data.Finmap
import Mathlib.Data.Finset.Card

/-!
# Singly linked lists in memory

The nodes that have been allocated and not been freed are a finite map from their addresses.
`Linked heap p cells` says that the list from the pointer `p` runs over live nodes only and ends,
with the addresses and values `cells` from its head on.

* `Linked.unique`, `Linked.nodup`: the pointer determines the cells, hence no address occurs twice.
* `Linked.length_le`: a list is no longer than there are live nodes.
* `Linked.frame`: what happens at other addresses does not matter.
* `Linked.cut`: a null pointer written to a node makes it the last one.
-/

namespace ParcoachRma

/-- A value and the pointer to the next node. -/
structure LinkNode (α : Type*) where
  val : α
  next : Option Nat
  deriving DecidableEq, Repr

/-- The live nodes by their addresses. -/
abbrev LinkedHeap (α : Type*) := Finmap fun _ : Nat => LinkNode α

/-- The list from the pointer consists of the cells, which are all live. -/
def Linked {α : Type*} (heap : LinkedHeap α) : Option Nat → List (Nat × α) → Prop
  | p, [] => p = none
  | p, (addr, val) :: cells =>
      p = some addr ∧ ∃ next, heap.lookup addr = some ⟨val, next⟩ ∧ Linked heap next cells

namespace Linked

variable {α : Type*} {heap heap' : LinkedHeap α} {p : Option Nat} {cells cells' : List (Nat × α)}

theorem unique (h : Linked heap p cells) (h' : Linked heap p cells') : cells = cells' := by
  induction cells generalizing p cells' with
  | nil =>
      cases cells' with
      | nil => rfl
      | cons c cells' =>
          have hnone : p = none := h
          have hsome : p = some c.1 := h'.1
          rw [hnone] at hsome
          cases hsome
  | cons c cells ih =>
      rcases h with ⟨rfl, next, hnode, hrest⟩
      cases cells' with
      | nil => cases h'
      | cons c' cells' =>
          rcases h' with ⟨haddr, next', hnode', hrest'⟩
          obtain ⟨addr, val⟩ := c
          obtain ⟨addr', val'⟩ := c'
          obtain rfl : addr = addr' := Option.some.inj haddr
          obtain ⟨rfl, rfl⟩ := LinkNode.mk.inj (Option.some.inj (hnode.symm.trans hnode'))
          rw [ih hrest hrest']

/-- The cells from any address of the list on are the list from this address. -/
theorem of_append {front : List (Nat × α)} {c : Nat × α}
    (h : Linked heap p (front ++ c :: cells)) : Linked heap (some c.1) (c :: cells) := by
  induction front generalizing p with
  | nil =>
      obtain rfl : p = some c.1 := h.1
      exact h
  | cons d front ih =>
      rcases h with ⟨-, next, -, hrest⟩
      exact ih hrest

/-- From an address that came up twice the list would not end. -/
theorem nodup (h : Linked heap p cells) : (cells.map Prod.fst).Nodup := by
  induction cells generalizing p with
  | nil => exact List.nodup_nil
  | cons c cells ih =>
      obtain rfl : p = some c.1 := h.1
      have hfull := h
      rcases h with ⟨-, next, -, hrest⟩
      rw [List.map_cons, List.nodup_cons]
      refine ⟨fun hmem => ?_, ih hrest⟩
      obtain ⟨d, hd, haddr⟩ := List.mem_map.mp hmem
      obtain ⟨front, back, rfl⟩ := List.append_of_mem hd
      have hagain : Linked heap (some c.1) (d :: back) := haddr ▸ of_append hrest
      have hlength := congrArg List.length (hfull.unique hagain)
      simp only [List.length_cons, List.length_append] at hlength
      omega

theorem lookup_of_mem (h : Linked heap p cells) {c : Nat × α} (hc : c ∈ cells) :
    ∃ next, heap.lookup c.1 = some ⟨c.2, next⟩ := by
  obtain ⟨front, back, rfl⟩ := List.append_of_mem hc
  rcases of_append h with ⟨-, next, hnode, -⟩
  exact ⟨next, hnode⟩

theorem length_le (h : Linked heap p cells) : cells.length ≤ heap.keys.card := by
  have hsub : (cells.map Prod.fst).toFinset ⊆ heap.keys := by
    intro addr haddr
    obtain ⟨c, hc, rfl⟩ := List.mem_map.mp (List.mem_toFinset.mp haddr)
    rcases h.lookup_of_mem hc with ⟨next, hnode⟩
    exact Finmap.mem_keys.mpr (Finmap.mem_of_lookup_eq_some hnode)
  calc cells.length = (cells.map Prod.fst).toFinset.card := by
        rw [List.toFinset_card_of_nodup h.nodup, List.length_map]
    _ ≤ heap.keys.card := Finset.card_le_card hsub

/-- Nodes at other addresses may change. -/
theorem frame (h : Linked heap p cells)
    (hsame : ∀ addr ∈ cells.map Prod.fst, heap'.lookup addr = heap.lookup addr) :
    Linked heap' p cells := by
  induction cells generalizing p with
  | nil => exact h
  | cons c cells ih =>
      rcases h with ⟨hp, next, hnode, hrest⟩
      refine ⟨hp, next, ?_, ih hrest fun addr haddr => hsame addr (List.mem_cons_of_mem _ haddr)⟩
      rw [hsame c.1 List.mem_cons_self, hnode]

/-- Where the node of a cell gets a null pointer and those before it stay as they are, the list
ends at this cell. -/
theorem cut {front back : List (Nat × α)} {c : Nat × α} (h : Linked heap p (front ++ c :: back))
    (hsame : ∀ addr ∈ front.map Prod.fst, heap'.lookup addr = heap.lookup addr)
    (hcut : heap'.lookup c.1 = some ⟨c.2, none⟩) : Linked heap' p (front ++ [c]) := by
  induction front generalizing p with
  | nil => exact ⟨h.1, none, hcut, rfl⟩
  | cons d front ih =>
      rcases h with ⟨hp, next, hnode, hrest⟩
      refine ⟨hp, next, ?_, ih hrest fun addr haddr => hsame addr (List.mem_cons_of_mem _ haddr)⟩
      rw [hsame d.1 List.mem_cons_self, hnode]

end Linked

end ParcoachRma
