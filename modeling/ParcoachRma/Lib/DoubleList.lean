import Mathlib.Data.List.Nodup
import Mathlib.Data.List.Infix
import Mathlib.Logic.Function.Basic

/-!
# Doubly linked lists

The neighbours of a node are given by two functions, wherever they are stored.
`DoublyLinked next prev l` says that the nodes of `l` are linked in this order, both ways, and that
both ends are null.

* `DoublyLinked.reverse`: read backwards, it is a doubly linked list again.
* `DoublyLinked.push`, `DoublyLinked.append`: a node linked in at one of the ends.
* `DoublyLinked.unlink`: a node taken out by linking its neighbours to each other.
-/

namespace ParcoachRma

variable {α : Type*} {next prev next' prev' : α → Option α} {l front back : List α} {a b x : α}

/-! ## One direction -/

/-- Each node of the list points to the one after it. -/
def Forward (next : α → Option α) : List α → Prop
  | [] => True
  | a :: l => next a = l.head? ∧ Forward next l

namespace Forward

theorem of_append (h : Forward next (front ++ l)) : Forward next l := by
  induction front with
  | nil => exact h
  | cons a front ih => exact ih h.2

theorem next_eq (h : Forward next (front ++ a :: back)) : next a = back.head? := h.of_append.1

theorem congr (h : Forward next l) (hsame : ∀ x ∈ l, next' x = next x) : Forward next' l := by
  induction l with
  | nil => trivial
  | cons a l ih =>
      refine ⟨?_, ih h.2 fun x hx => hsame x (List.mem_cons_of_mem a hx)⟩
      rw [hsame a List.mem_cons_self, h.1]

/-- The neighbours are in the list. -/
theorem mem_of_next (h : Forward next l) (ha : a ∈ l) (hb : next a = some b) : b ∈ l := by
  obtain ⟨front, back, rfl⟩ := List.append_of_mem ha
  rw [h.next_eq] at hb
  exact List.mem_append_right front (List.mem_cons_of_mem a (List.mem_of_mem_head? hb))

/-- A node at the end, to which the last one points. -/
theorem concat (h : Forward next l) (hend : next' a = none)
    (hlast : ∀ x ∈ l, next x = none → next' x = some a)
    (hsame : ∀ x ∈ l, next x ≠ none → next' x = next x) : Forward next' (l ++ [a]) := by
  induction l with
  | nil => exact ⟨hend, trivial⟩
  | cons b l ih =>
      refine ⟨?_, ih h.2 (fun x hx => hlast x (List.mem_cons_of_mem b hx))
        fun x hx => hsame x (List.mem_cons_of_mem b hx)⟩
      cases l with
      | nil => exact hlast b List.mem_cons_self h.1
      | cons c l =>
          have hsome : next b = some c := h.1
          rw [hsame b List.mem_cons_self (by simp [hsome])]
          exact hsome

/-- A node is taken out where those that pointed to it point to the one after it. -/
theorem unlink (h : Forward next (front ++ a :: back)) (ha : a ∉ front ++ back)
    (hskip : ∀ x ∈ front ++ back, next x = some a → next' x = next a)
    (hsame : ∀ x ∈ front ++ back, next x ≠ some a → next' x = next x) :
    Forward next' (front ++ back) := by
  induction front with
  | nil =>
      refine h.2.congr fun x hx => hsame x hx fun hxa => ?_
      exact ha (h.2.mem_of_next hx hxa)
  | cons b front ih =>
      have hrest : a ∉ front ++ back := fun hmem => ha (List.mem_cons_of_mem b hmem)
      refine ⟨?_, ih h.2 hrest (fun x hx => hskip x (List.mem_cons_of_mem b hx))
        fun x hx => hsame x (List.mem_cons_of_mem b hx)⟩
      cases front with
      | nil =>
          rw [hskip b List.mem_cons_self h.1]
          exact h.2.1
      | cons c front =>
          have hsome : next b = some c := h.1
          have hne : next b ≠ some a := by
            rw [hsome]
            intro hca
            exact hrest (Option.some.inj hca ▸ List.mem_cons_self)
          rw [hsame b List.mem_cons_self hne]
          exact hsome

end Forward

/-! ## Both directions -/

/-- The nodes are linked both ways. -/
structure DoublyLinked (next prev : α → Option α) (l : List α) : Prop where
  forward : Forward next l
  backward : Forward prev l.reverse

namespace DoublyLinked

theorem nil : DoublyLinked next prev [] := ⟨trivial, trivial⟩

theorem reverse (h : DoublyLinked next prev l) : DoublyLinked prev next l.reverse :=
  ⟨h.backward, by rw [List.reverse_reverse]; exact h.forward⟩

theorem next_eq (h : DoublyLinked next prev (front ++ a :: back)) : next a = back.head? :=
  h.forward.next_eq

theorem prev_eq (h : DoublyLinked next prev (front ++ a :: back)) : prev a = front.getLast? := by
  have hback := h.backward
  rw [List.reverse_append, List.reverse_cons, List.append_assoc, List.singleton_append] at hback
  rw [hback.next_eq, List.head?_reverse]

theorem congr (h : DoublyLinked next prev l) (hnext : ∀ x ∈ l, next' x = next x)
    (hprev : ∀ x ∈ l, prev' x = prev x) : DoublyLinked next' prev' l :=
  ⟨h.forward.congr hnext, h.backward.congr fun x hx => hprev x (List.mem_reverse.mp hx)⟩

theorem mem_of_next (h : DoublyLinked next prev l) (ha : a ∈ l) (hb : next a = some b) : b ∈ l :=
  h.forward.mem_of_next ha hb

theorem mem_of_prev (h : DoublyLinked next prev l) (ha : a ∈ l) (hb : prev a = some b) : b ∈ l :=
  List.mem_reverse.mp (h.backward.mem_of_next (List.mem_reverse.mpr ha) hb)

/-- The node before the second one, of two nodes that are linked. -/
theorem prev_of_next (h : DoublyLinked next prev l) (ha : a ∈ l) (hb : next a = some b) :
    prev b = some a := by
  obtain ⟨front, back, rfl⟩ := List.append_of_mem ha
  rw [h.next_eq] at hb
  cases back with
  | nil => cases hb
  | cons c back =>
      obtain rfl : c = b := Option.some.inj hb
      have hsplit : front ++ a :: c :: back = (front ++ [a]) ++ c :: back := by simp
      rw [hsplit] at h
      rw [h.prev_eq, List.getLast?_concat]

theorem next_iff_prev (h : DoublyLinked next prev l) (ha : a ∈ l) (hb : b ∈ l) :
    next a = some b ↔ prev b = some a := by
  refine ⟨h.prev_of_next ha, fun hba => ?_⟩
  exact h.reverse.prev_of_next (List.mem_reverse.mpr hb) hba

/-- No node is its own neighbour. -/
theorem next_ne_self (h : DoublyLinked next prev l) (hl : l.Nodup) (ha : a ∈ l) :
    next a ≠ some a := by
  obtain ⟨front, back, rfl⟩ := List.append_of_mem ha
  have hnot : a ∉ back := (List.nodup_cons.mp (List.nodup_append.mp hl).2.1).1
  rw [h.next_eq]
  exact fun hhead => hnot (List.mem_of_mem_head? hhead)

theorem prev_ne_self (h : DoublyLinked next prev l) (hl : l.Nodup) (ha : a ∈ l) :
    prev a ≠ some a :=
  h.reverse.next_ne_self (List.nodup_reverse.mpr hl) (List.mem_reverse.mpr ha)

/-- Only the last node has no successor. -/
theorem next_eq_none_iff (h : DoublyLinked next prev l) (hl : l.Nodup) (ha : a ∈ l) :
    next a = none ↔ l.getLast? = some a := by
  obtain ⟨front, back, rfl⟩ := List.append_of_mem ha
  rw [h.next_eq, List.head?_eq_none_iff]
  constructor
  · rintro rfl
    exact List.getLast?_concat
  · intro hlast
    cases back with
    | nil => rfl
    | cons c back =>
        have hnot : a ∉ c :: back := (List.nodup_cons.mp (List.nodup_append.mp hl).2.1).1
        rw [List.getLast?_append_cons, List.getLast?_cons_cons] at hlast
        exact absurd (List.mem_of_getLast? hlast) hnot

/-- Only the first node has no predecessor. -/
theorem prev_eq_none_iff (h : DoublyLinked next prev l) (hl : l.Nodup) (ha : a ∈ l) :
    prev a = none ↔ l.head? = some a := by
  rw [← List.getLast?_reverse]
  exact h.reverse.next_eq_none_iff (List.nodup_reverse.mpr hl) (List.mem_reverse.mpr ha)

/-- A node without neighbours is the only one. -/
theorem eq_singleton (h : DoublyLinked next prev l) (ha : a ∈ l) (hnext : next a = none)
    (hprev : prev a = none) : l = [a] := by
  obtain ⟨front, back, rfl⟩ := List.append_of_mem ha
  rw [h.next_eq, List.head?_eq_none_iff] at hnext
  rw [h.prev_eq, List.getLast?_eq_none_iff] at hprev
  rw [hnext, hprev, List.nil_append]

variable [DecidableEq α]

/-- The links back where a node is linked in before the first. -/
def backFrom (prev : α → Option α) (a : α) : Option α → α → Option α
  | none => Function.update prev a none
  | some first => Function.update (Function.update prev a none) first (some a)

/-- One node is linked in before the first. -/
theorem push (h : DoublyLinked next prev l) (hl : l.Nodup) (ha : a ∉ l) :
    DoublyLinked (Function.update next a l.head?) (backFrom prev a l.head?) (a :: l) := by
  have hne : ∀ x ∈ l, x ≠ a := fun x hx hxa => ha (hxa ▸ hx)
  refine ⟨⟨Function.update_self .., h.forward.congr fun x hx => ?_⟩, ?_⟩
  · exact Function.update_of_ne (hne x hx) ..
  · have hfirst := fun x (hx : x ∈ l.reverse) =>
      h.prev_eq_none_iff hl (List.mem_reverse.mp hx)
    rw [List.reverse_cons]
    cases hhead : l.head? with
    | none =>
        rw [List.head?_eq_none_iff.mp hhead]
        exact ⟨Function.update_self .., trivial⟩
    | some b =>
        rw [hhead] at hfirst
        have hb : b ∈ l := List.mem_of_mem_head? hhead
        refine h.backward.concat ?_ (fun x hx hnone => ?_) fun x hx hsome => ?_
        · rw [backFrom, Function.update_of_ne (hne b hb).symm, Function.update_self]
        · obtain rfl : b = x := Option.some.inj ((hfirst x hx).mp hnone)
          rw [backFrom, Function.update_self]
        · have hxb : x ≠ b := fun hxb => hsome ((hfirst x hx).mpr (congrArg some hxb.symm))
          have hxa : x ≠ a := hne x (List.mem_reverse.mp hx)
          rw [backFrom, Function.update_of_ne hxb, Function.update_of_ne hxa]

/-- One node is linked in after the last. -/
theorem append (h : DoublyLinked next prev l) (hl : l.Nodup) (ha : a ∉ l)
    (hlast : l.getLast? = some b) :
    DoublyLinked (Function.update (Function.update next a none) b (some a))
      (Function.update prev a (some b)) (l ++ [a]) := by
  have hpush := h.reverse.push (List.nodup_reverse.mpr hl) fun hmem => ha (List.mem_reverse.mp hmem)
  rw [List.head?_reverse, hlast] at hpush
  have hreverse := hpush.reverse
  rwa [List.reverse_cons, List.reverse_reverse] at hreverse

/-- The links where a node is taken out: the node before it, if there is one, points to the one
after it. -/
def past (next prev : α → Option α) (a : α) : α → Option α :=
  match prev a with
  | none => next
  | some p => Function.update next p (next a)

/-- Only the node before it points to another one. -/
theorem past_of_prev_ne (h : ∀ p, prev a = some p → x ≠ p) : past next prev a x = next x := by
  unfold past
  cases hp : prev a with
  | none => rfl
  | some p => exact Function.update_of_ne (h p hp) ..

theorem past_of_next (h : DoublyLinked next prev l) (hx : x ∈ l) (hxa : next x = some a) :
    past next prev a x = next a := by
  rw [past, h.prev_of_next hx hxa]
  exact Function.update_self ..

theorem past_of_ne (h : DoublyLinked next prev l) (ha : a ∈ l) (hxa : next x ≠ some a) :
    past next prev a x = next x := by
  refine past_of_prev_ne fun p hp hxp => hxa ?_
  rw [hxp]
  exact (h.next_iff_prev (h.mem_of_prev ha hp) ha).mpr hp

/-- One node is taken out. -/
theorem unlink (h : DoublyLinked next prev (front ++ a :: back))
    (hl : (front ++ a :: back).Nodup) :
    DoublyLinked (past next prev a) (past prev next a) (front ++ back) := by
  have ha : a ∉ front ++ back := (List.nodup_cons.mp (List.perm_middle.nodup_iff.mp hl)).1
  have hself : a ∈ front ++ a :: back := List.mem_append_right front List.mem_cons_self
  have hmem : ∀ x ∈ front ++ back, x ∈ front ++ a :: back := fun x hx =>
    List.perm_middle.mem_iff.mpr (List.mem_cons_of_mem a hx)
  refine ⟨h.forward.unlink ha (fun x hx => h.past_of_next (hmem x hx))
    fun x _ => h.past_of_ne hself, ?_⟩
  have hback := h.backward
  rw [List.reverse_append, List.reverse_cons, List.append_assoc, List.singleton_append] at hback
  rw [List.reverse_append]
  have hin : ∀ x ∈ back.reverse ++ front.reverse, x ∈ front ++ back := by
    intro x hx
    rw [← List.reverse_append] at hx
    exact List.mem_reverse.mp hx
  refine hback.unlink (fun hx => ha (hin a hx)) (fun x hx => ?_) fun x _ => ?_
  · exact h.reverse.past_of_next (List.mem_reverse.mpr (hmem x (hin x hx)))
  · exact h.reverse.past_of_ne (List.mem_reverse.mpr hself)

end DoublyLinked

end ParcoachRma
