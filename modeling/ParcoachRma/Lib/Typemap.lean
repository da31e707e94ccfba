import Mathlib.Data.Set.Basic
import Mathlib.Algebra.Order.Ring.Int
import Mathlib.Algebra.Order.Ring.Nat
import Mathlib.Algebra.Order.BigOperators.Group.List

/-!
# Typemaps

The layout of a datatype: blocks of bytes at displacements from the start of an element, and the
extent by which consecutive elements are apart.  The blocks of nested datatypes are taken as one
list.  Displacements are not negative; the extent may be anything, also less than what an element
covers.

`footprint_subset_iff`: the bytes of several elements lie within the first `n` exactly if those of
the first and of the last element do.
-/

namespace ParcoachRma

/-- A run of `len` bytes at a displacement from the start of an element. -/
structure Block where
  displ : Nat
  len : Nat
  deriving DecidableEq, Repr

/-- The blocks of one element, and how far apart elements are. -/
structure Typemap where
  blocks : List Block
  extent : Int
  deriving DecidableEq, Repr

/-- The block of the element at the offset lies within the first `n` bytes. -/
def Block.Within (b : Block) (offset : Int) (n : Nat) : Prop :=
  0 ≤ offset + b.displ ∧ offset + b.displ + b.len ≤ n

instance (b : Block) (offset : Int) (n : Nat) : Decidable (b.Within offset n) :=
  inferInstanceAs (Decidable (_ ∧ _))

namespace Typemap

variable {tm : Typemap} {count n : Nat}

/-- The number of bytes of an element, with the bytes of each block. -/
def size (tm : Typemap) : Nat := (tm.blocks.map Block.len).sum

/-- The offset of an element from the first one. -/
def offset (tm : Typemap) (i : Nat) : Int := i * tm.extent

/-- The offsets of the bytes of `count` elements from the start of the first one. -/
def footprint (tm : Typemap) (count : Nat) : Set Int :=
  {x | ∃ i < count, ∃ b ∈ tm.blocks,
    tm.offset i + b.displ ≤ x ∧ x < tm.offset i + b.displ + b.len}

/-- The offsets of the first `n` bytes. -/
def firstBytes (n : Nat) : Set Int := {x | 0 ≤ x ∧ x < n}

theorem len_le_size {b : Block} (hb : b ∈ tm.blocks) : b.len ≤ tm.size :=
  List.single_le_sum (fun _ _ => Nat.zero_le _) _ (List.mem_map_of_mem hb)

/-- An element between the first and the last one lies between them. -/
theorem within_of_first_of_last {b : Block} {i : Nat} (hi : i < count)
    (hfirst : b.Within (tm.offset 0) n) (hlast : b.Within (tm.offset (count - 1)) n) :
    b.Within (tm.offset i) n := by
  unfold Block.Within offset at *
  have hle : (i : Int) ≤ (count - 1 : Nat) := by omega
  have hpos : (0 : Int) ≤ i := by omega
  rcases le_total 0 tm.extent with hext | hext
  · have hlow : 0 ≤ i * tm.extent := mul_nonneg hpos hext
    have hhigh : i * tm.extent ≤ (count - 1 : Nat) * tm.extent :=
      mul_le_mul_of_nonneg_right hle hext
    omega
  · have hlow : (count - 1 : Nat) * tm.extent ≤ i * tm.extent :=
      mul_le_mul_of_nonpos_right hle hext
    have hhigh : i * tm.extent ≤ 0 := mul_nonpos_of_nonneg_of_nonpos hpos hext
    omega

/-- A block that is not empty touches its first and its last byte. -/
theorem within_of_footprint_subset {b : Block} {i : Nat} (hi : i < count) (hb : b ∈ tm.blocks)
    (hlen : 0 < b.len) (hsub : tm.footprint count ⊆ firstBytes n) :
    b.Within (tm.offset i) n := by
  have hfirst : tm.offset i + b.displ ∈ firstBytes n :=
    hsub ⟨i, hi, b, hb, by omega, by omega⟩
  have hlast : tm.offset i + b.displ + b.len - 1 ∈ firstBytes n :=
    hsub ⟨i, hi, b, hb, by omega, by omega⟩
  rcases hfirst with ⟨hlow, -⟩
  rcases hlast with ⟨-, hhigh⟩
  exact ⟨hlow, by omega⟩

/-- The bytes of one or more elements are among the first `n` exactly if those of the first and of
the last element are. -/
theorem footprint_subset_iff (hcount : 0 < count) :
    tm.footprint count ⊆ firstBytes n ↔ ∀ b ∈ tm.blocks, 0 < b.len →
      b.Within (tm.offset 0) n ∧ b.Within (tm.offset (count - 1)) n := by
  constructor
  · intro hsub b hb hlen
    constructor
    · exact within_of_footprint_subset hcount hb hlen hsub
    · exact within_of_footprint_subset (by omega) hb hlen hsub
  · intro hends x hx
    rcases hx with ⟨i, hi, b, hb, hge, hlt⟩
    rcases hends b hb (by omega) with ⟨hfirst, hlast⟩
    rcases within_of_first_of_last hi hfirst hlast with ⟨hlow, hhigh⟩
    exact ⟨by omega, by omega⟩

/-- There is a byte to touch exactly if there is an element with a block that is not empty. -/
theorem footprint_nonempty_iff :
    (tm.footprint count).Nonempty ↔ 0 < count ∧ ∃ b ∈ tm.blocks, 0 < b.len := by
  constructor
  · intro hne
    rcases hne with ⟨x, i, hi, b, hb, hge, hlt⟩
    exact ⟨by omega, b, hb, by omega⟩
  · intro hparts
    rcases hparts with ⟨hcount, b, hb, hlen⟩
    exact ⟨tm.offset 0 + b.displ, 0, hcount, b, hb, by omega, by omega⟩

end Typemap

end ParcoachRma
