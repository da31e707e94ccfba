import ParcoachRma.Transfer

/-!
# Intervals and the bytes of an access

Three producers build the inclusive bounds of an interval in 64-bit arithmetic: the hooks of loads
and stores from a size in bits, the send of an operation from a size in bytes, and the checking
thread by adding the base of its window.  The conflict test takes the first bound for the lower one.

`judgesBytes_iff`: the test says of two accesses whether they share a byte with conflicting access
types, unless the access types conflict and

* one of them starts at a byte that the other covers in part (`Misses`),
* one of them is empty and lies inside the other (`Invents`), or
* one of them starts at address 0 without covering a byte in full (`Wraps`).
-/

namespace ParcoachRma

/-! ## Accesses -/

/-- An access that is recorded: a load or store of a number of bits, or one of the two sides of an
operation on a number of bytes, the target's with the base of its window. -/
inductive Access where
  | load (addr bits : UInt64) (line : Int) (filename : Option String)
  | store (addr bits : UInt64) (line : Int) (filename : Option String)
  | origin (c : CommSend)
  | target (winBase : UInt64) (c : CommSend)

namespace Access

/-- The interval that is recorded for the access. -/
def recorded : Access → Interval
  | load addr bits line filename => accessInterval addr (bits / 8 - 1) .localRead line filename
  | store addr bits line filename => accessInterval addr (bits / 8 - 1) .localWrite line filename
  | origin c => c.localItv
  | target winBase c => c.targetItv.rebase winBase

/-- The address of the first byte. -/
def start : Access → Nat
  | load addr .. | store addr .. => addr.toNat
  | origin c => c.localAddress.toNat
  | target winBase c => winBase.toNat + c.targetDisp.toNat

/-- The number of bytes the access touches. -/
def size : Access → Nat
  | load _ bits .. | store _ bits .. => (bits.toNat + 7) / 8
  | origin c => c.localSize.toNat
  | target _ c => c.targetSize.toNat

/-- The number of bytes it covers in full. -/
def fullBytes : Access → Nat
  | load _ bits .. | store _ bits .. => bits.toNat / 8
  | origin c => c.localSize.toNat
  | target _ c => c.targetSize.toNat

def bytes (x : Access) : Set Nat := bytesFrom x.start x.size

def accessType : Access → AccessType
  | load .. => .localRead
  | store .. => .localWrite
  | origin c => c.localAccessType
  | target _ c => c.targetAccessType

/-- The access lies in the address space. -/
def Valid (x : Access) : Prop := x.start < 2 ^ 64 ∧ x.start + x.size ≤ 2 ^ 64

theorem fullBytes_le_size (x : Access) : x.fullBytes ≤ x.size ∧ x.size ≤ x.fullBytes + 1 := by
  cases x with
  | load addr bits => simp only [fullBytes, size]; omega
  | store addr bits => simp only [fullBytes, size]; omega
  | origin c => exact ⟨le_rfl, Nat.le_succ _⟩
  | target winBase c => exact ⟨le_rfl, Nat.le_succ _⟩

/-- The recorded bounds are the first address and that of the last byte covered in full, which for
an access without one is the address before the first. -/
theorem bounds_recorded {x : Access} (hx : x.Valid) :
    x.recorded.lowBound.toNat = x.start ∧
      x.recorded.upBound.toNat = (x.start + x.fullBytes + (2 ^ 64 - 1)) % 2 ^ 64 := by
  rcases hx with ⟨hstart, -⟩
  cases x with
  | load addr bits line filename =>
      refine ⟨rfl, ?_⟩
      change (addr + (bits / 8 - 1)).toNat = (addr.toNat + bits.toNat / 8 + (2 ^ 64 - 1)) % 2 ^ 64
      rw [UInt64.toNat_add, UInt64.toNat_sub, UInt64.toNat_div]
      simp only [UInt64.reduceToNat]
      omega
  | store addr bits line filename =>
      refine ⟨rfl, ?_⟩
      change (addr + (bits / 8 - 1)).toNat = (addr.toNat + bits.toNat / 8 + (2 ^ 64 - 1)) % 2 ^ 64
      rw [UInt64.toNat_add, UInt64.toNat_sub, UInt64.toNat_div]
      simp only [UInt64.reduceToNat]
      omega
  | origin c =>
      refine ⟨rfl, ?_⟩
      change (c.localAddress + c.localSize - 1).toNat =
        (c.localAddress.toNat + c.localSize.toNat + (2 ^ 64 - 1)) % 2 ^ 64
      rw [UInt64.toNat_sub, UInt64.toNat_add]
      simp only [UInt64.reduceToNat]
      omega
  | target winBase c =>
      change (c.targetDisp + winBase).toNat = winBase.toNat + c.targetDisp.toNat ∧
        (c.targetDisp + c.targetSize - 1 + winBase).toNat =
          (winBase.toNat + c.targetDisp.toNat + c.targetSize.toNat + (2 ^ 64 - 1)) % 2 ^ 64
      change winBase.toNat + c.targetDisp.toNat < 2 ^ 64 at hstart
      rw [UInt64.toNat_add, UInt64.toNat_add, UInt64.toNat_sub, UInt64.toNat_add]
      simp only [UInt64.reduceToNat]
      omega

end Access

/-! ## Access types -/

/-- A remote access. -/
def AccessType.Remote (t : AccessType) : Prop := t = .rmaRead ∨ t = .rmaWrite

/-- At least a local write combined with a remote access, or a remote write. -/
def TypesConflict (s t : AccessType) : Prop :=
  s = .localWrite ∧ t.Remote ∨ t = .localWrite ∧ s.Remote ∨ s = .rmaWrite ∨ t = .rmaWrite

theorem checkAccessRights_iff (x y : Interval) :
    checkAccessRights x y = true ↔ TypesConflict x.accessType y.accessType := by
  unfold checkAccessRights TypesConflict AccessType.Remote
  cases x.accessType <;> cases y.accessType <;> decide

/-! ## The test and the bytes -/

/-- The test on the recorded intervals says whether the accesses share a byte and have conflicting
types. -/
def JudgesBytes (x y : Access) : Prop :=
  ifIntersects x.recorded y.recorded = true ↔
    Meet x.bytes y.bytes ∧ TypesConflict x.accessType y.accessType

/-- The second access touches a byte and starts at the one that the first covers in part. -/
def Misses (x y : Access) : Prop :=
  x.fullBytes < x.size ∧ 0 < y.size ∧ y.start = x.start + x.fullBytes ∧ y.start ≠ 0

/-- The first access is empty and lies between two bytes that the second covers in full. -/
def Invents (x y : Access) : Prop :=
  x.size = 0 ∧ y.start < x.start ∧ x.start < y.start + y.fullBytes

/-- The first access starts at address 0 and covers no byte in full, and the two have no byte in
common. -/
def Wraps (x y : Access) : Prop :=
  x.start = 0 ∧ x.fullBytes = 0 ∧ (x.size = 0 ∨ y.size = 0 ∨ y.start ≠ 0)

theorem recorded_accessType (x : Access) : x.recorded.accessType = x.accessType := by
  cases x <;> rfl

section Bounds

-- The first addresses, the numbers of bytes covered in full and the numbers of bytes touched.
variable {a m t b n u : Nat}

/-- Bounds that overlap without a common byte are those of an empty access inside another one. -/
theorem overlap_and_not_meet_iff (hm : m ≤ t) (hn : n ≤ u) :
    (a < b + n ∧ b < a + m) ∧ ¬ max a b < min (a + t) (b + u) ↔
      t = 0 ∧ b < a ∧ a < b + n ∨ u = 0 ∧ a < b ∧ b < a + m := by
  omega

/-- Bytes are common without an overlap of the bounds if the only one is covered in part. -/
theorem meet_and_not_overlap_iff (hm : m ≤ t) (ht : t ≤ m + 1) (hn : n ≤ u) (hu : u ≤ n + 1)
    (ha : a + m ≠ 0) (hb : b + n ≠ 0) :
    max a b < min (a + t) (b + u) ∧ ¬ (a < b + n ∧ b < a + m) ↔
      (m < t ∧ 0 < u ∧ b = a + m ∧ b ≠ 0) ∨ (n < u ∧ 0 < t ∧ a = b + n ∧ a ≠ 0) := by
  omega

/-- The bounds of an access at address 0 without a full byte overlap with all others. -/
theorem meet_iff_of_wraps (ht : t ≤ 1) :
    max 0 b < min (0 + t) (b + u) ↔ ¬ (t = 0 ∨ u = 0 ∨ b ≠ 0) := by
  omega

end Bounds

namespace Access

/-- Where the access does not wrap, the upper bound is the address before the end. -/
theorem lt_upBound_iff {x : Access} (hx : x.Valid) (hend : x.start + x.fullBytes ≠ 0) (k : Nat) :
    k ≤ x.recorded.upBound.toNat ↔ k < x.start + x.fullBytes := by
  rcases bounds_recorded hx with ⟨-, hup⟩
  rcases hx with ⟨hstart, hfit⟩
  have hfull : x.fullBytes ≤ x.size := x.fullBytes_le_size.1
  rw [hup]
  omega

/-- Where it does, the upper bound is the highest address. -/
theorem le_upBound {x : Access} (hx : x.Valid) (hend : x.start + x.fullBytes = 0) {k : Nat}
    (hk : k < 2 ^ 64) : k ≤ x.recorded.upBound.toNat := by
  rw [(bounds_recorded hx).2]
  omega

end Access

/-- The bounds of two recorded intervals overlap. -/
def BoundsOverlap (x y : Access) : Prop :=
  x.recorded.lowBound ≤ y.recorded.upBound ∧ y.recorded.lowBound ≤ x.recorded.upBound

theorem boundsOverlap_comm {x y : Access} : BoundsOverlap x y ↔ BoundsOverlap y x := and_comm

theorem meet_comm {s t : Set Nat} : Meet s t ↔ Meet t s := by
  rw [Meet, Meet, Set.inter_comm]

/-- One of the two accesses starts at address 0 and covers no byte in full. -/
theorem overlap_iff_meet_of_wraps {x y : Access} (hx : x.Valid) (hy : y.Valid)
    (hend : x.start + x.fullBytes = 0) :
    (BoundsOverlap x y ↔ Meet x.bytes y.bytes) ↔
      ¬ (Misses x y ∨ Misses y x ∨ Invents x y ∨ Invents y x ∨ Wraps x y ∨ Wraps y x) := by
  have hoverlap : BoundsOverlap x y := by
    rcases Access.bounds_recorded hx with ⟨hxlow, -⟩
    rcases Access.bounds_recorded hy with ⟨hylow, -⟩
    refine ⟨?_, ?_⟩
    · rw [UInt64.le_iff_toNat_le, hxlow]
      omega
    · rw [UInt64.le_iff_toNat_le, hylow]
      exact Access.le_upBound hx hend hy.1
  have hsize : x.size ≤ 1 := by
    have hfull : x.size ≤ x.fullBytes + 1 := x.fullBytes_le_size.2
    omega
  rw [iff_true_left hoverlap, Access.bytes, Access.bytes, meet_bytesFrom_iff]
  obtain ⟨hstart, hfull⟩ := Nat.add_eq_zero_iff.mp hend
  rw [hstart, meet_iff_of_wraps hsize]
  unfold Misses Invents Wraps
  rw [hstart, hfull]
  omega

/-- The bounds of two recorded intervals overlap as the bytes of the accesses do, except in three
cases. -/
theorem overlap_iff_meet {x y : Access} (hx : x.Valid) (hy : y.Valid) :
    (BoundsOverlap x y ↔ Meet x.bytes y.bytes) ↔
      ¬ (Misses x y ∨ Misses y x ∨ Invents x y ∨ Invents y x ∨ Wraps x y ∨ Wraps y x) := by
  by_cases hxend : x.start + x.fullBytes = 0
  · exact overlap_iff_meet_of_wraps hx hy hxend
  by_cases hyend : y.start + y.fullBytes = 0
  · rw [boundsOverlap_comm, meet_comm, overlap_iff_meet_of_wraps hy hx hyend]
    grind
  rcases x.fullBytes_le_size with ⟨hxfull, hxsize⟩
  rcases y.fullBytes_le_size with ⟨hyfull, hysize⟩
  have hoverlap : BoundsOverlap x y ↔
      x.start < y.start + y.fullBytes ∧ y.start < x.start + x.fullBytes := by
    rw [BoundsOverlap, UInt64.le_iff_toNat_le, UInt64.le_iff_toNat_le,
      Access.lt_upBound_iff hx hxend, Access.lt_upBound_iff hy hyend,
      (Access.bounds_recorded hx).1, (Access.bounds_recorded hy).1]
  have hmeet : Meet x.bytes y.bytes ↔
      max x.start y.start < min (x.start + x.size) (y.start + y.size) := meet_bytesFrom_iff
  have hinvents := overlap_and_not_meet_iff (a := x.start) (b := y.start) hxfull hyfull
  have hmisses := meet_and_not_overlap_iff hxfull hxsize hyfull hysize hxend hyend
  rw [← hoverlap, ← hmeet] at hinvents hmisses
  have hwraps : ¬ Wraps x y ∧ ¬ Wraps y x :=
    ⟨fun h => hxend (by rw [h.1, h.2.1]), fun h => hyend (by rw [h.1, h.2.1])⟩
  change _ ↔ Invents x y ∨ Invents y x at hinvents
  change _ ↔ Misses x y ∨ Misses y x at hmisses
  grind

/-- The test on the recorded intervals says whether two accesses share a byte with conflicting types
exactly if their types do not conflict or neither of them misses, invents or wraps. -/
theorem judgesBytes_iff {x y : Access} (hx : x.Valid) (hy : y.Valid) :
    JudgesBytes x y ↔ (TypesConflict x.accessType y.accessType →
      ¬ (Misses x y ∨ Misses y x ∨ Invents x y ∨ Invents y x ∨ Wraps x y ∨ Wraps y x)) := by
  rw [JudgesBytes, ifIntersects_iff, checkAccessRights_iff, recorded_accessType,
    recorded_accessType, ← overlap_iff_meet hx hy, ← and_assoc]
  exact and_congr_left_iff

/-- A store of 8 bytes. -/
def exampleEightBytes : Access := .store 4092 64 10 none

/-- The origin side of a put of `n` bytes. -/
def examplePutFrom (localAddress localSize : UInt64) : Access :=
  .origin ⟨localAddress, localSize, 0, localSize, 1, .rmaRead, .rmaWrite, -1, 20, none⟩

/-- A put of the 4 bytes after the store is not taken for a conflict. -/
theorem judgesBytes_of_adjacent : JudgesBytes exampleEightBytes (examplePutFrom 4100 4) :=
  (judgesBytes_iff ⟨by decide, by decide⟩ ⟨by decide, by decide⟩).mpr
    fun _ => by unfold Misses Invents Wraps; decide

/-- A put of no byte from the middle of the store is. -/
theorem not_judgesBytes_of_empty_put :
    ¬ ∀ x y : Access, x.Valid → y.Valid → JudgesBytes x y := by
  intro h
  have hjudge := h exampleEightBytes (examplePutFrom 4096 0) ⟨by decide, by decide⟩
    ⟨by decide, by decide⟩
  have hmeet := (hjudge.mp (by decide)).1
  rw [Access.bytes, Access.bytes, meet_bytesFrom_iff] at hmeet
  revert hmeet
  decide

end ParcoachRma
