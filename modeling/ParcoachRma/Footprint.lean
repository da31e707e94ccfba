import ParcoachRma.Transfer
import ParcoachRma.Lib.Typemap

/-!
# One-sided operations with derived datatypes

The wrappers multiply the size of a datatype with the count and record as many bytes from the start
of the buffer.  The extent of the datatype is never asked for, so blocks behind a gap can lie
outside of what is recorded.

* `covers_iff`: an interval of `size * count` bytes covers what a transfer touches exactly if the
  blocks of the first and the last element lie within them.
* `footprint_covered_iff`: hence both intervals of a wrapper cover the bytes on their side exactly
  if the layouts of both sides fit.
-/

namespace ParcoachRma

/-- A datatype of the MPI library, whose size can be returned as an `int`. -/
structure Datatype extends Typemap where
  size_lt : toTypemap.size < 2 ^ 31

/-- What the wrapper hands to `rma_analyzer_update_on_comm_send`. -/
def RmaCall.commSend (mpiTypeSize : MpiDatatype → Nat) (call : RmaCall) (args : RmaArgs) :
    CommSend :=
  match call with
  | .put filename line => args.commSend mpiTypeSize .rmaRead .rmaWrite (-1) line filename
  | .get filename line => args.commSend mpiTypeSize .rmaWrite .rmaRead (-1) line filename
  | .accumulate => args.commSend mpiTypeSize .rmaRead .rmaWrite (-1) 0 none
  | .putNotify id filename line => args.commSend mpiTypeSize .rmaRead .rmaWrite id line filename
  | .getNotify id filename line => args.commSend mpiTypeSize .rmaWrite .rmaRead id line filename

theorem issue_eq_update (mpiTypeSize : MpiDatatype → Nat) (call : RmaCall) (args : RmaArgs)
    (win : MpiWin) (a : Analyzer) :
    call.issue mpiTypeSize args win a =
      rmaAnalyzerUpdateOnCommSend (call.commSend mpiTypeSize args) win a := by
  cases call <;> rfl

/-- The addresses at the given offsets from the start all lie in the interval. -/
def Interval.CoversFrom (itv : Interval) (start : UInt64) (s : Set Int) : Prop :=
  ∀ x ∈ s, ∃ y ∈ itv.addresses, (y : Int) = start.toNat + x

/-- The blocks of the first and of the last element that are not empty lie within the first
`size * count` bytes, and so many bytes from the start on there are in the address space. -/
def Datatype.FitsFrom (d : Datatype) (start : UInt64) (count : Nat) : Prop :=
  0 < count → ∀ b ∈ d.blocks, 0 < b.len → start.toNat + d.size * count ≤ 2 ^ 64 ∧
    b.Within (d.offset 0) (d.size * count) ∧ b.Within (d.offset (count - 1)) (d.size * count)

theorem size_mul_lt {d : Datatype} {count : Nat} (hcount : count < 2 ^ 31) :
    d.size * count < 2 ^ 62 := by
  have hsize := d.size_lt
  calc d.size * count ≤ 2 ^ 31 * count := Nat.mul_le_mul_right _ hsize.le
    _ < 2 ^ 31 * 2 ^ 31 := by omega
    _ = 2 ^ 62 := by omega

/-- For one or more bytes that do not run over the end of the address space, covering is inclusion;
otherwise the interval has wrapped around and is empty. -/
theorem coversFrom_iff_subset {itv : Interval} {start : UInt64} {n : Nat} {s : Set Int}
    (hlow : itv.lowBound = start) (hup : itv.upBound = start + UInt64.ofNat n - 1) (hn : 0 < n)
    (hlt : n < 2 ^ 62) (hs : s.Nonempty) :
    itv.CoversFrom start s ↔ start.toNat + n ≤ 2 ^ 64 ∧ s ⊆ Typemap.firstBytes n := by
  have hupper : itv.upBound.toNat = (start.toNat + n + 2 ^ 64 - 1) % 2 ^ 64 := by
    rw [hup, UInt64.toNat_sub, UInt64.toNat_add, UInt64.toNat_ofNat']
    simp only [UInt64.reduceToNat]
    omega
  have hstart : start.toNat < 2 ^ 64 := start.toNat_lt
  simp only [Interval.CoversFrom, Interval.addresses, hlow, hupper, Set.mem_Icc]
  constructor
  · intro hcov
    have hfit : start.toNat + n ≤ 2 ^ 64 := by
      rcases hs with ⟨x, hx⟩
      rcases hcov x hx with ⟨y, hy, -⟩
      omega
    refine ⟨hfit, fun x hx => ?_⟩
    rcases hcov x hx with ⟨y, hy, hxy⟩
    exact ⟨by omega, by omega⟩
  · intro hparts x hx
    rcases hparts with ⟨hfit, hsub⟩
    rcases hsub hx with ⟨hlow, hhigh⟩
    exact ⟨(start.toNat + x).toNat, by omega, by omega⟩

/-- The interval from the start of a buffer with the length `size * count` covers the bytes of the
buffer that a transfer touches exactly if the layout fits. -/
theorem covers_iff {itv : Interval} {start : UInt64} {d : Datatype} {count : Nat}
    (hlow : itv.lowBound = start)
    (hup : itv.upBound = start + UInt64.ofNat (d.size * count) - 1) (hcount : count < 2 ^ 31) :
    itv.CoversFrom start (d.footprint count) ↔ d.FitsFrom start count := by
  by_cases hne : (d.footprint count).Nonempty
  · obtain ⟨hpos, b₀, hb₀, hlen₀⟩ := Typemap.footprint_nonempty_iff.mp hne
    have hn : 0 < d.size * count :=
      Nat.mul_pos (hlen₀.trans_le (Typemap.len_le_size hb₀)) hpos
    rw [coversFrom_iff_subset hlow hup hn (size_mul_lt hcount) hne,
      Typemap.footprint_subset_iff hpos]
    constructor
    · intro hparts _ b hb hlen
      exact ⟨hparts.1, hparts.2 b hb hlen⟩
    · intro hfits
      exact ⟨(hfits hpos b₀ hb₀ hlen₀).1, fun b hb hlen => (hfits hpos b hb hlen).2⟩
  · apply iff_of_true
    · intro x hx
      exact absurd ⟨x, hx⟩ hne
    · intro hpos b hb hlen
      exact absurd (Typemap.footprint_nonempty_iff.mpr ⟨hpos, b, hb, hlen⟩) hne

/-! ## Both sides of an operation -/

section Operation

variable (datatype : MpiDatatype → Datatype) (call : RmaCall) (args : RmaArgs)

/-- What `MPI_Type_size` returns. -/
def typeSize (d : MpiDatatype) : Nat := (datatype d).size

/-- The interval recorded at the origin covers the bytes the operation touches there, and the one
sent to the target covers those it touches in the window, both from the start of the buffer. -/
def FootprintCovered : Prop :=
  (call.commSend (typeSize datatype) args).localItv.CoversFrom args.originAddr
    ((datatype args.originDatatype).footprint args.originCount) ∧
  (call.commSend (typeSize datatype) args).targetItv.CoversFrom args.targetDisp
    ((datatype args.targetDatatype).footprint args.targetCount)

variable {datatype call args}

/-- The bounds of both intervals of an operation. -/
theorem commSend_bounds :
    ((call.commSend (typeSize datatype) args).localItv.lowBound = args.originAddr ∧
      (call.commSend (typeSize datatype) args).localItv.upBound = args.originAddr +
        UInt64.ofNat ((datatype args.originDatatype).size * args.originCount) - 1) ∧
    (call.commSend (typeSize datatype) args).targetItv.lowBound = args.targetDisp ∧
      (call.commSend (typeSize datatype) args).targetItv.upBound = args.targetDisp +
        UInt64.ofNat ((datatype args.targetDatatype).size * args.targetCount) - 1 := by
  rw [UInt64.ofNat_mul, UInt64.ofNat_mul]
  cases call <;> exact ⟨⟨rfl, rfl⟩, rfl, rfl⟩

/-- For all datatypes and counts, a wrapper acts on `rma_analyzer_update_on_comm_send` with two
intervals that cover the bytes the operation touches on their sides exactly if both layouts fit. -/
theorem footprint_covered_iff (horigin : args.originCount < 2 ^ 31)
    (htarget : args.targetCount < 2 ^ 31) :
    (∀ win a, call.issue (typeSize datatype) args win a =
      rmaAnalyzerUpdateOnCommSend (call.commSend (typeSize datatype) args) win a) ∧
    (FootprintCovered datatype call args ↔
      (datatype args.originDatatype).FitsFrom args.originAddr args.originCount ∧
        (datatype args.targetDatatype).FitsFrom args.targetDisp args.targetCount) := by
  constructor
  · intro win a
    exact issue_eq_update _ call args win a
  · rcases @commSend_bounds datatype call args with ⟨hl, ht⟩
    rw [FootprintCovered, covers_iff hl.1 hl.2 horigin, covers_iff ht.1 ht.2 htarget]

end Operation

/-- Elements of four bytes behind one another. -/
def contiguous : Datatype := ⟨⟨[⟨0, 4⟩], 4⟩, by decide⟩

/-- Two blocks of four bytes with a gap of four bytes between them. -/
def vectorWithGap : Datatype := ⟨⟨[⟨0, 4⟩, ⟨8, 4⟩], 12⟩, by decide⟩

/-- One vector goes from address 65536 to two contiguous elements at displacement 80. -/
def exampleVectorArgs : RmaArgs := ⟨65536, 1, 1, 1, 80, 2, 0⟩

/-- The datatype 0 is contiguous, the others have a gap. -/
def exampleDatatypes (d : MpiDatatype) : Datatype := if d = 0 then contiguous else vectorWithGap

/-- A put of two contiguous elements is covered on both sides. -/
theorem footprint_covered_of_contiguous :
    FootprintCovered exampleDatatypes (.put none 10) ⟨65536, 2, 0, 1, 80, 2, 0⟩ := by
  apply (footprint_covered_iff (by decide) (by decide)).2.mpr
  constructor
  · intro _
    decide
  · intro _
    decide

/-- Of a vector with a gap, the last four bytes are not recorded at the origin. -/
theorem not_footprint_covered_of_gap :
    ¬ FootprintCovered exampleDatatypes (.put none 10) exampleVectorArgs := by
  intro hcov
  rcases hcov.1 8 ⟨0, by decide, ⟨8, 4⟩, by decide, by decide, by decide⟩ with ⟨y, hy, hy8⟩
  have hlast : y ≤ 65543 := hy.2
  have haddr : (y : Int) = 65536 + 8 := hy8
  omega

end ParcoachRma
