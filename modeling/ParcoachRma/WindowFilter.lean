import ParcoachRma.Detection
import ParcoachRma.Transfer

/-!
# The window filter

`rma_analyzer_save_interval` drops an interval unless both of its bounds lie in the window.  An
access that crosses a bound of the window is dropped as a whole, with the bytes it has inside.

`filter_exact_iff`, over any sequence of saves on a window, in the build that finds every conflict:

* the filter admits both intervals of every conflict on a byte of the window exactly if all of these
  intervals lie in the window, which does not reach the end of the address space;
* it keeps the first report, if that is about a byte of the window, exactly if the intervals of some
  conflict at that call lie in the window.
-/

namespace ParcoachRma

open Run

/-- The bytes of the window. -/
def RmaAnalyzerState.windowBytes (w : RmaAnalyzerState) : Set Nat :=
  bytesFrom w.winBase.toNat w.winSize.toNat

/-- The bounds of the interval are in order, as those of an access that is not empty. -/
def Interval.Nonempty (itv : Interval) : Prop := itv.lowBound ≤ itv.upBound

/-- The interval lies in the window, whose end is an address. -/
def Inside (w : RmaAnalyzerState) (itv : Interval) : Prop :=
  itv.addresses ⊆ w.windowBytes ∧ w.winBase.toNat + w.winSize.toNat < 2 ^ 64

/-- The two intervals are in conflict, and have a byte of the window in common. -/
def ConflictInWindow (w : RmaAnalyzerState) (q p : IntervalPtr) : Prop :=
  Conflicts q p ∧ (q.itv.addresses ∩ p.itv.addresses ∩ w.windowBytes).Nonempty

/-- The filter that is on admits exactly the intervals inside the window. -/
theorem admits_iff_inside {fw : Int} {w : RmaAnalyzerState} {itv : Interval} (on : fw ≠ 0)
    (nonempty : itv.Nonempty) : admits fw w itv = true ↔ Inside w itv := by
  have hle : itv.lowBound.toNat ≤ itv.upBound.toNat := UInt64.le_iff_toNat_le.mp nonempty
  have hsize : w.winSize.toNat < 2 ^ 64 := w.winSize.toNat_lt
  have hsub : itv.addresses ⊆ w.windowBytes ↔ w.winBase.toNat ≤ itv.lowBound.toNat ∧
      itv.upBound.toNat < w.winBase.toNat + w.winSize.toNat := by
    rw [Interval.addresses, RmaAnalyzerState.windowBytes, bytesFrom, Set.Icc_subset_Ico_iff hle]
  rw [Inside, hsub]
  simp only [admits, beq_eq_false_iff_ne.mpr on, Bool.false_or, Bool.and_eq_true,
    decide_eq_true_eq, ge_iff_le, UInt64.le_iff_toNat_le, UInt64.lt_iff_toNat_lt, UInt64.toNat_add]
  omega

/-! ## Both builds of the list -/

section Runs

variable {fw : Int} {w : RmaAnalyzerState} {itvs : List IntervalPtr}

/-- The new interval is admitted and in conflict with one that has been admitted. -/
def ConflictAdmitted (fw : Int) (w : RmaAnalyzerState) (pre : List IntervalPtr)
    (p : IntervalPtr) : Prop :=
  admits fw w p.itv = true ∧ ∃ q ∈ pre, admits fw w q.itv = true ∧ Conflicts q p

theorem ConflictAdmitted.saved {pre : List IntervalPtr} {p : IntervalPtr}
    (h : ConflictAdmitted fw w pre p) : ConflictSaved pre p := by
  rcases h with ⟨-, q, hq, -, hc⟩
  exact ⟨q, hq, hc⟩

/-- The window is the one the run started from, with the admitted intervals of `pre` in its
list. -/
structure AdmittedHolds (fw : Int) (w : RmaAnalyzerState) (pre : List IntervalPtr)
    (state : RmaAnalyzerState) : Prop where
  winBase : state.winBase = w.winBase
  winSize : state.winSize = w.winSize
  localList : ∀ x, x ∈ state.localList ↔ ∃ q ∈ pre, admits fw w q.itv = true ∧ q.itv = x

theorem conflict_in_list_iff_admitted {pre : List IntervalPtr} {p : IntervalPtr}
    {state : RmaAnalyzerState} (hold : AdmittedHolds fw w pre state)
    (adm : admits fw w p.itv = true) :
    ifIntersectsIntervalList p.itv state.localList = true ↔ ConflictAdmitted fw w pre p := by
  rw [ifIntersectsIntervalList_iff]
  constructor
  · intro hparts
    rcases hparts with ⟨x, hx, hi⟩
    rcases (hold.localList x).mp hx with ⟨q, hq, hadm, rfl⟩
    exact ⟨adm, q, hq, hadm, hi⟩
  · intro hparts
    rcases hparts with ⟨-, q, hq, hadm, hi⟩
    exact ⟨q.itv, (hold.localList q.itv).mpr ⟨q, hq, hadm, rfl⟩, hi⟩

/-- With the filter, the list build stops at the first conflict of admitted intervals. -/
theorem listSave_stopsAt_admitted (empty : EmptyStores w) :
    StopsAt (listSave fw) w itvs (ConflictAdmitted fw w) (AdmittedHolds fw w) where
  init := ⟨rfl, rfl, by simp [empty.2.2]⟩
  fires pre p state hpre hold hc := by
    have hadm : admits fw state p.itv = true :=
      (admits_congr hold.winBase hold.winSize p.itv).trans hc.1
    have hlist := (conflict_in_list_iff_admitted hold hc.1).mpr hc
    exact ⟨"", by simp [listSave, rmaAnalyzerSaveIntervalUseList, hadm, hlist, Except.map]⟩
  passes pre p state hpre hold hc := by
    by_cases adm : admits fw w p.itv = true
    · have hadm : admits fw state p.itv = true :=
        (admits_congr hold.winBase hold.winSize p.itv).trans adm
      have hlist := mt (conflict_in_list_iff_admitted hold adm).mp hc
      refine ⟨{ state with localList := insertIntervalHead state.localList p.itv }, ?_,
        hold.winBase, hold.winSize, fun x => ?_⟩
      · simp [listSave, rmaAnalyzerSaveIntervalUseList, hadm, hlist, Except.map]
      · simp only [insertIntervalHead, List.mem_cons, hold.localList, List.mem_append,
          List.not_mem_nil, or_false, or_and_right, exists_or, exists_eq_left, adm, true_and]
        rw [or_comm, eq_comm]
    · have hadm : ¬ admits fw state p.itv = true := by
        rwa [admits_congr hold.winBase hold.winSize p.itv]
      refine ⟨state, ?_, hold.winBase, hold.winSize, fun x => ?_⟩
      · simp [listSave, rmaAnalyzerSaveIntervalUseList, hadm, Except.map]
      · simp only [hold.localList, List.mem_append, List.mem_singleton, or_and_right, exists_or,
          exists_eq_left, adm, Bool.false_eq_true, false_and, or_false]

end Runs

/-! ## The filter and the conflicts in the window -/

/-- The filter admits both intervals of every conflict in the window. -/
def AdmitsConflicts (fw : Int) (w : RmaAnalyzerState) (itvs : List IntervalPtr) : Prop :=
  itvs.Pairwise fun q p => ConflictInWindow w q p →
    admits fw w q.itv = true ∧ admits fw w p.itv = true

/-- Both intervals of every conflict in the window lie in it. -/
def ConflictsInside (w : RmaAnalyzerState) (itvs : List IntervalPtr) : Prop :=
  itvs.Pairwise fun q p => ConflictInWindow w q p → Inside w q.itv ∧ Inside w p.itv

/-- With the filter the same call is the first to report as without it, if it is about a byte of the
window; and where the filtered build reports, the other one has. -/
def KeepsReports (fw : Int) (w : RmaAnalyzerState) (itvs : List IntervalPtr) : Prop :=
  ∀ pre p, pre ++ [p] <+: itvs →
    (ReportsAt (listSave 0) w pre p → (∃ q ∈ pre, ConflictInWindow w q p) →
      ReportsAt (listSave fw) w pre p) ∧
    (ReportsAt (listSave fw) w pre p →
      ∃ pre' p', pre' ++ [p'] <+: pre ++ [p] ∧ ReportsAt (listSave 0) w pre' p')

/-- The first call with a conflict has, if it has one in the window, also one of intervals that lie
in the window. -/
def FirstConflictInside (w : RmaAnalyzerState) (itvs : List IntervalPtr) : Prop :=
  ∀ pre p, pre ++ [p] <+: itvs → FiresFirst ConflictSaved pre p →
    (∃ q ∈ pre, ConflictInWindow w q p) → ∃ q ∈ pre, Conflicts q p ∧ Inside w q.itv ∧ Inside w p.itv

section Exact

variable {fw : Int} {w : RmaAnalyzerState} {itvs : List IntervalPtr}

theorem admitsConflicts_iff (on : fw ≠ 0) (nonempty : ∀ p ∈ itvs, p.itv.Nonempty) :
    AdmitsConflicts fw w itvs ↔ ConflictsInside w itvs := by
  apply List.Pairwise.iff_of_mem
  intro q p hq hp
  rw [admits_iff_inside on (nonempty q hq), admits_iff_inside on (nonempty p hp)]

theorem keepsReports_iff (on : fw ≠ 0) (empty : EmptyStores w)
    (nonempty : ∀ p ∈ itvs, p.itv.Nonempty) :
    KeepsReports fw w itvs ↔ FirstConflictInside w itvs := by
  have off : StopsAt (listSave 0) w itvs ConflictSaved (ListHolds w) :=
    listSave_stopsAt empty fun _ _ => rfl
  have filtered : StopsAt (listSave fw) w itvs (ConflictAdmitted fw w) (AdmittedHolds fw w) :=
    listSave_stopsAt_admitted empty
  constructor
  · intro keeps pre p hpre first hin
    have hrep := (filtered.reportsAt_iff hpre).mp
      ((keeps pre p hpre).1 ((off.reportsAt_iff hpre).mpr first) hin)
    rcases hrep.1 with ⟨hp, q, hq, hadm, hc⟩
    have hq_mem : q ∈ itvs := hpre.subset (List.mem_append_left _ hq)
    have hp_mem : p ∈ itvs := hpre.subset (List.mem_append_right _ List.mem_cons_self)
    exact ⟨q, hq, hc, (admits_iff_inside on (nonempty q hq_mem)).mp hadm,
      (admits_iff_inside on (nonempty p hp_mem)).mp hp⟩
  · intro inside pre p hpre
    constructor
    · intro hoff hin
      have first := (off.reportsAt_iff hpre).mp hoff
      rcases inside pre p hpre first hin with ⟨q, hq, hc, hqin, hpin⟩
      have hq_mem : q ∈ itvs := hpre.subset (List.mem_append_left _ hq)
      have hp_mem : p ∈ itvs := hpre.subset (List.mem_append_right _ List.mem_cons_self)
      apply (filtered.reportsAt_iff hpre).mpr
      refine ⟨⟨(admits_iff_inside on (nonempty p hp_mem)).mpr hpin, q, hq,
        (admits_iff_inside on (nonempty q hq_mem)).mpr hqin, hc⟩, ?_⟩
      exact fun pre' p' hpre' hadm => first.2 pre' p' hpre' hadm.saved
    · -- A conflict of admitted intervals is one without the filter, at the latest here.
      intro hrep
      have hsaved := ((filtered.reportsAt_iff hpre).mp hrep).1.saved
      rcases exists_firesFirst.mp ⟨pre, p, List.prefix_rfl, hsaved⟩ with ⟨pre', p', hpre', first⟩
      exact ⟨pre', p', hpre', (off.reportsAt_iff (hpre'.trans hpre)).mpr first⟩

/-- If the condition is met by every conflict, it is met by the first. -/
theorem ConflictsInside.first (h : ConflictsInside w itvs) : FirstConflictInside w itvs := by
  intro pre p hpre _ ⟨q, hq, hin⟩
  have hpair := (List.pairwise_append.mp (h.sublist hpre.sublist)).2.2 q hq p List.mem_cons_self
  exact ⟨q, hq, hin.1, hpair hin⟩

/-- The filter admits both intervals of every conflict on a byte of the window, and keeps the first
report about one, exactly if the intervals of every such conflict lie in the window; it keeps that
report alone exactly if the intervals of some conflict at that call do. -/
theorem filter_exact_iff (on : fw ≠ 0) (empty : EmptyStores w)
    (nonempty : ∀ p ∈ itvs, p.itv.Nonempty) :
    (AdmitsConflicts fw w itvs ∧ KeepsReports fw w itvs ↔ ConflictsInside w itvs) ∧
      (KeepsReports fw w itvs ↔ FirstConflictInside w itvs) := by
  rw [admitsConflicts_iff on nonempty, keepsReports_iff on empty nonempty]
  exact ⟨and_iff_left_of_imp ConflictsInside.first, Iff.rfl⟩

end Exact

theorem examples_nonempty :
    ∀ p ∈ [exampleGet, examplePut], p.itv.Nonempty := by
  unfold Interval.Nonempty
  decide

/-- The get and the put lie in the window, and the filter keeps their conflict. -/
theorem filter_keeps_get_put :
    AdmitsConflicts 1 exampleWindow [exampleGet, examplePut] ∧
      KeepsReports 1 exampleWindow [exampleGet, examplePut] := by
  have on : (1 : Int) ≠ 0 := by decide
  apply ((filter_exact_iff on exampleWindow_emptyStores examples_nonempty).1).mpr
  refine List.pairwise_pair.mpr fun _ => ⟨?_, ?_⟩
  · exact (admits_iff_inside on (examples_nonempty _ (by simp))).mp (by decide)
  · exact (admits_iff_inside on (examples_nonempty _ (by simp))).mp (by decide)

/-- A store of 8 bytes, the last 4 of which are the first of the window. -/
def exampleAcross : IntervalPtr := ⟨0, createInterval 4092 4099 .localWrite (-1) 10 none⟩

/-- The store is dropped, with its conflict with the get in the window. -/
theorem not_admitsConflicts_across :
    ¬ ∀ itvs : List IntervalPtr, (∀ p ∈ itvs, p.itv.Nonempty) →
      AdmitsConflicts 1 exampleWindow itvs := by
  intro h
  have nonempty : ∀ p ∈ [exampleAcross, exampleGet], p.itv.Nonempty := by
    unfold Interval.Nonempty
    decide
  have hpair := List.pairwise_pair.mp (h [exampleAcross, exampleGet] nonempty)
  have hconf : ConflictInWindow exampleWindow exampleAcross exampleGet :=
    ⟨by decide, 4096, ⟨⟨by decide, by decide⟩, by decide, by decide⟩, by decide, by decide⟩
  exact absurd (hpair hconf).1 (by decide)

end ParcoachRma
