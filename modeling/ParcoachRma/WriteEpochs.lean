import ParcoachRma.NotifCoupling
import ParcoachRma.Transfer
import ParcoachRma.Lib.AvlRanges

/-!
# Epochs of remote writes

A remote write is in conflict with every other access, so an interval is saved next to remote
writes only if the search has found no stored one.  If that search is exact, the stored intervals
stay disjoint; and among disjoint intervals the single path of the search is enough, whatever the
rotations have made of the tree (`Lib/AvlRanges.lean`).

* `HoldsWrites` is the invariant of the window.
* `search_exact_of_writes`: along every run that has not reported, the stored intervals are
  disjoint and the search finds one exactly if the query shares an address with one.
-/

namespace ParcoachRma

open Run AvlTree

/-- A call that saves an interval in the window, or deletes one from its interval tree. -/
inductive StoreOp where
  | save (p : IntervalPtr)
  | delete (p : IntervalPtr)

/-- One call, as a step on the record of the window. -/
def storeStep (fw : Int) (state : RmaAnalyzerState) : StoreOp → Except Fault RmaAnalyzerState
  | .save p => treeSave fw state p
  | .delete p => rmaAnalyzerDeleteInterval (some p) state

/-- What is stored in the window `w` after a call, in the terms of the calls: a save stores the
interval if it is admitted, and a deletion takes out the one with the low bound. -/
def storedAfter (fw : Int) (w : RmaAnalyzerState) (stored : List IntervalPtr) :
    StoreOp → List IntervalPtr
  | .save p => if admits fw w p.itv then p :: stored else stored
  | .delete p => stored.filter fun x => lowKey x ≠ lowKey p

/-- The intervals that have been saved and not deleted since. -/
def storedIntervals (fw : Int) (w : RmaAnalyzerState) (ops : List StoreOp) : List IntervalPtr :=
  ops.foldl (storedAfter fw w) []

/-- A remote write with its bounds in order. -/
def IsWrite (p : IntervalPtr) : Prop :=
  p.itv.accessType = .rmaWrite ∧ p.itv.lowBound ≤ p.itv.upBound

/-- The key at which the range of an interval ends. -/
def upKey (p : IntervalPtr) : Nat := p.itv.upBound.toNat

/-- The bits of a remote write cover those of every access type. -/
theorem checkAccessRights_rmaWrite {x y : Interval} (hx : x.accessType = .rmaWrite) :
    checkAccessRights x y = true := by
  unfold checkAccessRights
  rw [hx]
  cases y.accessType <;> rfl

/-- The window `w` with disjoint remote writes in its interval tree. -/
structure HoldsWrites (w state : RmaAnalyzerState) : Prop where
  winBase : state.winBase = w.winBase
  winSize : state.winSize = w.winSize
  writes : ∀ p ∈ state.localTree.toList, p.itv.accessType = .rmaWrite
  apart : RangesApart lowKey upKey state.localTree

namespace HoldsWrites

variable {fw : Int} {w state state' : RmaAnalyzerState}

theorem valid (h : HoldsWrites w state) {p : IntervalPtr} (hp : p ∈ state.localTree.toList) :
    p.itv.lowBound ≤ p.itv.upBound :=
  UInt64.le_iff_toNat_le.mpr (h.apart.valid p hp)

theorem intersects_iff (h : HoldsWrites w state) {p q : IntervalPtr}
    (hp : p ∈ state.localTree.toList) (hq : q.itv.lowBound ≤ q.itv.upBound) :
    ifIntersects p.itv q.itv = true ↔ Meet p.itv.addresses q.itv.addresses := by
  rw [ifIntersects_iff_meet (h.valid hp) hq,
    and_iff_left (checkAccessRights_rmaWrite (h.writes p hp))]

/-- The single path of the search meets a stored interval that shares an address with the query,
if there is one. -/
theorem overlapSearch_iff (h : HoldsWrites w state) {q : IntervalPtr}
    (hq : q.itv.lowBound ≤ q.itv.upBound) :
    (overlapSearch state.localTree q).isSome = true ↔
      ∃ p ∈ state.localTree.toList, Meet p.itv.addresses q.itv.addresses := by
  rw [overlapSearch_isSome_iff]
  constructor
  · intro hfound
    rcases hfound with ⟨p, hp, hi⟩
    exact ⟨p, hp.mem, (h.intersects_iff hp.mem hq).mp hi⟩
  · intro hmeet
    rcases hmeet with ⟨p, hp, hm⟩
    have hi : ifIntersects p.itv q.itv = true := (h.intersects_iff hp hq).mpr hm
    rcases ifIntersects_iff.mp hi with ⟨hlo, hhi, -⟩
    have hab : lowKey q ≤ upKey q := UInt64.le_iff_toNat_le.mp hq
    obtain ⟨y, hy, hylo, hyhi⟩ := h.apart.exists_exposed hab hp
      (UInt64.le_iff_toNat_le.mp hlo) (UInt64.le_iff_toNat_le.mp hhi)
    refine ⟨y, hy, ifIntersects_iff.mpr ⟨UInt64.le_iff_toNat_le.mpr hylo,
      UInt64.le_iff_toNat_le.mpr hyhi, ?_⟩⟩
    exact checkAccessRights_rmaWrite (h.writes y hy.mem)

/-- An interval the search finds nothing for lies before or behind every stored one. -/
theorem free (h : HoldsWrites w state) {p : IntervalPtr} (hp : p.itv.lowBound ≤ p.itv.upBound)
    (hnone : overlapSearch state.localTree p = none) :
    ∀ x ∈ state.localTree.toList, upKey x < lowKey p ∨ upKey p < lowKey x := by
  intro x hx
  by_contra hmeet
  simp only [not_or, not_lt] at hmeet
  have hi : ifIntersects x.itv p.itv = true := by
    refine ifIntersects_iff.mpr ⟨UInt64.le_iff_toNat_le.mpr hmeet.2,
      UInt64.le_iff_toNat_le.mpr hmeet.1, ?_⟩
    exact checkAccessRights_rmaWrite (h.writes x hx)
  have hsome := (h.overlapSearch_iff hp).mpr ⟨x, hx, (h.intersects_iff hx hp).mp hi⟩
  rw [hnone] at hsome
  cases hsome

/-- Saving a remote write for which the search finds nothing keeps the writes disjoint. -/
theorem save (h : HoldsWrites w state) {p : IntervalPtr}
    (hw : admits fw w p.itv = true → IsWrite p) (hstep : treeSave fw state p = .ok state') :
    HoldsWrites w state' := by
  rcases treeSave_ok hstep with ⟨-, rfl⟩ | ⟨hadm, hnone, rfl⟩
  · exact h
  · rw [admits_congr h.winBase h.winSize] at hadm
    rcases hw hadm with ⟨htype, hle⟩
    obtain ⟨t, ht⟩ := rmaAnalyzerSaveNotif_eq p
      { state with localTree := insertIntervalTree state.localTree p }
    rw [ht]
    refine ⟨h.winBase, h.winSize, fun x hx => ?_, ?_⟩
    · rcases mem_insert.mp hx with rfl | hx
      · exact htype
      · exact h.writes x hx
    · exact h.apart.insert (UInt64.le_iff_toNat_le.mp hle) (h.free hle hnone)

/-- A deletion leaves some of the stored intervals. -/
theorem delete (h : HoldsWrites w state) {p : IntervalPtr}
    (hstep : rmaAnalyzerDeleteInterval (some p) state = .ok state') : HoldsWrites w state' := by
  obtain ⟨t, ht, hstate⟩ := bind_ok.mp hstep
  rw [deleteIntervalTree_some] at ht
  obtain rfl := Except.ok.inj ht
  obtain rfl := Except.ok.inj hstate
  exact ⟨h.winBase, h.winSize, fun x hx => h.writes x (mem_of_mem_delete hx), h.apart.delete _⟩

/-- The tree holds what the call leaves stored. -/
theorem perm_storedAfter (h : HoldsWrites w state) {op : StoreOp} {stored : List IntervalPtr}
    (hstep : storeStep fw state op = .ok state') (hstored : state.localTree.toList.Perm stored) :
    state'.localTree.toList.Perm (storedAfter fw w stored op) := by
  cases op with
  | save p =>
      rcases treeSave_ok hstep with ⟨hadm, rfl⟩ | ⟨hadm, -, rfl⟩
      · rw [admits_congr h.winBase h.winSize] at hadm
        rw [storedAfter, hadm]
        exact hstored
      · rw [admits_congr h.winBase h.winSize] at hadm
        obtain ⟨t, ht⟩ := rmaAnalyzerSaveNotif_eq p
          { state with localTree := insertIntervalTree state.localTree p }
        rw [storedAfter, if_pos hadm, ht]
        exact (toList_insert_perm p state.localTree).trans (hstored.cons p)
  | delete p =>
      obtain ⟨t, ht, hstate⟩ := bind_ok.mp hstep
      rw [deleteIntervalTree_some] at ht
      obtain rfl := Except.ok.inj ht
      obtain rfl := Except.ok.inj hstate
      exact (h.apart.perm_delete (lowKey p)).trans (hstored.filter _)

theorem run {ops : List StoreOp} {stored : List IntervalPtr} (h : HoldsWrites w state)
    (hstored : state.localTree.toList.Perm stored)
    (hw : ∀ p, .save p ∈ ops → admits fw w p.itv = true → IsWrite p)
    (hrun : run (storeStep fw) state ops = .ok state') :
    HoldsWrites w state' ∧ state'.localTree.toList.Perm (ops.foldl (storedAfter fw w) stored) := by
  induction ops generalizing state stored with
  | nil =>
      obtain rfl := Except.ok.inj hrun
      exact ⟨h, hstored⟩
  | cons op ops ih =>
      rcases run_cons_ok.mp hrun with ⟨t, hstep, hrest⟩
      have ht : HoldsWrites w t := by
        cases op with
        | save p => exact h.save (hw p (by simp)) hstep
        | delete p => exact h.delete hstep
      exact ih ht (h.perm_storedAfter hstep hstored)
        (fun p hp => hw p (List.mem_cons_of_mem _ hp)) hrest

end HoldsWrites

/-- Along any saves and deletions from an empty tree that store remote writes only, as long as no
conflict has been reported, the tree holds the intervals that have been saved and not deleted, no
two of them share an address, and the search for a query of any type finds an interval exactly if
the query shares an address with a stored one. -/
theorem search_exact_of_writes {fw : Int} {w state : RmaAnalyzerState} {ops : List StoreOp}
    (empty : w.localTree = .nil)
    (writes : ∀ p, .save p ∈ ops → admits fw w p.itv = true → IsWrite p)
    (hrun : run (storeStep fw) w ops = .ok state) :
    state.localTree.toList.Perm (storedIntervals fw w ops) ∧
    state.localTree.toList.Pairwise (fun p q => ¬ Meet p.itv.addresses q.itv.addresses) ∧
    ∀ q : IntervalPtr, q.itv.lowBound ≤ q.itv.upBound →
      ((overlapSearch state.localTree q).isSome = true ↔
        ∃ p ∈ state.localTree.toList, Meet p.itv.addresses q.itv.addresses) := by
  have hinit : HoldsWrites w w := ⟨rfl, rfl, by simp [empty], by rw [empty]; exact RangesApart.nil⟩
  have hnone : w.localTree.toList.Perm [] := by
    rw [empty]
    exact List.Perm.refl []
  obtain ⟨hstate, hstored⟩ := hinit.run hnone writes hrun
  refine ⟨hstored, ?_, ?_⟩
  · apply hstate.apart.apart.imp
    intro p q hpq hmeet
    rcases hmeet with ⟨x, hxp, hxq⟩
    exact absurd (hxq.1.trans hxp.2) hpq.not_ge
  · intro q hq
    exact hstate.overlapSearch_iff hq

/-- A remote write of four bytes from the address. -/
def writeAt (address : UInt64) : IntervalPtr :=
  ⟨address.toNat, createInterval address (address + 3) .rmaWrite (-1) 10 none⟩

/-- Three remote writes, of which the second is deleted again. -/
def threeWrites : List StoreOp :=
  [.save (writeAt 4096), .save (writeAt 4104), .save (writeAt 4112), .delete (writeAt 4104)]

/-- The search is exact on what three writes and the deletion of one have left. -/
theorem search_exact_of_threeWrites :
    ∃ state, run (storeStep 1) exampleWindow threeWrites = .ok state ∧
      state.localTree.toList.Perm [writeAt 4112, writeAt 4096] ∧
      ∀ q : IntervalPtr, q.itv.lowBound ≤ q.itv.upBound →
        ((overlapSearch state.localTree q).isSome = true ↔
          ∃ p ∈ state.localTree.toList, Meet p.itv.addresses q.itv.addresses) := by
  have writes : ∀ p, .save p ∈ threeWrites → admits 1 exampleWindow p.itv = true → IsWrite p := by
    intro p hp _
    simp only [threeWrites, List.mem_cons, StoreOp.save.injEq, reduceCtorEq, List.not_mem_nil,
      or_false] at hp
    rcases hp with rfl | rfl | rfl
    · exact ⟨rfl, by decide⟩
    · exact ⟨rfl, by decide⟩
    · exact ⟨rfl, by decide⟩
  obtain ⟨hstored, -, hsearch⟩ := search_exact_of_writes rfl writes rfl
  exact ⟨_, rfl, hstored, hsearch⟩

end ParcoachRma
