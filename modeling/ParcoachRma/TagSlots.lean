import ParcoachRma.TagSeparation

/-!
# The allocator of tag slots

`rma_analyzer_start` takes the first free slot of the table, and `rma_analyzer_stop` works out the
slot of a window from its first tag.  Where no slot is free the window gets the tags of slot -1, and
when it is stopped the slot is worked out to be -1 again, which is not one of the table.

* `SlotsOwned` holds in every reachable state: a slot is used exactly if one live window has its
  tags.
* `slotAllocator_iff`: along a run, all slots that are given back are those of their windows exactly
  if no window is stopped that was started while 32 live windows had a range.
-/

namespace ParcoachRma

open Run

/-- A call that starts or stops the analysis of a window. -/
inductive TagCall where
  | start (base size : UInt64) (comm : MpiComm) (sizeComm : Nat) (win : MpiWin) (language : Lang)
    (filterWindow : Option Int)
  | stop (win : MpiWin)

/-- One call, as a step on the state of the process.  The MPI library gives a new window a handle
that no live window has. -/
def tagCallStep (a : Analyzer) : TagCall → Except Fault Analyzer
  | .start base size comm sizeComm win language filterWindow =>
      if win ∈ a.windows then .error .notEnabled
      else rmaAnalyzerStart base size comm sizeComm win language filterWindow a
  | .stop win => rmaAnalyzerStop win a

/-- A slot is used exactly if one and only one live window has its tags. -/
def SlotsOwned (a : Analyzer) : Prop :=
  ∀ i : Nat, Used a.winMpiTagId i ↔ ∃! s, s ∈ a.stateHtbl ∧ s.mpiTag = tagOfSlot i

/-- Giving back the range of the window writes to the table, and to the slot of its tags. -/
def FreesOwnSlot (a : Analyzer) (win : MpiWin) : Prop :=
  ∀ state, rmaAnalyzerGetState win a = .ok state →
    ∃ i : Nat, i < a.winMpiTagId.length ∧ state.mpiTag = tagOfSlot i ∧
      rmaAnalyzerFreeTagRange state.mpiTag a.winMpiTagId = .ok (a.winMpiTagId.set i 0)

/-- In every state the calls lead to, the slots belong to the windows, and a window that is stopped
there gives back its own. -/
def SlotAllocatorConsistent (calls : List TagCall) : Prop :=
  ∀ pre a, pre <+: calls → run tagCallStep Analyzer.init pre = .ok a →
    SlotsOwned a ∧ ∀ win, pre ++ [.stop win] <+: calls → FreesOwnSlot a win

/-! ## The windows with a range -/

/-- What a call does to the live windows that were started while fewer than 32 of them were live. -/
def TagCall.onRanged (wins : List MpiWin) : TagCall → List MpiWin
  | .start _ _ _ _ win _ _ => if wins.length < rmaAnalyzerMaxWin then wins ++ [win] else wins
  | .stop win => wins.filter (· ≠ win)

/-- The live windows that were started while fewer than 32 of them were live. -/
def rangedWindows (calls : List TagCall) : List MpiWin := calls.foldl TagCall.onRanged []

/-- No live window is stopped that was started while 32 others had a range. -/
def StopsRangedOnly (calls : List TagCall) : Prop :=
  ∀ pre win a, pre ++ [.stop win] <+: calls → run tagCallStep Analyzer.init pre = .ok a →
    win ∈ a.windows → win ∈ rangedWindows pre

/-! ## Reachable states -/

namespace TagsOk

variable {a a' : Analyzer}

/-- Each used slot belongs to one live window. -/
theorem slotsOwned (h : TagsOk a) : SlotsOwned a := by
  intro i
  constructor
  · intro hused
    obtain ⟨p, hp, hpi⟩ := h.table.live i hused
    obtain ⟨s, hs, rfl⟩ := List.mem_map.mp hp
    refine ⟨s, ⟨hs, hpi⟩, fun t ht => ?_⟩
    have hpair : (t.stateWin, t.mpiTag) = (s.stateWin, s.mpiTag) := by
      apply h.table.distinct _ (List.mem_map_of_mem ht.1) _ hp
      · exact ht.2.trans hpi.symm
      · exact ht.2 ▸ tagOfSlot_ne_none i
    exact List.inj_on_of_nodup_map h.nodup ht.1 hs (congrArg Prod.fst hpair)
  · intro hex
    rcases hex with ⟨s, ⟨hs, htag⟩, -⟩
    have hpair : (s.stateWin, s.mpiTag) ∈ a.tags := List.mem_map_of_mem hs
    rcases h.table.slot _ hpair with hnone | ⟨j, hj, hused⟩
    · exact absurd (htag.symm.trans hnone) (tagOfSlot_ne_none i)
    · obtain rfl : i = j := slot_inj (htag.symm.trans hj)
      exact hused

/-- The window gives back its own slot exactly if it has a range. -/
theorem freesOwnSlot_iff (h : TagsOk a) {win : MpiWin} {state : RmaAnalyzerState}
    (hstate : rmaAnalyzerGetState win a = .ok state) :
    FreesOwnSlot a win ↔ state.mpiTag ≠ tagOfSlot (-1) := by
  obtain ⟨hmem, rfl⟩ := mem_of_getState hstate
  constructor
  · intro hfrees heq
    obtain ⟨i, -, htag, -⟩ := hfrees state hstate
    exact tagOfSlot_ne_none i (htag.symm.trans heq)
  · intro hne state' hstate'
    obtain rfl : state = state' := Except.ok.inj (hstate.symm.trans hstate')
    have hpair : (state.stateWin, state.mpiTag) ∈ TagTable.rangedTags a.tags :=
      TagTable.mem_rangedTags.mpr ⟨List.mem_map_of_mem hmem, hne⟩
    rcases h.table.used_of_mem_rangedTags hpair with ⟨i, hi, htag, -⟩
    refine ⟨i, hi, htag, ?_⟩
    have hfree := freeTagRange_tagOfSlot hi
    rw [← htag] at hfree
    exact hfree

end TagsOk

/-- The windows with a range are those that were started while fewer than 32 of them were live. -/
structure RangesKnown (pre : List TagCall) (a : Analyzer) : Prop where
  tagsOk : TagsOk a
  ranged : rangedWindows pre = (TagTable.rangedTags a.tags).map Prod.fst

namespace RangesKnown

variable {pre : List TagCall} {a a' : Analyzer}

theorem init : RangesKnown [] Analyzer.init := ⟨TagsOk.init, rfl⟩

theorem rangedWindows_snoc (c : TagCall) :
    rangedWindows (pre ++ [c]) = c.onRanged (rangedWindows pre) := by
  simp [rangedWindows]

theorem length_ranged (h : RangesKnown pre a) :
    (TagTable.rangedTags a.tags).length = (rangedWindows pre).length := by
  rw [h.ranged, List.length_map]

theorem step {c : TagCall} (h : RangesKnown pre a) (hstep : tagCallStep a c = .ok a') :
    RangesKnown (pre ++ [c]) a' := by
  cases c with
  | start base size comm sizeComm win language filterWindow =>
      simp only [tagCallStep] at hstep
      split_ifs at hstep with hfresh
      obtain ⟨hok, tag, htags, hslot⟩ := h.tagsOk.start hfresh hstep
      refine ⟨hok, ?_⟩
      have hall := h.tagsOk.table.all_used_iff
      rw [h.tagsOk.length, h.length_ranged] at hall
      rw [rangedWindows_snoc, htags]
      simp only [TagCall.onRanged]
      rcases hslot with ⟨rfl, hused⟩ | ⟨i, rfl, hi, hfree⟩
      · rw [h.tagsOk.length] at hused
        rw [if_neg (not_lt.mpr (hall.mp hused)), h.ranged]
        simp [TagTable.rangedTags]
      · have hlt : (rangedWindows pre).length < rmaAnalyzerMaxWin := by
          by_contra hge
          rw [h.tagsOk.length] at hi
          exact hfree (hall.mpr (not_lt.mp hge) i hi)
        rw [if_pos hlt, h.ranged]
        simp [TagTable.rangedTags, tagOfSlot_ne_none]
  | stop win =>
      obtain ⟨hok, htags⟩ := h.tagsOk.stop hstep
      refine ⟨hok, ?_⟩
      have hcomm : TagTable.rangedTags (a.tags.filter (·.1 ≠ win)) =
          (TagTable.rangedTags a.tags).filter (·.1 ≠ win) := by
        simp only [TagTable.rangedTags, List.filter_filter, Bool.and_comm]
      rw [rangedWindows_snoc, htags, hcomm]
      simp only [TagCall.onRanged, h.ranged, List.filter_map]
      rfl

theorem of_run {calls : List TagCall} (hrun : run tagCallStep Analyzer.init calls = .ok a) :
    RangesKnown calls a :=
  invariant_of_prefix (I := RangesKnown) init (fun _ _ _ _ _ h hstep => h.step hstep)
    List.prefix_rfl hrun

/-- A live window is among those with a range exactly if it can give one back. -/
theorem freesOwnSlot_iff (h : RangesKnown pre a) {win : MpiWin} :
    FreesOwnSlot a win ↔ (win ∈ a.windows → win ∈ rangedWindows pre) := by
  by_cases hwin : win ∈ a.windows
  · obtain ⟨state, hstate⟩ := exists_getState hwin
    rw [h.tagsOk.freesOwnSlot_iff hstate, h.ranged, List.mem_map]
    obtain ⟨hmem, rfl⟩ := mem_of_getState hstate
    have hpair : (state.stateWin, state.mpiTag) ∈ a.tags := List.mem_map_of_mem hmem
    constructor
    · intro hne _
      exact ⟨_, TagTable.mem_rangedTags.mpr ⟨hpair, hne⟩, rfl⟩
    · intro hranged
      rcases hranged hwin with ⟨p, hp, hpwin⟩
      rcases TagTable.mem_rangedTags.mp hp with ⟨hp, hne⟩
      obtain rfl := List.inj_on_of_nodup_map h.tagsOk.table.nodup hp hpair hpwin
      exact hne
  · apply iff_of_true
    · intro state hstate
      obtain ⟨hmem, rfl⟩ := mem_of_getState hstate
      exact absurd (List.mem_map_of_mem hmem) hwin
    · intro hlive
      exact absurd hlive hwin

end RangesKnown

/-- Along any starts and stops, every used slot belongs to one live window and every window gives
back its own slot exactly if no window is stopped that was started while 32 live windows had a
range. -/
theorem slotAllocator_iff (calls : List TagCall) :
    SlotAllocatorConsistent calls ↔ StopsRangedOnly calls := by
  constructor
  · intro hall pre win a hpre hrun
    exact (RangesKnown.of_run hrun).freesOwnSlot_iff.mp
      ((hall pre a ((List.prefix_append _ _).trans hpre) hrun).2 win hpre)
  · intro hranged pre a hpre hrun
    have hknown := RangesKnown.of_run hrun
    refine ⟨hknown.tagsOk.slotsOwned, fun win hstop => ?_⟩
    exact hknown.freesOwnSlot_iff.mpr (hranged pre win a hstop hrun)

/-- Starts of the analysis of `n` windows of 400 bytes. -/
def starts (n : Nat) : List TagCall :=
  (List.range n).map fun win => .start 4096 400 0 2 win .c none

/-- The 33rd window gets no range.  When it is stopped, the write goes in front of the table. -/
theorem not_slotAllocatorConsistent_of_33_windows :
    (∃ a, run tagCallStep Analyzer.init (starts 33) = .ok a ∧
      tagCallStep a (.stop 32) = .error .outOfBounds) ∧
    ¬ SlotAllocatorConsistent (starts 33 ++ [.stop 32]) := by
  obtain ⟨a, hrun, hstop, hstate⟩ : ∃ a, run tagCallStep Analyzer.init (starts 33) = .ok a ∧
      tagCallStep a (.stop 32) = .error .outOfBounds ∧
      rmaAnalyzerGetState 32 a = .ok (.new 32 4096 400 0 2 (tagOfSlot (-1))) :=
    ⟨_, rfl, rfl, rfl⟩
  refine ⟨⟨a, hrun, hstop⟩, fun hall => ?_⟩
  have hfrees := (hall (starts 33) a (List.prefix_append _ _) hrun).2 32 List.prefix_rfl
  exact ((RangesKnown.of_run hrun).tagsOk.freesOwnSlot_iff hstate).mp hfrees rfl

end ParcoachRma
