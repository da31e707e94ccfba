import ParcoachRma.Epoch

/-!
# Starting and stopping the analysis of a window

`rma_analyzer_start` and `rma_analyzer_stop` with the table of tag ranges, and the wrappers that
create and free windows.

A window gets the range of 1024 tags of the first free slot of the table.  Where no slot is free
the analysis starts all the same, with the tags of slot -1.
-/

namespace ParcoachRma

open Run

def rmaAnalyzerBaseMpiTag : Int := 65535

/-- Maximum number of epochs during the lifetime of a window. -/
def rmaAnalyzerMaxEpochNumber : Int := 1024

/-- Maximum number of windows supported simultaneously. -/
def rmaAnalyzerMaxWin : Nat := 32

/-! ## Tag ranges -/

/-- A new tag range for a new window, -1 if all are in use. -/
def rmaAnalyzerGetTagRangeId (winMpiTagId : List Nat) : Int × List Nat :=
  match winMpiTagId.findIdx? (· = 0) with
  | some i => (i, winMpiTagId.set i 1)
  | none => (-1, winMpiTagId)

/-- Give a tag range back, by its first tag. -/
def rmaAnalyzerFreeTagRange (tagId : Int) (winMpiTagId : List Nat) : Except Fault (List Nat) :=
  let id := (tagId - rmaAnalyzerBaseMpiTag).tdiv rmaAnalyzerMaxEpochNumber
  if 0 ≤ id ∧ id < winMpiTagId.length then .ok (winMpiTagId.set id.toNat 0)
  else .error .outOfBounds

/-- The first tag of the range of a slot. -/
def tagOfSlot (tagId : Int) : Int := rmaAnalyzerBaseMpiTag + rmaAnalyzerMaxEpochNumber * tagId

theorem tagOfSlot_inj {i j : Int} (h : tagOfSlot i = tagOfSlot j) : i = j := by
  unfold tagOfSlot rmaAnalyzerBaseMpiTag rmaAnalyzerMaxEpochNumber at h
  omega

theorem slot_inj {i j : Nat} (h : tagOfSlot i = tagOfSlot j) : i = j :=
  Int.ofNat_inj.mp (tagOfSlot_inj h)

/-- The tags of a slot are not those that stand for none. -/
theorem tagOfSlot_ne_none (i : Nat) : tagOfSlot i ≠ tagOfSlot (-1) := by
  intro heq
  have hneg : (i : Int) = -1 := tagOfSlot_inj heq
  omega

/-- The slot is marked as used. -/
def Used (table : List Nat) (i : Nat) : Prop := ∃ v, table[i]? = some v ∧ v ≠ 0

instance (table : List Nat) (i : Nat) : Decidable (Used table i) :=
  decidable_of_iff (table[i]?.any (· ≠ 0) = true) (by cases h : table[i]? <;> simp [Used, h])

theorem used_set {table : List Nat} {i j v : Nat} (hi : i < table.length) :
    Used (table.set i v) j ↔ if j = i then v ≠ 0 else Used table j := by
  unfold Used
  split_ifs with hj
  · subst hj
    simp [List.getElem?_set_self hi]
  · rw [List.getElem?_set_ne (Ne.symm hj)]

theorem used_of_ne_zero {table : List Nat} {i : Nat} (hi : i < table.length)
    (hne : table[i] ≠ 0) : Used table i :=
  ⟨table[i], List.getElem?_eq_getElem hi, hne⟩

/-- The first free slot is taken; where none is free, the table is left as it is. -/
theorem getTagRangeId_spec {table table' : List Nat} {tagId : Int}
    (h : rmaAnalyzerGetTagRangeId table = (tagId, table')) :
    tagId = -1 ∧ table' = table ∧ (∀ i, i < table.length → Used table i) ∨
    ∃ i : Nat, i < table.length ∧ tagId = i ∧ table' = table.set i 1 ∧ ¬ Used table i ∧
      ∀ j < i, Used table j := by
  unfold rmaAnalyzerGetTagRangeId at h
  cases hfind : table.findIdx? (· = 0) with
  | none =>
      rw [hfind] at h
      cases h
      refine .inl ⟨rfl, rfl, fun i hi => used_of_ne_zero hi ?_⟩
      simpa using List.findIdx?_eq_none_iff.mp hfind _ (List.getElem_mem hi)
  | some i =>
      rw [hfind] at h
      cases h
      obtain ⟨hi, hfree, hlower⟩ := List.findIdx?_eq_some_iff_getElem.mp hfind
      refine .inr ⟨i, hi, rfl, rfl, fun ⟨v, hv, hne⟩ => hne ?_, fun j hj => ?_⟩
      · rw [List.getElem?_eq_getElem hi] at hv
        rw [← Option.some.inj hv]
        simpa using hfree
      · exact used_of_ne_zero (hj.trans hi) (by simpa using hlower j hj)

/-- The slot is recovered from the first tag of its range. -/
theorem slot_of_tagOfSlot (tagId : Int) :
    (tagOfSlot tagId - rmaAnalyzerBaseMpiTag).tdiv rmaAnalyzerMaxEpochNumber = tagId := by
  unfold tagOfSlot rmaAnalyzerMaxEpochNumber
  rw [add_sub_cancel_left, Int.mul_tdiv_cancel_left _ (by decide)]

theorem freeTagRange_tagOfSlot {table : List Nat} {i : Nat} (hi : i < table.length) :
    rmaAnalyzerFreeTagRange (tagOfSlot i) table = .ok (table.set i 0) := by
  simp only [rmaAnalyzerFreeTagRange, slot_of_tagOfSlot]
  rw [if_pos ⟨by omega, by omega⟩]
  rfl

/-- A range that is given back leaves its slot free; the range of slot -1 cannot be given back. -/
theorem freeTagRange_spec {table table' : List Nat} {tagId : Int}
    (h : rmaAnalyzerFreeTagRange (tagOfSlot tagId) table = .ok table') :
    ∃ i : Nat, i < table.length ∧ tagId = i ∧ table' = table.set i 0 := by
  simp only [rmaAnalyzerFreeTagRange, slot_of_tagOfSlot] at h
  split_ifs at h with hrange
  refine ⟨tagId.toNat, by omega, by omega, (Except.ok.inj h).symm⟩

/-! ## Start and stop -/

/-- Initialise the analyzer for a window.  `filterWindow` is the value of
`RMA_ANALYZER_FILTER_WINDOW`, if it is set; `sizeComm` is the size of the communicator. -/
def rmaAnalyzerStart (base size : UInt64) (comm : MpiComm) (sizeComm : Nat) (win : MpiWin)
    (language : Lang) (filterWindow : Option Int) (a : Analyzer) : Except Fault Analyzer :=
  if a.languageProgram = .none ∨ a.languageProgram = language then
    let (tagId, winMpiTagId) := rmaAnalyzerGetTagRangeId a.winMpiTagId
    .ok { a with
      languageProgram := language
      filterWindow := filterWindow.getD a.filterWindow
      winMpiTagId := winMpiTagId
      stateHtbl := a.stateHtbl ++
        [RmaAnalyzerState.new win base size comm sizeComm (tagOfSlot tagId)] }
  else .error .assertion

/-- Starting adds the record of the window to the table, and leaves the threads alone. -/
theorem rmaAnalyzerStart_spec {base size : UInt64} {comm : MpiComm} {sizeComm : Nat} {win : MpiWin}
    {language : Lang} {filterWindow : Option Int} {a a' : Analyzer} (fresh : win ∉ a.windows)
    (h : rmaAnalyzerStart base size comm sizeComm win language filterWindow a = .ok a') :
    rmaAnalyzerGetState win a' = .ok (RmaAnalyzerState.new win base size comm sizeComm
        (tagOfSlot (rmaAnalyzerGetTagRangeId a.winMpiTagId).1)) ∧
      a'.filterWindow = filterWindow.getD a.filterWindow ∧
      a'.threads = a.threads ∧ a'.nextThread = a.nextThread := by
  unfold rmaAnalyzerStart at h
  split_ifs at h
  generalize rmaAnalyzerGetTagRangeId a.winMpiTagId = range at h ⊢
  rcases range with ⟨tagId, table⟩
  rw [← Except.ok.inj h]
  have hnone : a.stateHtbl.find? (·.stateWin = win) = none := by
    apply List.find?_eq_none.mpr
    intro t ht
    simpa using fun heq => fresh (List.mem_map.mpr ⟨t, ht, heq⟩)
  refine ⟨?_, rfl, rfl, rfl⟩
  simp [rmaAnalyzerGetState, List.find?_append, hnone, RmaAnalyzerState.new]

/-- Free the resources used by the analyzer for a window. -/
def rmaAnalyzerStop (win : MpiWin) (a : Analyzer) : Except Fault Analyzer := do
  let state ← rmaAnalyzerGetState win a
  let winMpiTagId ← rmaAnalyzerFreeTagRange state.mpiTag a.winMpiTagId
  return { a with
    winMpiTagId := winMpiTagId
    stateHtbl := a.stateHtbl.filter (·.stateWin ≠ win) }

/-! ## Wrappers -/

/-- The displacement unit and the info object go to the MPI library only. -/
def newWinCreate (base size : UInt64) (comm : MpiComm) (sizeComm : Nat) (win : MpiWin)
    (filterWindow : Option Int) (a : Analyzer) : Except Fault Analyzer :=
  rmaAnalyzerStart base size comm sizeComm win .c filterWindow a

/-- The last thread created by a fence is cleared here, without waiting for communications. -/
def newWinFree (win : MpiWin) (a : Analyzer) : Except Fault Analyzer := do
  let state ← rmaAnalyzerGetState win a
  let a ← (if state.countFence > 0 then rmaAnalyzerClearCommCheckThread false 0 win a else .ok a)
  rmaAnalyzerStop win a

/-- The handles and first tags of the windows. -/
def Analyzer.tags (a : Analyzer) : List (MpiWin × Int) :=
  a.stateHtbl.map fun s => (s.stateWin, s.mpiTag)

theorem windows_eq_map_tags (a : Analyzer) : a.windows = a.tags.map Prod.fst := by
  simp [Analyzer.windows, Analyzer.tags, Function.comp_def]

/-- A window is added to the table with the range that has been taken. -/
theorem rmaAnalyzerStart_range {base size : UInt64} {comm : MpiComm} {sizeComm : Nat}
    {win : MpiWin} {language : Lang} {filterWindow : Option Int} {a a' : Analyzer}
    (h : rmaAnalyzerStart base size comm sizeComm win language filterWindow a = .ok a') :
    ∃ tagId table, rmaAnalyzerGetTagRangeId a.winMpiTagId = (tagId, table) ∧
      a'.winMpiTagId = table ∧ a'.stateHtbl = a.stateHtbl ++
        [RmaAnalyzerState.new win base size comm sizeComm (tagOfSlot tagId)] := by
  unfold rmaAnalyzerStart at h
  split_ifs at h
  obtain rfl := Except.ok.inj h
  exact ⟨_, _, rfl, rfl, rfl⟩

theorem newWinCreate_spec {base size : UInt64} {comm : MpiComm} {sizeComm : Nat} {win : MpiWin}
    {filterWindow : Option Int} {a a' : Analyzer}
    (h : newWinCreate base size comm sizeComm win filterWindow a = .ok a') :
    ∃ tagId table, rmaAnalyzerGetTagRangeId a.winMpiTagId = (tagId, table) ∧
      a'.winMpiTagId = table ∧ a'.stateHtbl = a.stateHtbl ++
        [RmaAnalyzerState.new win base size comm sizeComm (tagOfSlot tagId)] :=
  rmaAnalyzerStart_range h

/-- A window is removed from the table and its range given back. -/
theorem rmaAnalyzerStop_spec {win : MpiWin} {a a' : Analyzer}
    (h : rmaAnalyzerStop win a = .ok a') :
    ∃ state table, rmaAnalyzerGetState win a = .ok state ∧
      rmaAnalyzerFreeTagRange state.mpiTag a.winMpiTagId = .ok table ∧
      a'.winMpiTagId = table ∧ a'.tags = a.tags.filter (·.1 ≠ win) := by
  obtain ⟨state, hstate, h⟩ := bind_ok.mp h
  obtain ⟨table, htable, h⟩ := bind_ok.mp h
  obtain rfl := Except.ok.inj h
  refine ⟨state, table, hstate, htable, rfl, ?_⟩
  simp only [Analyzer.tags, List.filter_map, Function.comp_def]

/-- A process at its start. -/
def Analyzer.init : Analyzer where
  stateHtbl := []
  winMpiTagId := List.replicate rmaAnalyzerMaxWin 0
  languageProgram := .none
  filterWindow := 1
  threads := []
  nextThread := 0
  nextObject := 0

end ParcoachRma
