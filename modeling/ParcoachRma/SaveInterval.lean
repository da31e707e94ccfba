import ParcoachRma.State

/-!
# Saving intervals

`rma_analyzer_save_interval` in its two builds, the registration and clearing of notified
intervals, and the `LOAD`/`STORE` path that saves an access in all active windows.  The functions
on one window take its record; the table lookup that fetches the record is in the callers that
work on the table.

The mutexes are left to the lock model; each function here is one critical section.
-/

namespace ParcoachRma

/-- The window filter: it is off, or both bounds lie inside the window. -/
def admits (filterWindow : Int) (state : RmaAnalyzerState) (itv : Interval) : Bool :=
  filterWindow == 0 ||
    (decide (itv.lowBound ≥ state.winBase) &&
      decide (itv.upBound < state.winBase + state.winSize))

/-- The filter depends on the bounds of the window only. -/
theorem admits_congr {filterWindow : Int} {w state : RmaAnalyzerState}
    (hb : state.winBase = w.winBase) (hs : state.winSize = w.winSize) (itv : Interval) :
    admits filterWindow state itv = admits filterWindow w itv := by
  simp only [admits, hb, hs]

/-- The report on a conflict between an access and one that was saved before. -/
def conflictReport (itv overlapItv : Interval) : String :=
  "Error when inserting memory access of type " ++ accessTypeToStr itv.accessType ++
  " from file " ++ itv.filename ++ " at line " ++ toString itv.line ++
  " with already inserted interval of type " ++ accessTypeToStr overlapItv.accessType ++
  " from file " ++ overlapItv.filename ++ " at line " ++ toString overlapItv.line ++ ".\n" ++
  "The program will be exiting now with MPI_Abort.\n"

/-- Save the interval with notification, so that it can be purged at wait time.  An interval with
a negative id is not registered. -/
def rmaAnalyzerSaveNotif (itv : IntervalPtr) (state : RmaAnalyzerState) : RmaAnalyzerState :=
  if itv.itv.notificationId < 0 then state
  else { state with notifTree := insertNotifTree state.notifTree itv }

/-- Save the interval so that future intersections can be detected (`USE_TREE`).  Returns 1 if the
interval has been saved, 0 if it has been filtered out; a conflict aborts the program. -/
def rmaAnalyzerSaveInterval (filterWindow : Int) (state : RmaAnalyzerState) (itv : IntervalPtr) :
    Except Fault (Nat × RmaAnalyzerState) :=
  if admits filterWindow state itv.itv then
    match overlapSearch state.localTree itv with
    | some overlapItv => .error (.mpiAbort (conflictReport itv.itv overlapItv.itv))
    | none =>
        .ok (1, rmaAnalyzerSaveNotif itv
          { state with localTree := insertIntervalTree state.localTree itv })
  else .ok (0, state)

/-- The same function in the `USE_LIST` build, which aborts without a report. -/
def rmaAnalyzerSaveIntervalUseList (filterWindow : Int) (state : RmaAnalyzerState)
    (itv : IntervalPtr) : Except Fault (Nat × RmaAnalyzerState) :=
  if admits filterWindow state itv.itv then
    if ifIntersectsIntervalList itv.itv state.localList then .error (.mpiAbort "")
    else .ok (1, { state with localList := insertIntervalHead state.localList itv.itv })
  else .ok (0, state)

/-- Registering a notification changes no other field of the record. -/
theorem rmaAnalyzerSaveNotif_eq (p : IntervalPtr) (state : RmaAnalyzerState) :
    ∃ t, rmaAnalyzerSaveNotif p state = { state with notifTree := t } := by
  unfold rmaAnalyzerSaveNotif
  split_ifs
  · exact ⟨state.notifTree, rfl⟩
  · exact ⟨_, rfl⟩

/-- A save that returns changes the two trees of the record at most. -/
theorem rmaAnalyzerSaveInterval_eq {filterWindow : Int} {state state' : RmaAnalyzerState}
    {itv : IntervalPtr} {saved : Nat}
    (h : rmaAnalyzerSaveInterval filterWindow state itv = .ok (saved, state')) :
    ∃ localTree notifTree,
      state' = { state with localTree := localTree, notifTree := notifTree } := by
  unfold rmaAnalyzerSaveInterval at h
  split at h
  · split at h
    · cases h
    · obtain ⟨t, ht⟩ := rmaAnalyzerSaveNotif_eq itv
        { state with localTree := insertIntervalTree state.localTree itv }
      rw [ht] at h
      cases h
      exact ⟨_, t, rfl⟩
  · cases h
    exact ⟨state.localTree, state.notifTree, rfl⟩

/-- The interval goes into the tree unless the filter refuses it. -/
theorem localTree_saveInterval {filterWindow : Int} {state state' : RmaAnalyzerState}
    {itv : IntervalPtr} {saved : Nat}
    (h : rmaAnalyzerSaveInterval filterWindow state itv = .ok (saved, state')) :
    state'.localTree = if admits filterWindow state itv.itv then
      insertIntervalTree state.localTree itv else state.localTree := by
  unfold rmaAnalyzerSaveInterval at h
  split_ifs at h ⊢ with hadm
  · split at h
    · cases h
    · obtain ⟨t, ht⟩ := rmaAnalyzerSaveNotif_eq itv
        { state with localTree := insertIntervalTree state.localTree itv }
      rw [ht] at h
      cases h
      rfl
  · cases h
    rfl

/-- A save that does not return reports the stored interval the search has found. -/
theorem report_of_save {filterWindow : Int} {state : RmaAnalyzerState} {itv : IntervalPtr}
    {fault : Fault} (h : rmaAnalyzerSaveInterval filterWindow state itv = .error fault) :
    admits filterWindow state itv.itv = true ∧ ∃ o, overlapSearch state.localTree itv = some o ∧
      fault = .mpiAbort (conflictReport itv.itv o.itv) := by
  unfold rmaAnalyzerSaveInterval at h
  split at h
  · rename_i hadm
    split at h <;> cases h
    exact ⟨hadm, _, ‹_›, rfl⟩
  · cases h

/-! ## Notifications -/

/-- Delete the interval from the local tree. -/
def rmaAnalyzerDeleteInterval (itv : Option IntervalPtr) (state : RmaAnalyzerState) :
    Except Fault RmaAnalyzerState :=
  return { state with localTree := ← deleteIntervalTree state.localTree itv }

/-- Clear in the local tree and in the notification tree the interval associated to the
notification id. -/
def rmaAnalyzerClearFromNotifId (state : RmaAnalyzerState) (notifId : Int) :
    Except Fault RmaAnalyzerState :=
  if notifId < 0 then .ok state
  else do
    let itv := findIntervalFromNotif state.notifTree notifId
    let state ← rmaAnalyzerDeleteInterval itv state
    return { state with notifTree := deleteNotifTree state.notifTree notifId }

/-! ## Instrumented loads and stores -/

/-- Save the interval in one window of the table, if it has an active epoch.  An interval that
the filter refuses is freed. -/
def saveIntervalInWin (itv : Interval) (a : Analyzer) (win : MpiWin) : Except Fault Analyzer := do
  if ← rmaAnalyzerIsActiveEpoch win a then
    let (savedItv, a) := a.malloc itv
    let state ← rmaAnalyzerGetState win a
    let (_, state) ← rmaAnalyzerSaveInterval a.filterWindow state savedItv
    return a.setState state
  else return a

/-- The interval that is saved for an access of `size + 1` bytes. -/
def accessInterval (address size : UInt64) (accessType : AccessType) (fileline : Int)
    (filename : Option String) : Interval :=
  createInterval address (address + size) accessType (-1) fileline filename

/-- Save the access in all active windows. -/
def rmaAnalyzerSaveIntervalAllWins (address size : UInt64) (accessType : AccessType)
    (fileline : Int) (filename : Option String) (a : Analyzer) : Except Fault Analyzer :=
  a.windows.foldlM (saveIntervalInWin (accessInterval address size accessType fileline filename)) a

/-- The hook before an instrumented store of `size` bits. -/
def store (addr size : UInt64) (line : Int) (filename : Option String) (a : Analyzer) :
    Except Fault Analyzer :=
  rmaAnalyzerSaveIntervalAllWins addr (size / 8 - 1) .localWrite line filename a

/-- The hook before an instrumented load of `size` bits. -/
def load (addr size : UInt64) (line : Int) (filename : Option String) (a : Analyzer) :
    Except Fault Analyzer :=
  rmaAnalyzerSaveIntervalAllWins addr (size / 8 - 1) .localRead line filename a

end ParcoachRma
