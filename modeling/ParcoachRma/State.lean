import ParcoachRma.IntervalStores
import ParcoachRma.Lib.Run

/-!
# The state of the analyzer

`RmaAnalyzerState` is the record the analyzer keeps for one window (`rma_analyzer.h`), `Analyzer`
the global state of one process: the table of these records in insertion order, the table of tag
ranges, the settings, and of the world around it the checking threads that have been created and
not yet joined and the next free address of the heap.

`int` fields that only count are natural numbers; signed overflow is undefined in the source.
-/

namespace ParcoachRma

/-- A window handle of the MPI library. -/
abbrev MpiWin := Nat

/-- A communicator handle of the MPI library. -/
abbrev MpiComm := Nat

/-- Programming language used by the origin program. -/
inductive Lang where
  | none
  | c
  | fort
  deriving DecidableEq, Repr

/-- The state of the analyzer associated to a specific window.  The counters of `array` are
indexed by rank. -/
structure RmaAnalyzerState where
  stateWin : MpiWin
  threadId : Option Nat
  winBase : UInt64
  winSize : UInt64
  winComm : MpiComm
  localList : List Interval
  localTree : IntervalTree
  notifTree : NotifTree
  sizeComm : Nat
  mpiTag : Int
  array : Nat → Nat
  value : Nat
  threadEnd : Nat
  countEpoch : Nat
  countFence : Nat
  count : Nat
  activeEpoch : Nat
  fromSync : Nat

/-- The tag of the messages and receives of the current epoch. -/
def RmaAnalyzerState.currentTag (state : RmaAnalyzerState) : Int :=
  state.mpiTag + state.countEpoch

/-- The record of a window that has just been made, with the first tag of its range. -/
def RmaAnalyzerState.new (win : MpiWin) (base size : UInt64) (comm : MpiComm) (sizeComm : Nat)
    (mpiTag : Int) : RmaAnalyzerState where
  stateWin := win
  threadId := none
  winBase := base
  winSize := size
  winComm := comm
  localList := []
  localTree := .nil
  notifTree := .nil
  sizeComm := sizeComm
  mpiTag := mpiTag
  array := fun _ => 0
  value := 0
  threadEnd := 0
  countEpoch := 0
  countFence := 0
  count := 0
  activeEpoch := 0
  fromSync := 0

/-- The global state of the analyzer in one process. -/
structure Analyzer where
  stateHtbl : List RmaAnalyzerState
  winMpiTagId : List Nat
  languageProgram : Lang
  filterWindow : Int
  threads : List (Nat × MpiWin)
  nextThread : Nat
  nextObject : Nat

/-! ## The table of windows -/

/-- Get the analyzer state associated to the window. -/
def rmaAnalyzerGetState (win : MpiWin) (a : Analyzer) : Except Fault RmaAnalyzerState :=
  match a.stateHtbl.find? (·.stateWin = win) with
  | some state => .ok state
  | none => .error .exitFailure

/-- Write the record of a window back to the table. -/
def Analyzer.setState (state : RmaAnalyzerState) (a : Analyzer) : Analyzer :=
  { a with stateHtbl :=
      a.stateHtbl.map fun s => if s.stateWin = state.stateWin then state else s }

theorem mem_of_getState {win : MpiWin} {a : Analyzer} {state : RmaAnalyzerState}
    (h : rmaAnalyzerGetState win a = .ok state) :
    state ∈ a.stateHtbl ∧ state.stateWin = win := by
  unfold rmaAnalyzerGetState at h
  split at h
  · rename_i s hs
    cases h
    exact ⟨List.mem_of_find?_eq_some hs, by simpa using List.find?_some hs⟩
  · cases h

theorem mem_setState {s state : RmaAnalyzerState} {a : Analyzer}
    (h : s ∈ (a.setState state).stateHtbl) :
    s = state ∨ s ∈ a.stateHtbl ∧ s.stateWin ≠ state.stateWin := by
  obtain ⟨r, hr, rfl⟩ := List.mem_map.mp h
  split_ifs with heq
  · exact .inl rfl
  · exact .inr ⟨hr, heq⟩

/-- The record that is written back under its handle is the one that is found. -/
theorem getState_setState {win : MpiWin} {a : Analyzer} {state state' : RmaAnalyzerState}
    (h : rmaAnalyzerGetState win a = .ok state) (hwin : state'.stateWin = win) :
    rmaAnalyzerGetState win (a.setState state') = .ok state' := by
  unfold rmaAnalyzerGetState at *
  have hfind : (a.setState state').stateHtbl.find? (·.stateWin = win) =
      (a.stateHtbl.find? (·.stateWin = win)).map fun _ => state' := by
    rw [Analyzer.setState, hwin]
    induction a.stateHtbl with
    | nil => rfl
    | cons s rest ih =>
        by_cases hs : s.stateWin = win
        · simp [hs, hwin]
        · simpa [hs] using ih
  rw [hfind]
  split at h
  · rename_i s hs
    rw [hs]
    rfl
  · cases h

/-- The windows of the table, in the order they were added. -/
def Analyzer.windows (a : Analyzer) : List MpiWin := a.stateHtbl.map (·.stateWin)

@[simp] theorem windows_setState (state : RmaAnalyzerState) (a : Analyzer) :
    (a.setState state).windows = a.windows := by
  simp only [Analyzer.windows, Analyzer.setState, List.map_map]
  apply List.map_congr_left
  intro s _
  simp only [Function.comp_apply]
  split_ifs with heq
  · exact heq.symm
  · rfl

/-- A window of the table has a record. -/
theorem exists_getState {win : MpiWin} {a : Analyzer} (hwin : win ∈ a.windows) :
    ∃ state, rmaAnalyzerGetState win a = .ok state := by
  obtain ⟨s, hs, rfl⟩ := List.mem_map.mp hwin
  have hsome : (a.stateHtbl.find? (·.stateWin = s.stateWin)).isSome = true :=
    List.find?_isSome.mpr ⟨s, hs, by simp⟩
  obtain ⟨state, hfind⟩ := Option.isSome_iff_exists.mp hsome
  exact ⟨state, by rw [rmaAnalyzerGetState, hfind]⟩

/-- Check if there is an active epoch on the window. -/
def rmaAnalyzerIsActiveEpoch (win : MpiWin) (a : Analyzer) : Except Fault Bool :=
  return decide ((← rmaAnalyzerGetState win a).activeEpoch > 0)

/-! ## Objects and threads -/

/-- A fresh object holding the interval. -/
def Analyzer.malloc (itv : Interval) (a : Analyzer) : IntervalPtr × Analyzer :=
  (⟨a.nextObject, itv⟩, { a with nextObject := a.nextObject + 1 })

/-- Create the checking thread of a window, under a new thread id. -/
def Analyzer.pthreadCreate (win : MpiWin) (a : Analyzer) : Nat × Analyzer :=
  (a.nextThread,
    { a with threads := (a.nextThread, win) :: a.threads, nextThread := a.nextThread + 1 })

/-- Wait for a thread to end.  A thread id that was never set, or whose thread has been joined,
has no thread to wait for. -/
def Analyzer.pthreadJoin (threadId : Option Nat) (a : Analyzer) : Except Fault Analyzer :=
  match threadId with
  | none => .error .undefinedJoin
  | some tid =>
      if tid ∈ a.threads.map Prod.fst then
        .ok { a with threads := a.threads.filter (·.1 ≠ tid) }
      else .error .undefinedJoin

theorem pthreadJoin_ok {threadId : Option Nat} {a a' : Analyzer} :
    a.pthreadJoin threadId = .ok a' ↔
      ∃ tid, threadId = some tid ∧ tid ∈ a.threads.map Prod.fst ∧
        { a with threads := a.threads.filter (·.1 ≠ tid) } = a' := by
  cases threadId with
  | none => simp [Analyzer.pthreadJoin]
  | some tid =>
      simp only [Analyzer.pthreadJoin, Option.some.injEq, exists_eq_left']
      split_ifs with hmem <;> simp [hmem]

end ParcoachRma
