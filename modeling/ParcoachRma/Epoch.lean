import ParcoachRma.State

/-!
# Epochs

Opening and closing the epoch of a window: `rma_analyzer_init_comm_check_thread` and
`rma_analyzer_clear_comm_check_thread`, their variants for all windows, and the wrappers of the
synchronisation calls.  What `MPI_Reduce` leaves in `tmp` is an argument; the communication it
stands for is in the protocol model.

`initCommCheckThread_spec` and `clearCommCheckThread_spec` say all that a call that returns has
done.
-/

namespace ParcoachRma

open Run

/-! ## The record of a window over an epoch -/

/-- Open the next epoch: no interval sent yet, and no end requested. -/
def RmaAnalyzerState.enterEpoch (state : RmaAnalyzerState) : RmaAnalyzerState :=
  { state with
    array := fun i => if i < state.sizeComm then 0 else state.array i
    threadEnd := 0
    countEpoch := state.countEpoch + 1
    activeEpoch := 1 }

/-- Tell the checking thread how many intervals to wait for, and that it has to end then. -/
def RmaAnalyzerState.requestEnd (value : Nat) (state : RmaAnalyzerState) : RmaAnalyzerState :=
  { state with value := value, threadEnd := 1 }

/-- Clear the state of the checking thread once it has ended. -/
def RmaAnalyzerState.leaveEpoch (state : RmaAnalyzerState) : RmaAnalyzerState :=
  { state with count := 0, activeEpoch := 0 }

/-- Free the interval tree and the notification tree. -/
def RmaAnalyzerState.freeTrees (state : RmaAnalyzerState) : Except Fault RmaAnalyzerState :=
  match freeIntervalTree state.localTree, freeNotifTree state.notifTree with
  | some localTree, some notifTree =>
      .ok { state with localTree := localTree, notifTree := notifTree }
  | _, _ => .error .doesNotReturn

theorem RmaAnalyzerState.eq_of_freeTrees {state state' : RmaAnalyzerState}
    (h : state.freeTrees = .ok state') :
    ∃ localTree notifTree,
      state' = { state with localTree := localTree, notifTree := notifTree } := by
  unfold RmaAnalyzerState.freeTrees at h
  split at h
  · cases h
    exact ⟨_, _, rfl⟩
  · cases h

/-! ## The checking thread of a window -/

/-- Initialise the state variables the checking thread works with, and start it. -/
def rmaAnalyzerInitCommCheckThread (win : MpiWin) (a : Analyzer) : Except Fault Analyzer := do
  let state ← rmaAnalyzerGetState win a
  let (threadId, a) := a.pthreadCreate win
  return a.setState { state.enterEpoch with threadId := some threadId }

/-- Wait for the checking thread to end and clear its state.  `tmp` is what the reductions leave
with this process, if they are asked for. -/
def rmaAnalyzerClearCommCheckThread (doReduce : Bool) (tmp : Nat) (win : MpiWin)
    (a : Analyzer) : Except Fault Analyzer := do
  let state ← rmaAnalyzerGetState win a
  let state := state.requestEnd (if doReduce then tmp else 0)
  let a ← a.pthreadJoin state.threadId
  let state ← state.leaveEpoch.freeTrees
  return a.setState state

/-- Starting creates a new thread and enters the epoch in the record. -/
theorem initCommCheckThread_spec {win : MpiWin} {a a' : Analyzer}
    (h : rmaAnalyzerInitCommCheckThread win a = .ok a') :
    ∃ state, rmaAnalyzerGetState win a = .ok state ∧
      (a.pthreadCreate win).2.setState
        { state.enterEpoch with threadId := some a.nextThread } = a' := by
  obtain ⟨state, hstate, h⟩ := bind_ok.mp h
  exact ⟨state, hstate, Except.ok.inj h⟩

/-- Clearing joins the thread of the record, which has to be there, leaves the epoch and replaces
the trees. -/
theorem clearCommCheckThread_spec {doReduce : Bool} {tmp : Nat} {win : MpiWin} {a a' : Analyzer}
    (h : rmaAnalyzerClearCommCheckThread doReduce tmp win a = .ok a') :
    ∃ state threadId value localTree notifTree, rmaAnalyzerGetState win a = .ok state ∧
      state.threadId = some threadId ∧ threadId ∈ a.threads.map Prod.fst ∧
      ({ a with threads := a.threads.filter (·.1 ≠ threadId) } : Analyzer).setState
        { (state.requestEnd value).leaveEpoch with
          localTree := localTree, notifTree := notifTree } = a' := by
  obtain ⟨state, hstate, h⟩ := bind_ok.mp h
  obtain ⟨b, hjoin, h⟩ := bind_ok.mp h
  obtain ⟨state', hfree, h⟩ := bind_ok.mp h
  obtain ⟨threadId, htid, hmem, rfl⟩ := pthreadJoin_ok.mp hjoin
  obtain ⟨localTree, notifTree, rfl⟩ := RmaAnalyzerState.eq_of_freeTrees hfree
  exact ⟨state, threadId, _, localTree, notifTree, hstate, htid, hmem, Except.ok.inj h⟩

/-- On a live window, initialising returns. -/
theorem initCommCheckThread_of_getState {win : MpiWin} {a : Analyzer} {state : RmaAnalyzerState}
    (hstate : rmaAnalyzerGetState win a = .ok state) :
    rmaAnalyzerInitCommCheckThread win a = .ok ((a.pthreadCreate win).2.setState
      { state.enterEpoch with threadId := some a.nextThread }) :=
  bind_ok.mpr ⟨state, hstate, rfl⟩

/-- With its thread there and nothing stored, clearing returns. -/
theorem clearCommCheckThread_of_getState {doReduce : Bool} {tmp : Nat} {win : MpiWin}
    {a : Analyzer} {state : RmaAnalyzerState} {threadId : Nat}
    (hstate : rmaAnalyzerGetState win a = .ok state) (htid : state.threadId = some threadId)
    (hmem : threadId ∈ a.threads.map Prod.fst) (hlocal : state.localTree = .nil)
    (hnotif : state.notifTree = .nil) :
    rmaAnalyzerClearCommCheckThread doReduce tmp win a =
      .ok (({ a with threads := a.threads.filter (·.1 ≠ threadId) } : Analyzer).setState
        (state.requestEnd (if doReduce then tmp else 0)).leaveEpoch) := by
  refine bind_ok.mpr ⟨state, hstate, bind_ok.mpr ⟨_, pthreadJoin_ok.mpr ⟨threadId, htid, hmem,
    rfl⟩, bind_ok.mpr ⟨_, ?_, rfl⟩⟩⟩
  simp [RmaAnalyzerState.freeTrees, RmaAnalyzerState.leaveEpoch, RmaAnalyzerState.requestEnd,
    hlocal, hnotif, freeIntervalTree, freeNotifTree, AvlTree.freeLoop]

/-! ## All windows -/

/-- Start the checking thread of a window that a synchronisation has cleared. -/
def initInWin (a : Analyzer) (win : MpiWin) : Except Fault Analyzer := do
  let current ← rmaAnalyzerGetState win a
  if (← rmaAnalyzerIsActiveEpoch win a) = false ∧ current.fromSync = 1 then
    rmaAnalyzerInitCommCheckThread win a
  else return a

/-- Start the checking thread on all windows that have been cleared by a synchronisation. -/
def rmaAnalyzerInitCommCheckThreadAllWins (a : Analyzer) : Except Fault Analyzer :=
  a.windows.foldlM initInWin a

/-- Clear the checking thread of a window, if it has an active epoch, and remember that a
synchronisation did it. -/
def clearInWin (doReduce : Bool) (tmp : MpiWin → Nat) (a : Analyzer) (win : MpiWin) :
    Except Fault Analyzer := do
  if ← rmaAnalyzerIsActiveEpoch win a then
    let a ← rmaAnalyzerClearCommCheckThread doReduce (tmp win) win a
    let current ← rmaAnalyzerGetState win a
    return a.setState { current with fromSync := 1 }
  else return a

/-- Clear the checking thread on all windows with an active epoch. -/
def rmaAnalyzerClearCommCheckThreadAllWins (doReduce : Bool) (tmp : MpiWin → Nat)
    (a : Analyzer) : Except Fault Analyzer :=
  a.windows.foldlM (clearInWin doReduce tmp) a

/-! ## Synchronisation calls -/

def newWinLockAll (win : MpiWin) (a : Analyzer) : Except Fault Analyzer :=
  rmaAnalyzerInitCommCheckThread win a

def newWinUnlockAll (tmp : Nat) (win : MpiWin) (a : Analyzer) : Except Fault Analyzer :=
  rmaAnalyzerClearCommCheckThread true tmp win a

/-- A fence after the first one ends an epoch before it opens the next. -/
def newWinFence (tmp : Nat) (win : MpiWin) (a : Analyzer) : Except Fault Analyzer := do
  let state ← rmaAnalyzerGetState win a
  let a ← (if state.countFence > 0 then rmaAnalyzerClearCommCheckThread true tmp win a else .ok a)
  let state ← rmaAnalyzerGetState win a
  rmaAnalyzerInitCommCheckThread win
    (a.setState { state with countFence := state.countFence + 1 })

/-- A barrier resets and restarts the state of all active windows. -/
def newBarrier (tmp : MpiWin → Nat) (a : Analyzer) : Except Fault Analyzer := do
  let a ← rmaAnalyzerClearCommCheckThreadAllWins true tmp a
  rmaAnalyzerInitCommCheckThreadAllWins a

end ParcoachRma
