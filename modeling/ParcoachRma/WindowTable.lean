import ParcoachRma.Lifecycle
import ParcoachRma.Transfer
import ParcoachRma.UtHashSpec

/-!
# The records of the windows in memory

The analyzer with its records at their addresses and the table of `uthash.h` that leads to them.
Every function looks the record up by the handle of the window, and goes on with the pointer.  The
record of a window that has been freed is taken out of the table; it stays allocated.

One call is one step here: what a checking thread looks up while the application changes the table
is not modelled.
-/

namespace ParcoachRma

/-- What may happen instead of returning: what the analyzer does, or a fault of the memory. -/
inductive TableFault where
  | analyzer (f : Fault)
  | table (f : UtHashFault)
  /-- A write through the null pointer that the allocator returns when it has no memory. -/
  | outOfMemory
  /-- What no allocator does: to give out an address in use. -/
  | notEnabled
  deriving DecidableEq, Repr

/-- The allocator has no memory left; or it gives out an address in use, which it does not do. -/
def TableFault.AllocatorFails (f : TableFault) : Prop :=
  f = .table .outOfMemory ∨ f = .outOfMemory ∨ f = .notEnabled

/-- The global state of the analyzer in one process, with the records and their table in memory. -/
structure TableMemory where
  stateHtbl : UtHash RmaAnalyzerState
  winMpiTagId : List Nat
  languageProgram : Lang
  filterWindow : Int
  threads : List (Nat × MpiWin)
  nextThread : Nat
  nextObject : Nat

namespace TableMemory

/-- A process at its start.  What is in the memory then does not matter. -/
def init (stateHtbl : UtHash RmaAnalyzerState) : TableMemory where
  stateHtbl := { stateHtbl with head := none }
  winMpiTagId := List.replicate rmaAnalyzerMaxWin 0
  languageProgram := .none
  filterWindow := 1
  threads := []
  nextThread := 0
  nextObject := 0

/-! ## Access -/

/-- The record at a pointer. -/
def read (state : Nat) (m : TableMemory) : Except TableFault RmaAnalyzerState := do
  let p ← (m.stateHtbl.deref (some state)).mapError .table
  return m.stateHtbl.elmt p

/-- A write to the record at a pointer. -/
def write (state : Nat) (record : RmaAnalyzerState) (m : TableMemory) :
    Except TableFault TableMemory := do
  let p ← (m.stateHtbl.deref (some state)).mapError .table
  return { m with
    stateHtbl := { m.stateHtbl with elmt := Function.update m.stateHtbl.elmt p record } }

def malloc (itv : Interval) (m : TableMemory) : IntervalPtr × TableMemory :=
  (⟨m.nextObject, itv⟩, { m with nextObject := m.nextObject + 1 })

def pthreadCreate (win : MpiWin) (m : TableMemory) : Nat × TableMemory :=
  (m.nextThread,
    { m with threads := (m.nextThread, win) :: m.threads, nextThread := m.nextThread + 1 })

def pthreadJoin (threadId : Option Nat) (m : TableMemory) : Except TableFault TableMemory :=
  match threadId with
  | none => .error (.analyzer .undefinedJoin)
  | some tid =>
      if tid ∈ m.threads.map Prod.fst then
        .ok { m with threads := m.threads.filter (·.1 ≠ tid) }
      else .error (.analyzer .undefinedJoin)

/-! ## The functions of the analyzer -/

/-- `HASH_FCN` on the eight bytes of a handle, the lowest first. -/
def hashWin (win : MpiWin) : UInt32 :=
  hashJen ((List.range 8).map fun i => (UInt8.ofNat (win / 256 ^ i)).toInt8)

section Calls

-- `HASH_FCN` on the bytes of the handle.
variable (hashFcn : MpiWin → UInt32)

/-- The record of the window. -/
def rmaAnalyzerGetState (win : MpiWin) (m : TableMemory) : Except TableFault Nat := do
  match ← (hashFind RmaAnalyzerState.stateWin hashFcn win m.stateHtbl).mapError .table with
  | none => .error (.analyzer .exitFailure)
  | some state => .ok state

def rmaAnalyzerIsActiveEpoch (win : MpiWin) (m : TableMemory) : Except TableFault Bool := do
  let state ← m.rmaAnalyzerGetState hashFcn win
  let record ← m.read state
  return decide (record.activeEpoch > 0)

/-- The record is looked up a second time. -/
def rmaAnalyzerSaveNotif (itv : IntervalPtr) (win : MpiWin) (m : TableMemory) :
    Except TableFault TableMemory :=
  if itv.itv.notificationId < 0 then .ok m
  else do
    let state ← m.rmaAnalyzerGetState hashFcn win
    let record ← m.read state
    m.write state { record with notifTree := insertNotifTree record.notifTree itv }

def rmaAnalyzerSaveInterval (itv : IntervalPtr) (win : MpiWin) (m : TableMemory) :
    Except TableFault (Nat × TableMemory) := do
  let state ← m.rmaAnalyzerGetState hashFcn win
  let record ← m.read state
  if admits m.filterWindow record itv.itv then
    match overlapSearch record.localTree itv with
    | some overlapItv => .error (.analyzer (.mpiAbort (conflictReport itv.itv overlapItv.itv)))
    | none => do
        let m ← m.write state { record with localTree := insertIntervalTree record.localTree itv }
        let m ← m.rmaAnalyzerSaveNotif hashFcn itv win
        return (1, m)
  else return (0, m)

def rmaAnalyzerDeleteInterval (itv : Option IntervalPtr) (win : MpiWin) (m : TableMemory) :
    Except TableFault TableMemory := do
  let state ← m.rmaAnalyzerGetState hashFcn win
  let record ← m.read state
  let localTree ← (deleteIntervalTree record.localTree itv).mapError .analyzer
  m.write state { record with localTree := localTree }

def rmaAnalyzerClearFromNotifId (win : MpiWin) (notifId : Int) (m : TableMemory) :
    Except TableFault TableMemory :=
  if notifId < 0 then .ok m
  else do
    let state ← m.rmaAnalyzerGetState hashFcn win
    let record ← m.read state
    let m ← m.rmaAnalyzerDeleteInterval hashFcn (findIntervalFromNotif record.notifTree notifId) win
    let record ← m.read state
    m.write state { record with notifTree := deleteNotifTree record.notifTree notifId }

/-- The interval is saved if the window of the loop has an active epoch. -/
def saveIntervalInWin (itv : Interval) (current : Nat) (m : TableMemory) :
    Except TableFault TableMemory := do
  let record ← m.read current
  if ← m.rmaAnalyzerIsActiveEpoch hashFcn record.stateWin then
    let (savedItv, m) := m.malloc itv
    let (_, m) ← m.rmaAnalyzerSaveInterval hashFcn savedItv record.stateWin
    return m
  else return m

def rmaAnalyzerSaveIntervalAllWins (address size : UInt64) (accessType : AccessType)
    (fileline : Int) (filename : Option String) (m : TableMemory) :
    Except TableFault TableMemory :=
  hashIter TableMemory.stateHtbl .table
    (saveIntervalInWin hashFcn (accessInterval address size accessType fileline filename)) m

def rmaAnalyzerInitCommCheckThread (win : MpiWin) (m : TableMemory) :
    Except TableFault TableMemory := do
  let state ← m.rmaAnalyzerGetState hashFcn win
  let record ← m.read state
  let (threadId, m) := m.pthreadCreate win
  m.write state { record.enterEpoch with threadId := some threadId }

def rmaAnalyzerClearCommCheckThread (doReduce : Bool) (tmp : Nat) (win : MpiWin)
    (m : TableMemory) : Except TableFault TableMemory := do
  let state ← m.rmaAnalyzerGetState hashFcn win
  let record ← m.read state
  let record := record.requestEnd (if doReduce then tmp else 0)
  let m ← m.pthreadJoin record.threadId
  let record ← record.leaveEpoch.freeTrees.mapError .analyzer
  m.write state record

def initInWin (current : Nat) (m : TableMemory) : Except TableFault TableMemory := do
  let record ← m.read current
  if (← m.rmaAnalyzerIsActiveEpoch hashFcn record.stateWin) = false ∧ record.fromSync = 1 then
    m.rmaAnalyzerInitCommCheckThread hashFcn record.stateWin
  else return m

def rmaAnalyzerInitCommCheckThreadAllWins (m : TableMemory) : Except TableFault TableMemory :=
  hashIter TableMemory.stateHtbl .table (initInWin hashFcn) m

def clearInWin (doReduce : Bool) (tmp : MpiWin → Nat) (current : Nat) (m : TableMemory) :
    Except TableFault TableMemory := do
  let record ← m.read current
  if ← m.rmaAnalyzerIsActiveEpoch hashFcn record.stateWin then
    let m ← m.rmaAnalyzerClearCommCheckThread hashFcn doReduce (tmp record.stateWin)
      record.stateWin
    let record ← m.read current
    m.write current { record with fromSync := 1 }
  else return m

def rmaAnalyzerClearCommCheckThreadAllWins (doReduce : Bool) (tmp : MpiWin → Nat)
    (m : TableMemory) : Except TableFault TableMemory :=
  hashIter TableMemory.stateHtbl .table (clearInWin hashFcn doReduce tmp) m

/-- The pointer from before the save is used after it. -/
def rmaAnalyzerUpdateOnCommSend (c : CommSend) (win : MpiWin) (m : TableMemory) :
    Except TableFault (ShadowMessage × TableMemory) := do
  let state ← m.rmaAnalyzerGetState hashFcn win
  let (localItv, m) := m.malloc c.localItv
  let (_, m) ← m.rmaAnalyzerSaveInterval hashFcn localItv win
  let record ← m.read state
  let m ← m.write state (record.countSent c.targetRank)
  return (record.shadowMessage c, m)

/-- What the checking thread does with a received interval. -/
def rmaAnalyzerSaveReceived (received : Interval) (win : MpiWin) (m : TableMemory) :
    Except TableFault TableMemory := do
  let state ← m.rmaAnalyzerGetState hashFcn win
  let record ← m.read state
  let (savedInterval, m) := m.malloc (received.rebase record.winBase)
  let (_, m) ← m.rmaAnalyzerSaveInterval hashFcn savedInterval win
  return m

/-- The new record is where the allocator has put it, and its table with what `granted` allows. -/
def rmaAnalyzerStart (newState : Option Nat) (granted : Nat → Bool) (base size : UInt64)
    (comm : MpiComm) (sizeComm : Nat) (win : MpiWin) (language : Lang) (filterWindow : Option Int)
    (m : TableMemory) : Except TableFault TableMemory :=
  if m.languageProgram = .none ∨ m.languageProgram = language then
    match newState with
    | none => .error .outOfMemory
    | some p =>
        if p ∈ m.stateHtbl.live then .error .notEnabled
        else do
          let (tagId, winMpiTagId) := rmaAnalyzerGetTagRangeId m.winMpiTagId
          let record := RmaAnalyzerState.new win base size comm sizeComm (tagOfSlot tagId)
          let stateHtbl := { m.stateHtbl with
            live := insert p m.stateHtbl.live
            elmt := Function.update m.stateHtbl.elmt p record }
          let stateHtbl ←
            (hashAddKeyptr RmaAnalyzerState.stateWin hashFcn granted p stateHtbl).mapError .table
          return { m with
            languageProgram := language
            filterWindow := filterWindow.getD m.filterWindow
            winMpiTagId := winMpiTagId
            stateHtbl := stateHtbl }
  else .error (.analyzer .assertion)

def rmaAnalyzerStop (win : MpiWin) (m : TableMemory) : Except TableFault TableMemory := do
  let state ← m.rmaAnalyzerGetState hashFcn win
  let record ← m.read state
  let winMpiTagId ← (rmaAnalyzerFreeTagRange record.mpiTag m.winMpiTagId).mapError .analyzer
  let stateHtbl ← (hashDelete state m.stateHtbl).mapError .table
  return { m with winMpiTagId := winMpiTagId, stateHtbl := stateHtbl }

/-! ## Wrappers -/

def newWinFence (tmp : Nat) (win : MpiWin) (m : TableMemory) : Except TableFault TableMemory := do
  let state ← m.rmaAnalyzerGetState hashFcn win
  let record ← m.read state
  let m ← (if record.countFence > 0 then m.rmaAnalyzerClearCommCheckThread hashFcn true tmp win
    else .ok m)
  let record ← m.read state
  let m ← m.write state { record with countFence := record.countFence + 1 }
  m.rmaAnalyzerInitCommCheckThread hashFcn win

def newWinFree (win : MpiWin) (m : TableMemory) : Except TableFault TableMemory := do
  let state ← m.rmaAnalyzerGetState hashFcn win
  let record ← m.read state
  let m ← (if record.countFence > 0 then m.rmaAnalyzerClearCommCheckThread hashFcn false 0 win
    else .ok m)
  m.rmaAnalyzerStop hashFcn win

def newBarrier (tmp : MpiWin → Nat) (m : TableMemory) : Except TableFault TableMemory := do
  let m ← m.rmaAnalyzerClearCommCheckThreadAllWins hashFcn true tmp
  m.rmaAnalyzerInitCommCheckThreadAllWins hashFcn

/-- The wrapper of a call on one window. -/
def wrapper (win : MpiWin) : WindowCall → TableMemory → Except TableFault TableMemory
  | .fence _ tmp => newWinFence hashFcn tmp win
  | .lock _ | .lockAll | .start | .post => rmaAnalyzerInitCommCheckThread hashFcn win
  | .unlock _ tmp | .unlockAll tmp | .complete tmp | .wait tmp =>
      rmaAnalyzerClearCommCheckThread hashFcn true tmp win
  | .save itv => fun m => do
      let (_, m) ← m.rmaAnalyzerSaveInterval hashFcn itv win
      return m
  | .free => newWinFree hashFcn win

end Calls

end TableMemory

/-! ## The process -/

/-- What a process calls.  `newState` is the address of a new record, if the allocator has memory
for it. -/
inductive TableCall where
  | create (newState : Option Nat) (granted : Nat → Bool) (base size : UInt64) (comm : MpiComm)
      (sizeComm : Nat) (win : MpiWin) (filterWindow : Option Int)
  | call (win : MpiWin) (c : WindowCall)
  | barrier (tmp : MpiWin → Nat)
  | access (address size : UInt64) (accessType : AccessType) (fileline : Int)
      (filename : Option String)
  | send (win : MpiWin) (c : CommSend)
  | receive (win : MpiWin) (received : Interval)
  | clear (win : MpiWin) (notifId : Int)

/-- The address at which the call has put a record. -/
def TableCall.newRecord : TableCall → Option Nat
  | .create newState .. => newState
  | _ => none

/-- One call in memory, with the messages sent so far.  The MPI library gives a new window a handle
that no live window has. -/
def TableMemory.step (hashFcn : MpiWin → UInt32) (s : TableMemory × List ShadowMessage) :
    TableCall → Except TableFault (TableMemory × List ShadowMessage)
  | .create newState granted base size comm sizeComm win filterWindow => do
      match ← (hashFind RmaAnalyzerState.stateWin hashFcn win s.1.stateHtbl).mapError .table with
      | some _ => .error (.analyzer .notEnabled)
      | none =>
          let m ← s.1.rmaAnalyzerStart hashFcn newState granted base size comm sizeComm win .c
            filterWindow
          return (m, s.2)
  | .call win c => do
      let m ← wrapper hashFcn win c s.1
      return (m, s.2)
  | .barrier tmp => do
      let m ← s.1.newBarrier hashFcn tmp
      return (m, s.2)
  | .access address size accessType fileline filename => do
      let m ← s.1.rmaAnalyzerSaveIntervalAllWins hashFcn address size accessType fileline filename
      return (m, s.2)
  | .send win c => do
      let (msg, m) ← s.1.rmaAnalyzerUpdateOnCommSend hashFcn c win
      return (m, s.2 ++ [msg])
  | .receive win received => do
      let m ← s.1.rmaAnalyzerSaveReceived hashFcn received win
      return (m, s.2)
  | .clear win notifId => do
      let m ← s.1.rmaAnalyzerClearFromNotifId hashFcn win notifId
      return (m, s.2)

/-- The same call on the records. -/
def tableStep (s : Analyzer × List ShadowMessage) :
    TableCall → Except Fault (Analyzer × List ShadowMessage)
  | .create _ _ base size comm sizeComm win filterWindow =>
      if win ∈ s.1.windows then .error .notEnabled
      else do
        let a ← newWinCreate base size comm sizeComm win filterWindow s.1
        return (a, s.2)
  | .call win c => do
      let a ← c.wrapper win s.1
      return (a, s.2)
  | .barrier tmp => do
      let a ← newBarrier tmp s.1
      return (a, s.2)
  | .access address size accessType fileline filename => do
      let a ← rmaAnalyzerSaveIntervalAllWins address size accessType fileline filename s.1
      return (a, s.2)
  | .send win c => do
      let (msg, a) ← rmaAnalyzerUpdateOnCommSend c win s.1
      return (a, s.2 ++ [msg])
  | .receive win received => do
      let a ← rmaAnalyzerSaveReceived received win s.1
      return (a, s.2)
  | .clear win notifId =>
      if notifId < 0 then .ok s
      else do
        let state ← rmaAnalyzerGetState win s.1
        let state ← rmaAnalyzerClearFromNotifId state notifId
        return (s.1.setState state, s.2)

end ParcoachRma
