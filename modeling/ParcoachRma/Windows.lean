import ParcoachRma.SystemRun

/-!
# Several windows

A program with `m` windows, all on one communicator of `n` processes.  Each window has its record
and its checking thread in every process; what they share is the network, where messages are told
apart by their tags, the reductions of the communicator, the application thread, which is in one
call at a time, and the heap.

A load or store visits the windows one after the other in the order of the table
(`rma_analyzer_save_interval_all_wins`); between two visits the checking threads go on.

The code works on one window at a time: a step of the system is a step of that window on what the
process sees of it (`WindowsCluster.view`), written back (`WindowsCluster.write`).  MPI matches the
reductions of a communicator in the order of the calls: the processes contribute to a common
reduction in their first end of an epoch, then in their second one, whichever windows these are on.
-/

namespace ParcoachRma

open Run

variable {n m : Nat}

/-- The windows of a program, in the order they have been created. -/
structure SharedWindows (n m : Nat) where
  win : Fin m → Fin n → MpiWin
  base : Fin m → Fin n → UInt64
  size : Fin m → Fin n → UInt64
  comm : Fin n → MpiComm
  filterWindow : Fin n → Int
  mpiTag : Fin m → Int

/-- One of the windows. -/
def SharedWindows.window (w : SharedWindows n m) (i : Fin m) : SharedWindow n where
  win := w.win i
  base := w.base i
  size := w.size i
  comm := w.comm
  filterWindow := w.filterWindow
  mpiTag := w.mpiTag i

/-- The arguments of `rma_analyzer_save_interval_all_wins`. -/
structure MemoryAccess where
  address : UInt64
  size : UInt64
  accessType : AccessType
  fileline : Int
  filename : Option String

/-- The interval that is saved for the access. -/
def MemoryAccess.itv (a : MemoryAccess) : Interval :=
  accessInterval a.address a.size a.accessType a.fileline a.filename

/-- One process: the records of its windows, where its threads are on each of them, the local
variables of the reductions, the next free address of its heap, and the load or store that is
visiting the windows, with those it has still to visit.  `closings` are the windows on which it has
started to end an epoch, one for each round of reductions. -/
structure WindowsProcess (n m : Nat) where
  record : Fin m → RmaAnalyzerState
  filterWindow : Int
  app : Fin m → AppPc n
  thread : Fin m → ThreadPc
  tmp : Fin m → Nat
  nextObject : Nat
  iter : Option (MemoryAccess × List (Fin m))
  closings : List (Fin m)

/-- The processes and what is between them.  Reductions are counted by the rounds of a process;
`sent` and `passed` observe, as in `Cluster`. -/
structure WindowsCluster (n m : Nat) where
  proc : Fin n → WindowsProcess n m
  net : Fin n → Int → Multiset Interval
  contrib : Nat → Nat → Fin n → Option Nat
  sent : Fin m → Fin n → Fin n → Nat → Multiset Interval
  passed : Fin m → Fin n → Nat → Multiset Interval

/-- All windows have been created, and no epoch has been opened. -/
def WindowsCluster.init (w : SharedWindows n m) : WindowsCluster n m where
  proc p :=
    { record := fun i => RmaAnalyzerState.new (w.win i p) (w.base i p) (w.size i p) (w.comm p) n
        (w.mpiTag i)
      filterWindow := w.filterWindow p
      app := fun _ => .outside
      thread := fun _ => .absent
      tmp := fun _ => 0
      nextObject := 0
      iter := none
      closings := [] }
  net _ _ := 0
  contrib _ _ _ := none
  sent _ _ _ _ := 0
  passed _ _ _ := 0

/-! ## One of the windows -/

namespace WindowsProcess

/-- What belongs to one window. -/
def view (x : WindowsProcess n m) (i : Fin m) : Process n where
  record := x.record i
  filterWindow := x.filterWindow
  app := x.app i
  thread := x.thread i
  tmp := x.tmp i
  nextObject := x.nextObject

/-- The process after a step on one window. -/
def write (x : WindowsProcess n m) (i : Fin m) (y : Process n) : WindowsProcess n m :=
  { x with
    record := Function.update x.record i y.record
    app := Function.update x.app i y.app
    thread := Function.update x.thread i y.thread
    tmp := Function.update x.tmp i y.tmp
    nextObject := y.nextObject }

/-- The application thread is in no call, and in no load or store. -/
def Free (x : WindowsProcess n m) : Prop := (∀ i, (x.app i).Idle) ∧ x.iter.isNone = true

instance (x : WindowsProcess n m) : Decidable x.Free := inferInstanceAs (Decidable (_ ∧ _))

end WindowsProcess

namespace WindowsCluster

/-- The epoch of a process on a window. -/
def epoch (s : WindowsCluster n m) (i : Fin m) (p : Fin n) : Nat := ((s.proc p).record i).countEpoch

/-- The round of reductions the process is in, or was in last. -/
def round (s : WindowsCluster n m) (p : Fin n) : Nat := (s.proc p).closings.length

/-- What the code sees that works on a window, in the given round of reductions. -/
def view (s : WindowsCluster n m) (i : Fin m) (round : Nat) : Cluster n where
  proc p := (s.proc p).view i
  net := s.net
  contrib _ := s.contrib round
  sent := s.sent i
  passed := s.passed i

/-- The cluster after a step of a process on a window. -/
def write (s : WindowsCluster n m) (i : Fin m) (p : Fin n) (c : Cluster n) :
    WindowsCluster n m where
  proc q := (s.proc q).write i (c.proc q)
  net := c.net
  contrib := Function.update s.contrib (s.round p) (c.contrib (s.epoch i p))
  sent := Function.update s.sent i c.sent
  passed := Function.update s.passed i c.passed

def setIter (s : WindowsCluster n m) (p : Fin n) (iter : Option (MemoryAccess × List (Fin m))) :
    WindowsCluster n m :=
  { s with proc := Function.update s.proc p { s.proc p with iter := iter } }

end WindowsCluster

/-! ## The system -/

/-- The application thread begins a call. -/
def ProtocolEvent.Begins : ProtocolEvent n → Prop
  | .openEpoch _ => True
  | .commSend _ _ => True
  | .closeEpoch _ => True
  | _ => False

instance (e : ProtocolEvent n) : Decidable e.Begins := by
  cases e <;> unfold ProtocolEvent.Begins <;> infer_instance

/-- What happens next: a step on a window, the begin of a load or store, its visit of the next
window, or the clearing of a notification. -/
inductive WindowsEvent (n m : Nat) where
  | protocol (i : Fin m) (e : ProtocolEvent n)
  | access (p : Fin n) (a : MemoryAccess)
  | visit (p : Fin n)
  | clear (i : Fin m) (p : Fin n) (notifId : Int)

/-- Before its step on a window: to end an epoch, a process starts the next round of reductions. -/
def WindowsProcess.before (x : WindowsProcess n m) (i : Fin m) :
    ProtocolEvent n → WindowsProcess n m
  | .closeEpoch _ => { x with closings := x.closings ++ [i] }
  | _ => x

def WindowsCluster.before (s : WindowsCluster n m) (i : Fin m) (e : ProtocolEvent n) :
    WindowsCluster n m :=
  { s with proc := Function.update s.proc e.process ((s.proc e.process).before i e) }

/-- One step of the system. -/
def programStep (s : WindowsCluster n m) : WindowsEvent n m → Except Fault (WindowsCluster n m)
  | .protocol i e =>
      if e.Begins ∧ ¬ (s.proc e.process).Free then .error .notEnabled
      else do
        let s := s.before i e
        let c ← protocolStep (s.view i (s.round e.process)) e
        return s.write i e.process c
  | .access p a =>
      if (s.proc p).Free then .ok (s.setIter p (some (a, List.finRange m))) else .error .notEnabled
  | .visit p =>
      match (s.proc p).iter with
      | none => .error .notEnabled
      | some (_, []) => .ok (s.setIter p none)
      | some (a, i :: rest) => do
          let c ← (s.view i (s.round p)).saveAccess p a.itv
          return (s.write i p c).setIter p (some (a, rest))
  | .clear i p notifId =>
      if (s.proc p).Free then do
        let c ← (s.view i (s.round p)).clearNotif p notifId
        return s.write i p c
      else .error .notEnabled

end ParcoachRma
