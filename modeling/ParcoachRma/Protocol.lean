import ParcoachRma.Epoch
import ParcoachRma.SaveInterval
import ParcoachRma.Transfer
import ParcoachRma.Lib.Counting

/-!
# The termination protocol of an epoch

`n` processes share a window.  Inside an epoch an application thread sends intervals to the checking
threads of the others (`rma_analyzer_update_on_comm_send`); at its end it learns from one reduction
for each process how many intervals were sent to it, and tells its checking thread, which leaves
once it has counted that many.

A step is one access of one thread to what it shares with others: the record of the window, the
network, or a reduction.  The steps of the application thread are those of
`rma_analyzer_init_comm_check_thread`, `rma_analyzer_update_on_comm_send` and
`rma_analyzer_clear_comm_check_thread`, the steps of the checking thread those of
`rma_analyzer_comm_check_thread` and `rma_analyzer_check_communication`.  A barrier inside an epoch
ends it and opens the next one.

MPI is the environment: a message is matched with any posted receive of its tag, in any order, once;
a reduction gives its root the sum of what all processes have contributed to it.  Reductions are
matched in the order of the calls; as all processes go through the same epochs, the calls that are
matched have the epoch and the root in common.
-/

namespace ParcoachRma

open Run

/-! ## Threads -/

/-- A posted receive: its tag, and the interval in its buffer once it has been matched. -/
structure Request where
  tag : Int
  buf : Option Interval
  deriving DecidableEq, Repr

/-- Where the checking thread is in the loop over a posted receive. -/
inductive Poll where
  /-- Before it reads `thread_end`. -/
  | readEnd
  /-- It has read 1 there, and is to compare `count` with `value`. -/
  | compare
  /-- Before `MPI_Test`. -/
  | test
  deriving DecidableEq, Repr

/-- Where the checking thread of a process is. -/
inductive ThreadPc where
  /-- Not created yet, or joined. -/
  | absent
  /-- Before `MPI_Irecv`. -/
  | start
  | polling (poll : Poll) (req : Request)
  /-- `MPI_Test` has returned the interval, which is to be counted. -/
  | received (itv : Interval)
  /-- The interval has been counted and is to be saved. -/
  | counted (itv : Interval)
  | exited
  deriving DecidableEq, Repr

/-- Where the application thread of a process is. -/
inductive AppPc (n : Nat) where
  | outside
  | inside
  /-- The interval at the origin has been saved, the message is to be sent. -/
  | sending (dst : Fin n) (c : CommSend)
  /-- The message has been sent and is to be counted. -/
  | sent (dst : Fin n)
  /-- In the loop of reductions, before the one to `root`. -/
  | reducing (root : Nat)
  /-- In the reduction to itself, as the root. -/
  | waiting (root : Nat)
  /-- `value` has been written, `thread_end` is to be set. -/
  | valued
  /-- In `pthread_join`. -/
  | joining
  /-- `pthread_join` has returned. -/
  | joined

/-- One process: the record of its window, its two threads, the local variable of the reductions and
the next free address of its heap. -/
structure Process (n : Nat) where
  record : RmaAnalyzerState
  filterWindow : Int
  app : AppPc n
  thread : ThreadPc
  tmp : Nat
  nextObject : Nat

/-- The processes and what is between them: the messages in flight by receiver and tag, and what has
been contributed to the reduction of an epoch to a root.  `sent` and `passed` only observe: the
intervals sent from a process to another in an epoch, and the intervals that the checking thread of
an epoch has passed to `rma_analyzer_save_interval`. -/
structure Cluster (n : Nat) where
  proc : Fin n → Process n
  net : Fin n → Int → Multiset Interval
  contrib : Nat → Nat → Fin n → Option Nat
  sent : Fin n → Fin n → Nat → Multiset Interval
  passed : Fin n → Nat → Multiset Interval

/-- The processes of a window: they have its first tag in common. -/
structure SharedWindow (n : Nat) where
  win : Fin n → MpiWin
  base : Fin n → UInt64
  size : Fin n → UInt64
  comm : Fin n → MpiComm
  filterWindow : Fin n → Int
  mpiTag : Int

/-- All processes have created the window, and none has opened an epoch. -/
def Cluster.init {n : Nat} (w : SharedWindow n) : Cluster n where
  proc p :=
    { record := RmaAnalyzerState.new (w.win p) (w.base p) (w.size p) (w.comm p) n w.mpiTag
      filterWindow := w.filterWindow p
      app := .outside
      thread := .absent
      tmp := 0
      nextObject := 0 }
  net _ _ := 0
  contrib _ _ _ := none
  sent _ _ _ := 0
  passed _ _ := 0

namespace Cluster

variable {n : Nat}

def setProc (s : Cluster n) (p : Fin n) (x : Process n) : Cluster n :=
  { s with proc := Function.update s.proc p x }

@[simp] theorem setProc_proc_self (s : Cluster n) (p : Fin n) (x : Process n) :
    (s.setProc p x).proc p = x := Function.update_self ..

theorem setProc_proc_of_ne (s : Cluster n) (x : Process n) {p t : Fin n} (h : t ≠ p) :
    (s.setProc p x).proc t = s.proc t := Function.update_of_ne h ..

/-- The epoch a process is in, or was in last. -/
def epoch (s : Cluster n) (p : Fin n) : Nat := (s.proc p).record.countEpoch

/-! ## Steps of the application thread -/

/-- `rma_analyzer_init_comm_check_thread`. -/
def initCommCheckThread (s : Cluster n) (p : Fin n) : Cluster n :=
  let x := s.proc p
  s.setProc p { x with record := x.record.enterEpoch, app := .inside, thread := .start }

/-- The first part of `rma_analyzer_update_on_comm_send`: the interval at the origin is saved. -/
def saveLocal (s : Cluster n) (p : Fin n) (dst : Fin n) (c : CommSend) :
    Except Fault (Cluster n) := do
  let x := s.proc p
  let (_, record) ← rmaAnalyzerSaveInterval x.filterWindow x.record ⟨x.nextObject, c.localItv⟩
  return s.setProc p
    { x with record := record, nextObject := x.nextObject + 1, app := .sending dst c }

/-- `MPI_Send` of the interval for the target. -/
def mpiSend (s : Cluster n) (p : Fin n) (dst : Fin n) (c : CommSend) : Cluster n :=
  let x := s.proc p
  { s.setProc p { x with app := .sent dst } with
    net := fun t tag =>
      if t = dst ∧ tag = x.record.currentTag then c.targetItv ::ₘ s.net t tag else s.net t tag
    sent := fun q t k =>
      if q = p ∧ t = dst ∧ k = s.epoch p then c.targetItv ::ₘ s.sent q t k else s.sent q t k }

/-- `state->array[target_rank]++`. -/
def countSent (s : Cluster n) (p : Fin n) (dst : Fin n) : Cluster n :=
  let x := s.proc p
  s.setProc p { x with record := x.record.countSent dst, app := .inside }

/-- The start of `rma_analyzer_clear_comm_check_thread`. -/
def startReduce (s : Cluster n) (p : Fin n) : Cluster n :=
  s.setProc p { s.proc p with tmp := 0, app := .reducing 0 }

/-- The application thread goes to another place. -/
def setApp (s : Cluster n) (p : Fin n) (app : AppPc n) : Cluster n :=
  s.setProc p { s.proc p with app := app }

/-- The contribution of a process to the reduction of its epoch to `root`. -/
def contribute (s : Cluster n) (p : Fin n) (root : Nat) : Cluster n :=
  { s with
    contrib := fun k i q =>
      if k = s.epoch p ∧ i = root ∧ q = p then some ((s.proc p).record.array root)
      else s.contrib k i q }

/-- `MPI_Reduce` to `root`: the root waits for the others, another process returns. -/
def mpiReduce (s : Cluster n) (p : Fin n) (root : Nat) : Cluster n :=
  (s.contribute p root).setApp p (if root = p then .waiting root else .reducing (root + 1))

/-- The sum of all contributions, once they are there. -/
def reduceSum (contrib : Fin n → Option Nat) : Option Nat :=
  if ∀ q, (contrib q).isSome then some (∑ q, (contrib q).getD 0) else none

/-- `MPI_Reduce` returns at its root. -/
def reduceReturn (s : Cluster n) (p : Fin n) (root sum : Nat) : Cluster n :=
  s.setProc p { s.proc p with tmp := sum, app := .reducing (root + 1) }

/-- `state->value = tmp`. -/
def setValue (s : Cluster n) (p : Fin n) : Cluster n :=
  let x := s.proc p
  s.setProc p { x with record := { x.record with value := x.tmp }, app := .valued }

/-- `state->thread_end = 1`. -/
def setThreadEnd (s : Cluster n) (p : Fin n) : Cluster n :=
  let x := s.proc p
  s.setProc p { x with record := { x.record with threadEnd := 1 }, app := .joining }

/-- `pthread_join` returns. -/
def pthreadJoin (s : Cluster n) (p : Fin n) : Cluster n :=
  s.setProc p { s.proc p with thread := .absent, app := .joined }

/-- The rest of `rma_analyzer_clear_comm_check_thread`. -/
def leaveEpoch (s : Cluster n) (p : Fin n) : Except Fault (Cluster n) := do
  let x := s.proc p
  let record ← x.record.leaveEpoch.freeTrees
  return s.setProc p { x with record := record, app := .outside }

/-- The next step of an application thread inside one of the calls. -/
def appStep (s : Cluster n) (p : Fin n) : Except Fault (Cluster n) :=
  match (s.proc p).app with
  | .outside => .error .notEnabled
  | .inside => .error .notEnabled
  | .sending dst c => .ok (s.mpiSend p dst c)
  | .sent dst => .ok (s.countSent p dst)
  | .reducing root =>
      .ok (if root < (s.proc p).record.sizeComm then s.mpiReduce p root else s.setValue p)
  | .waiting root =>
      match reduceSum (s.contrib (s.epoch p) root) with
      | some sum => .ok (s.reduceReturn p root sum)
      | none => .error .notEnabled
  | .valued => .ok (s.setThreadEnd p)
  | .joining => if (s.proc p).thread = .exited then .ok (s.pthreadJoin p) else .error .notEnabled
  | .joined => s.leaveEpoch p

/-! ## Steps of the checking thread -/

/-- The checking thread goes to another place. -/
def setThread (s : Cluster n) (p : Fin n) (thread : ThreadPc) : Cluster n :=
  s.setProc p { s.proc p with thread := thread }

/-- The receive is cancelled, and the thread ends. -/
def cancelAndExit (s : Cluster n) (p : Fin n) : Cluster n :=
  let x := s.proc p
  s.setProc p { x with record := { x.record with count := 0 }, thread := .exited }

/-- `state->count++`. -/
def countReceived (s : Cluster n) (p : Fin n) (itv : Interval) : Cluster n :=
  let x := s.proc p
  s.setProc p
    { x with record := { x.record with count := x.record.count + 1 }, thread := .counted itv }

/-- The received interval, with the base of the window added, goes to
`rma_analyzer_save_interval`. -/
def saveReceived (s : Cluster n) (p : Fin n) (received : Interval) : Except Fault (Cluster n) := do
  let x := s.proc p
  let saved := received.rebase x.record.winBase
  let (_, record) ← rmaAnalyzerSaveInterval x.filterWindow x.record ⟨x.nextObject, saved⟩
  return { s.setProc p
      { x with record := record, nextObject := x.nextObject + 1, thread := .start } with
    passed := fun t k =>
      if t = p ∧ k = s.epoch p then saved ::ₘ s.passed t k else s.passed t k }

/-- The next step of a checking thread. -/
def threadStep (s : Cluster n) (p : Fin n) : Except Fault (Cluster n) :=
  let record := (s.proc p).record
  match (s.proc p).thread with
  | .absent => .error .notEnabled
  | .start => .ok (s.setThread p (.polling .readEnd ⟨record.currentTag, none⟩))
  | .polling .readEnd req =>
      .ok (s.setThread p (.polling (if record.threadEnd = 1 then .compare else .test) req))
  | .polling .compare req =>
      .ok (if record.count = record.value then s.cancelAndExit p
        else s.setThread p (.polling .test req))
  | .polling .test ⟨_, some itv⟩ => .ok (s.setThread p (.received itv))
  | .polling .test ⟨tag, none⟩ => .ok (s.setThread p (.polling .readEnd ⟨tag, none⟩))
  | .received itv => .ok (s.countReceived p itv)
  | .counted itv => s.saveReceived p itv
  | .exited => .error .notEnabled

/-! ## Steps of the network -/

/-- A message in flight is matched with the posted receive of a process. -/
def matchMessage (s : Cluster n) (p : Fin n) (poll : Poll) (tag : Int) (itv : Interval) :
    Cluster n :=
  { s.setThread p (.polling poll ⟨tag, some itv⟩) with
    net := fun t g => if t = p ∧ g = tag then (s.net t g).erase itv else s.net t g }

def deliver (s : Cluster n) (p : Fin n) (itv : Interval) : Except Fault (Cluster n) :=
  match (s.proc p).thread with
  | .polling poll ⟨tag, none⟩ =>
      if itv ∈ s.net p tag then .ok (s.matchMessage p poll tag itv) else .error .notEnabled
  | _ => .error .notEnabled

end Cluster

/-! ## The system -/

/-- What happens next: an application thread begins a call, a thread takes its next step, or a
message is matched. -/
inductive ProtocolEvent (n : Nat) where
  | openEpoch (p : Fin n)
  | commSend (p : Fin n) (c : CommSend)
  | closeEpoch (p : Fin n)
  | app (p : Fin n)
  | thread (p : Fin n)
  | deliver (p : Fin n) (itv : Interval)

/-- One step of the system. -/
def protocolStep {n : Nat} (s : Cluster n) : ProtocolEvent n → Except Fault (Cluster n)
  | .openEpoch p =>
      match (s.proc p).app with
      | .outside => .ok (s.initCommCheckThread p)
      | _ => .error .notEnabled
  | .commSend p c =>
      match (s.proc p).app with
      | .inside =>
          if h : c.targetRank < n then s.saveLocal p ⟨c.targetRank, h⟩ c
          else .error .outOfBounds
      | _ => .error .notEnabled
  | .closeEpoch p =>
      match (s.proc p).app with
      | .inside => .ok (s.startReduce p)
      | _ => .error .notEnabled
  | .app p => s.appStep p
  | .thread p => s.threadStep p
  | .deliver p itv => s.deliver p itv

/-- In epoch `k`, the checking thread of the process has been joined. -/
def Cluster.Joined {n : Nat} (s : Cluster n) (t : Fin n) (k : Nat) : Prop :=
  1 ≤ k ∧ (k < s.epoch t ∨
    k = s.epoch t ∧ ((s.proc t).app = .joined ∨ (s.proc t).app = .outside))

/-- The application thread is between opening the epoch and starting to close it. -/
def AppPc.InBody {n : Nat} : AppPc n → Prop
  | .inside => True
  | .sending _ _ => True
  | .sent _ => True
  | _ => False

/-- The process has ended its sends of epoch `k`. -/
def Cluster.Closed {n : Nat} (s : Cluster n) (q : Fin n) (k : Nat) : Prop :=
  k < s.epoch q ∨ k = s.epoch q ∧ ¬ (s.proc q).app.InBody

/-! ## Uninterrupted calls -/

/-- The two writes that end an epoch are those of the sequential model. -/
theorem requestEnd_eq (state : RmaAnalyzerState) (value : Nat) :
    state.requestEnd value =
      { ({ state with value := value } : RmaAnalyzerState) with threadEnd := 1 } := rfl

section Calls

variable {n : Nat} {s : Cluster n} {p : Fin n} {win : MpiWin} {a a' : Analyzer}

/-- What the process knows of its window is what the sequential model knows. -/
def Process.Models (x : Process n) (win : MpiWin) (a : Analyzer) : Prop :=
  rmaAnalyzerGetState win a = .ok x.record ∧ x.filterWindow = a.filterWindow ∧
    x.nextObject = a.nextObject

/-- Without interruption, the steps of an application thread that sends an interval do to its record
what `rma_analyzer_update_on_comm_send` does, and put its message into the network. -/
theorem run_commSend {c : CommSend} {msg : ShadowMessage}
    (models : (s.proc p).Models win a) (happ : (s.proc p).app = .inside)
    (hrank : c.targetRank < n) (h : rmaAnalyzerUpdateOnCommSend c win a = .ok (msg, a')) :
    ∃ s', run protocolStep s [.commSend p c, .app p, .app p] = .ok s' ∧
      (s'.proc p).Models win a' ∧
      s'.net ⟨c.targetRank, hrank⟩ msg.tag =
        msg.itv ::ₘ s.net ⟨c.targetRank, hrank⟩ msg.tag := by
  obtain ⟨hstate, hfilter, hobject⟩ := models
  obtain ⟨state, hstate', h⟩ := bind_ok.mp h
  obtain rfl : state = (s.proc p).record := Except.ok.inj (hstate'.symm.trans hstate)
  obtain ⟨⟨saved, record⟩, hsave, h⟩ := bind_ok.mp h
  obtain ⟨lt, nt, rfl⟩ := rmaAnalyzerSaveInterval_eq hsave
  obtain ⟨rfl, rfl⟩ := Prod.mk.inj (Except.ok.inj h)
  have hwin := (mem_of_getState hstate).2
  let x₁ : Process n := { s.proc p with
    record := { (s.proc p).record with localTree := lt, notifTree := nt }
    nextObject := (s.proc p).nextObject + 1
    app := .sending ⟨c.targetRank, hrank⟩ c }
  have hlocal : s.saveLocal p ⟨c.targetRank, hrank⟩ c = .ok (s.setProc p x₁) := by
    refine bind_ok.mpr ⟨(saved, x₁.record), ?_, rfl⟩
    rw [hfilter, hobject]
    exact hsave
  have hproc₁ : (s.setProc p x₁).proc p = x₁ := Cluster.setProc_proc_self ..
  let s₂ := (s.setProc p x₁).mpiSend p ⟨c.targetRank, hrank⟩ c
  have hproc₂ : s₂.proc p = { x₁ with app := .sent ⟨c.targetRank, hrank⟩ } := by
    apply (Cluster.setProc_proc_self ..).trans
    rw [hproc₁]
  have hproc₃ : (s₂.countSent p ⟨c.targetRank, hrank⟩).proc p =
      { x₁ with record := x₁.record.countSent c.targetRank, app := .inside } := by
    apply (Cluster.setProc_proc_self ..).trans
    rw [hproc₂]
  have hcomm : protocolStep s (.commSend p c) = .ok (s.setProc p x₁) := by
    simp only [protocolStep, happ, dif_pos hrank]
    exact hlocal
  have hsend : protocolStep (s.setProc p x₁) (.app p) = .ok s₂ := by
    simp only [protocolStep, Cluster.appStep, hproc₁, x₁, s₂]
  have hcount : protocolStep s₂ (.app p) = .ok (s₂.countSent p ⟨c.targetRank, hrank⟩) := by
    simp only [protocolStep, Cluster.appStep, hproc₂]
  refine ⟨s₂.countSent p ⟨c.targetRank, hrank⟩, ?_, ?_, ?_⟩
  · exact run_cons_ok.mpr ⟨_, hcomm, run_cons_ok.mpr ⟨_, hsend, run_cons_ok.mpr ⟨_, hcount, rfl⟩⟩⟩
  · rw [hproc₃]
    have hmalloc : rmaAnalyzerGetState win (a.malloc c.localItv).2 = .ok (s.proc p).record := hstate
    exact ⟨getState_setState hmalloc hwin, hfilter, congrArg (· + 1) hobject⟩
  · change (if _ then _ else _) = _
    rw [hproc₁]
    exact if_pos ⟨rfl, rfl⟩

/-- What the checking thread does with a received interval in one step is what the sequential model
does with it. -/
theorem threadStep_saveReceived {received : Interval} (models : (s.proc p).Models win a)
    (hthread : (s.proc p).thread = .counted received)
    (h : rmaAnalyzerSaveReceived received win a = .ok a') :
    ∃ s', s.threadStep p = .ok s' ∧ (s'.proc p).Models win a' := by
  obtain ⟨hstate, hfilter, hobject⟩ := models
  obtain ⟨state, hstate', h⟩ := bind_ok.mp h
  obtain rfl : state = (s.proc p).record := Except.ok.inj (hstate'.symm.trans hstate)
  obtain ⟨⟨saved, record⟩, hsave, h⟩ := bind_ok.mp h
  obtain ⟨lt, nt, rfl⟩ := rmaAnalyzerSaveInterval_eq hsave
  obtain rfl := Except.ok.inj h
  have hwin := (mem_of_getState hstate).2
  have hstep : ∃ s', s.saveReceived p received = .ok s' ∧ s'.proc p =
      { s.proc p with
        record := { (s.proc p).record with localTree := lt, notifTree := nt }
        nextObject := (s.proc p).nextObject + 1
        thread := .start } := by
    refine ⟨_, bind_ok.mpr ⟨(saved, _), ?_, rfl⟩, Cluster.setProc_proc_self ..⟩
    rw [hfilter, hobject]
    exact hsave
  obtain ⟨s', hs', hproc⟩ := hstep
  refine ⟨s', by simp only [Cluster.threadStep, hthread, hs'], ?_⟩
  rw [hproc]
  have hmalloc : rmaAnalyzerGetState win (a.malloc (received.rebase (s.proc p).record.winBase)).2 =
    .ok (s.proc p).record := hstate
  exact ⟨getState_setState hmalloc hwin, hfilter, congrArg (· + 1) hobject⟩

end Calls

end ParcoachRma
