import ParcoachRma.NotifCoupling
import ParcoachRma.Lib.LockedStore

/-!
# The mutexes of a window

The lock operations of the calls that work on the trees of a window.  A save takes the interval
mutex and, inside it, the notification mutex if the interval carries an id; a clear takes the
notification mutex and, inside it, the interval mutex.

`saveIntervalInstrs` and `clearFromNotifIdInstrs` have the work on the trees between the lock
operations.  A thread that runs them alone does what the functions do, and `DeadlockFree.instrs`
carries freedom of deadlock over from the lock operations.

`deadlockFree_iff`: the checking thread and the application can end up holding one mutex each and
waiting for the other exactly if the first saves an interval with an id and the second clears one.
-/

namespace ParcoachRma

open Run Locks

/-- The two mutexes of a window. -/
inductive Mutex where
  | intervalMutex
  | notifMutex
  deriving DecidableEq, Repr

/-- The two threads of a process that work on a window. -/
inductive Party where
  | application
  | checking
  deriving DecidableEq, Repr

/-! ## The lock operations of the calls -/

/-- `rma_analyzer_save_notif`. -/
def saveNotifLocks (itv : IntervalPtr) : List (LockOp Mutex) :=
  if itv.itv.notificationId < 0 then []
  else [.acquire .notifMutex, .release .notifMutex]

/-- `rma_analyzer_save_interval` where it returns. -/
def saveIntervalLocks (filterWindow : Int) (state : RmaAnalyzerState) (itv : IntervalPtr) :
    List (LockOp Mutex) :=
  if admits filterWindow state itv.itv then
    .acquire .intervalMutex :: saveNotifLocks itv ++ [.release .intervalMutex]
  else []

/-- `rma_analyzer_delete_interval`. -/
def deleteIntervalLocks : List (LockOp Mutex) :=
  [.acquire .intervalMutex, .release .intervalMutex]

/-- `rma_analyzer_clear_from_notif_id`. -/
def clearFromNotifIdLocks (notifId : Int) : List (LockOp Mutex) :=
  if notifId < 0 then []
  else .acquire .notifMutex :: deleteIntervalLocks ++ [.release .notifMutex]

/-- A call of the application. -/
inductive AppCall where
  | save (itv : IntervalPtr)
  | clear (notifId : Int)

def AppCall.locks (filterWindow : Int) (state : RmaAnalyzerState) :
    AppCall → List (LockOp Mutex)
  | save itv => saveIntervalLocks filterWindow state itv
  | clear notifId => clearFromNotifIdLocks notifId

/-- The checking thread saves the intervals it receives, the application makes its calls. -/
def lockScript (filterWindow : Int) (state : RmaAnalyzerState) (received : List IntervalPtr)
    (calls : List AppCall) : Party → List (LockOp Mutex)
  | .application => calls.flatMap (AppCall.locks filterWindow state)
  | .checking => received.flatMap (saveIntervalLocks filterWindow state)

/-! ## The calls with their work on the trees -/

/-- An instruction of a thread that works on the record of a window. -/
abbrev WinInstr := Instr Mutex RmaAnalyzerState Fault

/-- The search of the interval tree and the insertion, between which the interval mutex is not
given up. -/
def insertLocal (itv : IntervalPtr) (state : RmaAnalyzerState) : Except Fault RmaAnalyzerState :=
  match overlapSearch state.localTree itv with
  | some overlapItv => .error (.mpiAbort (conflictReport itv.itv overlapItv.itv))
  | none => .ok { state with localTree := insertIntervalTree state.localTree itv }

/-- `rma_analyzer_save_notif`. -/
def saveNotifInstrs (itv : IntervalPtr) : List WinInstr :=
  if itv.itv.notificationId < 0 then []
  else [.lock (.acquire .notifMutex),
    .update fun state =>
      .ok { state with notifTree := insertNotifTree state.notifTree itv },
    .lock (.release .notifMutex)]

/-- `rma_analyzer_save_interval`. -/
def saveIntervalInstrs (filterWindow : Int) (w : RmaAnalyzerState) (itv : IntervalPtr) :
    List WinInstr :=
  if admits filterWindow w itv.itv then
    .lock (.acquire .intervalMutex) :: .update (insertLocal itv) :: saveNotifInstrs itv ++
      [.lock (.release .intervalMutex)]
  else []

/-- `rma_analyzer_delete_interval` of the interval found for the id.  It was looked up under the
notification mutex, which is still held, so it is the one that would be found now. -/
def deleteIntervalInstrs (notifId : Int) : List WinInstr :=
  [.lock (.acquire .intervalMutex),
    .update fun state =>
      rmaAnalyzerDeleteInterval (findIntervalFromNotif state.notifTree notifId) state,
    .lock (.release .intervalMutex)]

/-- `rma_analyzer_clear_from_notif_id`. -/
def clearFromNotifIdInstrs (notifId : Int) : List WinInstr :=
  if notifId < 0 then []
  else .lock (.acquire .notifMutex) :: deleteIntervalInstrs notifId ++
    [.update fun state => .ok { state with notifTree := deleteNotifTree state.notifTree notifId },
      .lock (.release .notifMutex)]

def AppCall.instrs (filterWindow : Int) (w : RmaAnalyzerState) : AppCall → List WinInstr
  | save itv => saveIntervalInstrs filterWindow w itv
  | clear notifId => clearFromNotifIdInstrs notifId

/-- The instructions of the two threads for the intervals received and the calls made. -/
def instrScript (filterWindow : Int) (w : RmaAnalyzerState) (received : List IntervalPtr)
    (calls : List AppCall) : Party → List WinInstr
  | .application => calls.flatMap (AppCall.instrs filterWindow w)
  | .checking => received.flatMap (saveIntervalInstrs filterWindow w)

/-- A thread that runs alone does with the instructions of a save what the function does. -/
theorem runAlone_saveIntervalInstrs {fw : Int} {w state : RmaAnalyzerState}
    (hb : state.winBase = w.winBase) (hs : state.winSize = w.winSize) (itv : IntervalPtr) :
    runAlone state (saveIntervalInstrs fw w itv) = treeSave fw state itv := by
  unfold saveIntervalInstrs treeSave rmaAnalyzerSaveInterval
  rw [admits_congr hb hs]
  split_ifs
  · simp only [runAlone, List.cons_append, insertLocal]
    cases overlapSearch state.localTree itv with
    | some overlapItv => rfl
    | none =>
        unfold saveNotifInstrs rmaAnalyzerSaveNotif
        split_ifs <;> rfl
  · rfl

/-- A thread that runs alone does with the instructions of a clear what the function does. -/
theorem runAlone_clearFromNotifIdInstrs (state : RmaAnalyzerState) (notifId : Int) :
    runAlone state (clearFromNotifIdInstrs notifId) =
      rmaAnalyzerClearFromNotifId state notifId := by
  unfold clearFromNotifIdInstrs rmaAnalyzerClearFromNotifId
  split_ifs
  · rfl
  · simp only [runAlone, deleteIntervalInstrs, List.cons_append, List.nil_append]
    rfl

theorem locksOf_saveIntervalInstrs (fw : Int) (w : RmaAnalyzerState) (itv : IntervalPtr) :
    locksOf (saveIntervalInstrs fw w itv) = saveIntervalLocks fw w itv := by
  unfold saveIntervalInstrs saveIntervalLocks saveNotifInstrs saveNotifLocks
  split_ifs <;> rfl

theorem locksOf_appCall (fw : Int) (w : RmaAnalyzerState) (c : AppCall) :
    locksOf (c.instrs fw w) = c.locks fw w := by
  cases c with
  | save itv => exact locksOf_saveIntervalInstrs fw w itv
  | clear notifId =>
      simp only [AppCall.instrs, AppCall.locks, clearFromNotifIdInstrs, clearFromNotifIdLocks]
      split_ifs <;> rfl

/-- The lock operations of the scripts are those of the instructions. -/
theorem locksOf_instrScript (fw : Int) (w : RmaAnalyzerState) (received : List IntervalPtr)
    (calls : List AppCall) :
    (fun t => locksOf (instrScript fw w received calls t)) = lockScript fw w received calls := by
  funext t
  cases t with
  | application =>
      simp only [instrScript, lockScript, locksOf_flatMap, locksOf_appCall]
  | checking =>
      simp only [instrScript, lockScript, locksOf_flatMap, locksOf_saveIntervalInstrs]

/-! ## What the calls leave behind and what they nest -/

section Calls

variable {fw : Int} {w : RmaAnalyzerState}

theorem heldAfter_saveIntervalLocks (itv : IntervalPtr) :
    heldAfter ∅ (saveIntervalLocks fw w itv) = ∅ := by
  unfold saveIntervalLocks saveNotifLocks
  split_ifs <;> ext m <;> cases m <;> simp [heldAfter]

theorem heldAfter_appCall (c : AppCall) : heldAfter ∅ (c.locks fw w) = ∅ := by
  cases c with
  | save itv => exact heldAfter_saveIntervalLocks itv
  | clear notifId =>
      simp only [AppCall.locks, clearFromNotifIdLocks, deleteIntervalLocks]
      split_ifs <;> ext m <;> cases m <;> simp [heldAfter]

theorem closed_saveIntervalLocks (itv : IntervalPtr) :
    Closed Party (saveIntervalLocks fw w itv) := by
  intro t
  unfold saveIntervalLocks saveNotifLocks
  split_ifs
  · refine congrArg Except.ok (funext fun m => ?_)
    cases m <;> rfl
  · refine congrArg Except.ok (funext fun m => ?_)
    cases m <;> rfl
  · rfl

theorem closed_appCall (c : AppCall) : Closed Party (c.locks fw w) := by
  cases c with
  | save itv => exact closed_saveIntervalLocks itv
  | clear notifId =>
      intro t
      simp only [AppCall.locks, clearFromNotifIdLocks, deleteIntervalLocks]
      split_ifs
      · rfl
      · refine congrArg Except.ok (funext fun m => ?_)
        cases m <;> rfl

/-- A save nests the notification mutex into the interval mutex, if the window admits its interval
and that one has an id. -/
theorem nests_saveIntervalLocks {itv : IntervalPtr} {a b : Mutex} (hab : a ≠ b)
    (h : Nests a b ∅ (saveIntervalLocks fw w itv)) :
    a = .intervalMutex ∧ b = .notifMutex ∧ admits fw w itv.itv = true ∧
      0 ≤ itv.itv.notificationId := by
  unfold saveIntervalLocks saveNotifLocks at h
  split_ifs at h with hadm hneg
  · simp [Nests] at h
  · refine ⟨?_, ?_, hadm, not_lt.mp hneg⟩ <;> cases a <;> cases b <;> simp_all [Nests]
  · exact h.elim

/-- A clear nests the interval mutex into the notification mutex, if its id is not negative. -/
theorem nests_clearFromNotifIdLocks {notifId : Int} {a b : Mutex} (hab : a ≠ b)
    (h : Nests a b ∅ (clearFromNotifIdLocks notifId)) :
    a = .notifMutex ∧ b = .intervalMutex ∧ 0 ≤ notifId := by
  unfold clearFromNotifIdLocks deleteIntervalLocks at h
  split_ifs at h with hneg
  · exact h.elim
  · refine ⟨?_, ?_, not_lt.mp hneg⟩ <;> cases a <;> cases b <;> simp_all [Nests]

end Calls

/-! ## Deadlock -/

/-- In no state that a schedule leads to does each of the two threads hold one of the mutexes and
wait for the other one. -/
def DeadlockFree (filterWindow : Int) (state : RmaAnalyzerState) (received : List IntervalPtr)
    (calls : List AppCall) : Prop :=
  ∀ schedule s,
    run lockStep (LockState.start (lockScript filterWindow state received calls)) schedule = .ok s →
    ∀ a b, a ≠ b → ¬ HoldAndWait s Party.checking Party.application a b

/-- Where the lock operations are free of deadlock, so are the threads with their work on the
trees, from every record of the window. -/
theorem DeadlockFree.instrs {fw : Int} {w state : RmaAnalyzerState} {received : List IntervalPtr}
    {calls : List AppCall} (free : DeadlockFree fw w received calls) {schedule : List Party}
    {s : StoreState Party Mutex RmaAnalyzerState Fault}
    (hrun : run instrStep (StoreState.start state (instrScript fw w received calls)) schedule =
      .ok s) {a b : Mutex} (hab : a ≠ b) : ¬ s.HoldAndWait .checking .application a b := by
  refine not_holdAndWait_of_locks (fun schedule' s' hs' => ?_) hrun
  rw [locksOf_instrScript] at hs'
  exact free schedule' s' hs' a b hab

/-- In calls that return, the lock operations of the two threads are free of deadlock exactly if the
checking thread saves no admitted interval with an id or the application clears no id. -/
theorem deadlockFree_iff {fw : Int} {w : RmaAnalyzerState} {received : List IntervalPtr}
    {calls : List AppCall} :
    DeadlockFree fw w received calls ↔
      (∀ itv ∈ received, admits fw w itv.itv = true → itv.itv.notificationId < 0) ∨
      ∀ notifId, .clear notifId ∈ calls → notifId < 0 := by
  refine ⟨fun free => ?_, fun cond schedule s hrun a b hab hwait => ?_⟩
  · by_contra hcond
    push Not at hcond
    obtain ⟨⟨itv, hitv, hadm, hnotified⟩, notifId, hcall, hid⟩ := hcond
    obtain ⟨xs, xs', rfl⟩ := List.append_of_mem hitv
    obtain ⟨ys, ys', rfl⟩ := List.append_of_mem hcall
    have hchecking : lockScript fw w (xs ++ itv :: xs') (ys ++ .clear notifId :: ys') .checking =
        xs.flatMap (saveIntervalLocks fw w) ++ .acquire .intervalMutex :: .acquire .notifMutex ::
          .release .notifMutex :: .release .intervalMutex ::
          xs'.flatMap (saveIntervalLocks fw w) := by
      simp [lockScript, saveIntervalLocks, saveNotifLocks, hadm, not_lt.mpr hnotified]
    have happlication :
        lockScript fw w (xs ++ itv :: xs') (ys ++ .clear notifId :: ys') .application =
        ys.flatMap (AppCall.locks fw w) ++ .acquire .notifMutex :: .acquire .intervalMutex ::
          .release .intervalMutex :: .release .notifMutex ::
          ys'.flatMap (AppCall.locks fw w) := by
      simp [lockScript, AppCall.locks, clearFromNotifIdLocks, deleteIntervalLocks,
        not_lt.mpr hid]
    obtain ⟨schedule, s, hrun, hwait⟩ := exists_holdAndWait (by decide) (by decide)
      (Closed.flatMap closed_saveIntervalLocks xs) (Closed.flatMap closed_appCall ys)
      hchecking happlication
    exact free schedule s hrun _ _ (by decide) hwait
  · obtain ⟨hchecking, happlication⟩ := nests_of_holdAndWait hrun hwait
    obtain ⟨itv, hitv, hsave⟩ := exists_nests_of_flatMap heldAfter_saveIntervalLocks hchecking
    obtain ⟨rfl, rfl, hadm, hnotified⟩ := nests_saveIntervalLocks hab hsave
    obtain ⟨c, hc, hcall⟩ := exists_nests_of_flatMap heldAfter_appCall happlication
    -- Only a clear takes the mutexes in the order the checking thread does not.
    cases c with
    | save itv' =>
        obtain ⟨h, -⟩ := nests_saveIntervalLocks hab.symm hcall
        cases h
    | clear notifId =>
        obtain ⟨-, -, hid⟩ := nests_clearFromNotifIdLocks hab.symm hcall
        rcases cond with cond | cond
        · exact absurd (cond itv hitv hadm) (not_lt.mpr hnotified)
        · exact absurd (cond notifId hc) (not_lt.mpr hid)

/-- The checking thread has taken the interval mutex to save an interval with an id, the
application the notification mutex to clear it. -/
theorem not_deadlockFree_notifiedWrite :
    ¬ DeadlockFree 1 exampleWindow [exampleNotifiedWrite] [.clear 7] := by
  intro free
  apply free [.checking, .application] _ rfl .intervalMutex .notifMutex (by decide)
  exact ⟨rfl, ⟨_, rfl, by decide⟩, rfl, ⟨_, rfl, by decide⟩⟩

end ParcoachRma
