import ParcoachRma.Start
import ParcoachRma.SaveInterval

/-!
# The life of the checking threads of a window

Every call that opens an epoch creates the checking thread of the window and every call that closes
one joins it, but the record of a window has room for one thread only.  Calls of one process whose
epochs overlap, or an epoch after the last fence, create a second one.

* `OpenEpochs` is what the MPI standard says of the calls: which epochs of the process are open on
  the window, and which calls are legal then.
* `OneThread n`: `n` checking threads of the window are running, where `n` is 0 or 1, and the record
  of the window knows of it.
* `lifecycle_iff_opensAlone`: along a legal sequence of calls the threads are created and joined
  one by one exactly if no epoch is opened while another one is open.
-/

namespace ParcoachRma

open Run

/-! ## Wrappers -/

def newWinLock (win : MpiWin) (a : Analyzer) : Except Fault Analyzer :=
  rmaAnalyzerInitCommCheckThread win a

def newWinStart (win : MpiWin) (a : Analyzer) : Except Fault Analyzer :=
  rmaAnalyzerInitCommCheckThread win a

def newWinPost (win : MpiWin) (a : Analyzer) : Except Fault Analyzer :=
  rmaAnalyzerInitCommCheckThread win a

def newWinUnlock (tmp : Nat) (win : MpiWin) (a : Analyzer) : Except Fault Analyzer :=
  rmaAnalyzerClearCommCheckThread true tmp win a

def newWinComplete (tmp : Nat) (win : MpiWin) (a : Analyzer) : Except Fault Analyzer :=
  rmaAnalyzerClearCommCheckThread true tmp win a

def newWinWait (tmp : Nat) (win : MpiWin) (a : Analyzer) : Except Fault Analyzer :=
  rmaAnalyzerClearCommCheckThread true tmp win a

/-- A call of the process on the window.  `tmp` is what the reductions of a call that closes an
epoch leave with the process.  `save` stands for the accesses between the calls. -/
inductive WindowCall where
  | fence (noSucceed : Bool) (tmp : Nat)
  | lock (rank : Nat)
  | unlock (rank tmp : Nat)
  | lockAll
  | unlockAll (tmp : Nat)
  | start
  | complete (tmp : Nat)
  | post
  | wait (tmp : Nat)
  | save (itv : IntervalPtr)
  | free
  deriving DecidableEq

/-- The wrapper of the call. -/
def WindowCall.wrapper (win : MpiWin) : WindowCall → Analyzer → Except Fault Analyzer
  | fence _ tmp => newWinFence tmp win
  | lock _ => newWinLock win
  | unlock _ tmp => newWinUnlock tmp win
  | lockAll => newWinLockAll win
  | unlockAll tmp => newWinUnlockAll tmp win
  | start => newWinStart win
  | complete tmp => newWinComplete tmp win
  | post => newWinPost win
  | wait tmp => newWinWait tmp win
  | save itv => fun a => do
      let state ← rmaAnalyzerGetState win a
      let (_, state) ← rmaAnalyzerSaveInterval a.filterWindow state itv
      return a.setState state
  | free => newWinFree win

/-! ## Open epochs -/

/-- The epochs of the process that are open on the window.  A fence opens one unless it promises
that no communication succeeds it. -/
structure OpenEpochs where
  fence : Bool
  locked : List Nat
  lockedAll : Bool
  started : Bool
  posted : Bool
  freed : Bool
  deriving DecidableEq

namespace OpenEpochs

/-- A new window. -/
def none : OpenEpochs := ⟨false, [], false, false, false, false⟩

/-- The number of open epochs. -/
def count (o : OpenEpochs) : Nat :=
  o.fence.toNat + o.locked.length + o.lockedAll.toNat + o.started.toNat + o.posted.toNat

/-- The calls that are legal.  Locks of different targets may overlap, and so may the two sides of
general active target synchronisation; an epoch may follow a fence, which then was the last one. -/
def Permits (o : OpenEpochs) : WindowCall → Prop
  | .fence _ _ => o.freed = false ∧ o.locked = [] ∧ o.lockedAll = false ∧ o.started = false ∧
      o.posted = false
  | .lock rank => o.freed = false ∧ rank ∉ o.locked ∧ o.lockedAll = false ∧ o.started = false
  | .unlock rank _ => rank ∈ o.locked
  | .lockAll => o.freed = false ∧ o.locked = [] ∧ o.lockedAll = false ∧ o.started = false
  | .unlockAll _ => o.lockedAll = true
  | .start => o.freed = false ∧ o.locked = [] ∧ o.lockedAll = false ∧ o.started = false
  | .complete _ => o.started = true
  | .post => o.freed = false ∧ o.posted = false
  | .wait _ => o.posted = true
  | .save _ => o.freed = false
  | .free => o.freed = false ∧ o.locked = [] ∧ o.lockedAll = false ∧ o.started = false ∧
      o.posted = false

instance (o : OpenEpochs) : (call : WindowCall) → Decidable (o.Permits call)
  | .fence .. | .free => inferInstanceAs (Decidable (_ ∧ _ ∧ _ ∧ _ ∧ _))
  | .lock _ | .lockAll | .start => inferInstanceAs (Decidable (_ ∧ _ ∧ _ ∧ _))
  | .post => inferInstanceAs (Decidable (_ ∧ _))
  | .unlock .. => inferInstanceAs (Decidable (_ ∈ _))
  | .unlockAll _ | .complete _ | .wait _ | .save _ => inferInstanceAs (Decidable (_ = _))

/-- The open epochs after the call. -/
def after (o : OpenEpochs) : WindowCall → OpenEpochs
  | .fence noSucceed _ => { o with fence := !noSucceed }
  | .lock rank => { o with fence := false, locked := rank :: o.locked }
  | .unlock rank _ => { o with locked := o.locked.erase rank }
  | .lockAll => { o with fence := false, lockedAll := true }
  | .unlockAll _ => { o with lockedAll := false }
  | .start => { o with fence := false, started := true }
  | .complete _ => { o with started := false }
  | .post => { o with fence := false, posted := true }
  | .wait _ => { o with posted := false }
  | .save _ => o
  | .free => { o with fence := false, freed := true }

end OpenEpochs

/-- A legal call, with what the standard says of it next to what its wrapper does. -/
def callStep (win : MpiWin) (s : Analyzer × OpenEpochs) (call : WindowCall) :
    Except Fault (Analyzer × OpenEpochs) :=
  if s.2.Permits call then do
    let a ← call.wrapper win s.1
    return (a, s.2.after call)
  else .error .notEnabled

theorem callStep_ok {win : MpiWin} {a a' : Analyzer} {o o' : OpenEpochs} {call : WindowCall} :
    callStep win (a, o) call = .ok (a', o') ↔
      o.Permits call ∧ call.wrapper win a = .ok a' ∧ o' = o.after call := by
  unfold callStep
  split_ifs with hperm
  · rw [bind_ok]
    constructor
    · intro hparts
      rcases hparts with ⟨b, hb, h⟩
      cases h
      exact ⟨hperm, hb, rfl⟩
    · intro hparts
      rcases hparts with ⟨-, hb, rfl⟩
      exact ⟨a', hb, rfl⟩
  · exact ⟨(fun h => by cases h), fun h => absurd h.1 hperm⟩

/-! ## The threads of a window -/

/-- The number of checking threads of the window that are running. -/
def Analyzer.running (win : MpiWin) (a : Analyzer) : Nat := a.threads.countP (·.2 = win)

/-- No two threads of the process have the same id, and the next id is a new one. -/
structure DistinctIds (a : Analyzer) : Prop where
  nodup : (a.threads.map Prod.fst).Nodup
  below : ∀ t ∈ a.threads, t.1 < a.nextThread

/-- The window has the record `state`; `n` threads of it are running, at most one, which is the one
the record knows. -/
structure OneThread (win : MpiWin) (n : Nat) (state : RmaAnalyzerState) (a : Analyzer) : Prop where
  getState : rmaAnalyzerGetState win a = .ok state
  active : state.activeEpoch = n
  running : a.running win = n
  joinable : 0 < n → ∃ tid, state.threadId = some tid ∧ (tid, win) ∈ a.threads
  ids : DistinctIds a

section Threads

variable {win : MpiWin} {a a' : Analyzer} {state : RmaAnalyzerState}

/-- Where no thread of the window is running, initialising creates one. -/
theorem OneThread.init (h : OneThread win 0 state a)
    (hstep : rmaAnalyzerInitCommCheckThread win a = .ok a') :
    ∃ state', OneThread win 1 state' a' ∧ state'.countFence = state.countFence := by
  rcases initCommCheckThread_spec hstep with ⟨t, ht, rfl⟩
  obtain rfl : state = t := Except.ok.inj (h.getState.symm.trans ht)
  have hwin : state.stateWin = win := (mem_of_getState h.getState).2
  have hfresh : a.nextThread ∉ a.threads.map Prod.fst := by
    intro hmem
    rcases List.mem_map.mp hmem with ⟨t, hmem, heq⟩
    exact absurd (h.ids.below t hmem) (by omega)
  refine ⟨{ state.enterEpoch with threadId := some a.nextThread }, ?_, rfl⟩
  constructor
  · exact getState_setState (a := (a.pthreadCreate win).2) h.getState hwin
  · rfl
  · change ((a.nextThread, win) :: a.threads).countP (·.2 = win) = 1
    rw [List.countP_cons_of_pos (by simp)]
    exact congrArg (· + 1) h.running
  · exact fun _ => ⟨a.nextThread, rfl, List.mem_cons_self⟩
  · refine ⟨List.nodup_cons.mpr ⟨hfresh, h.ids.nodup⟩, fun t ht => ?_⟩
    rcases List.mem_cons.mp ht with rfl | ht
    · exact Nat.lt_succ_self _
    · exact (h.ids.below t ht).trans (Nat.lt_succ_self _)

/-- The thread that is joined is the only one of the window. -/
theorem running_filter (h : OneThread win 1 state a) {tid : Nat}
    (htid : state.threadId = some tid) :
    (a.threads.filter (·.1 ≠ tid)).countP (·.2 = win) = 0 := by
  rcases h.joinable one_pos with ⟨tid', htid', hmem⟩
  obtain rfl : tid = tid' := Option.some.inj (htid.symm.trans htid')
  have hlen : (a.threads.filter (·.2 = win)).length = 1 :=
    List.countP_eq_length_filter.symm.trans h.running
  rcases List.length_eq_one_iff.mp hlen with ⟨t, hall⟩
  have hself : (tid, win) ∈ a.threads.filter (·.2 = win) :=
    List.mem_filter.mpr ⟨hmem, by simp⟩
  rw [hall, List.mem_singleton] at hself
  apply List.countP_eq_zero.mpr
  intro u hu
  rcases List.mem_filter.mp hu with ⟨hu, hne⟩
  intro hwin
  have hsame : u ∈ a.threads.filter (·.2 = win) := List.mem_filter.mpr ⟨hu, hwin⟩
  rw [hall, List.mem_singleton, ← hself] at hsame
  simp [hsame] at hne

/-- Where one thread is running, clearing joins it. -/
theorem OneThread.clear {doReduce : Bool} {tmp : Nat} (h : OneThread win 1 state a)
    (hstep : rmaAnalyzerClearCommCheckThread doReduce tmp win a = .ok a') :
    ∃ state', OneThread win 0 state' a' ∧ state'.countFence = state.countFence := by
  rcases clearCommCheckThread_spec hstep with
    ⟨t, tid, value, localTree, notifTree, ht, htid, hmem, rfl⟩
  obtain rfl : state = t := Except.ok.inj (h.getState.symm.trans ht)
  have hwin : state.stateWin = win := (mem_of_getState h.getState).2
  refine ⟨{ (state.requestEnd value).leaveEpoch with
    localTree := localTree, notifTree := notifTree }, ?_, rfl⟩
  constructor
  · exact getState_setState (a := { a with threads := _ }) h.getState hwin
  · rfl
  · exact running_filter h htid
  · exact fun hpos => absurd hpos (lt_irrefl 0)
  · exact ⟨h.ids.nodup.sublist (List.filter_sublist.map _),
      fun u hu => h.ids.below u (List.mem_filter.mp hu).1⟩

/-- Writing the record back with another count of fences or other trees starts and joins nothing. -/
theorem OneThread.setState {n : Nat} {state' : RmaAnalyzerState} (h : OneThread win n state a)
    (hwin : state'.stateWin = state.stateWin) (hactive : state'.activeEpoch = state.activeEpoch)
    (htid : state'.threadId = state.threadId) : OneThread win n state' (a.setState state') where
  getState := getState_setState h.getState (hwin.trans (mem_of_getState h.getState).2)
  active := hactive.trans h.active
  running := h.running
  joinable := by
    rw [htid]
    exact h.joinable
  ids := ⟨h.ids.nodup, h.ids.below⟩

/-- A new window has no thread yet. -/
theorem OneThread.of_newWinCreate {base size : UInt64} {comm : MpiComm} {sizeComm : Nat}
    {filterWindow : Option Int} (hnew : win ∉ a.windows) (hidle : a.running win = 0)
    (hids : DistinctIds a)
    (hstep : newWinCreate base size comm sizeComm win filterWindow a = .ok a') :
    ∃ state', OneThread win 0 state' a' ∧ state'.countFence = 0 := by
  rcases rmaAnalyzerStart_spec hnew hstep with ⟨hstate, -, hthreads, hnext⟩
  refine ⟨_, ⟨hstate, rfl, ?_, fun hpos => absurd hpos (lt_irrefl 0), ?_, ?_⟩, rfl⟩
  · rw [Analyzer.running, hthreads]
    exact hidle
  · rw [hthreads]
    exact hids.nodup
  · rw [hthreads, hnext]
    exact hids.below

end Threads

/-! ## The contract of the calls -/

/-- The call initialises where no thread of the window is running and clears where exactly one is.
A fence after the first one clears, then initialises. -/
def FindsThreads (win : MpiWin) (a : Analyzer) : WindowCall → Prop
  | .lock _ | .lockAll | .start | .post => a.running win = 0
  | .unlock .. | .unlockAll _ | .complete _ | .wait _ => a.running win = 1
  | .fence _ tmp => ∀ state, rmaAnalyzerGetState win a = .ok state →
      if state.countFence > 0 then
        a.running win = 1 ∧
          ∀ b, rmaAnalyzerClearCommCheckThread true tmp win a = .ok b → b.running win = 0
      else a.running win = 0
  | .save _ => True
  | .free => ∀ state, rmaAnalyzerGetState win a = .ok state → state.countFence > 0 →
      a.running win = 1

/-- The call finds the threads it expects; after it the record says whether an epoch is open; and no
thread is left once the window is freed. -/
structure KeepsLifecycle (win : MpiWin) (s : Analyzer × OpenEpochs) (call : WindowCall)
    (s' : Analyzer × OpenEpochs) : Prop where
  finds : FindsThreads win s.1 call
  active : ∀ state, rmaAnalyzerGetState win s'.1 = .ok state →
    state.activeEpoch = if 0 < s'.2.count then 1 else 0
  freed : s'.2.freed = true → s'.1.running win = 0

/-- The call does not open an epoch while another one is open, and every fence opens one. -/
def OpensAlone (o : OpenEpochs) : WindowCall → Prop
  | .fence noSucceed _ => noSucceed = false
  | .lock _ | .lockAll | .start | .post => o.count = 0
  | _ => True

/-- As many threads of the window are running as epochs are open, at most one, and a fence has been
called exactly if the one that is open is a fence epoch. -/
structure Coherent (win : MpiWin) (s : Analyzer × OpenEpochs) : Prop where
  live : s.2.freed = false → s.2.count ≤ 1 ∧
    ∃ state, OneThread win s.2.count state s.1 ∧ (0 < state.countFence ↔ s.2.fence = true)
  freed : s.2.freed = true → s.1.running win = 0 ∧ s.2.count = 0

namespace OpenEpochs

theorem count_eq_zero {o : OpenEpochs} : o.count = 0 ↔ o.fence = false ∧ o.locked = [] ∧
    o.lockedAll = false ∧ o.started = false ∧ o.posted = false := by
  simp only [count, Nat.add_eq_zero_iff, Bool.toNat_eq_zero, List.length_eq_zero_iff, and_assoc]

/-- The calls that open an epoch besides a fence. -/
def Opens : WindowCall → Prop
  | .lock _ | .lockAll | .start | .post => True
  | _ => False

/-- The calls that close an epoch, with the number of communications they wait for. -/
def Closes (tmp : Nat) : WindowCall → Prop
  | .unlock _ t | .unlockAll t | .complete t | .wait t => t = tmp
  | _ => False

theorem count_after_of_opens {o : OpenEpochs} {call : WindowCall} (hopens : Opens call)
    (hcount : o.count = 0) : (o.after call).count = 1 ∧ (o.after call).fence = false ∧
      (o.after call).freed = o.freed := by
  rcases o with ⟨f, l, la, st, po, fr⟩
  rcases count_eq_zero.mp hcount with ⟨rfl, rfl, rfl, rfl, rfl⟩
  cases call <;> first | exact hopens.elim | exact ⟨rfl, rfl, rfl⟩

/-- A call that closes an epoch leaves one less. -/
theorem count_after_of_closes {o : OpenEpochs} {call : WindowCall} {tmp : Nat}
    (hcloses : Closes tmp call) (hperm : o.Permits call) : (o.after call).count + 1 = o.count ∧
      (o.after call).fence = o.fence ∧ (o.after call).freed = o.freed := by
  rcases o with ⟨f, l, la, st, po, fr⟩
  refine ⟨?_, ?_⟩
  · cases call with
    | unlock rank t =>
        have hlen : (l.erase rank).length + 1 = l.length := List.length_erase_add_one hperm
        simp only [after, count, ← hlen]
        omega
    | unlockAll t =>
        obtain rfl : la = true := hperm
        simp only [after, count, Bool.toNat_true, Bool.toNat_false]
        omega
    | complete t =>
        obtain rfl : st = true := hperm
        simp only [after, count, Bool.toNat_true, Bool.toNat_false]
        omega
    | wait t =>
        obtain rfl : po = true := hperm
        simp only [after, count, Bool.toNat_true, Bool.toNat_false]
    | _ => exact hcloses.elim
  · cases call <;> first | exact hcloses.elim | exact ⟨rfl, rfl⟩

/-- No call is legal on a freed window without an open epoch. -/
theorem freed_or_count_pos_of_permits {o : OpenEpochs} {call : WindowCall}
    (hperm : o.Permits call) :
    o.freed = false ∨ 0 < o.count := by
  rcases o with ⟨f, l, la, st, po, fr⟩
  cases call with
  | unlock rank t =>
      have hpos : 0 < l.length := List.length_pos_of_mem hperm
      exact .inr (by simp only [count]; omega)
  | unlockAll t =>
      obtain rfl : la = true := hperm
      exact .inr (by simp only [count, Bool.toNat_true]; omega)
  | complete t =>
      obtain rfl : st = true := hperm
      exact .inr (by simp only [count, Bool.toNat_true]; omega)
  | wait t =>
      obtain rfl : po = true := hperm
      exact .inr (by simp only [count, Bool.toNat_true]; omega)
  | save itv => exact .inl hperm
  | _ => exact .inl hperm.1

theorem wrapper_of_opens {win : MpiWin} {call : WindowCall} (hopens : Opens call) :
    call.wrapper win = rmaAnalyzerInitCommCheckThread win := by
  cases call <;> first | exact hopens.elim | rfl

theorem wrapper_of_closes {win : MpiWin} {call : WindowCall} {tmp : Nat}
    (hcloses : Closes tmp call) :
    call.wrapper win = rmaAnalyzerClearCommCheckThread true tmp win := by
  cases call <;> first | exact hcloses.elim | exact hcloses ▸ rfl

end OpenEpochs

/-! ## One call -/

section Call

open OpenEpochs

variable {win : MpiWin} {s s' : Analyzer × OpenEpochs} {call : WindowCall}

/-- Before a legal call the window is not freed. -/
theorem Coherent.live_of_permits (h : Coherent win s) (hperm : s.2.Permits call) :
    s.2.freed = false := by
  rcases freed_or_count_pos_of_permits hperm with hlive | hpos
  · exact hlive
  · by_contra hfreed
    have hzero : s.2.count = 0 := (h.freed (by simpa using hfreed)).2
    omega

/-- The record shows whether an epoch is open. -/
theorem OneThread.keeps {state : RmaAnalyzerState} (h : OneThread win s'.2.count state s'.1)
    (hcount : s'.2.count ≤ 1) (hlive : s'.2.freed = false) (hfinds : FindsThreads win s.1 call) :
    KeepsLifecycle win s call s' where
  finds := hfinds
  active := by
    intro t ht
    obtain rfl : state = t := Except.ok.inj (h.getState.symm.trans ht)
    rw [h.active]
    split_ifs <;> omega
  freed hfreed := absurd (hlive.symm.trans hfreed) Bool.false_ne_true

/-- A call that opens an epoch where none is open. -/
theorem Coherent.opens (h : Coherent win s) (hopens : Opens call) (hcount : s.2.count = 0)
    (hstep : callStep win s call = .ok s') : Coherent win s' ∧ KeepsLifecycle win s call s' := by
  rcases callStep_ok.mp hstep with ⟨hperm, hcall, hafter⟩
  have hlive : s.2.freed = false := h.live_of_permits hperm
  rcases h.live hlive with ⟨-, state, hone, hfence⟩
  rcases count_after_of_opens hopens hcount with ⟨hcount', hfence', hfreed'⟩
  rw [← hafter] at hcount' hfence' hfreed'
  rw [hcount] at hone
  rw [wrapper_of_opens hopens] at hcall
  rcases hone.init hcall with ⟨state', hone', hsame⟩
  have hnofence : s.2.fence = false := (count_eq_zero.mp hcount).1
  rw [← hcount'] at hone'
  constructor
  · refine ⟨fun _ => ⟨hcount'.le, state', hone', ?_⟩, fun hfreed => ?_⟩
    · rw [hsame, hfence, hnofence, hfence']
    · rw [hfreed', hlive] at hfreed
      cases hfreed
  · apply hone'.keeps hcount'.le (hfreed'.trans hlive)
    cases call <;> first | exact hopens.elim | exact hone.running

/-- A call that closes the epoch that is open. -/
theorem Coherent.closes {tmp : Nat} (h : Coherent win s) (hcloses : Closes tmp call)
    (hstep : callStep win s call = .ok s') : Coherent win s' ∧ KeepsLifecycle win s call s' := by
  rcases callStep_ok.mp hstep with ⟨hperm, hcall, hafter⟩
  have hlive : s.2.freed = false := h.live_of_permits hperm
  rcases h.live hlive with ⟨hle, state, hone, hfence⟩
  rcases count_after_of_closes hcloses hperm with ⟨hcount, hfence', hfreed'⟩
  rw [← hafter] at hcount hfence' hfreed'
  have hone_before : s.2.count = 1 := by omega
  have hcount' : s'.2.count = 0 := by omega
  rw [hone_before] at hone
  rw [wrapper_of_closes hcloses] at hcall
  rcases hone.clear hcall with ⟨state', hone', hsame⟩
  rw [← hcount'] at hone'
  constructor
  · refine ⟨fun _ => ⟨by omega, state', hone', ?_⟩, fun hfreed => ?_⟩
    · rw [hsame, hfence, hfence']
    · rw [hfreed', hlive] at hfreed
      cases hfreed
  · apply hone'.keeps (by omega) (hfreed'.trans hlive)
    cases call <;> first | exact hcloses.elim | exact hone.running

/-- A fence that opens an epoch, after another one or where none is open. -/
theorem Coherent.fence {noSucceed : Bool} {tmp : Nat} (h : Coherent win s)
    (hstep : callStep win s (.fence noSucceed tmp) = .ok s') :
    FindsThreads win s.1 (.fence noSucceed tmp) ∧
      ∃ state, OneThread win 1 state s'.1 ∧ 0 < state.countFence := by
  rcases callStep_ok.mp hstep with ⟨hperm, hcall, -⟩
  have hlive : s.2.freed = false := h.live_of_permits hperm
  rcases hperm with ⟨-, hlocked, hall, hstarted, hposted⟩
  rcases h.live hlive with ⟨-, state, hone, hfence⟩
  have hcount : s.2.count = s.2.fence.toNat := by
    simp only [count, hlocked, hall, hstarted, hposted, List.length_nil, Bool.toNat_false, add_zero]
  rcases bind_ok.mp hcall with ⟨t, ht, hcall⟩
  obtain rfl : state = t := Except.ok.inj (hone.getState.symm.trans ht)
  rcases bind_ok.mp hcall with ⟨b, hclear, hcall⟩
  rcases bind_ok.mp hcall with ⟨u, hu, hinit⟩
  -- Whether or not a thread had to be cleared, none is running when the new one is created.
  have hcleared : FindsThreads win s.1 (.fence noSucceed tmp) ∧ OneThread win 0 u b := by
    by_cases hpos : 0 < state.countFence
    · rw [if_pos hpos] at hclear
      rw [hcount, hfence.mp hpos, Bool.toNat_true] at hone
      rcases hone.clear hclear with ⟨state', hone', -⟩
      obtain rfl : state' = u := Except.ok.inj (hone'.getState.symm.trans hu)
      refine ⟨fun t ht => ?_, hone'⟩
      obtain rfl : state = t := Except.ok.inj (hone.getState.symm.trans ht)
      rw [if_pos hpos]
      refine ⟨hone.running, fun c hc => ?_⟩
      obtain rfl : b = c := Except.ok.inj (hclear.symm.trans hc)
      exact hone'.running
    · rw [if_neg hpos] at hclear
      obtain rfl : s.1 = b := Except.ok.inj hclear
      have hnofence : s.2.fence = false := by
        by_contra hc
        exact hpos (hfence.mpr (by simpa using hc))
      rw [hcount, hnofence, Bool.toNat_false] at hone
      obtain rfl : state = u := Except.ok.inj (hone.getState.symm.trans hu)
      refine ⟨fun t ht => ?_, hone⟩
      obtain rfl : state = t := Except.ok.inj (hone.getState.symm.trans ht)
      rw [if_neg hpos]
      exact hone.running
  rcases hcleared with ⟨hfinds, hone'⟩
  have hcounted : OneThread win 0 { u with countFence := u.countFence + 1 } _ :=
    hone'.setState rfl rfl rfl
  rcases hcounted.init hinit with ⟨state', hone'', hsame⟩
  refine ⟨hfinds, state', hone'', ?_⟩
  rw [hsame]
  exact Nat.succ_pos _

/-- Accesses leave the threads alone. -/
theorem Coherent.save {itv : IntervalPtr} (h : Coherent win s)
    (hstep : callStep win s (.save itv) = .ok s') :
    Coherent win s' ∧ KeepsLifecycle win s (.save itv) s' := by
  rcases callStep_ok.mp hstep with ⟨hperm, hcall, hafter⟩
  have hlive : s.2.freed = false := hperm
  rcases h.live hlive with ⟨hle, state, hone, hfence⟩
  rcases bind_ok.mp hcall with ⟨t, ht, hcall⟩
  obtain rfl : state = t := Except.ok.inj (hone.getState.symm.trans ht)
  rcases bind_ok.mp hcall with ⟨⟨saved, u⟩, hsave, hset⟩
  rcases rmaAnalyzerSaveInterval_eq hsave with ⟨localTree, notifTree, rfl⟩
  have hsame : s'.2 = s.2 := hafter
  have hone' : OneThread win s.2.count
      { state with localTree := localTree, notifTree := notifTree } _ := hone.setState rfl rfl rfl
  rw [← hsame, Except.ok.inj hset] at hone'
  constructor
  · refine ⟨fun _ => ⟨hsame ▸ hle, _, hone', hsame ▸ hfence⟩, fun hfreed => ?_⟩
    rw [hsame, hlive] at hfreed
    cases hfreed
  · exact hone'.keeps (hsame ▸ hle) (hsame ▸ hlive) trivial

/-- Stopping the analysis of a window takes its record out of the table. -/
theorem not_getState_of_stop {a a' : Analyzer} (hstop : rmaAnalyzerStop win a = .ok a') :
    a'.threads = a.threads ∧ ∀ state, rmaAnalyzerGetState win a' ≠ .ok state := by
  rcases bind_ok.mp hstop with ⟨t, -, hstop⟩
  rcases bind_ok.mp hstop with ⟨table, -, hstop⟩
  rw [← Except.ok.inj hstop]
  refine ⟨rfl, fun state hstate => ?_⟩
  rcases mem_of_getState hstate with ⟨hmem, hwin⟩
  simpa [hwin] using (List.mem_filter.mp hmem).2

/-- Freeing the window joins the thread of the last fence. -/
theorem Coherent.free (h : Coherent win s) (hstep : callStep win s .free = .ok s') :
    Coherent win s' ∧ KeepsLifecycle win s .free s' := by
  rcases callStep_ok.mp hstep with ⟨hperm, hcall, hafter⟩
  rcases hperm with ⟨hlive, hlocked, hall, hstarted, hposted⟩
  rcases h.live hlive with ⟨-, state, hone, hfence⟩
  have hcount : s.2.count = s.2.fence.toNat := by
    simp only [count, hlocked, hall, hstarted, hposted, List.length_nil, Bool.toNat_false, add_zero]
  rcases bind_ok.mp hcall with ⟨t, ht, hcall⟩
  obtain rfl : state = t := Except.ok.inj (hone.getState.symm.trans ht)
  rcases bind_ok.mp hcall with ⟨b, hclear, hstop⟩
  have hcleared : FindsThreads win s.1 .free ∧ b.running win = 0 := by
    by_cases hpos : 0 < state.countFence
    · rw [if_pos hpos] at hclear
      rw [hcount, hfence.mp hpos, Bool.toNat_true] at hone
      rcases hone.clear hclear with ⟨state', hone', -⟩
      exact ⟨fun t _ _ => hone.running, hone'.running⟩
    · rw [if_neg hpos] at hclear
      obtain rfl : s.1 = b := Except.ok.inj hclear
      have hnofence : s.2.fence = false := by
        by_contra hc
        exact hpos (hfence.mpr (by simpa using hc))
      rw [hcount, hnofence, Bool.toNat_false] at hone
      refine ⟨fun t ht hpos' => absurd ?_ hpos, hone.running⟩
      obtain rfl : state = t := Except.ok.inj (hone.getState.symm.trans ht)
      exact hpos'
  rcases not_getState_of_stop hstop with ⟨hthreads, hnone⟩
  have hrunning : s'.1.running win = 0 := by
    rw [Analyzer.running, hthreads]
    exact hcleared.2
  have hfreed : s'.2.freed = true := by rw [hafter]; rfl
  constructor
  · refine ⟨fun hlive' => ?_, fun _ => ⟨hrunning, ?_⟩⟩
    · rw [hfreed] at hlive'
      cases hlive'
    · rw [hafter]
      exact count_eq_zero.mpr ⟨rfl, hlocked, hall, hstarted, hposted⟩
  · exact ⟨hcleared.1, fun state hstate => absurd hstate (hnone state), fun _ => hrunning⟩

/-- As long as epochs have been opened one by one, a call keeps the life cycle exactly if it does
so, too. -/
theorem Coherent.keepsLifecycle_iff (h : Coherent win s) (hstep : callStep win s call = .ok s') :
    (KeepsLifecycle win s call s' ↔ OpensAlone s.2 call) ∧
      (OpensAlone s.2 call → Coherent win s') := by
  rcases callStep_ok.mp hstep with ⟨hperm, -, hafter⟩
  have hlive : s.2.freed = false := h.live_of_permits hperm
  rcases h.live hlive with ⟨-, state, hone, -⟩
  have opens : Opens call → (KeepsLifecycle win s call s' ↔ s.2.count = 0) ∧
      (s.2.count = 0 → Coherent win s') := by
    intro hopens
    refine ⟨⟨fun hkeep => ?_, fun hcount => (h.opens hopens hcount hstep).2⟩,
      fun hcount => (h.opens hopens hcount hstep).1⟩
    have hidle : s.1.running win = 0 := by
      cases call <;> first | exact hopens.elim | exact hkeep.finds
    exact hone.running.symm.trans hidle
  have closes : ∀ {tmp}, Closes tmp call → KeepsLifecycle win s call s' ∧ Coherent win s' :=
    fun hcloses => (h.closes hcloses hstep).symm
  cases call with
  | lock rank => exact opens trivial
  | lockAll => exact opens trivial
  | start => exact opens trivial
  | post => exact opens trivial
  | unlock rank tmp =>
      exact ⟨iff_of_true (closes rfl).1 trivial, fun _ => (closes rfl).2⟩
  | unlockAll tmp =>
      exact ⟨iff_of_true (closes rfl).1 trivial, fun _ => (closes rfl).2⟩
  | complete tmp =>
      exact ⟨iff_of_true (closes rfl).1 trivial, fun _ => (closes rfl).2⟩
  | wait tmp =>
      exact ⟨iff_of_true (closes rfl).1 trivial, fun _ => (closes rfl).2⟩
  | save itv => exact ⟨iff_of_true (h.save hstep).2 trivial, fun _ => (h.save hstep).1⟩
  | free => exact ⟨iff_of_true (h.free hstep).2 trivial, fun _ => (h.free hstep).1⟩
  | fence noSucceed tmp =>
      rcases h.fence hstep with ⟨hfinds, state', hone', hpos⟩
      rcases hperm with ⟨-, hlocked, hall, hstarted, hposted⟩
      have hcount : s'.2.count = (!noSucceed).toNat := by
        rw [hafter]
        simp only [count, after, hlocked, hall, hstarted, hposted, List.length_nil,
          Bool.toNat_false, add_zero]
      have hlive' : s'.2.freed = false := by
        rw [hafter]
        exact hlive
      refine ⟨⟨fun hkeep => ?_, fun halone => ?_⟩, fun halone => ?_⟩
      · have hactive := hkeep.active state' hone'.getState
        rw [hone'.active] at hactive
        cases noSucceed
        · rfl
        · rw [if_neg (by rw [hcount]; decide)] at hactive
          cases hactive
      · obtain rfl : noSucceed = false := halone
        rw [show 1 = s'.2.count from hcount.symm] at hone'
        exact hone'.keeps hcount.le hlive' hfinds
      · obtain rfl : noSucceed = false := halone
        rw [show 1 = s'.2.count from hcount.symm] at hone'
        refine ⟨fun _ => ⟨hcount.le, state', hone', iff_of_true hpos ?_⟩, fun hfreed => ?_⟩
        · rw [hafter]
          rfl
        · rw [hlive'] at hfreed
          cases hfreed

end Call

/-! ## Runs -/

/-- Along a legal sequence of calls on a new window, every initialisation finds no thread of the
window and every clearing exactly one, the record says when an epoch is open, and no thread is left
in the end, exactly if no epoch but that of a next fence is opened while one is open, and no fence
says that no communication succeeds it. -/
theorem lifecycle_iff_opensAlone {base size : UInt64} {comm : MpiComm} {sizeComm : Nat}
    {win : MpiWin} {filterWindow : Option Int} {a₀ a : Analyzer} {calls : List WindowCall}
    (hnew : win ∉ a₀.windows) (hidle : a₀.running win = 0) (hids : DistinctIds a₀)
    (hcreate : newWinCreate base size comm sizeComm win filterWindow a₀ = .ok a) :
    EachStep (callStep win) (fun _ s call s' => KeepsLifecycle win s call s') (a, .none) calls ↔
      EachStep (callStep win) (fun _ s call _ => OpensAlone s.2 call) (a, .none) calls := by
  rcases OneThread.of_newWinCreate hnew hidle hids hcreate with ⟨state, hone, hfence⟩
  apply forall_step_iff (I := fun _ s => Coherent win s)
  · refine ⟨fun _ => ⟨Nat.zero_le _, state, hone, ?_⟩, fun hfreed => by cases hfreed⟩
    rw [hfence]
    exact iff_of_false (lt_irrefl 0) Bool.false_ne_true
  · intro _ call s s' _ h hstep
    exact (h.keepsLifecycle_iff hstep).1
  · intro _ call s s' _ h hstep halone
    exact (h.keepsLifecycle_iff hstep).2 halone

/-- A process with one new window. -/
def exampleNewWindow : Analyzer :=
  { Analyzer.init with
    languageProgram := .c
    winMpiTagId := 1 :: List.replicate 31 0
    stateHtbl := [RmaAnalyzerState.new 7 4096 400 0 2 (tagOfSlot 0)] }

/-- A lock epoch and, after it, fences. -/
theorem keepsLifecycle_of_lock_of_fences :
    EachStep (callStep 7) (fun _ s call s' => KeepsLifecycle 7 s call s') (exampleNewWindow, .none)
      [.lock 1, .unlock 1 0, .fence false 0, .fence false 0, .free] := by
  have hcreate : newWinCreate 4096 400 0 2 7 none .init = .ok exampleNewWindow := rfl
  have hnew : 7 ∉ Analyzer.init.windows := List.not_mem_nil
  have hids : DistinctIds .init := ⟨List.nodup_nil, fun t ht => absurd ht List.not_mem_nil⟩
  apply (lifecycle_iff_opensAlone hnew rfl hids hcreate).mpr
  refine (eachStep_cons rfl).mpr ⟨rfl, (eachStep_cons rfl).mpr ⟨trivial, (eachStep_cons rfl).mpr
    ⟨rfl, (eachStep_cons rfl).mpr ⟨rfl, (eachStep_cons rfl).mpr ⟨trivial, eachStep_nil⟩⟩⟩⟩⟩

/-- The second of two locks of different targets creates a second thread. -/
theorem not_keepsLifecycle_of_two_locks :
    ¬ ∀ calls : List WindowCall,
      EachStep (callStep 7) (fun _ s call s' => KeepsLifecycle 7 s call s')
        (exampleNewWindow, .none) calls := by
  intro h
  have hkeep := ((eachStep_cons rfl).mp ((eachStep_cons rfl).mp (h [.lock 0, .lock 1])).2).1
  have hrunning : 1 = 0 := hkeep.finds
  cases hrunning

end ParcoachRma
