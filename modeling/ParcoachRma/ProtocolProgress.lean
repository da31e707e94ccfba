import Mathlib
import ParcoachRma.SystemRun
import ParcoachRma.NotifOperations
import ParcoachRma.Lib.Progress

/-!
# The termination protocol never gets stuck

In every state that a run reaches, whichever processes are ahead, whichever messages are in flight
and wherever the threads are, the epochs can still be ended: without a further send, events lead to
a state in which all processes are outside and have been through the same number of epochs, or in
which a save reports a conflict (`canReach_quiescent`).

A root that waits in its reduction waits for a process that is behind it in the order of epochs and
roots (`Closing.waits_of_waits`), so not all wait; and a checking thread that has been told to end
finds in the network what it still has to count.
-/

namespace ParcoachRma

open Run Counting AvlTree

variable {n : Nat} {w : SharedWindow n} {s s' : Cluster n} {p : Fin n} {x : Process n}
  {e : ProtocolEvent n}

/-! ## What else a run keeps -/

/-- The number of reductions of its epoch a process has contributed to. -/
def AppPc.contributed : AppPc n → Nat
  | .inside => 0
  | .sending _ _ => 0
  | .sent _ => 0
  | .reducing root => root
  | .waiting root => root + 1
  | _ => n

/-- Inside the calls an epoch has been opened, a join follows the end of the epoch, and the trees
are in order. -/
structure Process.InOrder (x : Process n) : Prop where
  opened : x.app ≠ .outside → 1 ≤ x.record.countEpoch
  ended : x.app = .joining → x.record.threadEnd = 1
  sorted : Sorted lowKey x.record.localTree
  indexed : Indexed x.record.notifTree

/-- The process is in the epoch of the reduction, behind it, or in a later epoch. -/
def Cluster.PastReduce (s : Cluster n) (q : Fin n) (k root : Nat) : Prop :=
  k < s.epoch q ∨ k = s.epoch q ∧ root < (s.proc q).app.contributed

/-- No contribution is forgotten. -/
structure InOrder (s : Cluster n) : Prop where
  ofProc : ∀ p, (s.proc p).InOrder
  contributed : ∀ q k root, root < n → 1 ≤ k → s.PastReduce q k root → (s.contrib k root q).isSome

/-- A step of one process that takes back no contribution. -/
theorem InOrder.of_step (hs : InOrder s) (hothers : ∀ t, t ≠ p → s'.proc t = s.proc t)
    (hcontrib : ∀ k root q, (s.contrib k root q).isSome → (s'.contrib k root q).isSome)
    (hproc : (s'.proc p).InOrder)
    (hpast : ∀ k root, root < n → 1 ≤ k → s'.PastReduce p k root → s.PastReduce p k root ∨
      (s'.contrib k root p).isSome) : InOrder s' where
  ofProc t := by
    by_cases ht : t = p
    · rw [ht]
      exact hproc
    · rw [hothers t ht]
      exact hs.ofProc t
  contributed q k root hroot hk hq := by
    by_cases hqp : q = p
    · subst hqp
      rcases hpast k root hroot hk hq with hold | hnew
      · exact hcontrib _ _ _ (hs.contributed q k root hroot hk hold)
      · exact hnew
    · rw [Cluster.PastReduce, Cluster.epoch, hothers q hqp] at hq
      exact hcontrib _ _ _ (hs.contributed q k root hroot hk hq)

/-- A step that only writes back a process, which does not go ahead in the reductions. -/
theorem InOrder.setProc (hs : InOrder s) (hproc : x.InOrder)
    (hpast : ∀ k root, root < n → 1 ≤ k → k < x.record.countEpoch ∨
      k = x.record.countEpoch ∧ root < x.app.contributed → s.PastReduce p k root) :
    InOrder (s.setProc p x) := by
  apply hs.of_step (p := p) (fun t ht => Cluster.setProc_proc_of_ne s x ht) fun _ _ _ h => h
  · rw [Cluster.setProc_proc_self]
    exact hproc
  · intro k root hroot hk hq
    rw [Cluster.PastReduce, Cluster.epoch, Cluster.setProc_proc_self] at hq
    exact .inl (hpast k root hroot hk hq)

/-- The same where the epoch is left as it is. -/
theorem InOrder.setApp (hs : InOrder s) (hproc : x.InOrder)
    (hepoch : x.record.countEpoch = s.epoch p)
    (happ : ∀ root < n, root < x.app.contributed → root < (s.proc p).app.contributed) :
    InOrder (s.setProc p x) := by
  apply hs.setProc hproc
  intro k root hroot _ hq
  rw [hepoch] at hq
  exact hq.imp_right fun h => ⟨h.1, happ root hroot h.2⟩

/-- Trees that are in order are freed. -/
theorem freeTrees_of_sorted {state : RmaAnalyzerState} (hlocal : Sorted lowKey state.localTree)
    (hnotif : Indexed state.notifTree) :
    state.freeTrees = .ok { state with localTree := .nil, notifTree := .nil } := by
  have hfreeLocal : freeIntervalTree state.localTree = some .nil := hlocal.freeLoop_numNodes
  have hfreeNotif : freeNotifTree state.notifTree = some .nil := hnotif.sorted.freeLoop_numNodes
  simp only [RmaAnalyzerState.freeTrees, hfreeLocal, hfreeNotif]

/-- The end of an epoch returns, and leaves empty trees. -/
theorem Process.InOrder.leaveEpoch (hx : (s.proc p).InOrder) :
    s.leaveEpoch p = .ok (s.setProc p { s.proc p with
      record := { (s.proc p).record.leaveEpoch with localTree := .nil, notifTree := .nil }
      app := .outside }) :=
  bind_ok.mpr ⟨_, freeTrees_of_sorted hx.sorted hx.indexed, rfl⟩

/-- A save keeps the trees in order. -/
theorem sorted_of_save {fw : Int} {state state' : RmaAnalyzerState} {itv : IntervalPtr}
    {saved : Nat} (hlocal : Sorted lowKey state.localTree) (hnotif : Indexed state.notifTree)
    (h : rmaAnalyzerSaveInterval fw state itv = .ok (saved, state')) :
    Sorted lowKey state'.localTree ∧ Indexed state'.notifTree := by
  unfold rmaAnalyzerSaveInterval at h
  split at h
  · split at h
    · cases h
    · cases h
      unfold rmaAnalyzerSaveNotif
      split
      · exact ⟨hlocal.insert itv, hnotif⟩
      · exact ⟨hlocal.insert itv, hnotif.insert itv⟩
  · cases h
    exact ⟨hlocal, hnotif⟩

theorem InOrder.save {itv : IntervalPtr} {saved : Nat} {record : RmaAnalyzerState}
    (hs : InOrder s)
    (h : rmaAnalyzerSaveInterval (s.proc p).filterWindow (s.proc p).record itv =
      .ok (saved, record)) :
    record.countEpoch = s.epoch p ∧ record.threadEnd = (s.proc p).record.threadEnd ∧
      Sorted lowKey record.localTree ∧ Indexed record.notifTree := by
  have htrees := sorted_of_save (hs.ofProc p).sorted (hs.ofProc p).indexed h
  obtain ⟨lt, nt, rfl⟩ := rmaAnalyzerSaveInterval_eq h
  exact ⟨rfl, rfl, htrees⟩

/-- A contribution is one reduction more, at the process that makes it. -/
theorem InOrder.mpiReduce {root : Nat} (hs : InOrder s) (happ : (s.proc p).app = .reducing root) :
    InOrder (s.mpiReduce p root) := by
  have hx := hs.ofProc p
  let app : AppPc n := if root = p then .waiting root else .reducing (root + 1)
  have hproc : (s.mpiReduce p root).proc p = { s.proc p with app := app } :=
    Cluster.setProc_proc_self ..
  have hcount : app.contributed = root + 1 := by
    simp only [app]
    split_ifs <;> rfl
  have hothers : ∀ t, t ≠ p → (s.mpiReduce p root).proc t = s.proc t := fun t ht =>
    Cluster.setProc_proc_of_ne (s.contribute p root) _ ht
  apply hs.of_step hothers
  · intro k i q h
    change Option.isSome (if _ then _ else _)
    split_ifs
    · rfl
    · exact h
  · rw [hproc]
    refine ⟨fun _ => hx.opened (by rw [happ]; nofun), fun h => ?_, hx.sorted, hx.indexed⟩
    change app = _ at h
    simp only [app] at h
    split_ifs at h
  · intro k i _ _ hpast
    rw [Cluster.PastReduce, Cluster.epoch, hproc, hcount] at hpast
    change _ ∨ Option.isSome (if _ then _ else _)
    rcases hpast with hlt | ⟨hk, hi⟩
    · exact .inl (.inl hlt)
    · rcases Nat.lt_succ_iff_lt_or_eq.mp hi with hi | hi
      · exact .inl (.inr ⟨hk, by rw [happ]; exact hi⟩)
      · rw [if_pos ⟨hk, hi, rfl⟩]
        exact .inr rfl

/-- Opening the next epoch: all reductions of the last one are past. -/
theorem InOrder.initCommCheckThread (hs : InOrder s) (happ : (s.proc p).app = .outside) :
    InOrder (s.initCommCheckThread p) := by
  have hx := hs.ofProc p
  apply hs.setProc
  · exact ⟨fun _ => Nat.succ_pos _, nofun, hx.sorted, hx.indexed⟩
  · intro k root hroot _ hpast
    rcases hpast with hlt | ⟨-, hi⟩
    · change k < (s.proc p).record.countEpoch + 1 at hlt
      rcases Nat.lt_succ_iff_lt_or_eq.mp hlt with hlt | heq
      · exact .inl hlt
      · exact .inr ⟨heq, by rw [happ]; exact hroot⟩
    · exact absurd hi (Nat.not_lt_zero root)

theorem InOrder.appStep (hs : InOrder s) (hinv : Inv w s) (h : s.appStep p = .ok s') :
    InOrder s' := by
  have hx := hs.ofProc p
  have hopened : ∀ app, (s.proc p).app = app → app ≠ .outside → 1 ≤ s.epoch p := by
    rintro app rfl hne
    exact hx.opened hne
  unfold Cluster.appStep at h
  split at h <;> rename_i happ
  · cases h
  · cases h
  · rename_i dst c
    cases h
    have hset : InOrder (s.setApp p (.sent dst)) :=
      hs.setApp ⟨fun _ => hopened _ happ nofun, nofun, hx.sorted, hx.indexed⟩ rfl
        fun _ _ h => absurd h (Nat.not_lt_zero _)
    exact ⟨hset.ofProc, hset.contributed⟩
  · cases h
    exact hs.setApp ⟨fun _ => hopened _ happ nofun, nofun, hx.sorted, hx.indexed⟩ rfl
      fun _ _ h => absurd h (Nat.not_lt_zero _)
  · cases h
    split_ifs with hroot
    · exact hs.mpiReduce happ
    · rw [(hinv.ofProc p).sizeComm, not_lt] at hroot
      exact hs.setApp ⟨fun _ => hopened _ happ nofun, nofun, hx.sorted, hx.indexed⟩ rfl
        fun i hi _ => by rw [happ]; exact hi.trans_le hroot
  · split at h
    · cases h
      exact hs.setApp ⟨fun _ => hopened _ happ nofun, nofun, hx.sorted, hx.indexed⟩ rfl
        fun i _ hi => by rwa [happ]
    · cases h
  · cases h
    exact hs.setApp ⟨fun _ => hopened _ happ nofun, fun _ => rfl, hx.sorted, hx.indexed⟩ rfl
      fun i hi _ => by rwa [happ]
  · split_ifs at h with hthread
    cases h
    exact hs.setApp ⟨fun _ => hopened _ happ nofun, nofun, hx.sorted, hx.indexed⟩ rfl
      fun i hi _ => by rwa [happ]
  · obtain rfl := Except.ok.inj (hx.leaveEpoch.symm.trans h)
    exact hs.setApp ⟨nofun, nofun, sorted_nil, indexed_nil⟩ rfl fun i hi _ => by rwa [happ]

/-- The checking thread is not in the way of the reductions. -/
theorem InOrder.threadStep (hs : InOrder s) (h : s.threadStep p = .ok s') : InOrder s' := by
  have hx := hs.ofProc p
  have hset : ∀ thread, InOrder (s.setThread p thread) := fun thread =>
    hs.setApp ⟨hx.opened, hx.ended, hx.sorted, hx.indexed⟩ rfl fun _ _ h => h
  unfold Cluster.threadStep at h
  split at h <;> rename_i hthread
  · cases h
  · cases h
    exact hset _
  · cases h
    exact hset _
  · cases h
    split_ifs
    · exact hs.setApp ⟨hx.opened, hx.ended, hx.sorted, hx.indexed⟩ rfl fun _ _ h => h
    · exact hset _
  · cases h
    exact hset _
  · cases h
    exact hset _
  · cases h
    exact hs.setApp ⟨hx.opened, hx.ended, hx.sorted, hx.indexed⟩ rfl fun _ _ h => h
  · obtain ⟨⟨saved, record⟩, hsave, h⟩ := bind_ok.mp h
    obtain rfl := Except.ok.inj h
    obtain ⟨hepoch, hend, hlocal, hnotif⟩ := hs.save hsave
    have hset : InOrder (s.setProc p { s.proc p with
        record := record
        nextObject := (s.proc p).nextObject + 1
        thread := .start }) := by
      refine hs.setApp ⟨fun h => ?_, fun h => ?_, hlocal, hnotif⟩ hepoch fun _ _ h => h
      · rw [hepoch]
        exact hx.opened h
      · rw [hend]
        exact hx.ended h
    exact ⟨hset.ofProc, hset.contributed⟩
  · cases h

theorem inOrder_init (w : SharedWindow n) : InOrder (Cluster.init w) where
  ofProc _ := ⟨fun h => absurd rfl h, nofun, sorted_nil, indexed_nil⟩
  contributed q k root _ hk hq := by
    rcases hq with hlt | ⟨rfl, -⟩
    · exact absurd hlt (Nat.not_lt_zero k)
    · exact absurd hk (Nat.not_succ_le_zero 0)

theorem InOrder.protocolStep (hs : InOrder s) (hinv : Inv w s) (h : protocolStep s e = .ok s') :
    InOrder s' := by
  cases e with
  | openEpoch p =>
      simp only [ParcoachRma.protocolStep] at h
      split at h <;> cases h
      exact hs.initCommCheckThread ‹_›
  | commSend p c =>
      have hx := hs.ofProc p
      simp only [ParcoachRma.protocolStep] at h
      split at h
      · rename_i happ
        split_ifs at h
        obtain ⟨⟨saved, record⟩, hsave, h⟩ := bind_ok.mp h
        obtain rfl := Except.ok.inj h
        obtain ⟨hepoch, -, hlocal, hnotif⟩ := hs.save hsave
        refine hs.setApp ⟨fun _ => ?_, by simp, hlocal, hnotif⟩ hepoch
          fun _ _ h => absurd h (Nat.not_lt_zero _)
        rw [hepoch]
        exact hx.opened (by simp [happ])
      · cases h
  | closeEpoch p =>
      have hx := hs.ofProc p
      simp only [ParcoachRma.protocolStep] at h
      split at h <;> cases h
      rename_i happ
      exact hs.setApp ⟨fun _ => hx.opened (by simp [happ]), by simp, hx.sorted, hx.indexed⟩ rfl
        fun _ _ h => absurd h (Nat.not_lt_zero _)
  | app p => exact hs.appStep hinv h
  | thread p => exact hs.threadStep h
  | deliver p itv =>
      have hx := hs.ofProc p
      simp only [ParcoachRma.protocolStep, Cluster.deliver] at h
      split at h
      · rename_i poll tag _
        split_ifs at h with hmem
        cases h
        have hset : InOrder (s.setThread p (.polling poll ⟨tag, some itv⟩)) :=
          hs.setApp ⟨hx.opened, hx.ended, hx.sorted, hx.indexed⟩ rfl fun _ _ h => h
        exact ⟨hset.ofProc, hset.contributed⟩
      · cases h

/-! ## What is left to do -/

/-- The steps an application thread still takes before it is outside. -/
def AppPc.stepsLeft : AppPc n → Nat
  | .outside => 0
  | .joined => 1
  | .joining => 2
  | .valued => 3
  | .reducing root => 4 + 2 * (n - root)
  | .waiting root => 3 + 2 * (n - root)
  | .inside => 5 + 2 * n
  | .sent _ => 6 + 2 * n
  | .sending _ _ => 7 + 2 * n

/-- The steps left before the process is outside after `last` epochs. -/
def Process.stepsLeft (last : Nat) (x : Process n) : Nat :=
  (last - x.record.countEpoch) * (8 + 2 * n) + x.app.stepsLeft

/-- The steps a checking thread that is told to end takes before its next receive, or its exit. -/
def ThreadPc.stepsLeft : ThreadPc → Nat
  | .absent => 0
  | .exited => 0
  | .polling .compare ⟨_, none⟩ => 1
  | .polling .readEnd ⟨_, none⟩ => 2
  | .polling .test ⟨_, none⟩ => 3
  | .start => 4
  | .counted _ => 5
  | .received _ => 6
  | .polling .test ⟨_, some _⟩ => 7
  | .polling .compare ⟨_, some _⟩ => 8
  | .polling .readEnd ⟨_, some _⟩ => 9

/-- Each message in flight is matched and goes through the thread once. -/
def Cluster.threadSteps (s : Cluster n) (p : Fin n) : Nat :=
  (s.proc p).thread.stepsLeft + 16 * (s.net p (s.proc p).record.currentTag).card

/-- What is left to do, the steps of the application threads first. -/
def Cluster.left (last : Nat) (s : Cluster n) : ℕ ×ₗ ℕ :=
  toLex (∑ p, (s.proc p).stepsLeft last, ∑ p, s.threadSteps p)

/-- A step of one process that brings it closer to the end. -/
theorem left_lt_of_app {last : Nat} (hothers : ∀ t, t ≠ p → s'.proc t = s.proc t)
    (hlt : (s'.proc p).stepsLeft last < (s.proc p).stepsLeft last) :
    s'.left last < s.left last := by
  rw [Cluster.left, Cluster.left, Prod.Lex.toLex_lt_toLex]
  left
  change ∑ t, (s'.proc t).stepsLeft last < ∑ t, (s.proc t).stepsLeft last
  apply Finset.sum_lt_sum
  · intro t _
    by_cases ht : t = p
    · rw [ht]
      exact hlt.le
    · rw [hothers t ht]
  · exact ⟨p, Finset.mem_univ p, hlt⟩

/-- A step of a checking thread that brings it closer to its exit. -/
theorem left_lt_of_thread {last : Nat} (hothers : ∀ t, t ≠ p → s'.proc t = s.proc t)
    (hnet : ∀ t tag, t ≠ p → s'.net t tag = s.net t tag)
    (hsame : (s'.proc p).stepsLeft last = (s.proc p).stepsLeft last)
    (hlt : s'.threadSteps p < s.threadSteps p) : s'.left last < s.left last := by
  rw [Cluster.left, Cluster.left, Prod.Lex.toLex_lt_toLex]
  right
  constructor
  · change ∑ t, (s'.proc t).stepsLeft last = ∑ t, (s.proc t).stepsLeft last
    apply Finset.sum_congr rfl
    intro t _
    by_cases ht : t = p
    · rw [ht, hsame]
    · rw [hothers t ht]
  · change ∑ t, s'.threadSteps t < ∑ t, s.threadSteps t
    apply Finset.sum_lt_sum
    · intro t _
      by_cases ht : t = p
      · rw [ht]
        exact hlt.le
      · rw [Cluster.threadSteps, Cluster.threadSteps, hothers t ht, hnet t _ ht]
    · exact ⟨p, Finset.mem_univ p, hlt⟩

/-! ## Steps towards the end -/

/-- The application begins a send. -/
def ProtocolEvent.IsSend : ProtocolEvent n → Prop
  | .commSend _ _ => True
  | _ => False

/-- The next step of some thread reports a conflict. -/
def Cluster.Reports (s : Cluster n) : Prop :=
  ∃ e : ProtocolEvent n, ¬ e.IsSend ∧ ∃ report, protocolStep s e = .error (.mpiAbort report)

/-- All processes are outside, after the same number of epochs. -/
def Cluster.Quiescent (last : Nat) (s : Cluster n) : Prop :=
  ∀ p, (s.proc p).app = .outside ∧ s.epoch p = last

/-- What holds on the way to the end of epoch `last`. -/
structure Closing (w : SharedWindow n) (last : Nat) (s : Cluster n) : Prop where
  inv : Inv w s
  inOrder : InOrder s
  epoch_le : ∀ p, s.epoch p ≤ last

namespace Closing

variable {last : Nat}

/-- A step that changes one process and lowers the measure. -/
theorem lowers (hs : Closing w last s) (hstep : protocolStep s e = .ok s')
    (hothers : ∀ t, t ≠ p → s'.proc t = s.proc t) (hepoch : s'.epoch p ≤ last)
    (hlt : s'.left last < s.left last) :
    Lowers protocolStep (Closing w last) (Cluster.left last) s e := by
  refine ⟨s', hstep, ⟨inv_protocolStep hs.inv hstep, hs.inOrder.protocolStep hs.inv hstep, ?_⟩, hlt⟩
  intro t
  by_cases ht : t = p
  · rwa [ht]
  · rw [Cluster.epoch, hothers t ht]
    exact hs.epoch_le t

/-- A step of a checking thread. -/
theorem lowers_thread (hs : Closing w last s) (hstep : s.threadStep p = .ok s')
    (hothers : ∀ t, t ≠ p → s'.proc t = s.proc t) (hnet : s'.net = s.net)
    (happ : (s'.proc p).app = (s.proc p).app)
    (hrecord : (s'.proc p).record.countEpoch = s.epoch p ∧
      (s'.proc p).record.currentTag = (s.proc p).record.currentTag)
    (hlt : (s'.proc p).thread.stepsLeft < (s.proc p).thread.stepsLeft) :
    Lowers protocolStep (Closing w last) (Cluster.left last) s (.thread p) := by
  have hstep' : protocolStep s (.thread p) = .ok s' := hstep
  apply hs.lowers hstep' hothers
  · exact hrecord.1.trans_le (hs.epoch_le p)
  · apply left_lt_of_thread hothers
    · intro t tag _
      rw [hnet]
    · rw [Process.stepsLeft, Process.stepsLeft, happ, hrecord.1, Cluster.epoch]
    · rw [Cluster.threadSteps, Cluster.threadSteps, hnet, hrecord.2]
      omega

/-- A step in the loop over a posted receive. -/
theorem lowers_setThread (hs : Closing w last s) {old new : ThreadPc}
    (hthread : (s.proc p).thread = old) (hstep : s.threadStep p = .ok (s.setThread p new))
    (hlt : new.stepsLeft < old.stepsLeft) :
    Lowers protocolStep (Closing w last) (Cluster.left last) s (.thread p) := by
  subst hthread
  have hproc : (s.setThread p new).proc p = { s.proc p with thread := new } :=
    Cluster.setProc_proc_self ..
  apply hs.lowers_thread hstep (fun t ht => Cluster.setProc_proc_of_ne s _ ht) rfl <;> rw [hproc]
  · exact ⟨rfl, rfl⟩
  · exact hlt

/-- A message in flight is matched. -/
theorem lowers_deliver (hs : Closing w last s) {poll : Poll} {tag : Int} {itv : Interval}
    (hthread : (s.proc p).thread = .polling poll ⟨tag, none⟩) (hmem : itv ∈ s.net p tag) :
    Lowers protocolStep (Closing w last) (Cluster.left last) s (.deliver p itv) := by
  have hstep : protocolStep s (.deliver p itv) = .ok (s.matchMessage p poll tag itv) := by
    simp only [protocolStep, Cluster.deliver, hthread, if_pos hmem]
  have hproc : (s.matchMessage p poll tag itv).proc p =
      { s.proc p with thread := .polling poll ⟨tag, some itv⟩ } := Cluster.setProc_proc_self ..
  have hothers : ∀ t, t ≠ p → (s.matchMessage p poll tag itv).proc t = s.proc t := fun t ht =>
    Cluster.setProc_proc_of_ne s _ ht
  have htag : tag = (s.proc p).record.currentTag := (hs.inv.ofProc p).tag poll ⟨tag, none⟩ hthread
  have hnet : (s.matchMessage p poll tag itv).net p tag = (s.net p tag).erase itv :=
    if_pos ⟨rfl, rfl⟩
  apply hs.lowers hstep hothers
  · rw [Cluster.epoch, hproc]
    exact hs.epoch_le p
  · apply left_lt_of_thread hothers
    · intro t g ht
      exact if_neg fun h => ht h.1
    · rw [hproc]
      rfl
    · have hcard := Multiset.card_erase_add_one hmem
      have hsteps : (ThreadPc.polling poll ⟨tag, some itv⟩).stepsLeft ≤ 9 := by
        cases poll <;> simp [ThreadPc.stepsLeft]
      rw [Cluster.threadSteps, Cluster.threadSteps, hproc, ← htag, hnet]
      change (ThreadPc.polling poll ⟨tag, some itv⟩).stepsLeft + _ < _
      omega

/-- With nothing in flight or in its hand, a checking thread that has been told to end has counted
what it has to. -/
theorem count_eq_value (hs : Closing w last s) (happ : (s.proc p).app = .joining) {poll : Poll}
    {tag : Int} (hthread : (s.proc p).thread = .polling poll ⟨tag, none⟩)
    (hnet : s.net p tag = 0) : (s.proc p).record.count = (s.proc p).record.value := by
  have hx := hs.inv.ofProc p
  have hcount := hx.count (by rw [hthread]; trivial)
  obtain ⟨-, hvalue⟩ := (hs.inv.ofEnd p).value (.inr happ)
  have htotal := (hs.inv.conserves p (s.epoch p)).total_eq
  have htag : w.mpiTag + s.epoch p = tag := by
    exact ((tag_eq_iff hs.inv).mpr rfl).trans (hx.tag poll ⟨tag, none⟩ hthread).symm
  have htransit : (s.channel w p (s.epoch p)).transit = 0 := by
    change Multiset.map _ (s.net p _ + s.held p _) = 0
    rw [htag, hnet, held_epoch, hthread]
    rfl
  rw [htransit, Multiset.card_zero, zero_add] at htotal
  rw [hthread] at hcount
  exact hcount.trans (htotal.symm.trans hvalue.symm)

/-- A checking thread that has been told to end, in the loop over a posted receive: it goes on with
the interval it has, or with one in flight, or leaves. -/
theorem polling (hs : Closing w last s) (happ : (s.proc p).app = .joining) {poll : Poll}
    {req : Request} (hthread : (s.proc p).thread = .polling poll req) :
    ∃ e : ProtocolEvent n, ¬ e.IsSend ∧
      Lowers protocolStep (Closing w last) (Cluster.left last) s e := by
  have hend := (hs.inOrder.ofProc p).ended happ
  obtain ⟨tag, buf⟩ := req
  have hloop : ∀ new : ThreadPc, s.threadStep p = .ok (s.setThread p new) →
      new.stepsLeft < (ThreadPc.polling poll ⟨tag, buf⟩).stepsLeft →
      ∃ e : ProtocolEvent n, ¬ e.IsSend ∧
        Lowers protocolStep (Closing w last) (Cluster.left last) s e := fun new hstep hlt =>
    ⟨.thread p, id, hs.lowers_setThread hthread hstep hlt⟩
  cases poll with
  | readEnd =>
      apply hloop (.polling .compare ⟨tag, buf⟩)
      · simp only [Cluster.threadStep, hthread, if_pos hend]
      · cases buf <;> simp [ThreadPc.stepsLeft]
  | compare =>
      by_cases hcount : (s.proc p).record.count = (s.proc p).record.value
      · have hstep : s.threadStep p = .ok (s.cancelAndExit p) := by
          simp only [Cluster.threadStep, hthread, if_pos hcount]
        have hproc : (s.cancelAndExit p).proc p = _ := Cluster.setProc_proc_self ..
        use .thread p, id
        apply hs.lowers_thread hstep (fun t ht => Cluster.setProc_proc_of_ne s _ ht) rfl <;>
          rw [hproc]
        · exact ⟨rfl, rfl⟩
        · rw [hthread]
          cases buf <;> simp [ThreadPc.stepsLeft]
      · cases buf with
        | some itv =>
            apply hloop (.polling .test ⟨tag, some itv⟩)
            · simp only [Cluster.threadStep, hthread, if_neg hcount]
            · simp [ThreadPc.stepsLeft]
        | none =>
            -- What has not been counted is in flight.
            have hnet : s.net p tag ≠ 0 := fun h => hcount (hs.count_eq_value happ hthread h)
            obtain ⟨itv, hmem⟩ := Multiset.exists_mem_of_ne_zero hnet
            exact ⟨.deliver p itv, id, hs.lowers_deliver hthread hmem⟩
  | test =>
      cases buf with
      | some itv =>
          apply hloop (.received itv)
          · simp only [Cluster.threadStep, hthread]
          · simp [ThreadPc.stepsLeft]
      | none =>
          apply hloop (.polling .readEnd ⟨tag, none⟩)
          · simp only [Cluster.threadStep, hthread]
          · simp [ThreadPc.stepsLeft]

/-- A checking thread that has been told to end goes on towards its exit, or reports a conflict. -/
theorem thread (hs : Closing w last s) (happ : (s.proc p).app = .joining)
    (hexit : (s.proc p).thread ≠ .exited) :
    s.Reports ∨ ∃ e : ProtocolEvent n, ¬ e.IsSend ∧
      Lowers protocolStep (Closing w last) (Cluster.left last) s e := by
  have hend := (hs.inOrder.ofProc p).ended happ
  cases hthread : (s.proc p).thread with
  | absent =>
      have hcontrol := (hs.inv.ofProc p).control
      rw [Process.Control, happ] at hcontrol
      exact absurd hthread hcontrol
  | start =>
      have hstep : s.threadStep p =
          .ok (s.setThread p (.polling .readEnd ⟨(s.proc p).record.currentTag, none⟩)) := by
        simp only [Cluster.threadStep, hthread]
      exact .inr ⟨_, id, hs.lowers_setThread hthread hstep (by simp [ThreadPc.stepsLeft])⟩
  | polling poll req => exact .inr (hs.polling happ hthread)
  | received itv =>
      have hstep : s.threadStep p = .ok (s.countReceived p itv) := by
        simp only [Cluster.threadStep, hthread]
      have hproc : (s.countReceived p itv).proc p = _ := Cluster.setProc_proc_self ..
      right
      use .thread p, id
      apply hs.lowers_thread hstep (fun t ht => Cluster.setProc_proc_of_ne s _ ht) rfl <;>
        rw [hproc]
      · exact ⟨rfl, rfl⟩
      · rw [hthread]
        simp [ThreadPc.stepsLeft]
  | counted itv =>
      cases hsave : s.saveReceived p itv with
      | error fault =>
          have hstep : protocolStep s (.thread p) = .error fault := by
            simp only [protocolStep, Cluster.threadStep, hthread, hsave]
          obtain ⟨report, rfl⟩ : ∃ report, fault = .mpiAbort report := by
            unfold Cluster.saveReceived at hsave
            rcases bind_error.mp hsave with hsave | ⟨_, _, hsave⟩
            · obtain ⟨-, o, -, rfl⟩ := report_of_save hsave
              exact ⟨_, rfl⟩
            · cases hsave
          exact .inl ⟨_, id, report, hstep⟩
      | ok s' =>
          have hstep : s.threadStep p = .ok s' := by
            simp only [Cluster.threadStep, hthread, hsave]
          obtain ⟨lt, nt, rfl⟩ := saveReceived_spec hsave
          right
          use .thread p, id
          apply hs.lowers_thread hstep (fun t ht => Cluster.setProc_proc_of_ne s _ ht) rfl <;>
            rw [show Cluster.proc _ p = _ from Cluster.setProc_proc_self ..]
          · exact ⟨rfl, rfl⟩
          · rw [hthread]
            simp [ThreadPc.stepsLeft]
  | exited => exact absurd hthread hexit

/-- A step of an application thread inside its epoch. -/
theorem lowers_app (hs : Closing w last s) {old : AppPc n} (happ : (s.proc p).app = old)
    (hstep : protocolStep s e = .ok s') (hothers : ∀ t, t ≠ p → s'.proc t = s.proc t)
    (hepoch : s'.epoch p = s.epoch p) (hlt : (s'.proc p).app.stepsLeft < old.stepsLeft) :
    Lowers protocolStep (Closing w last) (Cluster.left last) s e := by
  subst happ
  apply hs.lowers hstep hothers
  · exact hepoch.trans_le (hs.epoch_le p)
  · apply left_lt_of_app hothers
    change s'.epoch p = (s.proc p).record.countEpoch at hepoch
    rw [Process.stepsLeft, Process.stepsLeft, ← hepoch]
    exact Nat.add_lt_add_left hlt _

/-- Such a step that only writes back the process. -/
theorem lowers_setProc (hs : Closing w last s) {old : AppPc n} (happ : (s.proc p).app = old)
    (hstep : protocolStep s e = .ok (s.setProc p x)) (hepoch : x.record.countEpoch = s.epoch p)
    (hlt : x.app.stepsLeft < old.stepsLeft) :
    Lowers protocolStep (Closing w last) (Cluster.left last) s e := by
  apply hs.lowers_app happ hstep fun t ht => Cluster.setProc_proc_of_ne s _ ht
  · rw [Cluster.epoch, Cluster.setProc_proc_self, hepoch]
  · rwa [Cluster.setProc_proc_self]

/-- The process waits in its reduction for the contribution of another. -/
def Waits (s : Cluster n) (p : Fin n) : Prop :=
  ∃ root, (s.proc p).app = .waiting root ∧ ∃ q, s.contrib (s.epoch p) root q = none

/-- An application thread goes on, unless it is done or waits. -/
theorem app (hs : Closing w last s) (p : Fin n) :
    (∃ e : ProtocolEvent n, ¬ e.IsSend ∧
      Lowers protocolStep (Closing w last) (Cluster.left last) s e) ∨
    ((s.proc p).app = .outside ∧ s.epoch p = last) ∨
    ((s.proc p).app = .joining ∧ (s.proc p).thread ≠ .exited) ∨ Waits s p := by
  have hx := hs.inv.ofProc p
  cases happ : (s.proc p).app with
  | outside =>
      rcases (hs.epoch_le p).lt_or_eq with hlt | heq
      · have hstep : protocolStep s (.openEpoch p) = .ok (s.initCommCheckThread p) := by
          simp only [protocolStep, happ]
        have hothers : ∀ t, t ≠ p → (s.initCommCheckThread p).proc t = s.proc t := fun t ht =>
          Cluster.setProc_proc_of_ne s _ ht
        have hproc : (s.initCommCheckThread p).proc p = _ := Cluster.setProc_proc_self ..
        refine .inl ⟨.openEpoch p, id, hs.lowers hstep hothers ?_ (left_lt_of_app hothers ?_)⟩
        · rw [Cluster.epoch, hproc]
          exact hlt
        · -- An epoch that is opened is one that is no longer left.
          have hleft : last - (s.proc p).record.countEpoch =
              last - ((s.proc p).record.countEpoch + 1) + 1 := by
            change (s.proc p).record.countEpoch < last at hlt
            omega
          rw [hproc, Process.stepsLeft, Process.stepsLeft, happ, hleft, Nat.add_mul]
          change (last - ((s.proc p).record.countEpoch + 1)) * (8 + 2 * n) + (5 + 2 * n) <
            _ + 1 * (8 + 2 * n) + 0
          omega
      · exact .inr (.inl ⟨rfl, heq⟩)
  | inside =>
      have hstep : protocolStep s (.closeEpoch p) = .ok (s.startReduce p) := by
        simp only [protocolStep, happ]
      refine .inl ⟨.closeEpoch p, id, hs.lowers_setProc happ hstep rfl ?_⟩
      simp only [AppPc.stepsLeft]
      omega
  | sending dst c =>
      have hstep : protocolStep s (.app p) = .ok (s.mpiSend p dst c) := by
        simp only [protocolStep, Cluster.appStep, happ]
      have hothers : ∀ t, t ≠ p → (s.mpiSend p dst c).proc t = s.proc t := fun t ht =>
        Cluster.setProc_proc_of_ne s _ ht
      have hproc : (s.mpiSend p dst c).proc p = _ := Cluster.setProc_proc_self ..
      refine .inl ⟨.app p, id, hs.lowers_app happ hstep hothers ?_ ?_⟩
      · rw [Cluster.epoch, hproc, Cluster.epoch]
      · rw [hproc]
        simp [AppPc.stepsLeft]
  | sent dst =>
      have hstep : protocolStep s (.app p) = .ok (s.countSent p dst) := by
        simp only [protocolStep, Cluster.appStep, happ]
      exact .inl ⟨.app p, id, hs.lowers_setProc happ hstep rfl (by simp [AppPc.stepsLeft])⟩
  | reducing root =>
      by_cases hroot : root < (s.proc p).record.sizeComm
      · have hstep : protocolStep s (.app p) = .ok (s.mpiReduce p root) := by
          simp only [protocolStep, Cluster.appStep, happ, if_pos hroot]
        have hothers : ∀ t, t ≠ p → (s.mpiReduce p root).proc t = s.proc t := fun t ht =>
          Cluster.setProc_proc_of_ne (s.contribute p root) _ ht
        have hproc : (s.mpiReduce p root).proc p = _ :=
          Cluster.setProc_proc_self (s.contribute p root) ..
        rw [hx.sizeComm] at hroot
        refine .inl ⟨.app p, id, hs.lowers_app happ hstep hothers ?_ ?_⟩
        · rw [Cluster.epoch, hproc]
          rfl
        · rw [hproc]
          change (if root = p then AppPc.waiting root else .reducing (root + 1)).stepsLeft < _
          split_ifs <;> simp only [AppPc.stepsLeft] <;> omega
      · have hstep : protocolStep s (.app p) = .ok (s.setValue p) := by
          simp only [protocolStep, Cluster.appStep, happ, if_neg hroot]
        refine .inl ⟨.app p, id, hs.lowers_setProc happ hstep rfl ?_⟩
        simp only [AppPc.stepsLeft]
        omega
  | waiting root =>
      cases hsum : Cluster.reduceSum (s.contrib (s.epoch p) root) with
      | some sum =>
          have hstep : protocolStep s (.app p) = .ok (s.reduceReturn p root sum) := by
            simp only [protocolStep, Cluster.appStep, happ, hsum]
          have hroot : root = p := hx.root root happ
          refine .inl ⟨.app p, id, hs.lowers_setProc happ hstep rfl ?_⟩
          simp only [AppPc.stepsLeft]
          omega
      | none =>
          right; right; right
          use root, happ
          by_contra hall
          push Not at hall
          have hsome : ∀ q, (s.contrib (s.epoch p) root q).isSome := fun q =>
            Option.isSome_iff_ne_none.mpr (hall q)
          rw [Cluster.reduceSum, if_pos hsome] at hsum
          cases hsum
  | valued =>
      have hstep : protocolStep s (.app p) = .ok (s.setThreadEnd p) := by
        simp only [protocolStep, Cluster.appStep, happ]
      exact .inl ⟨.app p, id, hs.lowers_setProc happ hstep rfl (by simp [AppPc.stepsLeft])⟩
  | joining =>
      by_cases hexit : (s.proc p).thread = .exited
      · have hstep : protocolStep s (.app p) = .ok (s.pthreadJoin p) := by
          simp only [protocolStep, Cluster.appStep, happ, if_pos hexit]
        exact .inl ⟨.app p, id, hs.lowers_setProc happ hstep rfl (by simp [AppPc.stepsLeft])⟩
      · exact .inr (.inr (.inl ⟨rfl, hexit⟩))
  | joined =>
      have happStep : s.appStep p = s.leaveEpoch p := by
        simp only [Cluster.appStep, happ]
      have hstep : protocolStep s (.app p) = .ok _ :=
        happStep.trans (hs.inOrder.ofProc p).leaveEpoch
      exact .inl ⟨.app p, id, hs.lowers_setProc happ hstep rfl (by simp [AppPc.stepsLeft])⟩

/-- A root that waits in its reduction waits for one that is behind it. -/
theorem waits_of_waits (hs : Closing w last s)
    (hall : ∀ q, (s.proc q).app = .outside ∧ s.epoch q = last ∨ Waits s q) (hp : Waits s p) :
    ∃ q, Waits s q ∧ s.epoch q * n + q < s.epoch p * n + p := by
  obtain ⟨root, happ, q, hnone⟩ := hp
  obtain rfl : root = p := (hs.inv.ofProc p).root root happ
  have hopened : 1 ≤ s.epoch p := (hs.inOrder.ofProc p).opened (by rw [happ]; nofun)
  have hbehind : ¬ s.PastReduce q (s.epoch p) p := by
    intro hpast
    have hsome := hs.inOrder.contributed q _ _ p.isLt hopened hpast
    rw [hnone] at hsome
    cases hsome
  use q
  rcases hall q with ⟨hq, hlast⟩ | hq
  · -- Who is outside after the last epoch has contributed to everything.
    apply absurd _ hbehind
    rcases (hs.epoch_le p).lt_or_eq with hlt | heq
    · exact .inl (hlast ▸ hlt)
    · exact .inr ⟨heq.trans hlast.symm, by rw [hq]; exact p.isLt⟩
  · use hq
    obtain ⟨root', hq', -⟩ := hq
    obtain rfl : root' = q := (hs.inv.ofProc q).root root' hq'
    rw [Cluster.PastReduce, hq', not_or, not_and, not_lt] at hbehind
    rcases hbehind.1.lt_or_eq with hlt | heq
    · have hepochs : (s.epoch q + 1) * n ≤ s.epoch p * n := Nat.mul_le_mul_right n hlt
      rw [Nat.add_mul] at hepochs
      omega
    · have hroot := hbehind.2 heq.symm
      rw [heq]
      simp only [AppPc.contributed] at hroot
      omega

/-- In every state that is not quiescent some step leads towards the end, or reports a conflict. -/
theorem progress (hs : Closing w last s) (hq : ¬ s.Quiescent last) :
    s.Reports ∨ ∃ e : ProtocolEvent n, ¬ e.IsSend ∧
      Lowers protocolStep (Closing w last) (Cluster.left last) s e := by
  by_contra hstuck
  rw [not_or] at hstuck
  have hall : ∀ q, (s.proc q).app = .outside ∧ s.epoch q = last ∨ Waits s q := by
    intro q
    rcases hs.app q with hstep | hout | ⟨happ, hexit⟩ | hwaits
    · exact absurd hstep hstuck.2
    · exact .inl hout
    · exact absurd (hs.thread happ hexit) (not_or.mpr hstuck)
    · exact .inr hwaits
  -- By induction on its epoch and root, no process waits.
  have hnone : ∀ m q, s.epoch q * n + q = m → ¬ Waits s q := by
    intro m
    induction m using Nat.strong_induction_on with
    | _ m ih =>
        intro q hm hwaits
        obtain ⟨r, hr, hlt⟩ := hs.waits_of_waits hall hwaits
        exact ih _ (hm ▸ hlt) r rfl hr
  exact hq fun q => (hall q).resolve_right (hnone _ q rfl)

end Closing

/-- The accesses of the applications keep what the proof needs. -/
theorem InOrder.systemStep {e : SystemEvent n} (hs : InOrder s) (hinv : Inv w s)
    (hclear : ∀ p notifId, e ≠ .clear p notifId) (h : systemStep s e = .ok s') : InOrder s' := by
  cases e with
  | protocol e => exact hs.protocolStep hinv h
  | access p address size accessType fileline filename =>
      have hx := hs.ofProc p
      simp only [ParcoachRma.systemStep] at h
      split_ifs at h
      unfold Cluster.saveAccess at h
      split_ifs at h
      · obtain ⟨⟨saved, record⟩, hsave, h⟩ := bind_ok.mp h
        obtain rfl := Except.ok.inj h
        obtain ⟨hepoch, hend, hlocal, hnotif⟩ := hs.save hsave
        refine hs.setApp ⟨fun h => ?_, fun h => ?_, hlocal, hnotif⟩ hepoch fun _ _ h => h
        · rw [hepoch]
          exact hx.opened h
        · rw [hend]
          exact hx.ended h
      · obtain rfl := Except.ok.inj h
        exact hs
  | clear p notifId => exact absurd rfl (hclear p notifId)

/-- Without clears, a run keeps what the proof needs. -/
theorem closing_of_run {es : List (SystemEvent n)} (hclear : ∀ p notifId, .clear p notifId ∉ es)
    (h : run systemStep (Cluster.init w) es = .ok s) : Closing w (Finset.univ.sup s.epoch) s := by
  have hinv : Inv w s ∧ InOrder s := by
    refine invariant_of_prefix (I := fun _ t => Inv w t ∧ InOrder t) ⟨inv_init w, inOrder_init w⟩
      (fun pre e t t' hpre ht hstep => ?_) (List.prefix_refl es) h
    refine ⟨inv_systemStep ht.1 hstep, ht.2.systemStep ht.1 (fun p notifId he => ?_) hstep⟩
    exact hclear p notifId (hpre.subset (by simp [he]))
  exact ⟨hinv.1, hinv.2, fun p => Finset.le_sup (Finset.mem_univ p)⟩

/-- The epochs that are open can be ended, unless a save reports. -/
theorem Closing.canReach (hs : Closing w last s) :
    CanReach protocolStep (fun e => ¬ e.IsSend) (fun t => t.Quiescent last ∨ t.Reports) s := by
  apply canReach_of_progress (Cluster.left last) _ hs
  intro t ht hgoal
  rw [not_or] at hgoal
  exact (ht.progress hgoal.1).resolve_left hgoal.2

/-- In every state a run reaches, the epochs can be ended without a further send: the threads and
the network can go on until all processes are outside after the same number of epochs, or the next
step of one of them reports a conflict.  Runs that clear notifications are left out: a clear takes
the mutexes of the window in the other order than a save. -/
theorem canReach_quiescent {es : List (SystemEvent n)}
    (hclear : ∀ p notifId, .clear p notifId ∉ es)
    (h : run systemStep (Cluster.init w) es = .ok s) :
    CanReach protocolStep (fun e => ¬ e.IsSend)
      (fun t => t.Quiescent (Finset.univ.sup s.epoch) ∨ t.Reports) s :=
  (closing_of_run hclear h).canReach

/-- The process that puts. -/
def puttingProcess : Fin 2 := ⟨0, Nat.zero_lt_two⟩

/-- The process whose window is put to. -/
def targetProcess : Fin 2 := ⟨1, Nat.one_lt_two⟩

/-- Both processes open an epoch.  The target writes to its window, and the origin puts to the same
bytes; the message is in flight. -/
def conflictEvents : List (SystemEvent 2) :=
  [.protocol (.openEpoch puttingProcess), .protocol (.openEpoch targetProcess),
    .access targetProcess 8200 3 .localWrite 20 none,
    .protocol (.commSend puttingProcess exampleSend), .protocol (.app puttingProcess)]

set_option maxRecDepth 10000 in
/-- From there, the epoch ends or the checking thread of the target reports. -/
theorem canReach_quiescent_conflictEvents :
    ∃ s, run systemStep (Cluster.init exampleShared) conflictEvents = .ok s ∧
      CanReach protocolStep (fun e => ¬ e.IsSend) (fun t => t.Quiescent 1 ∨ t.Reports) s := by
  have hrun : run systemStep (Cluster.init exampleShared) conflictEvents = .ok _ := rfl
  exact ⟨_, hrun, canReach_quiescent (by simp [conflictEvents]) hrun⟩

end ParcoachRma
