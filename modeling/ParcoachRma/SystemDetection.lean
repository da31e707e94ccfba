import ParcoachRma.ProtocolProgress
import ParcoachRma.WriteEpochs

/-!
# What the processes report

The accesses to the window of a process in an epoch are those of its own application, the buffers of
the operations it starts included, and the intervals the others have sent to it in the epoch of that
number (`Cluster.accesses`).

`report_conflict`: in every run of the system, a report is about two of these accesses, of one
process and one epoch, and they are in conflict.
-/

namespace ParcoachRma

open Run Counting AvlTree

variable {n : Nat} {w : SharedWindow n} {s s' : Cluster n} {p : Fin n} {x x' : Process n}

/-! ## The accesses of an epoch -/

/-- The record of the window of a process when it is created. -/
def SharedWindow.record (w : SharedWindow n) (p : Fin n) : RmaAnalyzerState :=
  RmaAnalyzerState.new (w.win p) (w.base p) (w.size p) (w.comm p) n w.mpiTag

/-- The process keeps the interval: its filter is off, or the bounds lie inside its window. -/
def SharedWindow.Admits (w : SharedWindow n) (p : Fin n) (itv : Interval) : Prop :=
  admits (w.filterWindow p) (w.record p) itv = true

instance (w : SharedWindow n) (p : Fin n) (itv : Interval) : Decidable (w.Admits p itv) :=
  inferInstanceAs (Decidable (_ = true))

/-- What an event adds to the intervals the application of `p` has saved in its epoch. -/
def ownStep (p : Fin n) (own : Multiset Interval) : SystemEvent n → Multiset Interval
  | .protocol (.openEpoch q) => if q = p then 0 else own
  | .protocol (.commSend q c) => if q = p then c.localItv ::ₘ own else own
  | .access q address size accessType fileline filename =>
      if q = p then accessInterval address size accessType fileline filename ::ₘ own else own
  | _ => own

/-- The intervals the application of `p` has saved since it opened its epoch. -/
def ownAccesses (p : Fin n) (es : List (SystemEvent n)) : Multiset Interval :=
  es.foldl (ownStep p) 0

theorem ownAccesses_snoc (p : Fin n) (es : List (SystemEvent n)) (e : SystemEvent n) :
    ownAccesses p (es ++ [e]) = ownStep p (ownAccesses p es) e := by
  simp [ownAccesses]

/-- The intervals all processes have sent to `p` in an epoch, as `p` saves them. -/
def Cluster.received (w : SharedWindow n) (s : Cluster n) (p : Fin n) (k : Nat) :
    Multiset Interval :=
  ∑ q, (s.sent q p k).map (Interval.rebase (w.base p))

/-- The accesses to the window of `p` in the epoch it is in, after the events `es`. -/
def Cluster.accesses (w : SharedWindow n) (s : Cluster n) (es : List (SystemEvent n)) (p : Fin n) :
    Multiset Interval :=
  ownAccesses p es + s.received w p (s.epoch p)

/-! ## What is stored -/

/-- The process has the bounds of its window, and stores accesses of its epoch only; outside of the
epochs nothing. -/
structure StoresAccesses (w : SharedWindow n) (p : Fin n) (accesses : Multiset Interval)
    (x : Process n) : Prop where
  winBase : x.record.winBase = w.base p
  winSize : x.record.winSize = w.size p
  filterWindow : x.filterWindow = w.filterWindow p
  active : x.app = .outside → ¬ x.record.activeEpoch > 0
  empty : x.app = .outside → ∀ q, q ∉ x.record.localTree.toList
  stored : ∀ q ∈ x.record.localTree.toList, w.Admits p q.itv ∧ q.itv ∈ accesses

namespace StoresAccesses

variable {accesses accesses' : Multiset Interval} {itv : Interval} {addr saved : Nat}
  {record : RmaAnalyzerState}

theorem admits_iff (h : StoresAccesses w p accesses x) (itv : Interval) :
    admits x.filterWindow x.record itv = true ↔ w.Admits p itv := by
  rw [SharedWindow.Admits, h.filterWindow,
    admits_congr (w := w.record p) h.winBase h.winSize itv]

/-- More accesses, with nothing new stored. -/
theorem mono (h : StoresAccesses w p accesses x) (hle : accesses ≤ accesses') :
    StoresAccesses w p accesses' x :=
  { h with stored := fun q hq => (h.stored q hq).imp_right (Multiset.mem_of_le hle) }

theorem of_sameStore (h : StoresAccesses w p accesses x) (hsame : x.SameStore x') :
    StoresAccesses w p accesses x' where
  winBase := hsame.winBase.trans h.winBase
  winSize := hsame.winSize.trans h.winSize
  filterWindow := hsame.filterWindow.trans h.filterWindow
  active happ := by
    rw [hsame.activeEpoch]
    exact h.active (hsame.outside.mp happ)
  empty happ := by
    rw [hsame.localTree]
    exact h.empty (hsame.outside.mp happ)
  stored q hq := by
    rw [hsame.localTree] at hq
    exact h.stored q hq

/-- A save stores the new access at most. -/
theorem save (h : StoresAccesses w p accesses x)
    (hsave : rmaAnalyzerSaveInterval x.filterWindow x.record ⟨addr, itv⟩ = .ok (saved, record)) :
    record.winBase = w.base p ∧ record.winSize = w.size p ∧
      ∀ q ∈ record.localTree.toList, w.Admits p q.itv ∧ q.itv ∈ itv ::ₘ accesses := by
  have hold : ∀ q ∈ x.record.localTree.toList, w.Admits p q.itv ∧ q.itv ∈ itv ::ₘ accesses :=
    fun q hq => (h.stored q hq).imp_right Multiset.mem_cons_of_mem
  have htree : treeSave x.filterWindow x.record ⟨addr, itv⟩ = .ok record := by
    rw [treeSave, hsave]
    rfl
  rcases treeSave_ok htree with ⟨-, rfl⟩ | ⟨hadm, -, rfl⟩
  · exact ⟨h.winBase, h.winSize, hold⟩
  · obtain ⟨t, ht⟩ := rmaAnalyzerSaveNotif_eq ⟨addr, itv⟩
      { x.record with localTree := insertIntervalTree x.record.localTree ⟨addr, itv⟩ }
    rw [ht]
    refine ⟨h.winBase, h.winSize, fun q hq => ?_⟩
    rcases mem_insert.mp hq with rfl | hq
    · exact ⟨(h.admits_iff itv).mp hadm, Multiset.mem_cons_self itv accesses⟩
    · exact hold q hq

/-- A report names a stored access that is in conflict with the new one. -/
theorem report (h : StoresAccesses w p accesses x) {fault : Fault}
    (hsave : rmaAnalyzerSaveInterval x.filterWindow x.record ⟨addr, itv⟩ = .error fault) :
    w.Admits p itv ∧ ∃ y ∈ accesses, w.Admits p y ∧ ifIntersects y itv = true ∧
      fault = .mpiAbort (conflictReport itv y) := by
  obtain ⟨hadm, o, hsearch, rfl⟩ := report_of_save hsave
  obtain ⟨hexposed, hi⟩ := exposed_of_overlapSearch hsearch
  obtain ⟨hadmits, hmem⟩ := h.stored o hexposed.mem
  exact ⟨(h.admits_iff itv).mp hadm, o.itv, hmem, hadmits, hi, rfl⟩

end StoresAccesses

/-! ## The invariant over a run -/

/-- Every process stores accesses of its epoch: those of its application, and those its checking
thread has passed on. -/
def StoredFrom (w : SharedWindow n) (es : List (SystemEvent n)) (s : Cluster n) : Prop :=
  ∀ p, StoresAccesses w p (ownAccesses p es + s.passed p (s.epoch p)) (s.proc p)

theorem storedFrom_init (w : SharedWindow n) : StoredFrom w [] (Cluster.init w) := by
  intro p
  exact ⟨rfl, rfl, rfl, fun _ => Nat.lt_irrefl 0, fun _ => nofun, nofun⟩

/-- A step of one process, the others have no further access. -/
theorem StoredFrom.of_step {es : List (SystemEvent n)} {e : SystemEvent n}
    (hs : StoredFrom w es s) (hothers : ∀ t, t ≠ p → s'.proc t = s.proc t ∧
      s'.passed t = s.passed t ∧ ∀ own, ownStep t own e = own)
    (hproc : StoresAccesses w p (ownStep p (ownAccesses p es) e + s'.passed p (s'.epoch p))
      (s'.proc p)) : StoredFrom w (es ++ [e]) s' := by
  intro t
  rw [ownAccesses_snoc]
  by_cases ht : t = p
  · rw [ht]
    exact hproc
  · obtain ⟨hx, hpassed, hown⟩ := hothers t ht
    rw [hown, hpassed, Cluster.epoch, hx]
    exact hs t

theorem StoredFrom.protocolStep {es : List (SystemEvent n)} {e : ProtocolEvent n}
    (hs : StoredFrom w es s) (hinv : Inv w s) (h : protocolStep s e = .ok s') :
    StoredFrom w (es ++ [.protocol e]) s' := by
  cases protocolStep_stores h with
  | @openEpoch p happ =>
      have hx := hs p
      have hempty := hx.empty happ
      have hfresh := ((hinv.ofProc p).fresh ((s.proc p).record.countEpoch + 1)
        (Nat.lt_succ_self _)).2
      have hproc : (s.initCommCheckThread p).proc p = _ := Cluster.setProc_proc_self ..
      refine hs.of_step (p := p) (fun t ht => ⟨Cluster.setProc_proc_of_ne s _ ht, rfl, ?_⟩) ?_
      · intro own
        exact if_neg (Ne.symm ht)
      · rw [hproc]
        exact ⟨hx.winBase, hx.winSize, hx.filterWindow, by simp, by simp,
          fun q hq => absurd hq (hempty q)⟩
  | @saveLocal p c _ lt nt hrank happ hsave =>
      have hx := hs p
      obtain ⟨hbase, hsize, hstored⟩ := hx.save hsave
      refine hs.of_step (p := p) (fun t ht => ⟨Cluster.setProc_proc_of_ne s _ ht, rfl, ?_⟩) ?_
      · intro own
        exact if_neg (Ne.symm ht)
      · rw [Cluster.epoch, Cluster.setProc_proc_self, ownStep, if_pos rfl, Multiset.cons_add]
        exact ⟨hbase, hsize, hx.filterWindow, by simp, by simp, hstored⟩
  | @saveReceived p itv _ lt nt hthread hsave =>
      have hx := hs p
      obtain ⟨hbase, hsize, hstored⟩ := hx.save hsave
      have hlive : (s.proc p).app ≠ .outside := by
        intro happ
        have habsent := (hinv.ofProc p).absent (.inl happ)
        rw [hthread] at habsent
        cases habsent
      refine hs.of_step (p := p) (fun t ht => ⟨Cluster.setProc_proc_of_ne s _ ht, ?_, ?_⟩) ?_
      · funext k
        exact if_neg fun h => ht h.1
      · exact fun _ => rfl
      · simp only [Cluster.epoch]
        rw [show Cluster.proc _ p = _ from Cluster.setProc_proc_self ..]
        change StoresAccesses w p (ownAccesses p es + ite _ _ _) _
        rw [if_pos ⟨trivial, rfl⟩, Multiset.add_cons]
        exact ⟨hbase, hsize, hx.filterWindow, hx.active, fun happ => absurd happ hlive, hstored⟩
  | @leaveEpoch p happ =>
      have hx := hs p
      refine hs.of_step (p := p) (fun t ht => ⟨Cluster.setProc_proc_of_ne s _ ht, rfl, ?_⟩) ?_
      · exact fun _ => rfl
      · rw [Cluster.epoch, Cluster.setProc_proc_self]
        exact ⟨hx.winBase, hx.winSize, hx.filterWindow, fun _ => Nat.lt_irrefl 0,
          fun _ q => List.not_mem_nil, fun q hq => absurd hq List.not_mem_nil⟩
  | @mpiSend p dst c happ =>
      have hx := hs p
      have hproc : (s.mpiSend p dst c).proc p = _ := Cluster.setProc_proc_self ..
      refine hs.of_step (p := p) (fun t ht => ⟨Cluster.setProc_proc_of_ne s _ ht, rfl, ?_⟩) ?_
      · exact fun _ => rfl
      · rw [Cluster.epoch, hproc]
        exact hx.of_sameStore ⟨rfl, rfl, rfl, rfl, rfl, rfl, by simp [happ], by simp⟩
  | @quiet _ p _ hopen hsend hothers hsame hpassed =>
      have hown : ∀ t own, ownStep t own (.protocol e) = own := by
        intro t own
        cases e with
        | openEpoch q => exact absurd rfl (hopen q)
        | commSend q c => exact absurd rfl (hsend q c)
        | _ => rfl
      apply hs.of_step (p := p) fun t ht => ⟨hothers t ht, by rw [hpassed], hown t⟩
      rw [hown, hpassed, Cluster.epoch, hsame.countEpoch]
      exact (hs p).of_sameStore hsame

theorem StoredFrom.systemStep {es : List (SystemEvent n)} {e : SystemEvent n}
    (hs : StoredFrom w es s) (hinv : Inv w s) (h : systemStep s e = .ok s') :
    StoredFrom w (es ++ [e]) s' := by
  cases e with
  | protocol e => exact hs.protocolStep hinv h
  | access p address size accessType fileline filename =>
      have hx := hs p
      simp only [ParcoachRma.systemStep] at h
      split_ifs at h
      unfold Cluster.saveAccess at h
      split_ifs at h with hactive
      · obtain ⟨⟨saved, record⟩, hsave, h⟩ := bind_ok.mp h
        obtain rfl := Except.ok.inj h
        obtain ⟨hbase, hsize, hstored⟩ := hx.save hsave
        obtain ⟨lt, nt, rfl⟩ := rmaAnalyzerSaveInterval_eq hsave
        refine hs.of_step (p := p) (fun t ht => ⟨Cluster.setProc_proc_of_ne s _ ht, rfl, ?_⟩) ?_
        · intro own
          exact if_neg (Ne.symm ht)
        · rw [Cluster.epoch, Cluster.setProc_proc_self, ownStep, if_pos rfl, Multiset.cons_add]
          exact ⟨hbase, hsize, hx.filterWindow, hx.active,
            fun happ => absurd hactive (hx.active happ), hstored⟩
      · obtain rfl := Except.ok.inj h
        refine hs.of_step (p := p) (fun t ht => ⟨rfl, rfl, fun own => if_neg (Ne.symm ht)⟩) ?_
        rw [ownStep, if_pos rfl, Multiset.cons_add]
        exact hx.mono (Multiset.le_cons_self _ _)
  | clear p notifId =>
      have hx := hs p
      simp only [ParcoachRma.systemStep] at h
      split_ifs at h
      obtain ⟨record, hclear, h⟩ := bind_ok.mp h
      obtain ⟨lt, nt, rfl, hsub⟩ := rmaAnalyzerClearFromNotifId_eq hclear
      obtain rfl := Except.ok.inj h
      refine hs.of_step (p := p) (fun t ht => ⟨Cluster.setProc_proc_of_ne s _ ht, rfl, ?_⟩) ?_
      · exact fun _ => rfl
      · rw [Cluster.epoch, Cluster.setProc_proc_self]
        exact ⟨hx.winBase, hx.winSize, hx.filterWindow, hx.active,
          fun happ q hq => hx.empty happ q (hsub q hq), fun q hq => hx.stored q (hsub q hq)⟩

theorem storedFrom_run {es : List (SystemEvent n)}
    (h : run systemStep (Cluster.init w) es = .ok s) : Inv w s ∧ StoredFrom w es s := by
  refine invariant_of_prefix (I := fun pre t => Inv w t ∧ StoredFrom w pre t)
    ⟨inv_init w, storedFrom_init w⟩ (fun pre e t t' _ ht hstep => ?_) (List.prefix_refl es) h
  exact ⟨inv_systemStep ht.1 hstep, ht.2.systemStep ht.1 hstep⟩

/-! ## Reports -/

/-- What a step saves is an access of the application, or one the checking thread has received. -/
theorem ownStep_of_saves {e : SystemEvent n} {itv : Interval} (h : s.saves e = some (p, itv)) :
    (∀ own, ownStep p own e = itv ::ₘ own) ∨ (∀ own, ownStep p own e = own) ∧
      ∃ received, (s.proc p).thread = .counted received ∧
        itv = received.rebase (s.proc p).record.winBase := by
  unfold Cluster.saves at h
  split at h
  · cases h
    exact .inl fun own => if_pos rfl
  · split at h <;> cases h
    rename_i received hthread
    exact .inr ⟨fun own => rfl, received, hthread, rfl⟩
  · cases h
    exact .inl fun own => if_pos rfl
  · cases h

/-- What the checking thread holds, it has not passed on: both are among the intervals sent. -/
theorem Inv.hand_le_received (hs : Inv w s) {received : Interval}
    (hthread : (s.proc p).thread = .counted received) :
    received.rebase (w.base p) ::ₘ s.passed p (s.epoch p) ≤ s.received w p (s.epoch p) := by
  have hconserves := hs.conserves p (s.epoch p)
  have hheld : s.held p (s.epoch p) = {received} := by
    rw [held_epoch, hthread]
    rfl
  change s.received w p _ = Multiset.map _ (_ + s.held p (s.epoch p)) + _ at hconserves
  rw [hconserves, hheld, Multiset.map_add, Multiset.map_singleton, add_assoc,
    Multiset.singleton_add]
  exact Multiset.le_add_left _ _

/-- A report is about two accesses of one process in its epoch. -/
theorem StoredFrom.conflict_of_report {es : List (SystemEvent n)} {e : SystemEvent n}
    {report : String} (hstored : StoredFrom w es s) (hinv : Inv w s)
    (hreport : ParcoachRma.systemStep s e = .error (.mpiAbort report)) :
    ∃ p itv y, report = conflictReport itv y ∧ ifIntersects y itv = true ∧
      w.Admits p itv ∧ w.Admits p y ∧ {itv, y} ≤ s.accesses w (es ++ [e]) p := by
  obtain ⟨p, itv, hsaves, hsave⟩ := save_of_report hreport
  obtain ⟨hadmits, y, hy, hyadmits, hi, hfault⟩ := (hstored p).report hsave
  have hpassed : s.passed p (s.epoch p) ≤ s.received w p (s.epoch p) := by
    have hconserves := hinv.conserves p (s.epoch p)
    change s.received w p _ = _ + _ at hconserves
    rw [hconserves]
    exact Multiset.le_add_left _ _
  refine ⟨p, itv, y, Fault.mpiAbort.inj hfault, hi, hadmits, hyadmits, ?_⟩
  rw [Cluster.accesses, ownAccesses_snoc]
  change itv ::ₘ {y} ≤ _
  rcases ownStep_of_saves hsaves with hown | ⟨hown, received, hthread, rfl⟩
  · rw [hown, Multiset.cons_add, Multiset.cons_le_cons_iff, Multiset.singleton_le]
    exact Multiset.mem_of_le (add_le_add_right hpassed _) hy
  · have hhand := hinv.hand_le_received hthread
    rw [(hinv.ofProc p).winBase, hown]
    calc _ ≤ received.rebase (w.base p) ::ₘ (ownAccesses p es + s.passed p (s.epoch p)) := by
          rw [Multiset.cons_le_cons_iff, Multiset.singleton_le]
          exact hy
      _ = ownAccesses p es + received.rebase (w.base p) ::ₘ s.passed p (s.epoch p) := by
          rw [Multiset.add_cons]
      _ ≤ _ := add_le_add_right hhand _

/-- In every run of the system, what a step reports is a conflict between the access it saves and
one saved before: two different accesses to the window of one process, both kept by its filter and
both of the epoch the process is in. -/
theorem report_conflict {es : List (SystemEvent n)} {e : SystemEvent n} {report : String}
    (h : run systemStep (Cluster.init w) es = .ok s)
    (hreport : systemStep s e = .error (.mpiAbort report)) :
    ∃ p itv y, report = conflictReport itv y ∧ ifIntersects y itv = true ∧
      w.Admits p itv ∧ w.Admits p y ∧ {itv, y} ≤ s.accesses w (es ++ [e]) p := by
  obtain ⟨hinv, hstored⟩ := storedFrom_run h
  exact hstored.conflict_of_report hinv hreport

/-- The put arrives, and is about to be saved next to the write of the target. -/
def arrivedEvents : List (SystemEvent 2) :=
  conflictEvents ++ [.protocol (.thread targetProcess),
    .protocol (.deliver targetProcess exampleSend.targetItv), .protocol (.thread targetProcess),
    .protocol (.thread targetProcess), .protocol (.thread targetProcess)]

set_option maxRecDepth 10000 in
/-- The save reports the two. -/
theorem report_conflict_arrivedEvents :
    ∃ s report, run systemStep (Cluster.init exampleShared) arrivedEvents = .ok s ∧
      systemStep s (.protocol (.thread 1)) = .error (.mpiAbort report) ∧
      ∃ p itv y, report = conflictReport itv y ∧ ifIntersects y itv = true ∧
        exampleShared.Admits p itv ∧ exampleShared.Admits p y ∧
        {itv, y} ≤ s.accesses exampleShared (arrivedEvents ++ [.protocol (.thread 1)]) p := by
  have hrun : run systemStep (Cluster.init exampleShared) arrivedEvents = .ok _ := rfl
  exact ⟨_, conflictReport (exampleSend.targetItv.rebase 8192)
    (accessInterval 8200 3 .localWrite 20 none), hrun, rfl, report_conflict hrun rfl⟩

end ParcoachRma
