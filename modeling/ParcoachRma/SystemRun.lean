import ParcoachRma.NotifCoupling
import ParcoachRma.ProtocolRun
import ParcoachRma.Lib.Progress

/-!
# The processes with their own accesses

The termination protocol together with what the application does between its calls: a load or store
is saved while an epoch is active (`rma_analyzer_save_interval_all_wins`, for the one window), and
the wait for a notification takes the interval with its id out again
(`rma_analyzer_clear_from_notif_id`).

Neither touches what the protocol counts, so its invariant holds in every run of the system
(`inv_systemRun`).  `protocolStep_stores` says what a step of the protocol does to the stored
intervals, `exists_reportsConflict` what a step that aborts with a report has done.
-/

namespace ParcoachRma

open Run Counting

/-- A step of the protocol, an access of an application to its memory, or the clearing of a
notification. -/
inductive SystemEvent (n : Nat) where
  | protocol (e : ProtocolEvent n)
  | access (p : Fin n) (address size : UInt64) (accessType : AccessType) (fileline : Int)
      (filename : Option String)
  | clear (p : Fin n) (notifId : Int)

variable {n : Nat} {w : SharedWindow n} {s s' : Cluster n} {p : Fin n} {x x' : Process n}

namespace Cluster

/-- `rma_analyzer_save_interval_all_wins` on the window. -/
def saveAccess (s : Cluster n) (p : Fin n) (itv : Interval) : Except Fault (Cluster n) :=
  if (s.proc p).record.activeEpoch > 0 then do
    let x := s.proc p
    let (_, record) ← rmaAnalyzerSaveInterval x.filterWindow x.record ⟨x.nextObject, itv⟩
    return s.setProc p { x with record := record, nextObject := x.nextObject + 1 }
  else .ok s

/-- `rma_analyzer_clear_from_notif_id`. -/
def clearNotif (s : Cluster n) (p : Fin n) (notifId : Int) : Except Fault (Cluster n) := do
  let x := s.proc p
  let record ← rmaAnalyzerClearFromNotifId x.record notifId
  return s.setProc p { x with record := record }

end Cluster

/-- The application thread is in none of the calls. -/
def AppPc.Idle : AppPc n → Prop
  | .outside => True
  | .inside => True
  | _ => False

instance (app : AppPc n) : Decidable app.Idle := by
  cases app <;> unfold AppPc.Idle <;> infer_instance

/-- One step of the system. -/
def systemStep (s : Cluster n) : SystemEvent n → Except Fault (Cluster n)
  | .protocol e => protocolStep s e
  | .access p address size accessType fileline filename =>
      if (s.proc p).app.Idle then
        s.saveAccess p (accessInterval address size accessType fileline filename)
      else .error .notEnabled
  | .clear p notifId =>
      if (s.proc p).app.Idle then s.clearNotif p notifId else .error .notEnabled

/-- The process an event is at. -/
def ProtocolEvent.process : ProtocolEvent n → Fin n
  | .openEpoch p => p
  | .commSend p _ => p
  | .closeEpoch p => p
  | .app p => p
  | .thread p => p
  | .deliver p _ => p

/-! ## The invariant of the protocol -/

/-- New trees are nothing the protocol counts. -/
theorem Inv.setTrees (hs : Inv w s) {localTree : IntervalTree} {notifTree : NotifTree}
    {nextObject : Nat} :
    Inv w (s.setProc p { s.proc p with
      record := { (s.proc p).record with localTree := localTree, notifTree := notifTree }
      nextObject := nextObject }) := by
  have hx := hs.ofProc p
  have hend := hs.ofEnd p
  exact hs.setProc rfl id rfl { hx with } ⟨hend.tmp, hend.value, hend.settled⟩

/-- A clear that returns deletes from the two trees at most. -/
theorem rmaAnalyzerClearFromNotifId_eq {state state' : RmaAnalyzerState} {notifId : Int}
    (h : rmaAnalyzerClearFromNotifId state notifId = .ok state') :
    ∃ localTree notifTree,
      state' = { state with localTree := localTree, notifTree := notifTree } ∧
      ∀ q ∈ localTree.toList, q ∈ state.localTree.toList := by
  unfold rmaAnalyzerClearFromNotifId at h
  split_ifs at h
  · obtain rfl := Except.ok.inj h
    exact ⟨_, _, rfl, fun q hq => hq⟩
  · obtain ⟨state₁, hdelete, h⟩ := bind_ok.mp h
    obtain ⟨t, ht, hstate₁⟩ := bind_ok.mp hdelete
    obtain rfl := Except.ok.inj hstate₁
    obtain rfl := Except.ok.inj h
    refine ⟨t, _, rfl, fun q hq => ?_⟩
    unfold deleteIntervalTree at ht
    split at ht
    · obtain rfl := Except.ok.inj ht
      exact absurd hq List.not_mem_nil
    · cases ht
    · obtain rfl := Except.ok.inj ht
      exact AvlTree.mem_of_mem_delete hq

theorem inv_systemStep {e : SystemEvent n} (hs : Inv w s) (h : systemStep s e = .ok s') :
    Inv w s' := by
  cases e with
  | protocol e => exact inv_protocolStep hs h
  | access p address size accessType fileline filename =>
      simp only [systemStep] at h
      split_ifs at h
      unfold Cluster.saveAccess at h
      split_ifs at h
      · obtain ⟨⟨saved, record⟩, hsave, h⟩ := bind_ok.mp h
        obtain ⟨lt, nt, rfl⟩ := rmaAnalyzerSaveInterval_eq hsave
        obtain rfl := Except.ok.inj h
        exact hs.setTrees
      · obtain rfl := Except.ok.inj h
        exact hs
  | clear p notifId =>
      simp only [systemStep] at h
      split_ifs at h
      obtain ⟨record, hclear, h⟩ := bind_ok.mp h
      obtain ⟨lt, nt, rfl, -⟩ := rmaAnalyzerClearFromNotifId_eq hclear
      obtain rfl := Except.ok.inj h
      exact hs.setTrees

theorem inv_systemRun {es : List (SystemEvent n)}
    (h : run systemStep (Cluster.init w) es = .ok s) : Inv w s :=
  invariant (P := Inv w) (fun _ _ _ => inv_systemStep) (inv_init w) h

/-! ## What a step does to the stored intervals -/

/-- The process goes on with what it has stored in its epoch. -/
structure Process.SameStore (x x' : Process n) : Prop where
  winBase : x'.record.winBase = x.record.winBase
  winSize : x'.record.winSize = x.record.winSize
  localTree : x'.record.localTree = x.record.localTree
  countEpoch : x'.record.countEpoch = x.record.countEpoch
  activeEpoch : x'.record.activeEpoch = x.record.activeEpoch
  filterWindow : x'.filterWindow = x.filterWindow
  outside : x'.app = .outside ↔ x.app = .outside
  sending : ∀ dst c, x'.app = .sending dst c → x.app = .sending dst c

/-- What a step of the protocol does to the intervals that are stored and sent: one of the five
things that touch them, or nothing. -/
inductive StoreStep (s : Cluster n) : ProtocolEvent n → Cluster n → Prop
  | openEpoch {p : Fin n} : (s.proc p).app = .outside →
      StoreStep s (.openEpoch p) (s.initCommCheckThread p)
  | saveLocal {p : Fin n} {c : CommSend} {saved : Nat} {lt : IntervalTree} {nt : NotifTree}
      (hrank : c.targetRank < n) : (s.proc p).app = .inside →
      rmaAnalyzerSaveInterval (s.proc p).filterWindow (s.proc p).record
        ⟨(s.proc p).nextObject, c.localItv⟩ =
          .ok (saved, { (s.proc p).record with localTree := lt, notifTree := nt }) →
      StoreStep s (.commSend p c) (s.setProc p { s.proc p with
        record := { (s.proc p).record with localTree := lt, notifTree := nt }
        nextObject := (s.proc p).nextObject + 1
        app := .sending ⟨c.targetRank, hrank⟩ c })
  | saveReceived {p : Fin n} {itv : Interval} {saved : Nat} {lt : IntervalTree} {nt : NotifTree} :
      (s.proc p).thread = .counted itv →
      rmaAnalyzerSaveInterval (s.proc p).filterWindow (s.proc p).record
        ⟨(s.proc p).nextObject, itv.rebase (s.proc p).record.winBase⟩ =
          .ok (saved, { (s.proc p).record with localTree := lt, notifTree := nt }) →
      StoreStep s (.thread p) { s.setProc p { s.proc p with
          record := { (s.proc p).record with localTree := lt, notifTree := nt }
          nextObject := (s.proc p).nextObject + 1
          thread := .start } with
        passed := fun t k =>
          if t = p ∧ k = s.epoch p then itv.rebase (s.proc p).record.winBase ::ₘ s.passed t k
          else s.passed t k }
  | leaveEpoch {p : Fin n} : (s.proc p).app = .joined →
      StoreStep s (.app p) (s.setProc p { s.proc p with
        record := { (s.proc p).record.leaveEpoch with localTree := .nil, notifTree := .nil }
        app := .outside })
  | mpiSend {p dst : Fin n} {c : CommSend} : (s.proc p).app = .sending dst c →
      StoreStep s (.app p) (s.mpiSend p dst c)
  | quiet {e : ProtocolEvent n} {p : Fin n} {s' : Cluster n} :
      (∀ q, e ≠ .openEpoch q) → (∀ q c, e ≠ .commSend q c) →
      (∀ t, t ≠ p → s'.proc t = s.proc t) → (s.proc p).SameStore (s'.proc p) →
      s'.passed = s.passed → s'.sent = s.sent → StoreStep s e s'

/-- A step of a thread that writes back a process with the same store. -/
theorem StoreStep.setProc {e : ProtocolEvent n} (he : e = .app p ∨ e = .thread p)
    (hsame : (s.proc p).SameStore x) : StoreStep s e (s.setProc p x) := by
  refine .quiet ?_ ?_ (fun t ht => Cluster.setProc_proc_of_ne s x ht) ?_ rfl rfl
  · rcases he with rfl | rfl <;> nofun
  · rcases he with rfl | rfl <;> nofun
  · rwa [Cluster.setProc_proc_self]

theorem appStep_stores (h : s.appStep p = .ok s') : StoreStep s (.app p) s' := by
  have hsame : ∀ {y : Process n}, (s.proc p).SameStore y → StoreStep s (.app p) (s.setProc p y) :=
    StoreStep.setProc (.inl rfl)
  unfold Cluster.appStep at h
  split at h <;> rename_i happ
  · cases h
  · cases h
  · cases h
    exact .mpiSend happ
  · cases h
    exact hsame ⟨rfl, rfl, rfl, rfl, rfl, rfl, by simp [happ], nofun⟩
  · rename_i root
    cases h
    split_ifs
    · refine .quiet nofun nofun
        (fun t ht => Cluster.setProc_proc_of_ne (s.contribute p root) _ ht) ?_ rfl rfl
      change (s.proc p).SameStore (((s.contribute p root).setProc p _).proc p)
      rw [Cluster.setProc_proc_self]
      refine ⟨rfl, rfl, rfl, rfl, rfl, rfl, ?_, ?_⟩ <;>
        simp only [happ] <;> split_ifs <;> simp
    · exact hsame ⟨rfl, rfl, rfl, rfl, rfl, rfl, by simp [happ], nofun⟩
  · split at h
    · cases h
      exact hsame ⟨rfl, rfl, rfl, rfl, rfl, rfl, by simp [happ], nofun⟩
    · cases h
  · cases h
    exact hsame ⟨rfl, rfl, rfl, rfl, rfl, rfl, by simp [happ], nofun⟩
  · split_ifs at h
    cases h
    exact hsame ⟨rfl, rfl, rfl, rfl, rfl, rfl, by simp [happ], nofun⟩
  · obtain ⟨record, hfree, h⟩ := bind_ok.mp h
    obtain rfl := freeTrees_ok hfree
    obtain rfl := Except.ok.inj h
    exact .leaveEpoch happ

theorem threadStep_stores (h : s.threadStep p = .ok s') : StoreStep s (.thread p) s' := by
  have hsame : ∀ {y : Process n}, (s.proc p).SameStore y →
      StoreStep s (.thread p) (s.setProc p y) := StoreStep.setProc (.inr rfl)
  unfold Cluster.threadStep at h
  split at h <;> rename_i hthread
  · cases h
  · cases h
    exact hsame ⟨rfl, rfl, rfl, rfl, rfl, rfl, Iff.rfl, fun _ _ h => h⟩
  · cases h
    exact hsame ⟨rfl, rfl, rfl, rfl, rfl, rfl, Iff.rfl, fun _ _ h => h⟩
  · cases h
    split_ifs
    · exact hsame ⟨rfl, rfl, rfl, rfl, rfl, rfl, Iff.rfl, fun _ _ h => h⟩
    · exact hsame ⟨rfl, rfl, rfl, rfl, rfl, rfl, Iff.rfl, fun _ _ h => h⟩
  · cases h
    exact hsame ⟨rfl, rfl, rfl, rfl, rfl, rfl, Iff.rfl, fun _ _ h => h⟩
  · cases h
    exact hsame ⟨rfl, rfl, rfl, rfl, rfl, rfl, Iff.rfl, fun _ _ h => h⟩
  · cases h
    exact hsame ⟨rfl, rfl, rfl, rfl, rfl, rfl, Iff.rfl, fun _ _ h => h⟩
  · obtain ⟨⟨saved, record⟩, hsave, h⟩ := bind_ok.mp h
    obtain ⟨lt, nt, rfl⟩ := rmaAnalyzerSaveInterval_eq hsave
    obtain rfl := Except.ok.inj h
    exact .saveReceived hthread hsave
  · cases h

theorem protocolStep_stores {e : ProtocolEvent n} (h : protocolStep s e = .ok s') :
    StoreStep s e s' := by
  cases e with
  | openEpoch p =>
      simp only [protocolStep] at h
      split at h <;> cases h
      exact .openEpoch ‹_›
  | commSend p c =>
      simp only [protocolStep] at h
      split at h
      · split_ifs at h with hrank
        obtain ⟨⟨saved, record⟩, hsave, h⟩ := bind_ok.mp h
        obtain ⟨lt, nt, rfl⟩ := rmaAnalyzerSaveInterval_eq hsave
        obtain rfl := Except.ok.inj h
        exact .saveLocal hrank ‹_› hsave
      · cases h
  | closeEpoch p =>
      simp only [protocolStep] at h
      split at h <;> cases h
      rename_i happ
      have hquiet : (∀ q, ProtocolEvent.closeEpoch p ≠ .openEpoch q) ∧
          ∀ q c, ProtocolEvent.closeEpoch p ≠ .commSend q c := by simp
      refine .quiet hquiet.1 hquiet.2 (fun t ht => Cluster.setProc_proc_of_ne s _ ht) ?_ rfl rfl
      rw [Cluster.startReduce, Cluster.setProc_proc_self]
      exact ⟨rfl, rfl, rfl, rfl, rfl, rfl, by simp [happ], by simp⟩
  | app p => exact appStep_stores h
  | thread p => exact threadStep_stores h
  | deliver p itv =>
      simp only [protocolStep, Cluster.deliver] at h
      split at h
      · split_ifs at h
        cases h
        have hquiet : (∀ q, ProtocolEvent.deliver p itv ≠ .openEpoch q) ∧
            ∀ q c, ProtocolEvent.deliver p itv ≠ .commSend q c := by simp
        refine .quiet hquiet.1 hquiet.2 (fun t ht => Cluster.setProc_proc_of_ne s _ ht) ?_ rfl rfl
        change (s.proc p).SameStore ((s.setProc p _).proc p)
        rw [Cluster.setProc_proc_self]
        exact ⟨rfl, rfl, rfl, rfl, rfl, rfl, Iff.rfl, fun _ _ h => h⟩
      · cases h

/-! ## What a step reports -/

/-- The access an event saves, and the process it saves it at: the origin's side of a transfer, an
interval the checking thread has received, or a load or store. -/
def Cluster.saves (s : Cluster n) : SystemEvent n → Option (Fin n × Interval)
  | .protocol (.commSend p c) => some (p, c.localItv)
  | .protocol (.thread p) =>
      match (s.proc p).thread with
      | .counted received => some (p, received.rebase (s.proc p).record.winBase)
      | _ => none
  | .access p address size accessType fileline filename =>
      some (p, accessInterval address size accessType fileline filename)
  | _ => none

/-- A step that reports has saved. -/
theorem save_of_report {e : SystemEvent n} {report : String}
    (h : systemStep s e = .error (.mpiAbort report)) : ∃ p itv, s.saves e = some (p, itv) ∧
    rmaAnalyzerSaveInterval (s.proc p).filterWindow (s.proc p).record ⟨(s.proc p).nextObject, itv⟩ =
      .error (.mpiAbort report) := by
  cases e with
  | protocol e =>
      cases e with
      | openEpoch p =>
          simp only [systemStep, protocolStep] at h
          split at h <;> cases h
      | commSend p c =>
          simp only [systemStep, protocolStep] at h
          split at h
          · split_ifs at h
            · rcases bind_error.mp h with hsave | ⟨_, _, hsave⟩
              · exact ⟨p, c.localItv, rfl, hsave⟩
              · cases hsave
            · cases h
          · cases h
      | closeEpoch p =>
          simp only [systemStep, protocolStep] at h
          split at h <;> cases h
      | app p =>
          simp only [systemStep, protocolStep] at h
          unfold Cluster.appStep at h
          split at h
          · cases h
          · cases h
          · cases h
          · cases h
          · cases h
          · split at h <;> cases h
          · cases h
          · split_ifs at h
            cases h
          · rcases bind_error.mp h with hfree | ⟨_, _, hfree⟩
            · unfold RmaAnalyzerState.freeTrees at hfree
              split at hfree <;> cases hfree
            · cases hfree
      | thread p =>
          simp only [systemStep, protocolStep] at h
          unfold Cluster.threadStep at h
          split at h <;> try cases h
          rename_i received hthread
          rcases bind_error.mp h with hsave | ⟨_, _, hsave⟩
          · exact ⟨p, _, by simp only [Cluster.saves, hthread], hsave⟩
          · cases hsave
      | deliver p itv =>
          simp only [systemStep, protocolStep, Cluster.deliver] at h
          split at h
          · split_ifs at h
            cases h
          · cases h
  | access p address size accessType fileline filename =>
      simp only [systemStep] at h
      split_ifs at h
      · unfold Cluster.saveAccess at h
        split_ifs at h
        rcases bind_error.mp h with hsave | ⟨_, _, hsave⟩
        · exact ⟨p, _, rfl, hsave⟩
        · cases hsave
      · cases h
  | clear p notifId =>
      simp only [systemStep] at h
      split_ifs at h
      · rcases bind_error.mp h with hclear | ⟨_, _, hclear⟩
        · unfold rmaAnalyzerClearFromNotifId at hclear
          split_ifs at hclear
          rcases bind_error.mp hclear with hdelete | ⟨_, _, hdelete⟩
          · rcases bind_error.mp hdelete with hdelete | ⟨_, _, hdelete⟩
            · unfold deleteIntervalTree at hdelete
              split at hdelete <;> cases hdelete
            · cases hdelete
          · cases hdelete
        · cases hclear
      · cases h

/-- The step at the event saves the access `itv` and aborts with a report: the search has found the
stored access `o`. -/
structure Cluster.ReportsConflict (s : Cluster n) (e : SystemEvent n) (p : Fin n)
    (itv o : Interval) : Prop where
  saves : s.saves e = some (p, itv)
  search : (overlapSearch (s.proc p).record.localTree ⟨(s.proc p).nextObject, itv⟩).map (·.itv) =
    some o
  step : systemStep s e = .error (.mpiAbort (conflictReport itv o))

/-- What a step reports is about the access it saves. -/
theorem exists_reportsConflict {e : SystemEvent n} {report : String}
    (h : systemStep s e = .error (.mpiAbort report)) :
    ∃ p itv o, s.ReportsConflict e p itv o ∧ report = conflictReport itv o := by
  obtain ⟨p, itv, hsaves, hsave⟩ := save_of_report h
  obtain ⟨-, o, hsearch, hfault⟩ := report_of_save hsave
  have hreport : report = conflictReport itv o.itv := Fault.mpiAbort.inj hfault
  rw [hreport] at h
  exact ⟨p, itv, o.itv, ⟨hsaves, by rw [hsearch, Option.map_some], h⟩, hreport⟩

end ParcoachRma
