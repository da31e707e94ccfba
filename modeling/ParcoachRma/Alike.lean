import ParcoachRma.SystemRun
import ParcoachRma.Lib.AvlMap
import ParcoachRma.Lib.Simulation

/-!
# What the verdicts do not depend on

A save looks at the bounds, the access types and the notification ids of the intervals, not at their
source positions, nor at the addresses of the objects they lie in.  Two clusters are alike if they
differ in what a function `f` on intervals forgets and in the addresses only; `protocolStep_alike`:
a step leaves them alike, or faults on both sides alike.

* `run_alike`: two runs whose accesses differ in source positions only end alike.
* `runReports_alike`: if they abort, then at the same event and on alike accesses.
-/

namespace ParcoachRma

open Run

variable {n : Nat} {f : Interval → Interval}

/-! ## Intervals -/

/-- The function keeps what a verdict depends on. -/
structure KeepsVerdicts (f : Interval → Interval) : Prop where
  accessType : ∀ itv, (f itv).accessType = itv.accessType
  lowBound : ∀ itv, (f itv).lowBound = itv.lowBound
  upBound : ∀ itv, (f itv).upBound = itv.upBound
  notificationId : ∀ itv, (f itv).notificationId = itv.notificationId
  rebase : ∀ base itv, f (Interval.rebase base itv) = (f itv).rebase base

theorem keepsVerdicts_id : KeepsVerdicts id :=
  ⟨fun _ => rfl, fun _ => rfl, fun _ => rfl, fun _ => rfl, fun _ _ => rfl⟩

/-- The interval without its source position. -/
def Interval.stripPosition (itv : Interval) : Interval := { itv with line := 0, filename := "" }

theorem keepsVerdicts_stripPosition : KeepsVerdicts Interval.stripPosition :=
  ⟨fun _ => rfl, fun _ => rfl, fun _ => rfl, fun _ => rfl, fun _ _ => rfl⟩

/-- The pointer with the address forgotten as well. -/
def IntervalPtr.erase (f : Interval → Interval) (p : IntervalPtr) : IntervalPtr := ⟨0, f p.itv⟩

def NotifEntry.erase (f : Interval → Interval) (e : NotifEntry) : NotifEntry :=
  ⟨e.notifId, e.itv.erase f⟩

/-- The record with the objects of its stores erased. -/
def RmaAnalyzerState.erase (f : Interval → Interval) (state : RmaAnalyzerState) :
    RmaAnalyzerState :=
  { state with
    localList := state.localList.map f
    localTree := state.localTree.map (IntervalPtr.erase f)
    notifTree := state.notifTree.map (NotifEntry.erase f) }

theorem notifId_erase (e : NotifEntry) : (e.erase f).notifId = e.notifId := rfl

/-- The record with other trees. -/
def RmaAnalyzerState.withTrees (state : RmaAnalyzerState) (localTree : IntervalTree)
    (notifTree : NotifTree) : RmaAnalyzerState :=
  { state with localTree := localTree, notifTree := notifTree }

theorem erase_withTrees (state : RmaAnalyzerState) (lt : IntervalTree) (nt : NotifTree) :
    (state.withTrees lt nt).erase f =
      (state.erase f).withTrees (lt.map (IntervalPtr.erase f)) (nt.map (NotifEntry.erase f)) := rfl

/-- The same fault, or a report about alike accesses. -/
inductive FaultAlike (f : Interval → Interval) : Fault → Fault → Prop
  | same (fault : Fault) : FaultAlike f fault fault
  | report {itv itv' o o' : Interval} : f itv = f itv' → f o = f o' →
      FaultAlike f (.mpiAbort (conflictReport itv o)) (.mpiAbort (conflictReport itv' o'))

theorem FaultAlike.eq {fault fault' : Fault} (h : FaultAlike id fault fault') : fault = fault' := by
  cases h with
  | same => rfl
  | report hi ho => exact congrArg₂ (fun itv o => Fault.mpiAbort (conflictReport itv o)) hi ho

/-- A fault like a report is a report. -/
theorem FaultAlike.exists_report {fault fault' : Fault} {report : String}
    (h : FaultAlike f fault fault') (hreport : fault = .mpiAbort report) :
    ∃ report', fault' = .mpiAbort report' := by
  cases h with
  | same => exact ⟨report, hreport⟩
  | report hi ho => exact ⟨_, rfl⟩

namespace KeepsVerdicts

variable (hf : KeepsVerdicts f)
include hf

theorem ifIntersects (a b : Interval) :
    ParcoachRma.ifIntersects (f a) (f b) = ParcoachRma.ifIntersects a b := by
  simp only [ParcoachRma.ifIntersects, checkAccessRights, hf.accessType, hf.lowBound, hf.upBound]

theorem lowKey (p : IntervalPtr) : ParcoachRma.lowKey (p.erase f) = ParcoachRma.lowKey p :=
  congrArg UInt64.toNat (hf.lowBound p.itv)

theorem admits (filterWindow : Int) (state : RmaAnalyzerState) (itv : Interval) :
    ParcoachRma.admits filterWindow state (f itv) =
      ParcoachRma.admits filterWindow state itv := by
  simp only [ParcoachRma.admits, hf.lowBound, hf.upBound]

theorem insertIntervalTree (t : IntervalTree) (p : IntervalPtr) :
    (ParcoachRma.insertIntervalTree t p).map (IntervalPtr.erase f) =
      ParcoachRma.insertIntervalTree (t.map (IntervalPtr.erase f)) (p.erase f) := by
  unfold ParcoachRma.insertIntervalTree
  rw [AvlTree.map_insert hf.lowKey, IntervalPtr.erase, hf.lowBound]

theorem overlapSearch (t : IntervalTree) (p : IntervalPtr) :
    (ParcoachRma.overlapSearch t p).map (IntervalPtr.erase f) =
      ParcoachRma.overlapSearch (t.map (IntervalPtr.erase f)) (p.erase f) := by
  induction t with
  | nil => rfl
  | node q l r h s ihl ihr =>
      have hroot : ParcoachRma.ifIntersects (q.erase f).itv (p.erase f).itv =
          ParcoachRma.ifIntersects q.itv p.itv := hf.ifIntersects q.itv p.itv
      simp only [AvlTree.map_node, ParcoachRma.overlapSearch, hroot, hf.lowKey]
      split_ifs
      · rfl
      · exact ihl
      · exact ihr
      · rfl

theorem deleteIntervalTree (t : IntervalTree) (p : Option IntervalPtr) :
    (ParcoachRma.deleteIntervalTree t p).map (AvlTree.map (IntervalPtr.erase f)) =
      ParcoachRma.deleteIntervalTree (t.map (IntervalPtr.erase f))
        (p.map (IntervalPtr.erase f)) := by
  cases t with
  | nil => rfl
  | node q l r h s =>
      cases p with
      | none => rfl
      | some p =>
          rw [Option.map_some, deleteIntervalTree_some, deleteIntervalTree_some, hf.lowKey,
            AvlTree.map_delete hf.lowKey]
          rfl

theorem insertNotifTree (t : NotifTree) (p : IntervalPtr) :
    (ParcoachRma.insertNotifTree t p).map (NotifEntry.erase f) =
      ParcoachRma.insertNotifTree (t.map (NotifEntry.erase f)) (p.erase f) := by
  have hentry : newNotifEntry (p.erase f) = (newNotifEntry p).erase f := by
    rw [newNotifEntry, newNotifEntry, NotifEntry.erase, IntervalPtr.erase, hf.notificationId]
  unfold ParcoachRma.insertNotifTree
  rw [hentry, AvlTree.map_insert notifId_erase, IntervalPtr.erase,
    hf.notificationId]

omit hf in
theorem deleteNotifTree (t : NotifTree) (notifId : Int) :
    (ParcoachRma.deleteNotifTree t notifId).map (NotifEntry.erase f) =
      ParcoachRma.deleteNotifTree (t.map (NotifEntry.erase f)) notifId :=
  (AvlTree.map_delete notifId_erase notifId t).symm

omit hf in
theorem findIntervalFromNotif (t : NotifTree) (notifId : Int) :
    (ParcoachRma.findIntervalFromNotif t notifId).map (IntervalPtr.erase f) =
      ParcoachRma.findIntervalFromNotif (t.map (NotifEntry.erase f)) notifId := by
  unfold ParcoachRma.findIntervalFromNotif
  rw [AvlTree.map_lookup notifId_erase, Option.map_map, Option.map_map]
  rfl

theorem freeIntervalTree (t : IntervalTree) :
    (ParcoachRma.freeIntervalTree t).map (AvlTree.map (IntervalPtr.erase f)) =
      ParcoachRma.freeIntervalTree (t.map (IntervalPtr.erase f)) := by
  unfold ParcoachRma.freeIntervalTree
  rw [AvlTree.numNodes_map, AvlTree.map_freeLoop hf.lowKey]

omit hf in
theorem freeNotifTree (t : NotifTree) :
    (ParcoachRma.freeNotifTree t).map (AvlTree.map (NotifEntry.erase f)) =
      ParcoachRma.freeNotifTree (t.map (NotifEntry.erase f)) := by
  unfold ParcoachRma.freeNotifTree
  rw [AvlTree.numNodes_map, AvlTree.map_freeLoop notifId_erase]

end KeepsVerdicts

/-! ## Records -/

/-- Both sides return alike, or fault alike. -/
abbrev EndAlike {σ τ : Type*} (f : Interval → Interval) (R : σ → τ → Prop) (x : Except Fault σ)
    (y : Except Fault τ) : Prop :=
  Refines R (FaultAlike f) (fun _ => False) x y

section Records

variable {state state' : RmaAnalyzerState} {itv itv' : Interval} {addr addr' : Nat}

theorem localTree_congr (hs : state.erase f = state'.erase f) :
    state.localTree.map (IntervalPtr.erase f) = state'.localTree.map (IntervalPtr.erase f) :=
  congrArg RmaAnalyzerState.localTree hs

theorem notifTree_congr (hs : state.erase f = state'.erase f) :
    state.notifTree.map (NotifEntry.erase f) = state'.notifTree.map (NotifEntry.erase f) :=
  congrArg RmaAnalyzerState.notifTree hs

/-- New trees that are alike. -/
theorem withTrees_congr (hs : state.erase f = state'.erase f) {lt lt' : IntervalTree}
    {nt nt' : NotifTree} (hlt : lt.map (IntervalPtr.erase f) = lt'.map (IntervalPtr.erase f))
    (hnt : nt.map (NotifEntry.erase f) = nt'.map (NotifEntry.erase f)) :
    (state.withTrees lt nt).erase f = (state'.withTrees lt' nt').erase f := by
  rw [erase_withTrees, erase_withTrees, hs, hlt, hnt]

theorem admits_alike (hf : KeepsVerdicts f) (filterWindow : Int)
    (hs : state.erase f = state'.erase f) (hi : f itv = f itv') :
    admits filterWindow state itv = admits filterWindow state' itv' := by
  have hbase : (state.erase f).winBase = (state'.erase f).winBase := by rw [hs]
  have hsize : (state.erase f).winSize = (state'.erase f).winSize := by rw [hs]
  rw [← hf.admits filterWindow state, hi, hf.admits]
  exact admits_congr hbase hsize itv'

theorem saveNotif_alike (hf : KeepsVerdicts f) (hs : state.erase f = state'.erase f)
    {p p' : IntervalPtr} (hp : p.erase f = p'.erase f) :
    (rmaAnalyzerSaveNotif p state).erase f = (rmaAnalyzerSaveNotif p' state').erase f := by
  have hid : p.itv.notificationId = p'.itv.notificationId := by
    rw [← hf.notificationId, ← hf.notificationId p'.itv]
    exact congrArg (fun q => q.itv.notificationId) hp
  unfold rmaAnalyzerSaveNotif
  rw [hid]
  split_ifs
  · exact hs
  · apply withTrees_congr hs (localTree_congr hs)
    rw [hf.insertNotifTree, hf.insertNotifTree, notifTree_congr hs, hp]

/-- The search finds alike intervals in alike records. -/
theorem overlapSearch_alike (hf : KeepsVerdicts f) (hs : state.erase f = state'.erase f)
    (hi : f itv = f itv') (addr addr' : Nat) :
    (overlapSearch state.localTree ⟨addr, itv⟩).map (IntervalPtr.erase f) =
      (overlapSearch state'.localTree ⟨addr', itv'⟩).map (IntervalPtr.erase f) := by
  rw [hf.overlapSearch, hf.overlapSearch, localTree_congr hs, IntervalPtr.erase, IntervalPtr.erase,
    hi]

/-- Alike intervals are saved in alike records alike. -/
theorem save_alike (hf : KeepsVerdicts f) {filterWindow filterWindow' : Int}
    (hfilter : filterWindow = filterWindow') (hs : state.erase f = state'.erase f)
    (hi : f itv = f itv') :
    EndAlike f (fun a b => a.1 = b.1 ∧ a.2.erase f = b.2.erase f)
      (rmaAnalyzerSaveInterval filterWindow state ⟨addr, itv⟩)
      (rmaAnalyzerSaveInterval filterWindow' state' ⟨addr', itv'⟩) := by
  subst hfilter
  have hptr : IntervalPtr.erase f ⟨addr, itv⟩ = IntervalPtr.erase f ⟨addr', itv'⟩ := by
    rw [IntervalPtr.erase, IntervalPtr.erase, hi]
  have hsearch := overlapSearch_alike hf hs hi addr addr'
  have hinsert : (insertIntervalTree state.localTree ⟨addr, itv⟩).map (IntervalPtr.erase f) =
      (insertIntervalTree state'.localTree ⟨addr', itv'⟩).map (IntervalPtr.erase f) := by
    rw [hf.insertIntervalTree, hf.insertIntervalTree, localTree_congr hs, hptr]
  unfold rmaAnalyzerSaveInterval
  rw [admits_alike hf filterWindow hs hi]
  split_ifs
  · generalize overlapSearch state.localTree ⟨addr, itv⟩ = o at hsearch ⊢
    generalize overlapSearch state'.localTree ⟨addr', itv'⟩ = o' at hsearch ⊢
    cases o with
    | some o =>
        cases o' with
        | some o' => exact .error (.report hi (congrArg (·.itv) (Option.some.inj hsearch)))
        | none => cases hsearch
    | none =>
        cases o' with
        | some o' => cases hsearch
        | none =>
            refine .ok ⟨rfl, saveNotif_alike hf ?_ hptr⟩
            exact withTrees_congr hs hinsert (notifTree_congr hs)
  · exact .ok ⟨rfl, hs⟩

/-- A notification is cleared in alike records alike. -/
theorem clearFromNotifId_alike (hf : KeepsVerdicts f) (hs : state.erase f = state'.erase f)
    (notifId : Int) :
    EndAlike f (fun a b => a.erase f = b.erase f) (rmaAnalyzerClearFromNotifId state notifId)
      (rmaAnalyzerClearFromNotifId state' notifId) := by
  have hmap :
      (deleteIntervalTree state.localTree (findIntervalFromNotif state.notifTree notifId)).map
          (AvlTree.map (IntervalPtr.erase f)) =
        (deleteIntervalTree state'.localTree
          (findIntervalFromNotif state'.notifTree notifId)).map
            (AvlTree.map (IntervalPtr.erase f)) := by
    rw [hf.deleteIntervalTree, hf.deleteIntervalTree, KeepsVerdicts.findIntervalFromNotif,
      KeepsVerdicts.findIntervalFromNotif, localTree_congr hs, notifTree_congr hs]
  have hdelete : EndAlike f (fun a b => a.map (IntervalPtr.erase f) = b.map (IntervalPtr.erase f))
      (deleteIntervalTree state.localTree (findIntervalFromNotif state.notifTree notifId))
      (deleteIntervalTree state'.localTree (findIntervalFromNotif state'.notifTree notifId)) := by
    generalize deleteIntervalTree state.localTree _ = d at hmap ⊢
    generalize deleteIntervalTree state'.localTree _ = d' at hmap ⊢
    cases d with
    | error fault =>
        cases d' with
        | error fault' =>
            rw [Except.error.inj hmap]
            exact .error (.same _)
        | ok lt' => cases hmap
    | ok lt =>
        cases d' with
        | error fault' => cases hmap
        | ok lt' => exact .ok (Except.ok.inj hmap)
  unfold rmaAnalyzerClearFromNotifId
  split_ifs
  · exact .ok hs
  · refine Refines.bind (R := fun a b => a.erase f = b.erase f) ?_ fun a b hab => .ok ?_
    · exact hdelete.bind fun lt lt' hlt => .ok (withTrees_congr hs hlt (notifTree_congr hs))
    · apply withTrees_congr hab (localTree_congr hab)
      rw [KeepsVerdicts.deleteNotifTree, KeepsVerdicts.deleteNotifTree, notifTree_congr hab]

/-- The trees of alike records are freed alike. -/
theorem freeTrees_alike (hf : KeepsVerdicts f) (hs : state.erase f = state'.erase f) :
    EndAlike f (fun a b => a.erase f = b.erase f) state.freeTrees state'.freeTrees := by
  have hlocal : (freeIntervalTree state.localTree).map (AvlTree.map (IntervalPtr.erase f)) =
      (freeIntervalTree state'.localTree).map (AvlTree.map (IntervalPtr.erase f)) := by
    rw [hf.freeIntervalTree, hf.freeIntervalTree, localTree_congr hs]
  have hnotif : (freeNotifTree state.notifTree).map (AvlTree.map (NotifEntry.erase f)) =
      (freeNotifTree state'.notifTree).map (AvlTree.map (NotifEntry.erase f)) := by
    rw [KeepsVerdicts.freeNotifTree, KeepsVerdicts.freeNotifTree, notifTree_congr hs]
  unfold RmaAnalyzerState.freeTrees
  generalize freeIntervalTree state.localTree = lt at hlocal ⊢
  generalize freeIntervalTree state'.localTree = lt' at hlocal ⊢
  generalize freeNotifTree state.notifTree = nt at hnotif ⊢
  generalize freeNotifTree state'.notifTree = nt' at hnotif ⊢
  cases lt with
  | none =>
      cases lt' with
      | none => exact .error (.same _)
      | some _ => cases hlocal
  | some lt =>
      cases lt' with
      | none => cases hlocal
      | some lt' =>
          cases nt with
          | none =>
              cases nt' with
              | none => exact .error (.same _)
              | some _ => cases hnotif
          | some nt =>
              cases nt' with
              | none => cases hnotif
              | some nt' =>
                  exact .ok (withTrees_congr hs (Option.some.inj hlocal) (Option.some.inj hnotif))

end Records

/-! ## Clusters -/

/-- The checking threads are at the same place, with alike intervals. -/
inductive ThreadPc.Alike (f : Interval → Interval) : ThreadPc → ThreadPc → Prop
  | absent : Alike f .absent .absent
  | start : Alike f .start .start
  | waiting (poll : Poll) (tag : Int) :
      Alike f (.polling poll ⟨tag, none⟩) (.polling poll ⟨tag, none⟩)
  | holding (poll : Poll) (tag : Int) {itv itv' : Interval} : f itv = f itv' →
      Alike f (.polling poll ⟨tag, some itv⟩) (.polling poll ⟨tag, some itv'⟩)
  | received {itv itv' : Interval} : f itv = f itv' → Alike f (.received itv) (.received itv')
  | counted {itv itv' : Interval} : f itv = f itv' → Alike f (.counted itv) (.counted itv')
  | exited : Alike f .exited .exited

/-- The application threads are at the same place, with alike intervals to be sent. -/
inductive AppPc.Alike (f : Interval → Interval) : AppPc n → AppPc n → Prop
  | same (app : AppPc n) : Alike f app app
  | sending (dst : Fin n) {c c' : CommSend} : f c.targetItv = f c'.targetItv →
      Alike f (.sending dst c) (.sending dst c')

structure Process.Alike (f : Interval → Interval) (x x' : Process n) : Prop where
  record : x.record.erase f = x'.record.erase f
  filterWindow : x.filterWindow = x'.filterWindow
  app : x.app.Alike f x'.app
  thread : x.thread.Alike f x'.thread
  tmp : x.tmp = x'.tmp

/-- The clusters are alike, as far as the messages under the tags in `T` go.  The reductions are
left out. -/
structure Cluster.Alike (f : Interval → Interval) (T : Set Int) (s s' : Cluster n) : Prop where
  proc : ∀ p, (s.proc p).Alike f (s'.proc p)
  net : ∀ p, ∀ tag ∈ T, (s.net p tag).map f = (s'.net p tag).map f
  sent : ∀ q t k, (s.sent q t k).map f = (s'.sent q t k).map f
  passed : ∀ t k, (s.passed t k).map f = (s'.passed t k).map f

/-- The reductions with a contribution of the process to a root in its epoch. -/
def Cluster.contributing (s : Cluster n) (p : Fin n) (root value k i : Nat) (q : Fin n) :
    Option Nat :=
  if k = s.epoch p ∧ i = root ∧ q = p then some value else s.contrib k i q

/-- Both sides have taken alike steps of the process `p`, with the same contribution if any. -/
structure StepAlike (f : Interval → Interval) (T : Set Int) (s s' : Cluster n) (p : Fin n)
    (t t' : Cluster n) : Prop where
  alike : t.Alike f T t'
  contrib : t.contrib = s.contrib ∧ t'.contrib = s'.contrib ∨
    ∃ root value, (s.proc p).app = .reducing root ∧
      t.contrib = s.contributing p root value ∧ t'.contrib = s'.contributing p root value

section Clusters

variable {T : Set Int} {s s' t t' : Cluster n} {p : Fin n} {x x' : Process n}

theorem ThreadPc.Alike.exited_iff {th th' : ThreadPc} (h : th.Alike f th') :
    th = .exited ↔ th' = .exited := by
  cases h <;> simp

theorem Process.Alike.countEpoch (h : x.Alike f x') :
    x.record.countEpoch = x'.record.countEpoch :=
  congrArg (fun r => r.countEpoch) h.record

theorem Process.Alike.currentTag (h : x.Alike f x') :
    x.record.currentTag = x'.record.currentTag :=
  congrArg (fun r => r.currentTag) h.record

theorem Cluster.Alike.setProc (hs : s.Alike f T s') (hx : x.Alike f x') :
    (s.setProc p x).Alike f T (s'.setProc p x') where
  proc t := by
    by_cases ht : t = p
    · rw [ht, Cluster.setProc_proc_self, Cluster.setProc_proc_self]
      exact hx
    · rw [Cluster.setProc_proc_of_ne s x ht, Cluster.setProc_proc_of_ne s' x' ht]
      exact hs.proc t
  net := hs.net
  sent := hs.sent
  passed := hs.passed

/-- A step that writes back a process only. -/
theorem StepAlike.setProc (hs : s.Alike f T s') (hx : x.Alike f x') :
    StepAlike f T s s' p (s.setProc p x) (s'.setProc p x') :=
  ⟨hs.setProc hx, .inl ⟨rfl, rfl⟩⟩

theorem Cluster.Alike.mpiSend (hs : s.Alike f T s') (dst : Fin n) {c c' : CommSend}
    (hc : f c.targetItv = f c'.targetItv) :
    StepAlike f T s s' p (s.mpiSend p dst c) (s'.mpiSend p dst c') := by
  have hx := hs.proc p
  have hset : (s.setProc p { s.proc p with app := .sent dst }).Alike f T
      (s'.setProc p { s'.proc p with app := .sent dst }) :=
    hs.setProc ⟨hx.record, hx.filterWindow, .same _, hx.thread, hx.tmp⟩
  refine ⟨⟨hset.proc, fun t tag htag => ?_, fun q t k => ?_, hs.passed⟩, .inl ⟨rfl, rfl⟩⟩
  · change Multiset.map f (ite _ _ _) = Multiset.map f (ite _ _ _)
    rw [hx.currentTag]
    split_ifs
    · rw [Multiset.map_cons, Multiset.map_cons, hc, hs.net t tag htag]
    · exact hs.net t tag htag
  · change Multiset.map f (ite _ _ _) = Multiset.map f (ite _ _ _)
    rw [Cluster.epoch, hx.countEpoch, Cluster.epoch]
    split_ifs
    · rw [Multiset.map_cons, Multiset.map_cons, hc, hs.sent q t k]
    · exact hs.sent q t k

theorem Cluster.Alike.mpiReduce (hs : s.Alike f T s') {root : Nat}
    (happ : (s.proc p).app = .reducing root) :
    StepAlike f T s s' p (s.mpiReduce p root) (s'.mpiReduce p root) := by
  have hx := hs.proc p
  have harray : (s.proc p).record.array = (s'.proc p).record.array :=
    congrArg (fun r => r.array) hx.record
  have hcontribute : (s.contribute p root).Alike f T (s'.contribute p root) :=
    ⟨hs.proc, hs.net, hs.sent, hs.passed⟩
  refine ⟨hcontribute.setProc ⟨hx.record, hx.filterWindow, .same _, hx.thread, hx.tmp⟩,
    .inr ⟨root, (s.proc p).record.array root, happ, rfl, ?_⟩⟩
  rw [harray]
  rfl

/-- The end of an epoch. -/
theorem Cluster.Alike.leaveEpoch (hf : KeepsVerdicts f) (hs : s.Alike f T s') (p : Fin n) :
    EndAlike f (StepAlike f T s s' p) (s.leaveEpoch p) (s'.leaveEpoch p) := by
  have hx := hs.proc p
  have hleave : (s.proc p).record.leaveEpoch.erase f = (s'.proc p).record.leaveEpoch.erase f :=
    congrArg RmaAnalyzerState.leaveEpoch hx.record
  refine (freeTrees_alike hf hleave).bind fun a b hab => .ok (.setProc hs ?_)
  exact ⟨hab, hx.filterWindow, .same _, hx.thread, hx.tmp⟩

theorem Cluster.Alike.appStep (hf : KeepsVerdicts f) (hs : s.Alike f T s')
    (hcontrib : ∀ i, (s.proc p).app = .waiting i →
      s.contrib (s.epoch p) i = s'.contrib (s'.epoch p) i) :
    EndAlike f (StepAlike f T s s' p) (s.appStep p) (s'.appStep p) := by
  have hx := hs.proc p
  unfold Cluster.appStep
  generalize happ : (s.proc p).app = app, happ' : (s'.proc p).app = app'
  have halike := hx.app
  rw [happ, happ'] at halike
  cases halike with
  | sending dst hc => exact .ok (hs.mpiSend dst hc)
  | same =>
      cases app with
      | outside => exact .error (.same _)
      | inside => exact .error (.same _)
      | sending dst c => exact .ok (hs.mpiSend dst rfl)
      | sent dst =>
          refine .ok (.setProc hs ⟨?_, hx.filterWindow, .same _, hx.thread, hx.tmp⟩)
          exact congrArg (RmaAnalyzerState.countSent dst) hx.record
      | reducing root =>
          have hsize : (s.proc p).record.sizeComm = (s'.proc p).record.sizeComm :=
            congrArg (fun r => r.sizeComm) hx.record
          refine .ok ?_
          rw [hsize]
          split_ifs
          · exact hs.mpiReduce happ
          · refine .setProc hs ⟨?_, hx.filterWindow, .same _, hx.thread, hx.tmp⟩
            rw [hx.tmp]
            exact congrArg (fun r : RmaAnalyzerState => { r with value := (s'.proc p).tmp })
              hx.record
      | waiting root =>
          dsimp only
          rw [hcontrib root happ]
          cases Cluster.reduceSum (s'.contrib (s'.epoch p) root) with
          | none => exact .error (.same _)
          | some sum =>
              exact .ok (.setProc hs ⟨hx.record, hx.filterWindow, .same _, hx.thread, rfl⟩)
      | valued =>
          refine .ok (.setProc hs ⟨?_, hx.filterWindow, .same _, hx.thread, hx.tmp⟩)
          exact congrArg (fun r : RmaAnalyzerState => { r with threadEnd := 1 }) hx.record
      | joining =>
          simp only [hx.thread.exited_iff]
          split_ifs
          · exact .ok (.setProc hs ⟨hx.record, hx.filterWindow, .same _, .absent, hx.tmp⟩)
          · exact .error (.same _)
      | joined => exact hs.leaveEpoch hf p

/-- An interval that is received, and saved with the base of the window added. -/
theorem Cluster.Alike.saveReceived (hf : KeepsVerdicts f) (hs : s.Alike f T s') (p : Fin n)
    {itv itv' : Interval} (hi : f itv = f itv') :
    EndAlike f (StepAlike f T s s' p) (s.saveReceived p itv) (s'.saveReceived p itv') := by
  have hx := hs.proc p
  have hbase : (s.proc p).record.winBase = (s'.proc p).record.winBase :=
    congrArg (fun r => r.winBase) hx.record
  have hrebase : f (itv.rebase (s.proc p).record.winBase) =
      f (itv'.rebase (s'.proc p).record.winBase) := by
    rw [hf.rebase, hf.rebase, hi, hbase]
  refine (save_alike hf hx.filterWindow hx.record hrebase).bind fun a b hab => .ok ?_
  refine ⟨?_, .inl ⟨rfl, rfl⟩⟩
  have hset : (s.setProc p { s.proc p with
      record := a.2, nextObject := (s.proc p).nextObject + 1, thread := .start }).Alike f T
      (s'.setProc p { s'.proc p with
        record := b.2, nextObject := (s'.proc p).nextObject + 1, thread := .start }) :=
    hs.setProc ⟨hab.2, hx.filterWindow, hx.app, .start, hx.tmp⟩
  refine ⟨hset.proc, hset.net, hset.sent, fun t k => ?_⟩
  change Multiset.map f (ite _ _ _) = Multiset.map f (ite _ _ _)
  rw [Cluster.epoch, hx.countEpoch, Cluster.epoch]
  split_ifs
  · rw [Multiset.map_cons, Multiset.map_cons, hrebase, hs.passed t k]
  · exact hs.passed t k

theorem Cluster.Alike.threadStep (hf : KeepsVerdicts f) (hs : s.Alike f T s') (p : Fin n) :
    EndAlike f (StepAlike f T s s' p) (s.threadStep p) (s'.threadStep p) := by
  have hx := hs.proc p
  have hmove : ∀ {th th' : ThreadPc}, th.Alike f th' →
      StepAlike f T s s' p (s.setThread p th) (s'.setThread p th') :=
    fun hth => .setProc hs ⟨hx.record, hx.filterWindow, hx.app, hth, hx.tmp⟩
  have hcount : (s.proc p).record.count = (s'.proc p).record.count :=
    congrArg (fun r => r.count) hx.record
  have hvalue : (s.proc p).record.value = (s'.proc p).record.value :=
    congrArg (fun r => r.value) hx.record
  have hend : (s.proc p).record.threadEnd = (s'.proc p).record.threadEnd :=
    congrArg (fun r => r.threadEnd) hx.record
  have hcancel : StepAlike f T s s' p (s.cancelAndExit p) (s'.cancelAndExit p) := by
    refine .setProc hs ⟨?_, hx.filterWindow, hx.app, .exited, hx.tmp⟩
    exact congrArg (fun r : RmaAnalyzerState => { r with count := 0 }) hx.record
  have hcounted : ∀ {itv itv' : Interval}, f itv = f itv' →
      StepAlike f T s s' p (s.countReceived p itv) (s'.countReceived p itv') := by
    intro itv itv' hi
    refine .setProc hs ⟨?_, hx.filterWindow, hx.app, .counted hi, hx.tmp⟩
    exact congrArg (fun r : RmaAnalyzerState => { r with count := r.count + 1 }) hx.record
  unfold Cluster.threadStep
  simp only [hend, hcount, hvalue]
  generalize hth : (s.proc p).thread = th, hth' : (s'.proc p).thread = th'
  have halike := hx.thread
  rw [hth, hth'] at halike
  cases halike with
  | absent => exact .error (.same _)
  | start =>
      rw [hx.currentTag]
      exact .ok (hmove (.waiting _ _))
  | waiting poll tag =>
      cases poll with
      | readEnd => exact .ok (hmove (.waiting _ _))
      | compare =>
          refine .ok ?_
          split_ifs
          · exact hcancel
          · exact hmove (.waiting _ _)
      | test => exact .ok (hmove (.waiting _ _))
  | holding poll tag hi =>
      cases poll with
      | readEnd => exact .ok (hmove (.holding _ _ hi))
      | compare =>
          refine .ok ?_
          split_ifs
          · exact hcancel
          · exact hmove (.holding _ _ hi)
      | test => exact .ok (hmove (.received hi))
  | received hi => exact .ok (hcounted hi)
  | counted hi => exact hs.saveReceived hf p hi
  | exited => exact .error (.same _)

/-- One message is taken out on either side. -/
theorem map_erase_congr {m m' : Multiset Interval} {itv itv' : Interval}
    (hm : m.map f = m'.map f) (hi : f itv = f itv') (hitv : itv ∈ m) (hitv' : itv' ∈ m') :
    (m.erase itv).map f = (m'.erase itv').map f := by
  rw [← Multiset.cons_erase hitv, ← Multiset.cons_erase hitv', Multiset.map_cons,
    Multiset.map_cons, hi] at hm
  exact (Multiset.cons_inj_right (f itv')).mp hm

theorem Cluster.Alike.deliver (hs : s.Alike f T s') {itv itv' : Interval} (hi : f itv = f itv')
    (hmatch : ∀ poll tag, (s.proc p).thread = .polling poll ⟨tag, none⟩ →
      (itv ∈ s.net p tag ↔ itv' ∈ s'.net p tag)) :
    EndAlike f (StepAlike f T s s' p) (s.deliver p itv) (s'.deliver p itv') := by
  have hx := hs.proc p
  unfold Cluster.deliver
  generalize hth : (s.proc p).thread = th, hth' : (s'.proc p).thread = th' at hmatch ⊢
  have halike := hx.thread
  rw [hth, hth'] at halike
  cases halike with
  | waiting poll tag =>
      have hboth := hmatch poll tag rfl
      dsimp only
      split_ifs with hitv hitv' hitv'
      · have hset : (s.setThread p (.polling poll ⟨tag, some itv⟩)).Alike f T
            (s'.setThread p (.polling poll ⟨tag, some itv'⟩)) :=
          hs.setProc ⟨hx.record, hx.filterWindow, hx.app, .holding _ _ hi, hx.tmp⟩
        refine .ok ⟨⟨hset.proc, fun t g hg => ?_, hset.sent, hset.passed⟩, .inl ⟨rfl, rfl⟩⟩
        change Multiset.map f (ite _ _ _) = Multiset.map f (ite _ _ _)
        split_ifs with htg
        · rw [htg.2] at hg
          rw [htg.1, htg.2]
          exact map_erase_congr (hs.net p tag hg) hi hitv hitv'
        · exact hs.net t g hg
      · exact absurd (hboth.mp hitv) hitv'
      · exact absurd (hboth.mpr hitv') hitv
      · exact .error (.same _)
  | _ => exact .error (.same _)

/-! ## Steps -/

/-- The events are the same but for what `f` forgets. -/
inductive ProtocolEvent.Alike (f : Interval → Interval) : ProtocolEvent n → ProtocolEvent n → Prop
  | openEpoch (p : Fin n) : Alike f (.openEpoch p) (.openEpoch p)
  | commSend (p : Fin n) {c c' : CommSend} : c.targetRank = c'.targetRank →
      f c.localItv = f c'.localItv → f c.targetItv = f c'.targetItv →
      Alike f (.commSend p c) (.commSend p c')
  | closeEpoch (p : Fin n) : Alike f (.closeEpoch p) (.closeEpoch p)
  | app (p : Fin n) : Alike f (.app p) (.app p)
  | thread (p : Fin n) : Alike f (.thread p) (.thread p)
  | deliver (p : Fin n) {itv itv' : Interval} : f itv = f itv' →
      Alike f (.deliver p itv) (.deliver p itv')

theorem ProtocolEvent.Alike.refl (e : ProtocolEvent n) : e.Alike f e := by
  cases e with
  | openEpoch p => exact .openEpoch p
  | commSend p c => exact .commSend p rfl rfl rfl
  | closeEpoch p => exact .closeEpoch p
  | app p => exact .app p
  | thread p => exact .thread p
  | deliver p itv => exact .deliver p rfl

/-- A message that is to be delivered is there on both sides, or on neither. -/
def MatchAlike (s s' : Cluster n) (e e' : ProtocolEvent n) : Prop :=
  ∀ p itv itv' poll tag, e = .deliver p itv → e' = .deliver p itv' →
    (s.proc p).thread = .polling poll ⟨tag, none⟩ → (itv ∈ s.net p tag ↔ itv' ∈ s'.net p tag)

/-- Alike clusters take alike steps. -/
theorem protocolStep_alike (hf : KeepsVerdicts f) (hs : s.Alike f T s') {e e' : ProtocolEvent n}
    (he : e.Alike f e') (hmatch : MatchAlike s s' e e')
    (hcontrib : ∀ p i, e = .app p → (s.proc p).app = .waiting i →
      s.contrib (s.epoch p) i = s'.contrib (s'.epoch p) i) :
    EndAlike f (StepAlike f T s s' e.process) (protocolStep s e) (protocolStep s' e') := by
  cases he with
  | openEpoch p =>
      have hx := hs.proc p
      simp only [protocolStep]
      generalize happ : (s.proc p).app = app, happ' : (s'.proc p).app = app'
      have halike := hx.app
      rw [happ, happ'] at halike
      cases halike with
      | sending => exact .error (.same _)
      | same =>
          cases app with
          | outside =>
              refine .ok (.setProc hs ⟨?_, hx.filterWindow, .same _, .start, hx.tmp⟩)
              exact congrArg RmaAnalyzerState.enterEpoch hx.record
          | _ => exact .error (.same _)
  | @commSend p c c' hrank hlocal htarget =>
      have hx := hs.proc p
      simp only [protocolStep, hrank]
      generalize happ : (s.proc p).app = app, happ' : (s'.proc p).app = app'
      have halike := hx.app
      rw [happ, happ'] at halike
      cases halike with
      | sending => exact .error (.same _)
      | same =>
          cases app with
          | inside =>
              dsimp only
              split_ifs with hlt
              · refine (save_alike hf hx.filterWindow hx.record hlocal).bind fun a b hab => .ok ?_
                exact .setProc hs
                  ⟨hab.2, hx.filterWindow, .sending _ htarget, hx.thread, hx.tmp⟩
              · exact .error (.same _)
          | _ => exact .error (.same _)
  | closeEpoch p =>
      have hx := hs.proc p
      simp only [protocolStep]
      generalize happ : (s.proc p).app = app, happ' : (s'.proc p).app = app'
      have halike := hx.app
      rw [happ, happ'] at halike
      cases halike with
      | sending => exact .error (.same _)
      | same =>
          cases app with
          | inside =>
              exact .ok (.setProc hs ⟨hx.record, hx.filterWindow, .same _, hx.thread, rfl⟩)
          | _ => exact .error (.same _)
  | app p => exact hs.appStep hf fun i => hcontrib p i rfl
  | thread p => exact hs.threadStep hf p
  | deliver p hi => exact hs.deliver hi fun poll tag hth => hmatch p _ _ poll tag rfl rfl hth

theorem AppPc.Alike.idle_iff {app app' : AppPc n} (h : app.Alike f app') :
    app.Idle ↔ app'.Idle := by
  cases h with
  | same => exact Iff.rfl
  | sending => exact Iff.rfl

/-- An access of the application is saved, if an epoch is active. -/
theorem Cluster.Alike.saveAccess (hf : KeepsVerdicts f) (hs : s.Alike f T s') (p : Fin n)
    {itv itv' : Interval} (hi : f itv = f itv') :
    EndAlike f (StepAlike f T s s' p) (s.saveAccess p itv) (s'.saveAccess p itv') := by
  have hx := hs.proc p
  have hactive : (s.proc p).record.activeEpoch = (s'.proc p).record.activeEpoch :=
    congrArg (fun r => r.activeEpoch) hx.record
  unfold Cluster.saveAccess
  rw [hactive]
  split_ifs
  · refine (save_alike hf hx.filterWindow hx.record hi).bind fun a b hab => .ok ?_
    exact .setProc hs ⟨hab.2, hx.filterWindow, hx.app, hx.thread, hx.tmp⟩
  · exact .ok ⟨hs, .inl ⟨rfl, rfl⟩⟩

theorem Cluster.Alike.clearNotif (hf : KeepsVerdicts f) (hs : s.Alike f T s') (p : Fin n)
    (notifId : Int) :
    EndAlike f (StepAlike f T s s' p) (s.clearNotif p notifId) (s'.clearNotif p notifId) := by
  have hx := hs.proc p
  refine (clearFromNotifId_alike hf hx.record notifId).bind fun a b hab => .ok ?_
  exact .setProc hs ⟨hab, hx.filterWindow, hx.app, hx.thread, hx.tmp⟩

end Clusters

/-! ## Runs -/

/-- The events of the system are the same but for what `f` forgets. -/
inductive SystemEvent.Alike (f : Interval → Interval) : SystemEvent n → SystemEvent n → Prop
  | protocol {e e' : ProtocolEvent n} : e.Alike f e' → Alike f (.protocol e) (.protocol e')
  | access (p : Fin n) (address size : UInt64) (accessType : AccessType) {line line' : Int}
      {filename filename' : Option String} :
      f (accessInterval address size accessType line filename) =
        f (accessInterval address size accessType line' filename') →
      Alike f (.access p address size accessType line filename)
        (.access p address size accessType line' filename')
  | clear (p : Fin n) (notifId : Int) : Alike f (.clear p notifId) (.clear p notifId)

section Runs

variable {s s' t t' : Cluster n} {p : Fin n}

/-- The clusters are alike, and so are their reductions. -/
structure SameRun (f : Interval → Interval) (s s' : Cluster n) : Prop where
  alike : s.Alike f Set.univ s'
  contrib : s.contrib = s'.contrib

theorem sameRun_refl (s : Cluster n) : SameRun f s s := by
  refine ⟨⟨fun p => ⟨rfl, rfl, .same _, ?_, rfl⟩, fun _ _ _ => rfl, fun _ _ _ => rfl,
    fun _ _ => rfl⟩, rfl⟩
  generalize (s.proc p).thread = th
  rcases th with _ | _ | ⟨poll, tag, _ | itv⟩ | itv | itv | _
  · exact .absent
  · exact .start
  · exact .waiting poll tag
  · exact .holding poll tag rfl
  · exact .received rfl
  · exact .counted rfl
  · exact .exited

theorem SameRun.of_step (hs : SameRun f s s') (h : StepAlike f Set.univ s s' p t t') :
    SameRun f t t' := by
  refine ⟨h.alike, ?_⟩
  rcases h.contrib with ⟨hold, hold'⟩ | ⟨root, value, -, hnew, hnew'⟩
  · rw [hold, hold', hs.contrib]
  · have hepoch : s.epoch p = s'.epoch p := (hs.alike.proc p).countEpoch
    rw [hnew, hnew']
    unfold Cluster.contributing
    rw [hs.contrib, hepoch]

/-- A message that is delivered has been there. -/
theorem mem_net_of_deliver {itv : Interval} {poll : Poll} {tag : Int}
    (hth : (s.proc p).thread = .polling poll ⟨tag, none⟩)
    (h : s.deliver p itv ≠ .error .notEnabled) : itv ∈ s.net p tag := by
  by_contra hitv
  apply h
  rw [Cluster.deliver, hth]
  exact if_neg hitv

theorem systemStep_alike (hf : KeepsVerdicts f) (hs : SameRun f s s') {e e' : SystemEvent n}
    (he : e.Alike f e') (h : systemStep s e ≠ .error .notEnabled)
    (h' : systemStep s' e' ≠ .error .notEnabled) :
    EndAlike f (SameRun f) (systemStep s e) (systemStep s' e') := by
  cases he with
  | @protocol e e' he =>
      refine (protocolStep_alike hf hs.alike he ?_ ?_).mono fun t t' => hs.of_step
      · rintro p itv itv' poll tag rfl rfl hth
        have hth' : (s'.proc p).thread = .polling poll ⟨tag, none⟩ := by
          have halike := (hs.alike.proc p).thread
          rw [hth] at halike
          generalize (s'.proc p).thread = th' at halike ⊢
          cases halike
          rfl
        exact iff_of_true (mem_net_of_deliver hth h) (mem_net_of_deliver hth' h')
      · intro p i _ _
        rw [hs.contrib, Cluster.epoch, (hs.alike.proc p).countEpoch, Cluster.epoch]
  | access p address size accessType hi =>
      simp only [systemStep, (hs.alike.proc p).app.idle_iff]
      split_ifs
      · exact (hs.alike.saveAccess hf p hi).mono fun t t' => hs.of_step
      · exact .error (.same _)
  | clear p notifId =>
      simp only [systemStep, (hs.alike.proc p).app.idle_iff]
      split_ifs
      · exact (hs.alike.clearNotif hf p notifId).mono fun t t' => hs.of_step
      · exact .error (.same _)

/-- Runs over alike events end alike. -/
theorem run_alike (hf : KeepsVerdicts f) (hs : SameRun f s s') {es es' : List (SystemEvent n)}
    (hes : List.Forall₂ (SystemEvent.Alike f) es es')
    (h : run systemStep s es ≠ .error .notEnabled)
    (h' : run systemStep s' es' ≠ .error .notEnabled) :
    EndAlike f (SameRun f) (run systemStep s es) (run systemStep s' es') := by
  induction hes generalizing s s' with
  | nil => exact .ok hs
  | @cons e e' es es' he _ ih =>
      simp only [run, List.foldlM_cons] at h h' ⊢
      have hstep := systemStep_alike hf hs he
        (fun heq => h (by rw [heq]; rfl)) (fun heq => h' (by rw [heq]; rfl))
      generalize systemStep s e = x, systemStep s' e' = x' at hstep h h' ⊢
      cases hstep with
      | ok hst => exact ih hst h h'
      | error hfault => exact .error hfault
      | stuck hstuck => exact hstuck.elim

/-- Alike events save alike accesses at one process. -/
theorem saves_alike (hf : KeepsVerdicts f) (hs : SameRun f s s') {e e' : SystemEvent n}
    (he : e.Alike f e') : (s.saves e).map (Prod.map id f) = (s'.saves e').map (Prod.map id f) := by
  cases he with
  | @protocol e e' he =>
      cases he with
      | commSend p hrank hlocal htarget =>
          simp only [Cluster.saves, Option.map_some, Prod.map_apply, hlocal]
      | thread p =>
          have hbase : (s.proc p).record.winBase = (s'.proc p).record.winBase :=
            congrArg (fun r => r.winBase) (hs.alike.proc p).record
          have halike := (hs.alike.proc p).thread
          simp only [Cluster.saves]
          generalize (s.proc p).thread = th, (s'.proc p).thread = th' at halike ⊢
          cases halike with
          | counted hi =>
              simp only [Option.map_some, Prod.map_apply, hf.rebase, hi, hbase]
          | _ => rfl
      | _ => rfl
  | access p address size accessType hi =>
      simp only [Cluster.saves, Option.map_some, Prod.map_apply, hi]
  | clear p notifId => rfl

/-- If a step reports a conflict, then the alike step reports one between alike accesses. -/
theorem reportsConflict_alike (hf : KeepsVerdicts f) (hs : SameRun f s s') {e e' : SystemEvent n}
    (he : e.Alike f e') {itv o : Interval} (h : s.ReportsConflict e p itv o)
    (h' : systemStep s' e' ≠ .error .notEnabled) :
    ∃ itv' o', s'.ReportsConflict e' p itv' o' ∧ f itv = f itv' ∧ f o = f o' := by
  have hstep := systemStep_alike hf hs he (by rw [h.step]; nofun) h'
  obtain ⟨report', hreport'⟩ : ∃ report', systemStep s' e' = .error (.mpiAbort report') := by
    rw [h.step] at hstep
    generalize systemStep s' e' = x' at hstep ⊢
    cases hstep with
    | error hfault =>
        obtain ⟨report', rfl⟩ := hfault.exists_report rfl
        exact ⟨report', rfl⟩
    | stuck hstuck => exact hstuck.elim
  obtain ⟨p', itv', o', h', -⟩ := exists_reportsConflict hreport'
  have hsaves := saves_alike hf hs he
  rw [h.saves, h'.saves, Option.map_some, Option.map_some, Option.some_inj, Prod.mk.injEq]
    at hsaves
  obtain ⟨rfl, hi⟩ : p = p' ∧ f itv = f itv' := hsaves
  obtain ⟨q, hq, rfl⟩ := Option.map_eq_some_iff.mp h.search
  obtain ⟨q', hq', rfl⟩ := Option.map_eq_some_iff.mp h'.search
  have hsearch := overlapSearch_alike hf (hs.alike.proc p).record hi (s.proc p).nextObject
    (s'.proc p).nextObject
  rw [hq, hq'] at hsearch
  exact ⟨itv', q'.itv, h', hi, congrArg (·.itv) (Option.some.inj hsearch)⟩

/-- The run aborts at its event number `k` with a report on the access `itv`, which the process `p`
saves there, and the stored access `o`. -/
def RunReports (s : Cluster n) (es : List (SystemEvent n)) (k : Nat) (p : Fin n)
    (itv o : Interval) : Prop :=
  ∃ t e, es[k]? = some e ∧ run systemStep s (es.take k) = .ok t ∧ t.ReportsConflict e p itv o

theorem RunReports.cons {e : SystemEvent n} {es : List (SystemEvent n)} {k : Nat}
    {itv o : Interval} (hstep : systemStep s e = .ok t) (h : RunReports t es k p itv o) :
    RunReports s (e :: es) (k + 1) p itv o := by
  obtain ⟨u, g, hk, hrun, hreport⟩ := h
  exact ⟨u, g, hk, run_cons_ok.mpr ⟨t, hstep, hrun⟩, hreport⟩

theorem RunReports.run_eq {es : List (SystemEvent n)} {k : Nat} {itv o : Interval}
    (h : RunReports s es k p itv o) :
    run systemStep s es = .error (.mpiAbort (conflictReport itv o)) := by
  obtain ⟨t, e, hk, hrun, hreport⟩ := h
  induction es generalizing s k with
  | nil => cases hk
  | cons g es ih =>
      cases k with
      | zero =>
          obtain rfl := Option.some.inj hk
          obtain rfl := Except.ok.inj hrun
          exact bind_error.mpr (.inl hreport.step)
      | succ k =>
          obtain ⟨u, hu, hrun⟩ := run_cons_ok.mp hrun
          exact bind_error.mpr (.inr ⟨u, hu, ih hk hrun⟩)

/-- If a run ends in a report, then the alike run ends at the same event in a report on alike
accesses. -/
theorem runReports_alike (hf : KeepsVerdicts f) (hs : SameRun f s s')
    {es es' : List (SystemEvent n)} (hes : List.Forall₂ (SystemEvent.Alike f) es es')
    {report : String} (h : run systemStep s es = .error (.mpiAbort report))
    (h' : run systemStep s' es' ≠ .error .notEnabled) :
    ∃ k p itv itv' o o', RunReports s es k p itv o ∧ RunReports s' es' k p itv' o' ∧
      f itv = f itv' ∧ f o = f o' := by
  induction hes generalizing s s' with
  | nil => cases h
  | @cons e e' es es' he _ ih =>
      have henabled : systemStep s' e' ≠ .error .notEnabled :=
        fun heq => h' (bind_error.mpr (.inl heq))
      rcases bind_error.mp h with hstep | ⟨t, hstep, hrest⟩
      · obtain ⟨p, itv, o, hreport, -⟩ := exists_reportsConflict hstep
        obtain ⟨itv', o', hreport', hi, ho⟩ := reportsConflict_alike hf hs he hreport henabled
        exact ⟨0, p, itv, itv', o, o', ⟨s, e, rfl, rfl, hreport⟩, ⟨s', e', rfl, rfl, hreport'⟩,
          hi, ho⟩
      · have hsame := systemStep_alike hf hs he (by rw [hstep]; nofun) henabled
        rw [hstep] at hsame
        generalize hstep' : systemStep s' e' = x' at hsame
        cases hsame with
        | @ok _ t' hst =>
            obtain ⟨k, p, itv, itv', o, o', hreport, hreport', hi, ho⟩ :=
              ih hst hrest fun heq => h' (bind_error.mpr (.inr ⟨t', hstep', heq⟩))
            exact ⟨k + 1, p, itv, itv', o, o', hreport.cons hstep, hreport'.cons hstep', hi, ho⟩

end Runs

/-- Source positions have no influence: if the accesses and calls of two runs differ in line numbers
and file names only, either both runs return, and hold the same up to these, or both end in a
report, at the same event and on the same two accesses up to these. -/
theorem run_stripPosition {w : SharedWindow n} {es es' : List (SystemEvent n)}
    (hes : List.Forall₂ (SystemEvent.Alike Interval.stripPosition) es es')
    (h : run systemStep (Cluster.init w) es ≠ .error .notEnabled)
    (h' : run systemStep (Cluster.init w) es' ≠ .error .notEnabled) :
    EndAlike Interval.stripPosition (SameRun Interval.stripPosition)
      (run systemStep (Cluster.init w) es) (run systemStep (Cluster.init w) es') ∧
    ∀ report, run systemStep (Cluster.init w) es = .error (.mpiAbort report) →
      ∃ k p itv itv' o o', RunReports (Cluster.init w) es k p itv o ∧
        RunReports (Cluster.init w) es' k p itv' o' ∧
        itv.stripPosition = itv'.stripPosition ∧ o.stripPosition = o'.stripPosition ∧
        report = conflictReport itv o ∧
        run systemStep (Cluster.init w) es' = .error (.mpiAbort (conflictReport itv' o')) := by
  refine ⟨run_alike keepsVerdicts_stripPosition (sameRun_refl _) hes h h', fun report hreport => ?_⟩
  obtain ⟨k, p, itv, itv', o, o', hruns, hruns', hi, ho⟩ :=
    runReports_alike keepsVerdicts_stripPosition (sameRun_refl _) hes hreport h'
  refine ⟨k, p, itv, itv', o, o', hruns, hruns', hi, ho, ?_, hruns'.run_eq⟩
  exact Fault.mpiAbort.inj (Except.error.inj (hreport.symm.trans hruns.run_eq))

/-- A process writes to its window and puts what it has there, from some source position. -/
def positionEvents (origin : UInt64) (line : Int) (filename : Option String) :
    List (SystemEvent 2) :=
  [.protocol (.openEpoch ⟨0, Nat.zero_lt_two⟩),
    .access ⟨0, Nat.zero_lt_two⟩ 4100 3 .localWrite line filename,
    .protocol (.commSend ⟨0, Nat.zero_lt_two⟩
      ⟨origin, 4, 8, 4, 1, .rmaRead, .rmaWrite, -1, line, filename⟩)]

theorem forall₂_positionEvents (origin : UInt64) (line line' : Int)
    (filename filename' : Option String) :
    List.Forall₂ (SystemEvent.Alike Interval.stripPosition) (positionEvents origin line filename)
      (positionEvents origin line' filename') :=
  .cons (.protocol (.openEpoch _)) (.cons (.access _ _ _ _ rfl)
    (.cons (.protocol (.commSend _ rfl rfl rfl)) .nil))

set_option maxRecDepth 10000 in
/-- The same from two positions: a put from elsewhere returns, one from the bytes that the process
has written is reported. -/
theorem run_stripPosition_positionEvents :
    ((∃ s, run systemStep (Cluster.init exampleShared) (positionEvents 65536 10 none) = .ok s) ∧
      EndAlike Interval.stripPosition (SameRun Interval.stripPosition)
        (run systemStep (Cluster.init exampleShared) (positionEvents 65536 10 none))
        (run systemStep (Cluster.init exampleShared) (positionEvents 65536 20 (some "put.c")))) ∧
    ∃ k p itv itv' o o',
      RunReports (Cluster.init exampleShared) (positionEvents 4100 10 none) k p itv o ∧
      RunReports (Cluster.init exampleShared) (positionEvents 4100 20 (some "put.c")) k p itv' o' ∧
      itv.stripPosition = itv'.stripPosition ∧ o.stripPosition = o'.stripPosition := by
  constructor
  · have hrun : run systemStep (Cluster.init exampleShared) (positionEvents 65536 10 none) =
      .ok _ := rfl
    have hrun' : run systemStep (Cluster.init exampleShared)
      (positionEvents 65536 20 (some "put.c")) = .ok _ := rfl
    exact ⟨⟨_, hrun⟩, (run_stripPosition (forall₂_positionEvents 65536 10 20 none (some "put.c"))
      (by rw [hrun]; nofun) (by rw [hrun']; nofun)).1⟩
  · have hreport : run systemStep (Cluster.init exampleShared) (positionEvents 4100 10 none) =
      .error (.mpiAbort _) := rfl
    have hreport' : run systemStep (Cluster.init exampleShared)
      (positionEvents 4100 20 (some "put.c")) = .error (.mpiAbort _) := rfl
    obtain ⟨k, p, itv, itv', o, o', hruns, hruns', hi, ho, -⟩ :=
      (run_stripPosition (forall₂_positionEvents 4100 10 20 none (some "put.c"))
        (by rw [hreport]; nofun) (by rw [hreport']; nofun)).2 _ hreport
    exact ⟨k, p, itv, itv', o, o', hruns, hruns', hi, ho⟩

end ParcoachRma
