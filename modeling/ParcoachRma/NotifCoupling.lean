import ParcoachRma.Epoch
import ParcoachRma.Detection

/-!
# The coupling of the two trees

The notification tree is an index into the interval tree: it should hold exactly the intervals of
the interval tree that carry a notification id.  Saving and the end of an epoch keep it so.
Clearing an id deletes by low bound in the one tree and by id in the other, so with repeated keys
it may take out another interval than the one it has looked up.

* `ClearsCleanly`: the interval that is found for the id is the one that the deletions by its keys
  take out of both trees.
* `Coupling` is the invariant of a window, kept by every step whose clear is clean.
* `coupled_iff_clearsCleanly`: the coupling holds along a run exactly if all its clears are clean.
-/

namespace ParcoachRma

open Run

/-! ## Steps on the record of a window -/

/-- The operations on the trees of a window. -/
inductive WinOp where
  | save (p : IntervalPtr)
  | clear (notifId : Int)
  | clearThread (tmp : Nat)

/-- One operation, as a step on the record.  At the end of an epoch the thread has been joined. -/
def winStep (fw : Int) (state : RmaAnalyzerState) : WinOp → Except Fault RmaAnalyzerState
  | .save p => treeSave fw state p
  | .clear notifId => rmaAnalyzerClearFromNotifId state notifId
  | .clearThread tmp => (state.requestEnd tmp).leaveEpoch.freeTrees

/-- The object an operation stores in the window `w`, if it is admitted. -/
def storedObject (fw : Int) (w : RmaAnalyzerState) : WinOp → Option IntervalPtr
  | .save p => if admits fw w p.itv then some p else none
  | _ => none

/-- The objects the operations store in the window `w`. -/
def storedObjects (fw : Int) (w : RmaAnalyzerState) (ops : List WinOp) : List IntervalPtr :=
  ops.filterMap (storedObject fw w)

/-- The registered intervals are exactly the stored ones with a notification id. -/
def Coupled (state : RmaAnalyzerState) : Prop :=
  (state.notifTree.toList.map NotifEntry.itv).Perm
    (state.localTree.toList.filter fun p => 0 ≤ p.itv.notificationId)

instance (state : RmaAnalyzerState) : Decidable (Coupled state) :=
  inferInstanceAs (Decidable (List.Perm _ _))

/-- The interval that is found for the id is the one that is taken out of both trees when its low
bound is deleted in the one and its id in the other. -/
def ClearsCleanly (state : RmaAnalyzerState) (notifId : Int) : Prop :=
  ∀ p, findIntervalFromNotif state.notifTree notifId = some p →
    AvlTree.DeletesOnly lowKey p state.localTree ∧
      AvlTree.DeletesOnly NotifEntry.notifId (newNotifEntry p) state.notifTree

/-! ## What the operations do to the trees -/

section Steps

variable {fw : Int} {state state' : RmaAnalyzerState} {p : IntervalPtr} {notifId : Int}

/-- A save that returns has filtered the interval out, or put it into the interval tree and
registered it. -/
theorem treeSave_ok (h : treeSave fw state p = .ok state') :
    admits fw state p.itv = false ∧ state' = state ∨
    admits fw state p.itv = true ∧ overlapSearch state.localTree p = none ∧
      state' = rmaAnalyzerSaveNotif p
        { state with localTree := insertIntervalTree state.localTree p } := by
  unfold treeSave rmaAnalyzerSaveInterval at h
  cases hadm : admits fw state p.itv with
  | false =>
      simp only [hadm, Bool.false_eq_true, if_false, Except.map] at h
      exact .inl ⟨rfl, (Except.ok.inj h).symm⟩
  | true =>
      cases hover : overlapSearch state.localTree p with
      | some q => simp [hadm, hover, Except.map] at h
      | none =>
          simp only [hadm, hover, if_true, Except.map] at h
          exact .inr ⟨rfl, rfl, (Except.ok.inj h).symm⟩

/-- Clearing a registered id deletes the low bound of the interval that is found, and the id. -/
theorem clearFromNotifId_of_find (hid : 0 ≤ notifId)
    (hfind : findIntervalFromNotif state.notifTree notifId = some p) :
    rmaAnalyzerClearFromNotifId state notifId = .ok { state with
      localTree := state.localTree.delete lowKey id (lowKey p)
      notifTree := deleteNotifTree state.notifTree notifId } := by
  simp [rmaAnalyzerClearFromNotifId, rmaAnalyzerDeleteInterval, hfind, deleteIntervalTree_some,
    not_lt.mpr hid, bind, Except.bind, pure, Except.pure]

/-- The end of an epoch empties both trees. -/
theorem freeTrees_ok (h : state.freeTrees = .ok state') :
    state' = { state with localTree := .nil, notifTree := .nil } := by
  unfold RmaAnalyzerState.freeTrees at h
  split at h
  · rename_i l n hl hn
    cases h
    rw [AvlTree.eq_nil_of_freeLoop hl, AvlTree.eq_nil_of_freeLoop hn]
  · cases h

end Steps

/-! ## The invariant of a window -/

/-- What holds of the record after the operations `pre` on the window `w`, as long as all clears
have been clean. -/
structure Coupling (fw : Int) (w : RmaAnalyzerState) (pre : List WinOp)
    (state : RmaAnalyzerState) : Prop where
  winBase : state.winBase = w.winBase
  winSize : state.winSize = w.winSize
  stored : ∀ p ∈ state.localTree.toList, p ∈ storedObjects fw w pre
  nodup : state.localTree.toList.Nodup
  localSorted : state.localTree.Sorted lowKey
  notifSorted : state.notifTree.Sorted NotifEntry.notifId
  entries : ∀ e ∈ state.notifTree.toList, e = newNotifEntry e.itv
  coupled : Coupled state

namespace Coupling

variable {fw : Int} {w state state' : RmaAnalyzerState} {pre : List WinOp} {p : IntervalPtr}
  {notifId : Int}

theorem of_emptyStores (empty : EmptyStores w) : Coupling fw w [] w := by
  obtain ⟨hlocal, hnotif, -⟩ := empty
  refine ⟨rfl, rfl, ?_, ?_, ?_, ?_, ?_, ?_⟩ <;>
    simp [hlocal, hnotif, AvlTree.sorted_nil, Coupled]

theorem admits_eq (h : Coupling fw w pre state) (itv : Interval) :
    admits fw state itv = admits fw w itv :=
  admits_congr h.winBase h.winSize itv

theorem storedObjects_snoc (op : WinOp) :
    storedObjects fw w (pre ++ [op]) = storedObjects fw w pre ++ (storedObject fw w op).toList := by
  simp only [storedObjects, List.filterMap_append, List.filterMap_cons, List.filterMap_nil]
  cases storedObject fw w op <;> rfl

theorem stored_snoc (h : Coupling fw w pre state) (op : WinOp) :
    ∀ p ∈ state.localTree.toList, p ∈ storedObjects fw w (pre ++ [op]) := by
  intro p hp
  rw [storedObjects_snoc]
  exact List.mem_append_left _ (h.stored p hp)

/-- An interval with the id that is found is registered, stored and carries that id. -/
theorem of_find (h : Coupling fw w pre state)
    (hfind : findIntervalFromNotif state.notifTree notifId = some p) :
    p ∈ state.localTree.toList ∧ newNotifEntry p ∈ state.notifTree.toList ∧
      p.itv.notificationId = notifId ∧ 0 ≤ notifId := by
  obtain ⟨e, hlookup, rfl⟩ := Option.map_eq_some_iff.mp hfind
  obtain ⟨hmem, hid⟩ := AvlTree.mem_of_lookup hlookup
  have hentry := h.entries e hmem
  have hstored := h.coupled.mem_iff.mp (List.mem_map_of_mem hmem)
  obtain ⟨hlocal, hnonneg⟩ := List.mem_filter.mp hstored
  have heq : e.itv.itv.notificationId = notifId := by
    rw [hentry] at hid
    exact hid
  refine ⟨hlocal, hentry ▸ hmem, heq, ?_⟩
  rw [← heq]
  simpa using hnonneg

/-- A registered id is found. -/
theorem exists_find (h : Coupling fw w pre state)
    (hreg : ∃ e ∈ state.notifTree.toList, e.notifId = notifId) :
    ∃ p, findIntervalFromNotif state.notifTree notifId = some p := by
  obtain ⟨e, hmem, rfl⟩ := hreg
  obtain ⟨v, hv⟩ := h.notifSorted.exists_lookup hmem
  exact ⟨v.itv, by rw [findIntervalFromNotif, hv]; rfl⟩

theorem notif_nodup (h : Coupling fw w pre state) : state.notifTree.toList.Nodup :=
  List.Nodup.of_map _ (h.coupled.nodup_iff.mpr (h.nodup.filter _))

/-- Saving an object for the first time keeps the coupling. -/
theorem save (h : Coupling fw w pre state) (hstep : treeSave fw state p = .ok state')
    (hnew : (storedObjects fw w (pre ++ [.save p])).Nodup) :
    Coupling fw w (pre ++ [.save p]) state' := by
  rcases treeSave_ok hstep with ⟨-, rfl⟩ | ⟨hadm, -, rfl⟩
  · exact ⟨h.winBase, h.winSize, h.stored_snoc _, h.nodup, h.localSorted, h.notifSorted,
      h.entries, h.coupled⟩
  · have hobj : storedObjects fw w (pre ++ [.save p]) = storedObjects fw w pre ++ [p] := by
      rw [storedObjects_snoc]
      simp [storedObject, ← h.admits_eq, hadm]
    have hperm : (insertIntervalTree state.localTree p).toList.Perm
        (p :: state.localTree.toList) := AvlTree.toList_insert_perm _ _
    have hout : p ∉ state.localTree.toList := by
      intro hp
      rw [hobj, List.nodup_append] at hnew
      exact hnew.2.2 p (h.stored p hp) p (by simp) rfl
    have hstored : ∀ q ∈ (insertIntervalTree state.localTree p).toList,
        q ∈ storedObjects fw w (pre ++ [.save p]) := by
      intro q hq
      rw [hobj]
      rcases List.mem_cons.mp (hperm.mem_iff.mp hq) with rfl | hq
      · simp
      · exact List.mem_append_left _ (h.stored q hq)
    have hnodup : (insertIntervalTree state.localTree p).toList.Nodup :=
      hperm.nodup_iff.mpr (List.nodup_cons.mpr ⟨hout, h.nodup⟩)
    unfold rmaAnalyzerSaveNotif
    split_ifs with hneg
    · refine ⟨h.winBase, h.winSize, hstored, hnodup, h.localSorted.insert p, h.notifSorted,
        h.entries, ?_⟩
      refine h.coupled.trans ((hperm.filter _).trans ?_).symm
      rw [List.filter_cons_of_neg (by simpa using hneg)]
    · have hnperm : (insertNotifTree state.notifTree p).toList.Perm
          (newNotifEntry p :: state.notifTree.toList) := AvlTree.toList_insert_perm _ _
      refine ⟨h.winBase, h.winSize, hstored, hnodup, h.localSorted.insert p,
        h.notifSorted.insert (newNotifEntry p), fun e he => ?_, ?_⟩
      · rcases List.mem_cons.mp (hnperm.mem_iff.mp he) with rfl | he
        · rfl
        · exact h.entries e he
      · refine (hnperm.map _).trans (List.Perm.trans ?_ (hperm.filter _).symm)
        rw [List.filter_cons_of_pos (by simpa using hneg), List.map_cons]
        exact h.coupled.cons _

/-- The end of an epoch keeps the coupling. -/
theorem clearThread {tmp : Nat} (h : Coupling fw w pre state)
    (hstep : (state.requestEnd tmp).leaveEpoch.freeTrees = .ok state') :
    Coupling fw w (pre ++ [.clearThread tmp]) state' := by
  obtain rfl := freeTrees_ok hstep
  exact ⟨h.winBase, h.winSize, by simp, by simp, AvlTree.sorted_nil, AvlTree.sorted_nil, by simp,
    List.Perm.refl _⟩

end Coupling

/-! ## Clearing -/

/-- The step has taken one and the same interval, which carries the id, out of both trees and has
left every other interval in both. -/
def RemovesOne (notifId : Int) (state state' : RmaAnalyzerState) : Prop :=
  ∃ p, p.itv.notificationId = notifId ∧
    state.localTree.toList.Perm (p :: state'.localTree.toList) ∧
    state.notifTree.toList.Perm (newNotifEntry p :: state'.notifTree.toList)

/-- Some interval is registered under the id. -/
def Registered (state : RmaAnalyzerState) (notifId : Int) : Prop :=
  ∃ e ∈ state.notifTree.toList, e.notifId = notifId

section Clear

variable {fw : Int} {w state state' : RmaAnalyzerState} {pre : List WinOp} {notifId : Int}

/-- Clearing a registered id removes one interval from both trees exactly if it is clean. -/
theorem removesOne_iff (h : Coupling fw w pre state) (hreg : Registered state notifId)
    (hstep : rmaAnalyzerClearFromNotifId state notifId = .ok state') :
    RemovesOne notifId state state' ↔ ClearsCleanly state notifId := by
  obtain ⟨p, hfind⟩ := h.exists_find hreg
  obtain ⟨-, -, hid, hnonneg⟩ := h.of_find hfind
  rw [clearFromNotifId_of_find hnonneg hfind] at hstep
  obtain rfl := Except.ok.inj hstep
  have hlocal : state.localTree.toList.Perm
      (p :: (state.localTree.delete lowKey id (lowKey p)).toList) ↔
      AvlTree.DeletesOnly lowKey p state.localTree := AvlTree.perm_delete_iff h.nodup
  have hnotif : ∀ q : IntervalPtr, q.itv.notificationId = notifId →
      (state.notifTree.toList.Perm
        (newNotifEntry q :: (deleteNotifTree state.notifTree notifId).toList) ↔
      AvlTree.DeletesOnly NotifEntry.notifId (newNotifEntry q) state.notifTree) := by
    rintro q rfl
    exact AvlTree.perm_delete_iff (v := newNotifEntry q) h.notif_nodup
  refine ⟨fun ⟨q, hq, hremL, hremN⟩ => ?_, fun hclean => ?_⟩
  · -- The entry that goes is the one a lookup finds, so `q` is the interval found for the id.
    have hfirst := AvlTree.lookup_of_deletesOnly ((hnotif q hq).mp hremN)
    have hfound : findIntervalFromNotif state.notifTree notifId = some q := by
      rw [findIntervalFromNotif, ← hq]
      exact congrArg (Option.map NotifEntry.itv) hfirst
    obtain rfl : p = q := Option.some.inj (hfind.symm.trans hfound)
    intro p' hp'
    obtain rfl : p = p' := Option.some.inj (hfind.symm.trans hp')
    exact ⟨hlocal.mp hremL, (hnotif p hq).mp hremN⟩
  · obtain ⟨hdelL, hdelN⟩ := hclean p hfind
    exact ⟨p, hid, hlocal.mpr hdelL, (hnotif p hid).mpr hdelN⟩

/-- Taking one interval out of both trees keeps the coupling. -/
theorem Coupling.clear (h : Coupling fw w pre state) (hreg : Registered state notifId)
    (hstep : rmaAnalyzerClearFromNotifId state notifId = .ok state')
    (hrem : RemovesOne notifId state state') :
    Coupling fw w (pre ++ [.clear notifId]) state' := by
  obtain ⟨q, hfind⟩ := h.exists_find hreg
  obtain ⟨-, -, -, hnonneg⟩ := h.of_find hfind
  rw [clearFromNotifId_of_find hnonneg hfind] at hstep
  obtain ⟨p, hid, hremL, hremN⟩ := hrem
  obtain rfl := Except.ok.inj hstep
  have hsubL : ∀ x ∈ (state.localTree.delete lowKey id (lowKey q)).toList,
      x ∈ state.localTree.toList := fun x hx => AvlTree.mem_of_mem_delete hx
  refine ⟨h.winBase, h.winSize, fun x hx => h.stored_snoc _ x (hsubL x hx), ?_,
    h.localSorted.delete _, h.notifSorted.delete _,
    fun e he => h.entries e (AvlTree.mem_of_mem_delete he), ?_⟩
  · exact (List.nodup_cons.mp (hremL.nodup_iff.mp h.nodup)).2
  · -- The coupled lists have lost the same interval.
    have hboth := ((hremN.map NotifEntry.itv).symm.trans h.coupled).trans (hremL.filter _)
    rw [List.map_cons, List.filter_cons_of_pos (by simpa [hid] using hnonneg)] at hboth
    exact List.Perm.cons_inv hboth

end Clear

/-! ## Runs -/

/-- After the step the trees are coupled, and if it was a clear, it has removed one interval. -/
def KeepsCoupling (state : RmaAnalyzerState) (op : WinOp) (state' : RmaAnalyzerState) : Prop :=
  Coupled state' ∧ ∀ notifId, op = .clear notifId → RemovesOne notifId state state'

/-- Along a run that saves each object once and clears registered ids only, the trees are coupled
in every state and every clear removes one and the same interval from both, exactly if every clear
is clean: the deletions take out the interval that is found for the id. -/
theorem coupled_iff_clearsCleanly {fw : Int} {w : RmaAnalyzerState} {ops : List WinOp}
    (empty : EmptyStores w) (distinct : (storedObjects fw w ops).Nodup)
    (registered : EachStep (winStep fw)
      (fun _ t op _ => ∀ notifId, op = .clear notifId → Registered t notifId) w ops) :
    EachStep (winStep fw) (fun _ t op t' => KeepsCoupling t op t') w ops ↔
      EachStep (winStep fw)
        (fun _ t op _ => ∀ notifId, op = .clear notifId → ClearsCleanly t notifId) w ops := by
  have distinct_of : ∀ {pre}, pre <+: ops → (storedObjects fw w pre).Nodup := fun hpre =>
    distinct.sublist (hpre.sublist.filterMap _)
  apply forall_step_iff_of_each (I := Coupling fw w) registered
  · exact Coupling.of_emptyStores empty
  · intro pre op t t' hpre hI hreg hstep
    cases op with
    | save p =>
        exact iff_of_true ⟨(hI.save hstep (distinct_of hpre)).coupled, by simp⟩ (by simp)
    | clear notifId =>
        have hiff := removesOne_iff hI (hreg notifId rfl) hstep
        refine ⟨fun hkeep id hid => ?_, fun hclean => ⟨?_, fun id hid => ?_⟩⟩
        · cases hid
          exact hiff.mp (hkeep.2 _ rfl)
        · exact (hI.clear (hreg notifId rfl) hstep (hiff.mpr (hclean _ rfl))).coupled
        · cases hid
          exact hiff.mpr (hclean _ rfl)
    | clearThread tmp => exact iff_of_true ⟨(hI.clearThread hstep).coupled, by simp⟩ (by simp)
  · intro pre op t t' hpre hI hreg hstep hkeep
    cases op with
    | save p => exact hI.save hstep (distinct_of hpre)
    | clear notifId => exact hI.clear (hreg notifId rfl) hstep (hkeep.2 notifId rfl)
    | clearThread tmp => exact hI.clearThread hstep

/-- A remote read of the first four bytes of the window, without notification. -/
def exampleRead : IntervalPtr := ⟨0, createInterval 4096 4099 .rmaRead (-1) 10 none⟩

/-- A remote read of the same bytes, with notification 5. -/
def exampleNotifiedRead : IntervalPtr := ⟨1, createInterval 4096 4099 .rmaRead 5 20 none⟩

/-- A remote write to other bytes, with notification 7. -/
def exampleNotifiedWrite : IntervalPtr := ⟨2, createInterval 4112 4115 .rmaWrite 7 30 none⟩

/-- With different low bounds and ids a clear removes its interval from both trees. -/
theorem coupled_of_clear_write :
    EachStep (winStep 1) (fun _ t op t' => KeepsCoupling t op t') exampleWindow
      [.save exampleRead, .save exampleNotifiedWrite, .clear 7] := by
  refine (coupled_iff_clearsCleanly exampleWindow_emptyStores (by decide) ?_).mpr ?_
  · refine eachStep_three rfl rfl rfl (by simp) (by simp) (fun id hid => ?_)
    cases hid
    exact ⟨newNotifEntry exampleNotifiedWrite, by decide, rfl⟩
  · refine eachStep_three rfl rfl rfl (by simp) (by simp) (fun id hid p hp => ?_)
    cases hid
    cases hp
    exact ⟨by decide, by decide⟩

/-- The notified read has the low bound of the other read.  Clearing its id takes the other read
out of the interval tree and its own entry out of the notification tree. -/
theorem not_coupled_of_clear_read :
    EmptyStores exampleWindow ∧
    (storedObjects 1 exampleWindow
      [.save exampleRead, .save exampleNotifiedRead, .clear 5]).Nodup ∧
    EachStep (winStep 1) (fun _ t op _ => ∀ notifId, op = .clear notifId → Registered t notifId)
      exampleWindow [.save exampleRead, .save exampleNotifiedRead, .clear 5] ∧
    ¬ EachStep (winStep 1) (fun _ t op t' => KeepsCoupling t op t') exampleWindow
      [.save exampleRead, .save exampleNotifiedRead, .clear 5] := by
  refine ⟨exampleWindow_emptyStores, by decide, ?_, fun keeps => ?_⟩
  · refine eachStep_three rfl rfl rfl (by simp) (by simp) (fun id hid => ?_)
    cases hid
    exact ⟨newNotifEntry exampleNotifiedRead, by decide, rfl⟩
  · have hafter := (keeps [.save exampleRead, .save exampleNotifiedRead] (.clear 5) _ _
      List.prefix_rfl rfl rfl).1
    exact absurd hafter (by decide)

end ParcoachRma
