import ParcoachRma.NotifCoupling

/-!
# The lifetime of a notified access

Two threads act on the interval of a notified transfer: the checking thread saves it when its
message has arrived, the application clears its id when the notification of the transfer has been
received.  Nothing orders the two.

`neverOutlives_of_completesCleanly`: along a run in which every completion of a transfer finds the
interval of that transfer and removes it cleanly, a transfer that has both arrived and completed
is in neither tree.  A completion that comes first finds nothing to clear, and the interval stays
once it arrives (`not_neverOutlives_complete_save`).
-/

namespace ParcoachRma

open Run

/-- What happens to a window in an epoch: an interval is saved, by the checking thread or by the
application, or the application completes the wait or test for a notified transfer. -/
inductive NotifEvent where
  | save (p : IntervalPtr)
  | complete (p : IntervalPtr)

/-- The operation on the trees. -/
def NotifEvent.op : NotifEvent → WinOp
  | save p => .save p
  | complete p => .clear p.itv.notificationId

def notifStep (fw : Int) (state : RmaAnalyzerState) (e : NotifEvent) :
    Except Fault RmaAnalyzerState :=
  winStep fw state e.op

/-- The completion of the transfer of `p` clears the id of `p` cleanly, and if the window `w`
admits `p`, then `p` has arrived and is the interval that is found for the id. -/
def CompletesCleanly (fw : Int) (w state : RmaAnalyzerState) (p : IntervalPtr) : Prop :=
  ClearsCleanly state p.itv.notificationId ∧
    (admits fw w p.itv = true →
      findIntervalFromNotif state.notifTree p.itv.notificationId = some p)

/-- The interval is in neither tree, and no access is reported against it. -/
def Cleared (state : RmaAnalyzerState) (p : IntervalPtr) : Prop :=
  p ∉ state.localTree.toList ∧ newNotifEntry p ∉ state.notifTree.toList ∧
    ∀ i, overlapSearch state.localTree i ≠ some p

section Clear

variable {fw : Int} {w state state' : RmaAnalyzerState} {pre : List WinOp} {notifId : Int}

/-- A clear that finds nothing and returns has changed nothing in the trees. -/
theorem toList_of_clear_none (hfind : findIntervalFromNotif state.notifTree notifId = none)
    (hstep : rmaAnalyzerClearFromNotifId state notifId = .ok state') :
    state'.winBase = state.winBase ∧ state'.winSize = state.winSize ∧
      state'.localTree = state.localTree ∧
      state'.notifTree.toList = state.notifTree.toList := by
  unfold rmaAnalyzerClearFromNotifId at hstep
  split_ifs at hstep with hneg
  · obtain rfl := Except.ok.inj hstep
    exact ⟨rfl, rfl, rfl, rfl⟩
  · rw [hfind] at hstep
    obtain ⟨s, hs, hret⟩ := bind_ok.mp hstep
    obtain ⟨localTree, hdel, hs⟩ := bind_ok.mp hs
    obtain rfl := Except.ok.inj hs
    obtain rfl := Except.ok.inj hret
    refine ⟨rfl, rfl, ?_, AvlTree.toList_delete_of_lookup_eq_none ?_⟩
    · -- With nothing found, only an empty interval tree lets the call return.
      cases hlocal : state.localTree with
      | nil =>
          rw [hlocal] at hdel
          exact (Except.ok.inj hdel).symm
      | node v l r h n =>
          rw [hlocal] at hdel
          cases hdel
    · exact Option.map_eq_none_iff.mp hfind

/-- A clear that is clean keeps the coupling, whether or not the id is registered. -/
theorem Coupling.clear_of_clean (h : Coupling fw w pre state)
    (hclean : ClearsCleanly state notifId)
    (hstep : rmaAnalyzerClearFromNotifId state notifId = .ok state') :
    Coupling fw w (pre ++ [.clear notifId]) state' := by
  cases hfind : findIntervalFromNotif state.notifTree notifId with
  | some p =>
      obtain ⟨-, hmem, hid, -⟩ := h.of_find hfind
      have hreg : Registered state notifId := ⟨newNotifEntry p, hmem, hid⟩
      exact h.clear hreg hstep ((removesOne_iff h hreg hstep).mpr hclean)
  | none =>
      obtain ⟨hbase, hsize, hlocal, hnotif⟩ := toList_of_clear_none hfind hstep
      refine ⟨hbase.trans h.winBase, hsize.trans h.winSize, ?_, ?_, ?_, ?_, ?_, ?_⟩
      · rw [hlocal]
        exact h.stored_snoc _
      · rw [hlocal]
        exact h.nodup
      · rw [hlocal]
        exact h.localSorted
      · exact h.notifSorted.of_toList_eq hnotif
      · rw [hnotif]
        exact h.entries
      · unfold Coupled
        rw [hnotif, hlocal]
        exact h.coupled

/-- A clear leaves no interval in the tree that was not there before. -/
theorem mem_of_clear {q : IntervalPtr}
    (hstep : rmaAnalyzerClearFromNotifId state notifId = .ok state')
    (hq : q ∈ state'.localTree.toList) : q ∈ state.localTree.toList := by
  cases hfind : findIntervalFromNotif state.notifTree notifId with
  | none =>
      obtain ⟨-, -, hlocal, -⟩ := toList_of_clear_none hfind hstep
      rwa [hlocal] at hq
  | some p =>
      by_cases hneg : notifId < 0
      · rw [rmaAnalyzerClearFromNotifId, if_pos hneg] at hstep
        obtain rfl := Except.ok.inj hstep
        exact hq
      · rw [clearFromNotifId_of_find (not_lt.mp hneg) hfind] at hstep
        obtain rfl := Except.ok.inj hstep
        exact AvlTree.mem_of_mem_delete hq

end Clear

/-! ## The invariant -/

theorem mem_storedObjects {fw : Int} {w : RmaAnalyzerState} {ops : List WinOp} {p : IntervalPtr} :
    p ∈ storedObjects fw w ops ↔ .save p ∈ ops ∧ admits fw w p.itv = true := by
  simp only [storedObjects, List.mem_filterMap]
  constructor
  · intro hparts
    rcases hparts with ⟨op, hop, hp⟩
    cases op with
    | save q =>
        simp only [storedObject] at hp
        split_ifs at hp with hadm
        cases hp
        exact ⟨hop, hadm⟩
    | clear notifId => cases hp
    | clearThread tmp => cases hp
  · intro hparts
    rcases hparts with ⟨hop, hadm⟩
    exact ⟨_, hop, by simp [storedObject, hadm]⟩

/-- After the events `pre`: the trees are coupled, completed transfers that the window admits have
arrived, and none of them is stored. -/
structure Lifetimes (fw : Int) (w : RmaAnalyzerState) (pre : List NotifEvent)
    (state : RmaAnalyzerState) : Prop where
  coupling : Coupling fw w (pre.map NotifEvent.op) state
  arrived : ∀ p, .complete p ∈ pre → admits fw w p.itv = true →
    p ∈ storedObjects fw w (pre.map NotifEvent.op)
  gone : ∀ p ∈ state.localTree.toList, .complete p ∉ pre

namespace Lifetimes

variable {fw : Int} {w state state' : RmaAnalyzerState} {pre : List NotifEvent} {p : IntervalPtr}

/-- An arrival brings in a transfer that has not completed: one that has completed had arrived
before. -/
theorem save (h : Lifetimes fw w pre state) (hstep : treeSave fw state p = .ok state')
    (hnew : (storedObjects fw w ((pre ++ [NotifEvent.save p]).map NotifEvent.op)).Nodup) :
    Lifetimes fw w (pre ++ [.save p]) state' := by
  have hmap : (pre ++ [NotifEvent.save p]).map NotifEvent.op =
      pre.map NotifEvent.op ++ [WinOp.save p] := by simp [NotifEvent.op]
  rw [hmap] at hnew
  refine ⟨?_, fun q hq hadm => ?_, fun q hq hcomp => ?_⟩
  · rw [hmap]
    exact h.coupling.save hstep hnew
  · rw [hmap, Coupling.storedObjects_snoc]
    exact List.mem_append_left _ (h.arrived q (by simpa using hq) hadm)
  · have hdone : .complete q ∈ pre := by simpa using hcomp
    rcases treeSave_ok hstep with ⟨-, rfl⟩ | ⟨hadm, -, rfl⟩
    · exact h.gone q hq hdone
    · have hq : q ∈ (insertIntervalTree state.localTree p).toList := by
        obtain ⟨t, ht⟩ := rmaAnalyzerSaveNotif_eq p
          { state with localTree := insertIntervalTree state.localTree p }
        rwa [ht] at hq
      rcases AvlTree.mem_insert.mp hq with rfl | hq
      · rw [h.coupling.admits_eq] at hadm
        have hold := h.arrived q hdone hadm
        rw [Coupling.storedObjects_snoc, List.nodup_append] at hnew
        exact hnew.2.2 q hold q (by simp [storedObject, hadm]) rfl
      · exact h.gone q hq hdone

/-- A clean completion takes its transfer out. -/
theorem complete (h : Lifetimes fw w pre state) (hclean : CompletesCleanly fw w state p)
    (hstep : rmaAnalyzerClearFromNotifId state p.itv.notificationId = .ok state') :
    Lifetimes fw w (pre ++ [.complete p]) state' := by
  have hmap : (pre ++ [NotifEvent.complete p]).map NotifEvent.op =
      pre.map NotifEvent.op ++ [WinOp.clear p.itv.notificationId] := by simp [NotifEvent.op]
  have hobj : storedObjects fw w ((pre ++ [NotifEvent.complete p]).map NotifEvent.op) =
      storedObjects fw w (pre.map NotifEvent.op) := by
    rw [hmap, Coupling.storedObjects_snoc]
    simp [storedObject]
  refine ⟨?_, fun q hq hadm => ?_, fun q hq hcomp => ?_⟩
  · rw [hmap]
    exact h.coupling.clear_of_clean hclean.1 hstep
  · rw [hobj]
    rcases List.mem_append.mp hq with hq | hq
    · exact h.arrived q hq hadm
    · obtain rfl : q = p := by simpa using hq
      obtain ⟨hmem, -⟩ := h.coupling.of_find (hclean.2 hadm)
      exact h.coupling.stored q hmem
  · have hold := mem_of_clear hstep hq
    rcases List.mem_append.mp hcomp with hcomp | hcomp
    · exact h.gone q hold hcomp
    · obtain rfl : q = p := by simpa using hcomp
      -- `q` is stored, hence admitted, found and taken out.
      have hadm := (mem_storedObjects.mp (h.coupling.stored q hold)).2
      have hfind := hclean.2 hadm
      obtain ⟨-, -, -, hnonneg⟩ := h.coupling.of_find hfind
      have hperm : state.localTree.toList.Perm
          (q :: (state.localTree.delete lowKey id (lowKey q)).toList) :=
        (AvlTree.perm_delete_iff h.coupling.nodup).mpr (hclean.1 q hfind).1
      rw [clearFromNotifId_of_find hnonneg hfind] at hstep
      obtain rfl := Except.ok.inj hstep
      exact (List.nodup_cons.mp (hperm.nodup_iff.mp h.coupling.nodup)).1 hq

end Lifetimes

/-! ## Runs -/

/-- In every state of the run, a transfer that has arrived and completed is in neither tree, and
no access is reported against it. -/
def NeverOutlives (fw : Int) (w : RmaAnalyzerState) (events : List NotifEvent) : Prop :=
  ∀ pre state, pre <+: events → run (notifStep fw) w pre = .ok state →
    ∀ p, .save p ∈ pre → .complete p ∈ pre → Cleared state p

/-- Along a run that saves each object once and in which every completion of a transfer finds the
interval of that transfer and removes it cleanly, no notified access outlives its notification. -/
theorem neverOutlives_of_completesCleanly {fw : Int} {w : RmaAnalyzerState}
    {events : List NotifEvent} (empty : EmptyStores w)
    (distinct : (storedObjects fw w (events.map NotifEvent.op)).Nodup)
    (clean : EachStep (notifStep fw)
      (fun _ t e _ => ∀ p, e = .complete p → CompletesCleanly fw w t p) w events) :
    NeverOutlives fw w events := by
  intro pre state hpre hrun p _ hcompleted
  have hinv : run (notifStep fw) w pre = .ok state ∧ Lifetimes fw w pre state := by
    refine invariant_of_prefix
      (I := fun q t => run (notifStep fw) w q = .ok t ∧ Lifetimes fw w q t) ?_ ?_ hpre hrun
    · exact ⟨rfl, Coupling.of_emptyStores empty, by simp, by simp [empty.1]⟩
    · intro q e t t' hq hI hstep
      refine ⟨run_snoc_ok.mpr ⟨t, hI.1, hstep⟩, ?_⟩
      cases e with
      | save p =>
          exact hI.2.save hstep (distinct.sublist ((hq.sublist.map _).filterMap _))
      | complete p => exact hI.2.complete (clean q _ t t' hq hI.1 hstep p rfl) hstep
  have hout : p ∉ state.localTree.toList := fun hp => hinv.2.gone p hp hcompleted
  refine ⟨hout, fun hentry => ?_, fun i hover => ?_⟩
  · have hmem := hinv.2.coupling.coupled.mem_iff.mp (List.mem_map_of_mem hentry)
    exact hout (List.mem_filter.mp hmem).1
  · exact hout (exposed_of_overlapSearch hover).1.mem

/-- A transfer whose message is handled before its notification is received. -/
theorem neverOutlives_save_complete :
    NeverOutlives 1 exampleWindow
      [.save exampleNotifiedWrite, .complete exampleNotifiedWrite] := by
  apply neverOutlives_of_completesCleanly exampleWindow_emptyStores (by decide)
  refine (eachStep_cons rfl).mpr ⟨by simp, (eachStep_cons rfl).mpr ⟨fun p hp => ?_, eachStep_nil⟩⟩
  cases hp
  refine ⟨fun q hq => ?_, fun _ => rfl⟩
  cases hq
  exact ⟨by decide, by decide⟩

/-- The notification is received before the message has been handled: the clear finds nothing, and
the interval is stored afterwards for good. -/
theorem not_neverOutlives_complete_save :
    EmptyStores exampleWindow ∧
    (∃ state, run (notifStep 1) exampleWindow
      [.complete exampleNotifiedWrite, .save exampleNotifiedWrite] = .ok state) ∧
    ¬ NeverOutlives 1 exampleWindow
      [.complete exampleNotifiedWrite, .save exampleNotifiedWrite] := by
  refine ⟨exampleWindow_emptyStores, ⟨_, rfl⟩, fun never => ?_⟩
  have hcleared := never _ _ List.prefix_rfl rfl exampleNotifiedWrite (by simp) (by simp)
  exact hcleared.1 (by decide)

end ParcoachRma
