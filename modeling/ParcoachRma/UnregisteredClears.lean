import ParcoachRma.NotifCoupling

/-!
# Clearing an id that is not registered

A notified interval may have been filtered out, may not have arrived yet, or may have been cleared
before.  `find_interval_from_notif` then returns a null pointer, which
`rma_analyzer_clear_from_notif_id` hands on unchecked; `delete_interval_tree` reads the low bound of
the interval unless the tree is empty.

`unregisteredClears_iff`: along a run, the clears of ids that are not registered return and leave
both trees as they are exactly if each has a negative id or finds the interval tree empty.
-/

namespace ParcoachRma

open Run

/-- The clear returns, and the intervals of both trees are the same as before. -/
def ClearIsHarmless (state : RmaAnalyzerState) (notifId : Int) : Prop :=
  ∃ state', rmaAnalyzerClearFromNotifId state notifId = .ok state' ∧
    state'.localTree.toList = state.localTree.toList ∧
    state'.notifTree.toList = state.notifTree.toList

/-- At every clear of the operations whose id is not registered, the property holds of the state
before it and the id. -/
def AtUnregisteredClears (fw : Int) (w : RmaAnalyzerState) (ops : List WinOp)
    (Q : RmaAnalyzerState → Int → Prop) : Prop :=
  ∀ pre notifId state, pre ++ [.clear notifId] <+: ops → run (winStep fw) w pre = .ok state →
    ¬ Registered state notifId → Q state notifId

section Clear

variable {state : RmaAnalyzerState} {notifId : Int}

/-- The search for an id that is not registered ends without a node. -/
theorem lookup_of_not_registered (h : ¬ Registered state notifId) :
    state.notifTree.lookup NotifEntry.notifId notifId = none := by
  apply AvlTree.lookup_eq_none_of_notMem
  intro hkey
  exact h (AvlTree.mem_keys.mp hkey)

theorem clear_of_negative (hneg : notifId < 0) : ClearIsHarmless state notifId := by
  refine ⟨state, ?_, rfl, rfl⟩
  rw [rmaAnalyzerClearFromNotifId, if_pos hneg]

/-- With an empty interval tree the null pointer is not read. -/
theorem clear_of_nil (h : ¬ Registered state notifId) (hnil : state.localTree = .nil) :
    ClearIsHarmless state notifId := by
  by_cases hneg : notifId < 0
  · exact clear_of_negative hneg
  · have hlookup := lookup_of_not_registered h
    refine ⟨{ state with notifTree := deleteNotifTree state.notifTree notifId }, ?_, rfl, ?_⟩
    · cases state with
      | mk =>
          subst hnil
          rw [rmaAnalyzerClearFromNotifId, if_neg hneg]
          rfl
    · exact AvlTree.toList_delete_of_lookup_eq_none hlookup

/-- With intervals stored, the null pointer is read. -/
theorem clear_of_ne_nil (h : ¬ Registered state notifId) (hid : 0 ≤ notifId)
    (hne : state.localTree ≠ .nil) :
    rmaAnalyzerClearFromNotifId state notifId = .error .nullDereference := by
  have hfind : findIntervalFromNotif state.notifTree notifId = none := by
    rw [findIntervalFromNotif, lookup_of_not_registered h]
    rfl
  have hdel : deleteIntervalTree state.localTree none = .error .nullDereference := by
    cases htree : state.localTree with
    | nil => exact absurd htree hne
    | node => rfl
  have hstep : rmaAnalyzerDeleteInterval none state = .error .nullDereference := by
    unfold rmaAnalyzerDeleteInterval
    rw [hdel]
    rfl
  rw [rmaAnalyzerClearFromNotifId, if_neg (not_lt.mpr hid), hfind]
  simp only [hstep]
  rfl

theorem clearIsHarmless_iff (h : ¬ Registered state notifId) :
    ClearIsHarmless state notifId ↔ notifId < 0 ∨ state.localTree = .nil := by
  constructor
  · intro hharmless
    by_contra hcond
    rcases not_or.mp hcond with ⟨hid, hne⟩
    rcases hharmless with ⟨state', hok, -⟩
    rw [clear_of_ne_nil h (not_lt.mp hid) hne] at hok
    cases hok
  · intro hcond
    rcases hcond with hneg | hnil
    · exact clear_of_negative hneg
    · exact clear_of_nil h hnil

end Clear

/-- Along any operations on a window, every clear of an id that is not registered is harmless
exactly if every such clear has a negative id or finds no interval stored in the window. -/
theorem unregisteredClears_iff {fw : Int} {w : RmaAnalyzerState} {ops : List WinOp} :
    AtUnregisteredClears fw w ops ClearIsHarmless ↔
      AtUnregisteredClears fw w ops fun state notifId =>
        notifId < 0 ∨ state.localTree = .nil := by
  constructor
  · intro hall pre notifId state hpre hrun hreg
    exact (clearIsHarmless_iff hreg).mp (hall pre notifId state hpre hrun hreg)
  · intro hall pre notifId state hpre hrun hreg
    exact (clearIsHarmless_iff hreg).mpr (hall pre notifId state hpre hrun hreg)

/-- One interval is stored when an id is cleared that has not arrived: the null pointer is read. -/
theorem not_harmless_of_early_clear :
    (∃ state, run (winStep 1) exampleWindow [.save exampleRead] = .ok state ∧
      ¬ Registered state 5 ∧
      rmaAnalyzerClearFromNotifId state 5 = .error .nullDereference) ∧
    ¬ AtUnregisteredClears 1 exampleWindow [.save exampleRead, .clear 5] ClearIsHarmless := by
  obtain ⟨state, hrun, hreg, hclear⟩ : ∃ state,
      run (winStep 1) exampleWindow [.save exampleRead] = .ok state ∧
      ¬ Registered state 5 ∧
      rmaAnalyzerClearFromNotifId state 5 = .error .nullDereference := by
    refine ⟨_, rfl, fun hreg => ?_, rfl⟩
    rcases hreg with ⟨e, he, -⟩
    exact absurd he List.not_mem_nil
  refine ⟨⟨state, hrun, hreg, hclear⟩, fun hall => ?_⟩
  rcases hall [.save exampleRead] 5 state List.prefix_rfl hrun hreg with ⟨state', hok, -⟩
  rw [hclear] at hok
  cases hok

end ParcoachRma
