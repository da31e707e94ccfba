import ParcoachRma.StoreMemory

/-!
# Runs in memory

* `memoryRun_refines`: along any calls on any windows, the code in memory does what the calls on the
  records do, an abort with its report included, unless the allocator fails it.
* `allocated_of_epochsEnded`: once all epochs have ended no node of a tree is left allocated, but
  every interval that was stored is, and so are the two of every transfer and the receive buffer of
  every checking thread.
-/

namespace ParcoachRma

open Run AvlTree

/-! ## Runs -/

section Runs

variable {fw : Int} {w states : MpiWin → RmaAnalyzerState} {m m' : StoreMemory}
  {calls : List (MpiWin × MemoryOp)}

/-- By induction on the calls, each of which goes from memory to records. -/
theorem refines_memoryRun (fw : Int) (hw : ∀ win, EmptyStores (w win))
    (calls : List (MpiWin × MemoryOp)) :
    Refines (StandsFor w) (fun f g => f = .analyzer g) AllocatorFails
      (run (memoryStep fw w) .empty calls)
      (run (windowsStep fw) w (calls.map fun call => (call.1, call.2.onTrees))) :=
  Refines.run (fun _ _ call h => h.refines_step call) (standsFor_empty hw) calls

/-- Whatever is called on whichever windows, from empty stores, the code in memory does what the
calls do to the trees of the records, and ends as they do, in an abort with the same report
included, unless the allocator fails it.  So no null or dangling pointer is followed that the
records do not have, no node is freed twice, and every recursion and loop ends. -/
theorem memoryRun_refines (fw : Int) {w : MpiWin → RmaAnalyzerState}
    (hw : ∀ win, EmptyStores (w win)) (calls : List (MpiWin × MemoryOp)) :
    (∀ m, run (memoryStep fw w) .empty calls = .ok m → ∃ states,
      run (windowsStep fw) w (calls.map fun call => (call.1, call.2.onTrees)) = .ok states ∧
        StandsFor w m states) ∧
    ∀ f, run (memoryStep fw w) .empty calls = .error f → AllocatorFails f ∨
      ∃ g, f = .analyzer g ∧
        run (windowsStep fw) w (calls.map fun call => (call.1, call.2.onTrees)) = .error g := by
  have hrefines := refines_memoryRun fw hw calls
  constructor
  · intro m hrun
    rw [hrun] at hrefines
    exact hrefines.exists_ok
  · intro f hrun
    rw [hrun] at hrefines
    exact hrefines.exists_error.imp_right fun ⟨g, hg, hf⟩ => ⟨g, hf, hg⟩

/-- Two windows of 400 bytes at one address. -/
def windowPair (win : MpiWin) : RmaAnalyzerState := RmaAnalyzerState.new win 4096 400 0 1 65535

/-- A put of four bytes that has arrived. -/
def arrivedPut : Interval := createInterval 4096 4099 .rmaWrite 5 10 none

/-- A load of its first byte. -/
def firstByteLoad : Interval := createInterval 4096 4096 .localRead (-1) 11 none

/-- The put is saved in the one window and the load in the other, then the load in the first. -/
def putThenLoads : List (MpiWin × MemoryOp) :=
  [(0, .save arrivedPut (some 8) (some 64) (some 72)),
    (1, .save firstByteLoad (some 16) (some 80) none),
    (0, .save firstByteLoad (some 24) none none)]

/-- The load in the window of the put is reported in memory, hence on the records. -/
theorem memoryRun_refines_putThenLoads :
    run (windowsStep 1) windowPair (putThenLoads.map fun call => (call.1, call.2.onTrees)) =
      .error (.mpiAbort (conflictReport firstByteLoad arrivedPut)) := by
  have hrun : run (memoryStep 1 windowPair) .empty putThenLoads =
      .error (.analyzer (.mpiAbort (conflictReport firstByteLoad arrivedPut))) := rfl
  rcases (memoryRun_refines 1 (fun _ => ⟨rfl, rfl, rfl⟩) _).2 _ hrun with hfails | ⟨g, hg, hrun'⟩
  · rcases hfails with hfails | hfails <;> cases hfails
  · obtain rfl := MemoryFault.analyzer.inj hg
    exact hrun'

/-! ## What is left allocated -/

/-- How many of the objects that the call has made stay allocated after it: an interval that has
been stored; both intervals of a transfer, also if that at the origin is filtered out; and the
receive buffer of a checking thread. -/
def leftObjects (fw : Int) (w : MpiWin → RmaAnalyzerState) : MpiWin × MemoryOp → Nat
  | (win, .save itv _ _ _) => if admits fw (w win) itv then 1 else 0
  | (_, .send _ _ _ _) => 2
  | (_, .initThread _ _) => 1
  | (_, .clear _) => 0
  | (_, .clearThread _) => 0

section Objects

variable {win : MpiWin} {p : IntervalPtr}

theorem objects_assignLocalTree {call : Except TreeFault (TreeHeap IntervalPtr × Option Nat)}
    (h : m.assignLocalTree win call = .ok m') : m'.objects = m.objects := by
  obtain ⟨_, _, h⟩ := bind_ok.mp h
  cases h
  rfl

theorem objects_assignNotifTree {call : Except TreeFault (TreeHeap NotifEntry × Option Nat)}
    (h : m.assignNotifTree win call = .ok m') : m'.objects = m.objects := by
  obtain ⟨_, _, h⟩ := bind_ok.mp h
  cases h
  rfl

theorem objects_deleteIntervalTree {itv : Option IntervalPtr}
    (h : m.deleteIntervalTree itv win = .ok m') : m'.objects = m.objects := by
  unfold StoreMemory.deleteIntervalTree at h
  split at h
  · cases h
    rfl
  · cases h
  · exact objects_assignLocalTree h

theorem objects_saveNotif {notifNode : Option Nat}
    (h : m.rmaAnalyzerSaveNotif p notifNode win = .ok m') : m'.objects = m.objects := by
  unfold StoreMemory.rmaAnalyzerSaveNotif at h
  split_ifs at h
  · cases h
    rfl
  · exact objects_assignNotifTree h

/-- A save leaves the objects alone and returns whether the interval is admitted. -/
theorem objects_saveInterval {treeNode notifNode : Option Nat} {ret : Nat}
    (h : m.rmaAnalyzerSaveInterval fw (w win) p treeNode notifNode win = .ok (ret, m')) :
    m'.objects = m.objects ∧ (ret = 0 ↔ admits fw (w win) p.itv = false) := by
  unfold StoreMemory.rmaAnalyzerSaveInterval at h
  cases hadm : admits fw (w win) p.itv with
  | false =>
      rw [hadm] at h
      cases h
      exact ⟨rfl, by simp⟩
  | true =>
      simp only [hadm, if_true] at h
      obtain ⟨found, -, h⟩ := bind_ok.mp h
      cases found with
      | some q => cases h
      | none =>
          obtain ⟨m₁, htree, h⟩ := bind_ok.mp h
          obtain ⟨m₂, hnotif, h⟩ := bind_ok.mp h
          cases h
          refine ⟨?_, by simp⟩
          rw [objects_saveNotif hnotif, objects_assignLocalTree htree]

theorem createInterval_ok {itv : Interval} {object : Option Nat}
    (h : m.createInterval itv object = .ok (p, m')) :
    ∃ addr ∉ m.objects, p = ⟨addr, itv⟩ ∧
      m' = { m with objects := m.objects.insert addr itv } := by
  cases object with
  | none => cases h
  | some addr =>
      simp only [StoreMemory.createInterval] at h
      split_ifs at h with hlive
      cases h
      exact ⟨addr, hlive, rfl, rfl⟩

theorem keys_insert_addr {objects : Finmap fun _ : Nat => Interval} {addr : Nat} {itv : Interval} :
    (objects.insert addr itv).keys = insert addr objects.keys := by
  ext b
  simp only [Finmap.mem_keys, Finmap.mem_insert, Finset.mem_insert]

theorem card_objects_createInterval {itv : Interval} {object : Option Nat}
    (h : m.createInterval itv object = .ok (p, m')) :
    m'.objects.keys.card = m.objects.keys.card + 1 := by
  obtain ⟨addr, hlive, rfl, rfl⟩ := createInterval_ok h
  rw [keys_insert_addr, Finset.card_insert_of_notMem (mt Finmap.mem_keys.mp hlive)]

/-- The object of a save stays, unless it has been filtered out and the caller frees it. -/
theorem card_objects_saveObject {itv : Interval} {object treeNode notifNode : Option Nat}
    {looks : Bool}
    (h : m.saveObject fw (w win) itv object treeNode notifNode looks win = .ok m') :
    m'.objects.keys.card = m.objects.keys.card +
      if admits fw (w win) itv = true ∨ looks = false then 1 else 0 := by
  obtain ⟨⟨p, m₁⟩, hcreate, hrest⟩ := bind_ok.mp h
  obtain ⟨⟨ret, m₂⟩, hsave, hfreed⟩ := bind_ok.mp hrest
  obtain ⟨addr, hlive, rfl, rfl⟩ := createInterval_ok hcreate
  obtain ⟨hobjects, hret⟩ := objects_saveInterval hsave
  have hfresh : addr ∉ m.objects.keys := mt Finmap.mem_keys.mp hlive
  simp only at hfreed
  split_ifs at hfreed with hfree
  · cases hfreed
    have hnot : ¬ (admits fw (w win) itv = true ∨ looks = false) := by
      rintro (hadm | hlooks)
      · rw [hret.mp hfree.2] at hadm
        cases hadm
      · rw [hlooks] at hfree
        cases hfree.1
    rw [if_neg hnot, hobjects, Finmap.keys_erase, keys_insert_addr, Finset.erase_insert hfresh]
    rfl
  · cases hfreed
    have hleft : admits fw (w win) itv = true ∨ looks = false := by
      by_contra hnot
      obtain ⟨hadm, hlooks⟩ := not_or.mp hnot
      exact hfree ⟨Bool.eq_true_of_not_eq_false hlooks,
        hret.mpr (Bool.eq_false_of_not_eq_true hadm)⟩
    rw [if_pos hleft, hobjects, keys_insert_addr, Finset.card_insert_of_notMem hfresh]

/-- A call adds the objects that it leaves. -/
theorem card_objects_step {call : MpiWin × MemoryOp} (h : memoryStep fw w m call = .ok m') :
    m'.objects.keys.card = m.objects.keys.card + leftObjects fw w call := by
  obtain ⟨win, op⟩ := call
  cases op with
  | save itv object treeNode notifNode =>
      rw [card_objects_saveObject h]
      simp [leftObjects]
  | send c localItv treeNode targetItv =>
      obtain ⟨m₁, hsave, hsent⟩ := bind_ok.mp h
      obtain ⟨⟨p, m₂⟩, hcreate, hret⟩ := bind_ok.mp hsent
      cases hret
      rw [card_objects_createInterval hcreate, card_objects_saveObject hsave, if_pos (.inr rfl)]
      rfl
  | initThread received object =>
      obtain ⟨⟨p, m₁⟩, hcreate, hret⟩ := bind_ok.mp h
      cases hret
      exact card_objects_createInterval hcreate
  | clear notifId =>
      have hobjects : m'.objects = m.objects := by
        simp only [memoryStep, StoreMemory.rmaAnalyzerClearFromNotifId] at h
        split_ifs at h
        · cases h
          rfl
        · obtain ⟨found, -, h⟩ := bind_ok.mp h
          obtain ⟨m₁, hdelete, h⟩ := bind_ok.mp h
          rw [objects_assignNotifTree h, objects_deleteIntervalTree hdelete]
      rw [hobjects]
      rfl
  | clearThread tmp =>
      obtain ⟨m₁, hfree, h⟩ := bind_ok.mp h
      rw [objects_assignNotifTree h, objects_assignLocalTree hfree]
      rfl

end Objects

/-- By induction on the calls: the objects that a call leaves stay allocated. -/
theorem card_objects_run (hrun : run (memoryStep fw w) .empty calls = .ok m) :
    m.objects.keys.card = (calls.map (leftObjects fw w)).sum := by
  refine invariant_of_prefix
    (I := fun pre (m : StoreMemory) => m.objects.keys.card = (pre.map (leftObjects fw w)).sum) rfl
    (fun pre call t t' _ ht hstep => ?_) (List.prefix_refl calls) hrun
  rw [card_objects_step hstep, ht, List.map_append, List.sum_append, List.map_singleton,
    List.sum_singleton]

/-- The last call on the window, if there is one, ends an epoch. -/
def EpochEnded (calls : List (MpiWin × MemoryOp)) (win : MpiWin) : Prop :=
  ∀ call, (calls.filter (·.1 = win)).getLast? = some call → ∃ tmp, call.2 = .clearThread tmp

/-- A call leaves the records of the other windows alone. -/
theorem windowsStep_of_ne {states' : MpiWin → RmaAnalyzerState} {call : MpiWin × Option WinOp}
    (h : windowsStep fw states call = .ok states') {win : MpiWin} (hwin : win ≠ call.1) :
    states' win = states win := by
  obtain ⟨j, _ | op⟩ := call
  · cases h
    rfl
  · obtain ⟨state, -, h⟩ := bind_ok.mp h
    cases h
    exact Function.update_of_ne hwin ..

/-- A window whose last call ends an epoch has empty trees. -/
theorem trees_of_epochEnded (hw : ∀ win, EmptyStores (w win))
    (hrun : run (windowsStep fw) w (calls.map fun call => (call.1, call.2.onTrees)) = .ok states)
    {win : MpiWin} (hended : EpochEnded calls win) :
    (states win).localTree = .nil ∧ (states win).notifTree = .nil := by
  induction calls using List.reverseRecOn generalizing states with
  | nil =>
      cases hrun
      exact ⟨(hw win).1, (hw win).2.1⟩
  | append_singleton pre call ih =>
      rw [List.map_append, List.map_singleton] at hrun
      obtain ⟨t, ht, hstep⟩ := run_snoc_ok.mp hrun
      by_cases hcall : call.1 = win
      · have hlast : ((pre ++ [call]).filter (·.1 = win)).getLast? = some call := by
          simp [hcall]
        obtain ⟨tmp, htmp⟩ := hended call hlast
        rw [htmp] at hstep
        obtain ⟨state, hwin, h⟩ := bind_ok.mp hstep
        cases h
        rw [← hcall, Function.update_self, freeTrees_ok hwin]
        exact ⟨rfl, rfl⟩
      · rw [windowsStep_of_ne hstep (Ne.symm hcall)]
        refine ih ht fun call' hlast => hended call' ?_
        simpa [hcall] using hlast

/-- Once all epochs have ended, no node of any tree is allocated any more.  The objects are: every
interval that was stored, both of every transfer, and the receive buffer of every checking
thread. -/
theorem allocated_of_epochsEnded (fw : Int) {w : MpiWin → RmaAnalyzerState}
    (hw : ∀ win, EmptyStores (w win)) {calls : List (MpiWin × MemoryOp)} {m : StoreMemory}
    (hrun : run (memoryStep fw w) .empty calls = .ok m) (hended : ∀ win, EpochEnded calls win) :
    m.treeNodes = ∅ ∧ m.notifNodes = ∅ ∧
      m.objects.keys.card = (calls.map (leftObjects fw w)).sum := by
  have hrefines := refines_memoryRun fw hw calls
  rw [hrun] at hrefines
  obtain ⟨states, hstates, hstands⟩ := hrefines.exists_ok
  have htrees := fun win => trees_of_epochEnded hw hstates (hended win)
  exact ⟨hstands.trees.eq_empty fun win => (htrees win).1,
    hstands.notifs.eq_empty fun win => (htrees win).2, card_objects_run hrun⟩

/-- A put of four bytes to another process, from memory outside of the window. -/
def outgoingPut : CommSend where
  localAddress := 65536
  localSize := 4
  targetDisp := 0
  targetSize := 4
  targetRank := 1
  localAccessType := .rmaRead
  targetAccessType := .rmaWrite
  notifId := -1
  fileline := 12
  filename := none

/-- A thread is started, a put arrives and is stored, a put is sent, and the epoch ends. -/
def epochWithPuts : List (MpiWin × MemoryOp) :=
  [(0, .initThread firstByteLoad (some 8)), (0, .save arrivedPut (some 16) (some 64) (some 72)),
    (0, .send outgoingPut (some 24) none (some 32)), (0, .clearThread 1)]

/-- The receive buffer, the stored put and the two intervals of the one that is sent stay. -/
theorem allocated_of_epochsEnded_epochWithPuts :
    ∃ m, run (memoryStep 1 windowPair) .empty epochWithPuts = .ok m ∧
      m.treeNodes = ∅ ∧ m.notifNodes = ∅ ∧ m.objects.keys.card = 4 := by
  have hrun : run (memoryStep 1 windowPair) .empty epochWithPuts = .ok _ := rfl
  refine ⟨_, hrun, allocated_of_epochsEnded 1 (fun _ => ⟨rfl, rfl, rfl⟩) hrun
    fun win call hlast => ?_⟩
  by_cases hwin : win = 0
  · subst hwin
    obtain rfl := Option.some.inj hlast
    exact ⟨1, rfl⟩
  · simp [epochWithPuts, Ne.symm hwin] at hlast

end Runs

end ParcoachRma
