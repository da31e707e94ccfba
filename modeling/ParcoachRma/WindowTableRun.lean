import ParcoachRma.WindowTableSpec

/-!
# Runs on the records in memory

* `tableRun_refines`: along any calls, the code that looks its records up in the table of `uthash.h`
  does what the calls do to a list of records, a report included, unless the allocator fails it.
* `hashFsck_of_run`: the table passes the check of its integrity after any calls, and a record for
  each window that has been created is allocated.

Both are about tables whose counters do not wrap around: the allocator grants no 32 GiB at once,
which is what `2 ^ 31` buckets take, and fewer than `2 ^ 32` windows are created.
-/

namespace ParcoachRma

open Run

variable {hashFcn : MpiWin → UInt32} {created : Nat} {live first : Finset Nat} {m : TableMemory}
  {a : Analyzer} {s : TableMemory × List ShadowMessage} {t : Analyzer × List ShadowMessage}
  {calls : List TableCall} {call : TableCall}

/-- The allocator grants the call no request of 32 GiB. -/
def TableCall.Bounded : TableCall → Prop
  | .create _ granted .. => AllocatorBounded granted
  | _ => True

/-- How many windows the calls have created. -/
def windowsCreated (calls : List TableCall) : Nat := (calls.filterMap TableCall.newRecord).length

theorem windowsCreated_snoc :
    windowsCreated (calls ++ [call]) = windowsCreated calls + call.newRecord.toFinset.card := by
  cases hnew : call.newRecord <;> simp [windowsCreated, hnew]

theorem windowsCreated_mono {pre : List TableCall} (hpre : pre <+: calls) :
    windowsCreated pre ≤ windowsCreated calls :=
  (hpre.filterMap _).length_le

/-- A process at its start has no records, whatever is in its memory. -/
theorem leadsTo_init (hashFcn : MpiWin → UInt32) (stateHtbl : UtHash RmaAnalyzerState) :
    LeadsTo hashFcn 0 stateHtbl.live (.init stateHtbl) .init :=
  ⟨[], fun _ => 0, le_rfl, ⟨List.nodup_nil, fun _ hp => absurd hp List.not_mem_nil, rfl, .nil,
    fun _ hp => absurd hp List.not_mem_nil, fun hne => absurd rfl hne⟩,
    fun _ hp => absurd hp List.not_mem_nil, List.nodup_nil, rfl, rfl⟩

namespace LeadsTo

theorem of_reflects {items : List Nat} {wins : Nat → MpiWin} (hlength : items.length ≤ created)
    {x : Except TableFault TableMemory} {y : Except Fault Analyzer}
    (hxy : TableRefines (Reflects hashFcn items wins live) x y) :
    TableRefines (LeadsTo hashFcn created live) x y :=
  hxy.mono fun _ _ h => ⟨items, wins, hlength, h⟩

theorem refines_wrapper (h : LeadsTo hashFcn created live m a) (win : MpiWin) (c : WindowCall) :
    TableRefines (LeadsTo hashFcn created live) (m.wrapper hashFcn win c) (c.wrapper win a) := by
  obtain ⟨items, wins, hlength, h⟩ := h
  cases c with
  | fence noSucceed tmp => exact of_reflects hlength (h.newWinFence tmp win)
  | lock rank => exact of_reflects hlength (h.initCommCheckThread win)
  | lockAll => exact of_reflects hlength (h.initCommCheckThread win)
  | start => exact of_reflects hlength (h.initCommCheckThread win)
  | post => exact of_reflects hlength (h.initCommCheckThread win)
  | unlock rank tmp => exact of_reflects hlength (h.clearCommCheckThread true tmp win)
  | unlockAll tmp => exact of_reflects hlength (h.clearCommCheckThread true tmp win)
  | complete tmp => exact of_reflects hlength (h.clearCommCheckThread true tmp win)
  | wait tmp => exact of_reflects hlength (h.clearCommCheckThread true tmp win)
  | save itv => exact of_reflects hlength (h.saveInWindow itv win)
  | free =>
      exact (h.newWinFree win).mono fun _ _ ⟨items', wins', hlength', h'⟩ =>
        ⟨items', wins', hlength'.trans hlength, h'⟩

/-- A call that sends nothing. -/
theorem with_messages {x : Except TableFault TableMemory} {y : Except Fault Analyzer}
    (hxy : TableRefines (LeadsTo hashFcn created live) x y) (msgs : List ShadowMessage) :
    TableRefines (fun s t => LeadsTo hashFcn created live s.1 t.1 ∧ s.2 = t.2)
      (do let m ← x; return (m, msgs)) (do let a ← y; return (a, msgs)) :=
  hxy.bind fun _ _ h => .ok ⟨h, rfl⟩

/-- One call in memory is the call on the records, and its record is the only one it allocates. -/
theorem refines_step (h : LeadsTo hashFcn created live m a) (msgs : List ShadowMessage)
    (hcall : call.Bounded) (hbound : created + call.newRecord.toFinset.card < 2 ^ 32) :
    TableRefines
      (fun s t => (LeadsTo hashFcn (created + call.newRecord.toFinset.card)
          (live ∪ call.newRecord.toFinset) s.1 t.1 ∧ s.2 = t.2) ∧
        Disjoint live call.newRecord.toFinset)
      (TableMemory.step hashFcn (m, msgs) call) (tableStep (a, msgs) call) := by
  -- Only the creation of a window allocates a record.
  have hkeep : ∀ {x : Except TableFault (TableMemory × List ShadowMessage)}
      {y : Except Fault (Analyzer × List ShadowMessage)}, call.newRecord = none →
      TableRefines (fun s t => LeadsTo hashFcn created live s.1 t.1 ∧ s.2 = t.2) x y →
      TableRefines
        (fun s t => (LeadsTo hashFcn (created + call.newRecord.toFinset.card)
            (live ∪ call.newRecord.toFinset) s.1 t.1 ∧ s.2 = t.2) ∧
          Disjoint live call.newRecord.toFinset) x y := by
    intro x y hnone hxy
    rw [hnone]
    refine Refines.mono hxy fun s t hst => ⟨?_, Finset.disjoint_empty_right live⟩
    simpa using hst
  cases call with
  | create newState granted base size comm sizeComm win filterWindow =>
      obtain ⟨items, wins, hlength, h⟩ := h
      rw [TableMemory.step, tableStep, h.windows]
      by_cases hwin : win ∈ items.map wins
      · obtain ⟨p, hp, rfl⟩ := List.mem_map.mp hwin
        rw [if_pos hwin, h.hashFind_some hp]
        exact .error rfl
      · rw [if_neg hwin, h.hashFind_none hwin]
        have hfits : items.length + newState.toFinset.card < 2 ^ 32 :=
          (Nat.add_le_add_right hlength _).trans_lt hbound
        refine (h.start hwin hcall hfits base size comm sizeComm .c filterWindow).bind
          fun m' a' ⟨hfresh, items', wins', hlength', h'⟩ => ?_
        have hlength'' := hlength'.trans (Nat.add_le_add_right hlength _)
        exact .ok ⟨⟨⟨items', wins', hlength'', h'⟩, rfl⟩, hfresh⟩
  | call win c => exact hkeep rfl (with_messages (h.refines_wrapper win c) msgs)
  | barrier tmp =>
      obtain ⟨items, wins, hlength, h⟩ := h
      exact hkeep rfl (with_messages (of_reflects hlength (h.newBarrier tmp)) msgs)
  | access address size accessType fileline filename =>
      obtain ⟨items, wins, hlength, h⟩ := h
      exact hkeep rfl (with_messages (of_reflects hlength
        (h.saveIntervalAllWins address size accessType fileline filename)) msgs)
  | send win c =>
      obtain ⟨items, wins, hlength, h⟩ := h
      refine hkeep rfl ((h.updateOnCommSend c win).bind fun x y hxy => ?_)
      obtain ⟨msg, m'⟩ := x
      obtain ⟨msg', a'⟩ := y
      obtain ⟨rfl, h'⟩ := hxy
      exact .ok ⟨⟨items, wins, hlength, h'⟩, rfl⟩
  | receive win received =>
      obtain ⟨items, wins, hlength, h⟩ := h
      exact hkeep rfl (with_messages (of_reflects hlength (h.saveReceived received win)) msgs)
  | clear win notifId =>
      obtain ⟨items, wins, hlength, h⟩ := h
      refine hkeep rfl ?_
      rw [TableMemory.step, tableStep]
      by_cases hid : notifId < 0
      · rw [TableMemory.rmaAnalyzerClearFromNotifId, if_pos hid, if_pos hid]
        exact .ok ⟨⟨items, wins, hlength, h⟩, rfl⟩
      · rw [if_neg hid]
        by_cases hwin : win ∈ items.map wins
        · obtain ⟨p, hp, rfl⟩ := List.mem_map.mp hwin
          rw [h.getState_list hp, ok_bind]
          exact (h.clearFromNotifId hp hid).bind fun m' state h' =>
            .ok ⟨⟨items, wins, hlength, h'⟩, rfl⟩
        · obtain ⟨hmemory, hlist⟩ := h.getState_error hwin
          rw [TableMemory.rmaAnalyzerClearFromNotifId, if_neg hid, hmemory, hlist]
          exact .error rfl

end LeadsTo

/-! ## Runs -/

/-- The two states of a run over the calls: the table leads to the records, of which there are no
more than windows created, the record of every window created is allocated besides those of
`first`, and the messages are the same. -/
def StandsForRun (hashFcn : MpiWin → UInt32) (first : Finset Nat) (calls : List TableCall)
    (s : TableMemory × List ShadowMessage) (t : Analyzer × List ShadowMessage) : Prop :=
  (∃ live, LeadsTo hashFcn (windowsCreated calls) live s.1 t.1 ∧
    live.card = first.card + windowsCreated calls) ∧ s.2 = t.2

theorem StandsForRun.refines_step (h : StandsForRun hashFcn first calls s t)
    (hcall : call.Bounded) (hbound : windowsCreated (calls ++ [call]) < 2 ^ 32) :
    TableRefines (StandsForRun hashFcn first (calls ++ [call]))
      (TableMemory.step hashFcn s call) (tableStep t call) := by
  obtain ⟨m, msgs⟩ := s
  obtain ⟨a, msgs'⟩ := t
  obtain ⟨⟨live, h, hcard⟩, rfl⟩ := h
  rw [windowsCreated_snoc] at hbound
  refine (h.refines_step msgs hcall hbound).mono fun s t ⟨⟨h', hmsgs⟩, hfresh⟩ => ?_
  have hcard' : (live ∪ call.newRecord.toFinset).card =
      first.card + windowsCreated (calls ++ [call]) := by
    rw [windowsCreated_snoc, Finset.card_union_of_disjoint hfresh, hcard, Nat.add_assoc]
  rw [← windowsCreated_snoc] at h'
  exact ⟨⟨_, h', hcard'⟩, hmsgs⟩

/-- By induction on the calls, each of which goes from memory to records. -/
theorem refines_tableRun (hashFcn : MpiWin → UInt32) (stateHtbl : UtHash RmaAnalyzerState)
    (hcalls : ∀ call ∈ calls, call.Bounded) (hbound : windowsCreated calls < 2 ^ 32) :
    TableRefines (StandsForRun hashFcn stateHtbl.live calls)
      (run (TableMemory.step hashFcn) (.init stateHtbl, []) calls)
      (run tableStep (.init, []) calls) := by
  have hinit : StandsForRun hashFcn stateHtbl.live [] (.init stateHtbl, []) (.init, []) :=
    ⟨⟨_, leadsTo_init hashFcn stateHtbl, rfl⟩, rfl⟩
  refine Refines.run_of_prefix (fun pre call s t hpre h => ?_) hinit List.prefix_rfl
  have hmem : call ∈ calls := hpre.subset (List.mem_append_right pre List.mem_cons_self)
  exact h.refines_step (hcalls call hmem) ((windowsCreated_mono hpre).trans_lt hbound)

/-- Whatever a process calls, and whatever has been in its memory, the code that finds the records
through the table of `uthash.h` does what the calls do to a list of records, and ends as they do. -/
theorem tableRun_refines (hashFcn : MpiWin → UInt32) (stateHtbl : UtHash RmaAnalyzerState)
    (calls : List TableCall) (hcalls : ∀ call ∈ calls, call.Bounded)
    (hbound : windowsCreated calls < 2 ^ 32) :
    (∀ s, run (TableMemory.step hashFcn) (.init stateHtbl, []) calls = .ok s → ∃ t,
      run tableStep (.init, []) calls = .ok t ∧
        StandsForRun hashFcn stateHtbl.live calls s t) ∧
    ∀ f, run (TableMemory.step hashFcn) (.init stateHtbl, []) calls = .error f →
      f.AllocatorFails ∨ ∃ g, f = .analyzer g ∧ run tableStep (.init, []) calls = .error g := by
  have hrefines := refines_tableRun hashFcn stateHtbl hcalls hbound
  constructor
  · intro s hrun
    rw [hrun] at hrefines
    exact Refines.exists_ok hrefines
  · intro f hrun
    rw [hrun] at hrefines
    exact (Refines.exists_error hrefines).imp_right fun ⟨g, hg, hf⟩ => ⟨g, hf, hg⟩

/-- A memory with nothing in it. -/
def emptyMemory : UtHash RmaAnalyzerState where
  live := ∅
  elmt := fun _ => .new 0 0 0 0 0 0
  prev := fun _ => none
  next := fun _ => none
  hhPrev := fun _ => none
  hhNext := fun _ => none
  hashv := fun _ => 0
  head := none
  tbl := none

/-- An allocator that grants what is less than 32 GiB. -/
def grantsBelow32GiB (bytes : Nat) : Bool := decide (bytes < 2 ^ 35)

theorem allocatorBounded_grantsBelow32GiB : AllocatorBounded grantsBelow32GiB :=
  fun _ => of_decide_eq_true

/-- Two windows are created, and an epoch is opened on the second one. -/
def openSecond : List TableCall :=
  [.create (some 100) grantsBelow32GiB 4096 400 0 2 7 none,
    .create (some 200) grantsBelow32GiB 8192 400 0 2 9 none, .call 9 .lockAll]

theorem bounded_openSecond : ∀ call ∈ openSecond, call.Bounded := by
  simp [openSecond, TableCall.Bounded, allocatorBounded_grantsBelow32GiB]

/-- Four bytes of the second window are stored to, and a put to them arrives. -/
def storeThenPut : List TableCall :=
  openSecond ++ [.access 8192 3 .localWrite 10 none,
    .receive 9 (createInterval 0 3 .rmaWrite (-1) 20 none)]

/-- The put is reported in memory, hence on the records. -/
theorem tableRun_refines_storeThenPut :
    run tableStep (.init, []) storeThenPut = .error (.mpiAbort (conflictReport
      (createInterval 8192 8195 .rmaWrite (-1) 20 none)
      (createInterval 8192 8195 .localWrite (-1) 10 none))) := by
  have hrun : run (TableMemory.step TableMemory.hashWin) (.init emptyMemory, []) storeThenPut =
      .error (.analyzer (.mpiAbort (conflictReport
        (createInterval 8192 8195 .rmaWrite (-1) 20 none)
        (createInterval 8192 8195 .localWrite (-1) 10 none)))) :=
    eq_error_of_decide (by decide +kernel)
  have hcalls : ∀ call ∈ storeThenPut, call.Bounded := by
    rw [storeThenPut, List.forall_mem_append]
    exact ⟨bounded_openSecond, by simp [TableCall.Bounded]⟩
  rcases (tableRun_refines TableMemory.hashWin emptyMemory storeThenPut hcalls (by decide)).2 _ hrun
    with hfails | ⟨g, hg, hrun'⟩
  · rcases hfails with hfails | hfails | hfails <;> cases hfails
  · obtain rfl := TableFault.analyzer.inj hg
    exact hrun'

/-- Whatever a process calls, `HASH_FSCK` finds nothing wrong with the table; and a record stays
allocated for each window that has been created, though it may have been freed. -/
theorem hashFsck_of_run {stateHtbl : UtHash RmaAnalyzerState}
    (h : run (TableMemory.step hashFcn) (.init stateHtbl, []) calls = .ok s)
    (hcalls : ∀ call ∈ calls, call.Bounded) (hbound : windowsCreated calls < 2 ^ 32) :
    hashFsck s.1.stateHtbl = .ok () ∧
      s.1.stateHtbl.live.card = stateHtbl.live.card + windowsCreated calls := by
  have hrefines := refines_tableRun hashFcn stateHtbl hcalls hbound
  rw [h] at hrefines
  obtain ⟨t, -, ⟨live, ⟨items, wins, -, hreflects⟩, hcard⟩, -⟩ := Refines.exists_ok hrefines
  rw [hreflects.live]
  exact ⟨hashFsck_spec hreflects.holds, hcard⟩

/-- The first of the two windows is freed. -/
theorem hashFsck_of_run_openSecond :
    ∃ s, run (TableMemory.step TableMemory.hashWin) (.init emptyMemory, [])
        (openSecond ++ [.call 7 .free]) = .ok s ∧
      hashFsck s.1.stateHtbl = .ok () ∧ s.1.stateHtbl.live.card = 2 := by
  obtain ⟨s, hrun, -⟩ : ∃ s, run (TableMemory.step TableMemory.hashWin) (.init emptyMemory, [])
      (openSecond ++ [.call 7 .free]) = .ok s ∧ s.2 = [] := exists_of_any (by decide +kernel)
  have hcalls : ∀ call ∈ openSecond ++ [.call 7 .free], call.Bounded := by
    rw [List.forall_mem_append]
    exact ⟨bounded_openSecond, by simp [TableCall.Bounded]⟩
  obtain ⟨hfsck, hcard⟩ := hashFsck_of_run hrun hcalls (by decide)
  exact ⟨s, hrun, hfsck, hcard⟩

end ParcoachRma
