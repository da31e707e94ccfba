import Mathlib.Data.Finset.Option
import ParcoachRma.Lib.Simulation
import ParcoachRma.WindowTable

/-!
# What the functions do to the records in memory

`Reflects hashFcn items wins live m a`: the table in memory leads to the records of `a`, which are
at the addresses `items`, in this order, and no two of which are of one window.  Each function in
memory refines the one on the records: it ends as that one does, unless the allocator fails it.
-/

namespace ParcoachRma

open Run

/-- The analyzer with the records at the addresses. -/
def TableMemory.analyzer (m : TableMemory) (items : List Nat) : Analyzer where
  stateHtbl := items.map m.stateHtbl.elmt
  winMpiTagId := m.winMpiTagId
  languageProgram := m.languageProgram
  filterWindow := m.filterWindow
  threads := m.threads
  nextThread := m.nextThread
  nextObject := m.nextObject

/-- The records that the table leads to are those of the analyzer, and `live` are all that are
allocated. -/
structure Reflects (hashFcn : MpiWin → UInt32) (items : List Nat) (wins : Nat → MpiWin)
    (live : Finset Nat) (m : TableMemory) (a : Analyzer) : Prop where
  holds : Holds RmaAnalyzerState.stateWin hashFcn m.stateHtbl items
  key : ∀ p ∈ items, (m.stateHtbl.elmt p).stateWin = wins p
  distinct : (items.map wins).Nodup
  live : m.stateHtbl.live = live
  analyzer : a = m.analyzer items

/-- What the first does in memory is what the second does to the records. -/
def TableRefines {σ τ : Type} (R : σ → τ → Prop) (x : Except TableFault σ) (y : Except Fault τ) :
    Prop :=
  Refines R (fun f g => f = .analyzer g) TableFault.AllocatorFails x y

namespace Reflects

variable {hashFcn : MpiWin → UInt32} {items : List Nat} {wins : Nat → MpiWin} {live : Finset Nat}
  {m m' : TableMemory} {a : Analyzer} {p : Nat} {win : MpiWin} {record : RmaAnalyzerState}

/-! ## Access -/

theorem windows (h : Reflects hashFcn items wins live m a) : a.windows = items.map wins := by
  rw [h.analyzer]
  simp only [Analyzer.windows, TableMemory.analyzer, List.map_map]
  exact List.map_congr_left fun p hp => h.key p hp

theorem read_eq (h : Reflects hashFcn items wins live m a) (hp : p ∈ items) :
    m.read p = .ok (m.stateHtbl.elmt p) := by
  rw [TableMemory.read, deref_of_mem (h.holds.live p hp)]
  rfl

/-- Elements with one key are one. -/
theorem eq_of_key (h : Reflects hashFcn items wins live m a) {q : Nat} (hp : p ∈ items)
    (hq : q ∈ items) (hkey : wins q = wins p) : q = p :=
  List.inj_on_of_nodup_map h.distinct hq hp hkey

/-- The record is found by its key. -/
theorem getState_list (h : Reflects hashFcn items wins live m a) (hp : p ∈ items) :
    rmaAnalyzerGetState (wins p) a = .ok (m.stateHtbl.elmt p) := by
  obtain ⟨state, hstate⟩ : ∃ state, rmaAnalyzerGetState (wins p) a = .ok state := by
    refine exists_getState ?_
    rw [h.windows]
    exact List.mem_map_of_mem hp
  obtain ⟨hmem, hwin⟩ := mem_of_getState hstate
  rw [h.analyzer] at hmem
  obtain ⟨q, hq, rfl⟩ := List.mem_map.mp hmem
  rw [h.key q hq] at hwin
  rw [hstate, h.eq_of_key hp hq hwin]

/-- The lookup leads to the record. -/
theorem hashFind_some (h : Reflects hashFcn items wins live m a) (hp : p ∈ items) :
    hashFind RmaAnalyzerState.stateWin hashFcn (wins p) m.stateHtbl = .ok (some p) := by
  obtain ⟨out, hfind, hsome, hnone⟩ := hashFind_spec h.holds (wins p)
  cases out with
  | none => exact absurd (h.key p hp) (hnone rfl p hp)
  | some q =>
      obtain ⟨hq, hkey⟩ := hsome q rfl
      rw [h.key q hq] at hkey
      rw [hfind, h.eq_of_key hp hq hkey]

/-- A window that is not in the table has no record. -/
theorem hashFind_none (h : Reflects hashFcn items wins live m a) (hwin : win ∉ items.map wins) :
    hashFind RmaAnalyzerState.stateWin hashFcn win m.stateHtbl = .ok none := by
  obtain ⟨out, hfind, hsome, -⟩ := hashFind_spec h.holds win
  cases out with
  | none => exact hfind
  | some q =>
      obtain ⟨hq, hkey⟩ := hsome q rfl
      rw [h.key q hq] at hkey
      exact absurd (List.mem_map.mpr ⟨q, hq, hkey⟩) hwin

theorem getState_ok (h : Reflects hashFcn items wins live m a) (hp : p ∈ items) :
    m.rmaAnalyzerGetState hashFcn (wins p) = .ok p := by
  rw [TableMemory.rmaAnalyzerGetState, h.hashFind_some hp]
  rfl

/-- Both lookups end the process. -/
theorem getState_error (h : Reflects hashFcn items wins live m a) (hwin : win ∉ items.map wins) :
    m.rmaAnalyzerGetState hashFcn win = .error (.analyzer .exitFailure) ∧
      rmaAnalyzerGetState win a = .error .exitFailure := by
  have hlist : a.stateHtbl.find? (·.stateWin = win) = none := by
    rw [List.find?_eq_none]
    intro state hstate
    have hmem : state.stateWin ∈ a.windows := List.mem_map_of_mem hstate
    rw [h.windows] at hmem
    simpa using fun heq : state.stateWin = win => hwin (heq ▸ hmem)
  rw [TableMemory.rmaAnalyzerGetState, h.hashFind_none hwin, rmaAnalyzerGetState, hlist]
  exact ⟨rfl, rfl⟩

/-- Both lookups find the record of the window, or both end the process. -/
theorem getState (h : Reflects hashFcn items wins live m a) (win : MpiWin) :
    TableRefines (fun p state => p ∈ items ∧ win = wins p ∧ state = m.stateHtbl.elmt p)
      (m.rmaAnalyzerGetState hashFcn win) (rmaAnalyzerGetState win a) := by
  by_cases hwin : win ∈ items.map wins
  · obtain ⟨p, hp, rfl⟩ := List.mem_map.mp hwin
    rw [h.getState_ok hp, h.getState_list hp]
    exact .ok ⟨hp, rfl, rfl⟩
  · obtain ⟨hmemory, hlist⟩ := h.getState_error hwin
    rw [hmemory, hlist]
    exact .error rfl

/-- A record with the handle of its window is written back. -/
theorem write (h : Reflects hashFcn items wins live m a) (hp : p ∈ items)
    (record : RmaAnalyzerState) (hwin : record.stateWin = wins p) :
    ∃ m', m.write p record = .ok m' ∧ m'.stateHtbl.elmt p = record ∧
      Reflects hashFcn items wins live m' (a.setState record) := by
  refine ⟨{ m with stateHtbl := { m.stateHtbl with
    elmt := Function.update m.stateHtbl.elmt p record } }, ?_, Function.update_self .., ?_⟩
  · rw [TableMemory.write, deref_of_mem (h.holds.live p hp)]
    rfl
  · have hkey : ∀ q ∈ items, (Function.update m.stateHtbl.elmt p record q).stateWin = wins q := by
      intro q hq
      rcases eq_or_ne q p with rfl | hqp
      · rw [Function.update_self, hwin]
      · rw [Function.update_of_ne hqp, h.key q hq]
    refine ⟨⟨h.holds.nodup, h.holds.live, h.holds.head, h.holds.links, fun q hq => ?_, ?_⟩, hkey,
      h.distinct, h.live, ?_⟩
    · refine (h.holds.hashv q hq).trans ?_
      rw [h.key q hq]
      exact congrArg hashFcn (hkey q hq).symm
    · intro hne
      obtain ⟨tbl, htbl, hholds⟩ := h.holds.table hne
      exact ⟨tbl, htbl, hholds.numItems, hholds.tail, hholds.buckets.congr (fun _ _ => rfl) rfl rfl⟩
    · rw [h.analyzer, Analyzer.setState, TableMemory.analyzer, TableMemory.analyzer]
      simp only [List.map_map, Analyzer.mk.injEq, and_true]
      refine List.map_congr_left fun q hq => ?_
      rw [Function.comp_apply, h.key q hq, hwin]
      split_ifs with hqp
      · rw [h.eq_of_key hp hq hqp, Function.update_self]
      · have hne : q ≠ p := fun heq => hqp (congrArg wins heq)
        rw [Function.update_of_ne hne]

theorem refines_write (h : Reflects hashFcn items wins live m a) (hp : p ∈ items)
    (hwin : record.stateWin = wins p) :
    TableRefines (Reflects hashFcn items wins live) (m.write p record)
      (.ok (a.setState record)) := by
  obtain ⟨m', hwrite, -, h'⟩ := h.write hp record hwin
  rw [hwrite]
  exact .ok h'

/-- A record that is written twice has been written once. -/
theorem setState_setState {state : RmaAnalyzerState} (hwin : state.stateWin = record.stateWin) :
    (a.setState state).setState record = a.setState record := by
  simp only [Analyzer.setState, List.map_map, Analyzer.mk.injEq, and_true]
  refine List.map_congr_left fun s _ => ?_
  rw [Function.comp_apply]
  split_ifs <;> simp_all

/-- A record that has been written is written again. -/
theorem rewrite {state : RmaAnalyzerState}
    (h : Reflects hashFcn items wins live m (a.setState state)) (hp : p ∈ items)
    (hstate : state.stateWin = wins p) (record : RmaAnalyzerState)
    (hwin : record.stateWin = wins p) :
    ∃ m', m.write p record = .ok m' ∧ Reflects hashFcn items wins live m' (a.setState record) := by
  obtain ⟨m', hwrite, -, h'⟩ := h.write hp record hwin
  rw [setState_setState (hstate.trans hwin.symm)] at h'
  exact ⟨m', hwrite, h'⟩

theorem setState_self (h : Reflects hashFcn items wins live m a) (hp : p ∈ items) :
    a.setState (m.stateHtbl.elmt p) = a := by
  obtain ⟨m', hwrite, -, h'⟩ := h.write hp _ (h.key p hp)
  rw [TableMemory.write, deref_of_mem (h.holds.live p hp)] at hwrite
  have hm : m = m' := by
    rw [← Except.ok.inj hwrite]
    simp only [Function.update_eq_self]
  rw [h'.analyzer, h.analyzer, hm]

/-- The record that has been written is the one in memory. -/
theorem elmt_of_setState {state : RmaAnalyzerState} (h : Reflects hashFcn items wins live m a)
    (h' : Reflects hashFcn items wins live m' (a.setState state)) (hp : p ∈ items)
    (hwin : state.stateWin = wins p) : m'.stateHtbl.elmt p = state := by
  have hlist := h'.getState_list hp
  rw [getState_setState (h.getState_list hp) hwin] at hlist
  exact (Except.ok.inj hlist).symm

theorem malloc (h : Reflects hashFcn items wins live m a) (itv : Interval) :
    (m.malloc itv).1 = (a.malloc itv).1 ∧
      Reflects hashFcn items wins live (m.malloc itv).2 (a.malloc itv).2 := by
  rw [h.analyzer]
  exact ⟨rfl, h.holds, h.key, h.distinct, h.live, rfl⟩

theorem pthreadCreate (h : Reflects hashFcn items wins live m a) (win : MpiWin) :
    ∃ threadId m' a', m.pthreadCreate win = (threadId, m') ∧
      a.pthreadCreate win = (threadId, a') ∧ Reflects hashFcn items wins live m' a' := by
  rw [h.analyzer]
  exact ⟨_, _, _, rfl, rfl, h.holds, h.key, h.distinct, h.live, rfl⟩

theorem pthreadJoin (h : Reflects hashFcn items wins live m a) (threadId : Option Nat) :
    TableRefines (Reflects hashFcn items wins live) (m.pthreadJoin threadId)
      (a.pthreadJoin threadId) := by
  have hthreads : a.threads = m.threads := congrArg Analyzer.threads h.analyzer
  cases threadId with
  | none => exact .error rfl
  | some tid =>
      simp only [TableMemory.pthreadJoin, Analyzer.pthreadJoin, hthreads]
      split_ifs
      · refine .ok ⟨h.holds, h.key, h.distinct, h.live, ?_⟩
        rw [h.analyzer]
        rfl
      · exact .error rfl

theorem mapError {σ : Type} (x : Except Fault σ) :
    TableRefines (fun s t => s = t ∧ x = .ok t) (x.mapError .analyzer) x := by
  cases x with
  | error f => exact .error rfl
  | ok s => exact .ok ⟨rfl, rfl⟩

/-! ## Saving -/

theorem isActiveEpoch (h : Reflects hashFcn items wins live m a) (hp : p ∈ items) :
    m.rmaAnalyzerIsActiveEpoch hashFcn (wins p) =
        .ok (decide ((m.stateHtbl.elmt p).activeEpoch > 0)) ∧
      rmaAnalyzerIsActiveEpoch (wins p) a =
        .ok (decide ((m.stateHtbl.elmt p).activeEpoch > 0)) := by
  rw [TableMemory.rmaAnalyzerIsActiveEpoch, rmaAnalyzerIsActiveEpoch, h.getState_ok hp,
    h.getState_list hp, ok_bind, h.read_eq hp]
  exact ⟨rfl, rfl⟩

theorem saveNotif (h : Reflects hashFcn items wins live m a) (hp : p ∈ items) (itv : IntervalPtr) :
    TableRefines (Reflects hashFcn items wins live) (m.rmaAnalyzerSaveNotif hashFcn itv (wins p))
      (.ok (a.setState (rmaAnalyzerSaveNotif itv (m.stateHtbl.elmt p)))) := by
  unfold TableMemory.rmaAnalyzerSaveNotif rmaAnalyzerSaveNotif
  split_ifs
  · rw [h.setState_self hp]
    exact .ok h
  · rw [h.getState_ok hp, ok_bind, h.read_eq hp]
    exact h.refines_write hp (h.key p hp)

/-- A save in memory writes the record twice, and that of the list is written once. -/
theorem saveInterval (h : Reflects hashFcn items wins live m a) (hp : p ∈ items)
    (itv : IntervalPtr) :
    TableRefines (fun x y => x.1 = y.1 ∧ x.2.stateHtbl.elmt p = y.2 ∧
        Reflects hashFcn items wins live x.2 (a.setState y.2))
      (m.rmaAnalyzerSaveInterval hashFcn itv (wins p))
      (rmaAnalyzerSaveInterval a.filterWindow (m.stateHtbl.elmt p) itv) := by
  have hfilter : a.filterWindow = m.filterWindow := congrArg Analyzer.filterWindow h.analyzer
  rw [TableMemory.rmaAnalyzerSaveInterval, rmaAnalyzerSaveInterval, h.getState_ok hp, ok_bind,
    h.read_eq hp, ok_bind, hfilter]
  split_ifs
  · cases hoverlap : overlapSearch (m.stateHtbl.elmt p).localTree itv with
    | some o => exact .error rfl
    | none =>
        obtain ⟨record, hrecord⟩ : ∃ record : RmaAnalyzerState, record = { m.stateHtbl.elmt p with
          localTree := insertIntervalTree (m.stateHtbl.elmt p).localTree itv } := ⟨_, rfl⟩
        have hwin : record.stateWin = wins p := by rw [hrecord, ← h.key p hp]
        obtain ⟨m', hwrite, helmt, h'⟩ := h.write hp record hwin
        have hnotif := h'.saveNotif hp itv
        obtain ⟨t, ht⟩ := rmaAnalyzerSaveNotif_eq itv record
        have hwin' : (ParcoachRma.rmaAnalyzerSaveNotif itv record).stateWin = wins p := by
          rw [ht, ← hwin]
        rw [helmt, setState_setState (hwin.trans hwin'.symm)] at hnotif
        simp only [← hrecord, hwrite, ok_bind]
        exact hnotif.bind_of_ok fun m'' h'' => .ok ⟨rfl, h.elmt_of_setState h'' hp hwin', h''⟩
  · refine .ok ⟨rfl, rfl, ?_⟩
    rw [h.setState_self hp]
    exact h

/-- The save of an interval that has just been made. -/
theorem saveMalloc (h : Reflects hashFcn items wins live m a) (hp : p ∈ items) (itv : Interval) :
    TableRefines (fun x y => x.1 = y.1 ∧ x.2.stateHtbl.elmt p = y.2 ∧
        Reflects hashFcn items wins live x.2 ((a.malloc itv).2.setState y.2))
      ((m.malloc itv).2.rmaAnalyzerSaveInterval hashFcn (m.malloc itv).1 (wins p))
      (rmaAnalyzerSaveInterval a.filterWindow (m.stateHtbl.elmt p) (a.malloc itv).1) := by
  obtain ⟨hfirst, hrest⟩ := h.malloc itv
  rw [hfirst]
  exact hrest.saveInterval hp (a.malloc itv).1

theorem saveIntervalInWin (h : Reflects hashFcn items wins live m a) (hp : p ∈ items)
    (itv : Interval) :
    TableRefines (Reflects hashFcn items wins live)
      (TableMemory.saveIntervalInWin hashFcn itv p m) (saveIntervalInWin itv a (wins p)) := by
  obtain ⟨hactive, hactive'⟩ := h.isActiveEpoch hp
  rw [TableMemory.saveIntervalInWin, ParcoachRma.saveIntervalInWin, h.read_eq hp, ok_bind,
    h.key p hp, hactive, hactive', ok_bind, ok_bind]
  split_ifs
  · have hlist : rmaAnalyzerGetState (wins p) (a.malloc itv).2 = .ok (m.stateHtbl.elmt p) :=
      (h.malloc itv).2.getState_list hp
    simp only [hlist, ok_bind]
    exact (h.saveMalloc hp itv).bind fun _ _ hsaved => .ok hsaved.2.2
  · exact .ok h

/-- The save of an interval that the caller has. -/
theorem saveInWindow (h : Reflects hashFcn items wins live m a) (itv : IntervalPtr)
    (win : MpiWin) :
    TableRefines (Reflects hashFcn items wins live)
      (do
        let (_, m) ← m.rmaAnalyzerSaveInterval hashFcn itv win
        return m)
      (do
        let state ← rmaAnalyzerGetState win a
        let (_, state) ← rmaAnalyzerSaveInterval a.filterWindow state itv
        return a.setState state) := by
  by_cases hwin : win ∈ items.map wins
  · obtain ⟨p, hp, rfl⟩ := List.mem_map.mp hwin
    rw [h.getState_list hp, ok_bind]
    exact (h.saveInterval hp itv).bind fun _ _ hsaved => .ok hsaved.2.2
  · obtain ⟨hmemory, hlist⟩ := h.getState_error hwin
    rw [TableMemory.rmaAnalyzerSaveInterval, hmemory, hlist]
    exact .error rfl

theorem updateOnCommSend (h : Reflects hashFcn items wins live m a) (c : CommSend) (win : MpiWin) :
    TableRefines (fun x y => x.1 = y.1 ∧ Reflects hashFcn items wins live x.2 y.2)
      (m.rmaAnalyzerUpdateOnCommSend hashFcn c win) (rmaAnalyzerUpdateOnCommSend c win a) := by
  refine (h.getState win).bind fun p _ ⟨hp, hwin, hstate⟩ => ?_
  subst hwin hstate
  refine (h.saveMalloc hp c.localItv).bind fun ⟨_, m'⟩ ⟨_, state⟩ ⟨_, helmt, h'⟩ => ?_
  dsimp only at helmt h' ⊢
  subst helmt
  rw [h'.read_eq hp, ok_bind]
  obtain ⟨m'', hwrite, h''⟩ := h'.rewrite hp (h'.key p hp)
    ((m'.stateHtbl.elmt p).countSent c.targetRank) (h'.key p hp)
  rw [hwrite]
  exact .ok ⟨rfl, h''⟩

theorem saveReceived (h : Reflects hashFcn items wins live m a) (received : Interval)
    (win : MpiWin) :
    TableRefines (Reflects hashFcn items wins live) (m.rmaAnalyzerSaveReceived hashFcn received win)
      (rmaAnalyzerSaveReceived received win a) := by
  refine (h.getState win).bind fun p _ ⟨hp, hwin, hstate⟩ => ?_
  subst hwin hstate
  rw [h.read_eq hp, ok_bind]
  exact (h.saveMalloc hp _).bind fun _ _ hsaved => .ok hsaved.2.2

/-! ## Notifications -/

theorem deleteInterval (h : Reflects hashFcn items wins live m a) (hp : p ∈ items)
    (itv : Option IntervalPtr) :
    TableRefines (fun m' state => m'.stateHtbl.elmt p = state ∧
        Reflects hashFcn items wins live m' (a.setState state))
      (m.rmaAnalyzerDeleteInterval hashFcn itv (wins p))
      (rmaAnalyzerDeleteInterval itv (m.stateHtbl.elmt p)) := by
  rw [TableMemory.rmaAnalyzerDeleteInterval, h.getState_ok hp, ok_bind, h.read_eq hp, ok_bind]
  refine (mapError _).bind fun t _ ⟨ht, _⟩ => ?_
  subst ht
  obtain ⟨m', hwrite, helmt, h'⟩ := h.write hp
    { m.stateHtbl.elmt p with localTree := t } (h.key p hp)
  rw [hwrite]
  exact .ok ⟨helmt, h'⟩

theorem clearFromNotifId (h : Reflects hashFcn items wins live m a) (hp : p ∈ items)
    {notifId : Int} (hid : ¬ notifId < 0) :
    TableRefines (fun m' state => Reflects hashFcn items wins live m' (a.setState state))
      (m.rmaAnalyzerClearFromNotifId hashFcn (wins p) notifId)
      (rmaAnalyzerClearFromNotifId (m.stateHtbl.elmt p) notifId) := by
  rw [TableMemory.rmaAnalyzerClearFromNotifId, rmaAnalyzerClearFromNotifId, if_neg hid, if_neg hid,
    h.getState_ok hp, ok_bind, h.read_eq hp, ok_bind]
  refine (h.deleteInterval hp _).bind fun m' state ⟨helmt, h'⟩ => ?_
  subst helmt
  rw [h'.read_eq hp, ok_bind]
  obtain ⟨m'', hwrite, h''⟩ := h'.rewrite hp (h'.key p hp) { m'.stateHtbl.elmt p with
    notifTree := deleteNotifTree (m'.stateHtbl.elmt p).notifTree notifId } (h'.key p hp)
  rw [hwrite]
  exact .ok h''

/-! ## Epochs -/

theorem initCommCheckThread (h : Reflects hashFcn items wins live m a) (win : MpiWin) :
    TableRefines (Reflects hashFcn items wins live)
      (m.rmaAnalyzerInitCommCheckThread hashFcn win) (rmaAnalyzerInitCommCheckThread win a) := by
  refine (h.getState win).bind fun p _ ⟨hp, hwin, hstate⟩ => ?_
  subst hwin hstate
  obtain ⟨threadId, m', a', hm', ha', h'⟩ := h.pthreadCreate (wins p)
  rw [h.read_eq hp, ok_bind, hm', ha']
  have hwin : { (m.stateHtbl.elmt p).enterEpoch with threadId := some threadId }.stateWin =
      wins p := h.key p hp
  exact h'.refines_write hp hwin

theorem clearCommCheckThread (h : Reflects hashFcn items wins live m a) (doReduce : Bool)
    (tmp : Nat) (win : MpiWin) :
    TableRefines (Reflects hashFcn items wins live)
      (m.rmaAnalyzerClearCommCheckThread hashFcn doReduce tmp win)
      (rmaAnalyzerClearCommCheckThread doReduce tmp win a) := by
  refine (h.getState win).bind fun p _ ⟨hp, hwin, hstate⟩ => ?_
  subst hwin hstate
  rw [h.read_eq hp, ok_bind]
  refine (h.pthreadJoin _).bind fun m' a' h' => ?_
  refine (mapError _).bind fun record _ ⟨hrecord, hfree⟩ => ?_
  subst hrecord
  refine h'.refines_write hp ?_
  obtain ⟨_, _, rfl⟩ := RmaAnalyzerState.eq_of_freeTrees hfree
  exact h.key p hp

/-! ## All windows -/

theorem initInWin (h : Reflects hashFcn items wins live m a) (hp : p ∈ items) :
    TableRefines (Reflects hashFcn items wins live) (TableMemory.initInWin hashFcn p m)
      (initInWin a (wins p)) := by
  obtain ⟨hactive, hactive'⟩ := h.isActiveEpoch hp
  rw [TableMemory.initInWin, ParcoachRma.initInWin, h.read_eq hp, ok_bind, h.getState_list hp,
    ok_bind, h.key p hp, hactive, hactive', ok_bind, ok_bind]
  split_ifs
  · exact h.initCommCheckThread (wins p)
  · exact .ok h

theorem clearInWin (h : Reflects hashFcn items wins live m a) (hp : p ∈ items) (doReduce : Bool)
    (tmp : MpiWin → Nat) :
    TableRefines (Reflects hashFcn items wins live)
      (TableMemory.clearInWin hashFcn doReduce tmp p m) (clearInWin doReduce tmp a (wins p)) := by
  obtain ⟨hactive, hactive'⟩ := h.isActiveEpoch hp
  rw [TableMemory.clearInWin, ParcoachRma.clearInWin, h.read_eq hp, ok_bind, h.key p hp, hactive,
    hactive', ok_bind, ok_bind]
  split_ifs
  · refine (h.clearCommCheckThread doReduce (tmp (wins p)) (wins p)).bind fun m' a' h' => ?_
    rw [h'.read_eq hp, h'.getState_list hp]
    exact h'.refines_write hp (h'.key p hp)
  · exact .ok h

/-- The loop over the table is the loop over the windows in the order they have been created in. -/
theorem hashIter (h : Reflects hashFcn items wins live m a)
    {body : Nat → TableMemory → Except TableFault TableMemory}
    {visit : Analyzer → MpiWin → Except Fault Analyzer}
    (hbody : ∀ p ∈ items, ∀ m a, Reflects hashFcn items wins live m a →
      TableRefines (Reflects hashFcn items wins live) (body p m) (visit a (wins p))) :
    TableRefines (Reflects hashFcn items wins live)
      (ParcoachRma.hashIter TableMemory.stateHtbl .table body m) (a.windows.foldlM visit a) := by
  rw [h.windows, List.foldlM_map]
  exact refines_hashIter .table (fun m a h => h.holds) hbody h

theorem saveIntervalAllWins (h : Reflects hashFcn items wins live m a) (address size : UInt64)
    (accessType : AccessType) (fileline : Int) (filename : Option String) :
    TableRefines (Reflects hashFcn items wins live)
      (m.rmaAnalyzerSaveIntervalAllWins hashFcn address size accessType fileline filename)
      (rmaAnalyzerSaveIntervalAllWins address size accessType fileline filename a) :=
  h.hashIter fun _ hp _ _ h => h.saveIntervalInWin hp _

theorem newBarrier (h : Reflects hashFcn items wins live m a) (tmp : MpiWin → Nat) :
    TableRefines (Reflects hashFcn items wins live) (m.newBarrier hashFcn tmp)
      (newBarrier tmp a) := by
  refine Refines.bind (h.hashIter fun _ hp _ _ h => h.clearInWin hp true tmp) fun m' a' h' => ?_
  exact h'.hashIter fun _ hp _ _ h => h.initInWin hp

/-- The thread of the last fence is cleared, if there has been one. -/
theorem clearAfterFence (h : Reflects hashFcn items wins live m a) (p : Nat)
    (doReduce : Bool) (tmp : Nat) :
    TableRefines (Reflects hashFcn items wins live)
      (if (m.stateHtbl.elmt p).countFence > 0 then
        m.rmaAnalyzerClearCommCheckThread hashFcn doReduce tmp (wins p) else .ok m)
      (if (m.stateHtbl.elmt p).countFence > 0 then
        rmaAnalyzerClearCommCheckThread doReduce tmp (wins p) a else .ok a) := by
  split_ifs
  · exact h.clearCommCheckThread doReduce tmp (wins p)
  · exact .ok h

theorem newWinFence (h : Reflects hashFcn items wins live m a) (tmp : Nat) (win : MpiWin) :
    TableRefines (Reflects hashFcn items wins live) (m.newWinFence hashFcn tmp win)
      (newWinFence tmp win a) := by
  refine (h.getState win).bind fun p _ ⟨hp, hwin, hstate⟩ => ?_
  subst hwin hstate
  rw [h.read_eq hp, ok_bind]
  refine (h.clearAfterFence p true tmp).bind fun m' a' h' => ?_
  rw [h'.read_eq hp, ok_bind, h'.getState_list hp, ok_bind]
  have hwin : { m'.stateHtbl.elmt p with
      countFence := (m'.stateHtbl.elmt p).countFence + 1 }.stateWin = wins p := h'.key p hp
  exact (h'.refines_write hp hwin).bind_of_ok fun m'' h'' => h''.initCommCheckThread (wins p)

end Reflects

/-! ## Creating and freeing windows -/

/-- The table leads to the records of the analyzer, wherever these are; there are no more of them
than windows that have been created. -/
def LeadsTo (hashFcn : MpiWin → UInt32) (created : Nat) (live : Finset Nat) (m : TableMemory)
    (a : Analyzer) : Prop :=
  ∃ items wins, items.length ≤ created ∧ Reflects hashFcn items wins live m a

namespace Reflects

variable {hashFcn : MpiWin → UInt32} {items : List Nat} {wins : Nat → MpiWin} {live : Finset Nat}
  {m m' : TableMemory} {a : Analyzer} {p : Nat} {win : MpiWin} {record : RmaAnalyzerState}

/-- The records of the other windows. -/
theorem filter_records (h : Reflects hashFcn items wins live m a) (hp : p ∈ items) :
    (items.map m.stateHtbl.elmt).filter (·.stateWin ≠ wins p) =
      (items.erase p).map m.stateHtbl.elmt := by
  rw [List.filter_map, h.holds.nodup.erase_eq_filter]
  congr 1
  refine List.filter_congr fun q hq => ?_
  rw [Function.comp_apply, h.key q hq]
  rcases eq_or_ne q p with rfl | hqp
  · simp
  · have hne : wins q ≠ wins p := fun hkey => hqp (h.eq_of_key hp hq hkey)
    simp [hqp, hne]

/-- The record of a window that is freed is taken out of the table. -/
theorem stop (h : Reflects hashFcn items wins live m a) (win : MpiWin) :
    TableRefines (LeadsTo hashFcn items.length live) (m.rmaAnalyzerStop hashFcn win)
      (rmaAnalyzerStop win a) := by
  refine (h.getState win).bind fun p _ ⟨hp, hwin, hstate⟩ => ?_
  subst hwin hstate
  have htags : a.winMpiTagId = m.winMpiTagId := congrArg Analyzer.winMpiTagId h.analyzer
  rw [h.read_eq hp, ok_bind, htags]
  refine (mapError _).bind fun table _ ⟨htable, _⟩ => ?_
  subst htable
  obtain ⟨stateHtbl, hdelete, hholds, hlive, helmt⟩ := hashDelete_spec h.holds hp
  rw [hdelete]
  refine .ok ⟨items.erase p, wins, List.length_erase_le, hholds, fun q hq => ?_, ?_,
    hlive.trans h.live, ?_⟩
  · rw [helmt]
    exact h.key q (List.mem_of_mem_erase hq)
  · exact h.distinct.sublist (List.erase_sublist.map wins)
  · rw [h.analyzer]
    simp only [TableMemory.analyzer, helmt]
    rw [h.filter_records hp]

theorem newWinFree (h : Reflects hashFcn items wins live m a) (win : MpiWin) :
    TableRefines (LeadsTo hashFcn items.length live) (m.newWinFree hashFcn win)
      (newWinFree win a) := by
  refine (h.getState win).bind fun p _ ⟨hp, hwin, hstate⟩ => ?_
  subst hwin hstate
  rw [h.read_eq hp, ok_bind]
  exact (h.clearAfterFence p false 0).bind fun m' a' h' => h'.stop (wins p)

/-- An allocated record that is not in the table does not matter to it. -/
theorem holds_insert (h : Reflects hashFcn items wins live m a) (hp : p ∉ m.stateHtbl.live)
    (record : RmaAnalyzerState) :
    Holds RmaAnalyzerState.stateWin hashFcn { m.stateHtbl with
      live := insert p m.stateHtbl.live
      elmt := Function.update m.stateHtbl.elmt p record } items := by
  have hne : ∀ q ∈ items, q ≠ p := fun q hq hqp => hp (hqp ▸ h.holds.live q hq)
  refine ⟨h.holds.nodup, fun q hq => Finset.mem_insert_of_mem (h.holds.live q hq), h.holds.head,
    h.holds.links, fun q hq => ?_, fun hnil => ?_⟩
  · dsimp only
    rw [Function.update_of_ne (hne q hq)]
    exact h.holds.hashv q hq
  · obtain ⟨tbl, htbl, hholds⟩ := h.holds.table hnil
    exact ⟨tbl, htbl, hholds.numItems, hholds.tail, hholds.buckets.congr (fun _ _ => rfl) rfl rfl⟩

theorem map_update_append {β : Type} (f : Nat → β) (hp : p ∉ items) (b : β) :
    (items ++ [p]).map (Function.update f p b) = items.map f ++ [b] := by
  rw [List.map_append, List.map_singleton, Function.update_self]
  congr 1
  refine List.map_congr_left fun q hq => ?_
  have hqp : q ≠ p := fun hqp => hp (hqp ▸ hq)
  exact Function.update_of_ne hqp ..

/-- The table after one more record has been added to it. -/
theorem append (h : Reflects hashFcn items wins live m a) (hp : p ∉ items)
    (hnew : record.stateWin ∉ items.map wins) (m' : TableMemory)
    (hholds : Holds RmaAnalyzerState.stateWin hashFcn m'.stateHtbl (items ++ [p]))
    (helmt : m'.stateHtbl.elmt = Function.update m.stateHtbl.elmt p record) :
    Reflects hashFcn (items ++ [p]) (Function.update wins p record.stateWin) m'.stateHtbl.live m'
      { m'.analyzer items with stateHtbl := a.stateHtbl ++ [record] } := by
  refine ⟨hholds, fun q hq => ?_, ?_, rfl, ?_⟩
  · rw [helmt]
    rcases List.mem_append.mp hq with hq | hq
    · have hqp : q ≠ p := fun hqp => hp (hqp ▸ hq)
      rw [Function.update_of_ne hqp, Function.update_of_ne hqp, h.key q hq]
    · rw [List.mem_singleton.mp hq, Function.update_self, Function.update_self]
  · rw [map_update_append wins hp, ← List.concat_eq_append]
    exact h.distinct.concat hnew
  · rw [TableMemory.analyzer, TableMemory.analyzer, helmt,
      map_update_append m.stateHtbl.elmt hp, h.analyzer]
    rfl

/-- A new window has its record at the end of the table. -/
theorem start (h : Reflects hashFcn items wins live m a) (hnew : win ∉ items.map wins)
    {newState : Option Nat} {granted : Nat → Bool} (hbounded : AllocatorBounded granted)
    (hbound : items.length + newState.toFinset.card < 2 ^ 32) (base size : UInt64)
    (comm : MpiComm) (sizeComm : Nat) (language : Lang) (filterWindow : Option Int) :
    TableRefines (fun m' a' => Disjoint live newState.toFinset ∧
        LeadsTo hashFcn (items.length + newState.toFinset.card) (live ∪ newState.toFinset) m' a')
      (m.rmaAnalyzerStart hashFcn newState granted base size comm sizeComm win language
        filterWindow)
      (rmaAnalyzerStart base size comm sizeComm win language filterWindow a) := by
  have hlanguage : a.languageProgram = m.languageProgram :=
    congrArg Analyzer.languageProgram h.analyzer
  have htags : a.winMpiTagId = m.winMpiTagId := congrArg Analyzer.winMpiTagId h.analyzer
  unfold TableMemory.rmaAnalyzerStart rmaAnalyzerStart
  rw [hlanguage, htags]
  split_ifs
  · cases newState with
    | none => exact .stuck (.inr (.inl rfl))
    | some p =>
        by_cases hp : p ∈ m.stateHtbl.live
        · simp only [if_pos hp]
          exact .stuck (.inr (.inr rfl))
        · simp only [if_neg hp]
          rcases rmaAnalyzerGetTagRangeId m.winMpiTagId with ⟨tagId, table⟩
          generalize hrecord : RmaAnalyzerState.new win base size comm sizeComm (tagOfSlot tagId) =
            record
          have hpItems : p ∉ items := fun hmem => hp (h.holds.live p hmem)
          rcases hashAddKeyptr_spec hbounded (h.holds_insert hp record)
            (Finset.mem_insert_self ..) hpItems hbound with
            hmemory | ⟨stateHtbl, hadd, hholds, hlive, helmt⟩
          · rw [hmemory]
            exact .stuck (.inl rfl)
          · rw [hadd]
            have hwin : record.stateWin = win := by rw [← hrecord]; rfl
            have happend := h.append hpItems (hwin ▸ hnew) { m with
              stateHtbl := stateHtbl
              winMpiTagId := table
              languageProgram := language
              filterWindow := filterWindow.getD m.filterWindow } hholds helmt
            have hlive' : stateHtbl.live = live ∪ (some p).toFinset := by
              rw [hlive, h.live, Option.toFinset_some, Finset.union_comm, ← Finset.insert_eq]
            rw [hlive'] at happend
            refine .ok ⟨Finset.disjoint_singleton_right.mpr (h.live ▸ hp), items ++ [p],
              Function.update wins p record.stateWin, ?_, ?_⟩
            · rw [List.length_append]
              exact le_rfl
            · convert happend using 1
              rw [h.analyzer]
              rfl
  · exact .error rfl

end Reflects

end ParcoachRma
