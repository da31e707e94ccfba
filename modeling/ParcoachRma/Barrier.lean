import ParcoachRma.Epoch
import Mathlib.Data.Set.Insert

/-!
# Barriers inside and outside epochs

The set of open epochs of a process, and what a barrier does to it.  The abstract state is two
sets of windows: those with an open epoch, and those that a barrier has found with one at some
time.  `EpochsAre` connects them to the table: `active_epoch` and the running threads follow the
first set, `from_sync` the second, and every call of the source is a set operation
(`initCommCheckThread_epochs`, `clearCommCheckThread_epochs`, `newBarrier_epochs`).

Since `from_sync` is never reset, a barrier reopens every window that was open at an earlier one.
`barriers_keep_epochs_iff`: the barriers of a history keep the set of open epochs exactly if at
none of them there is a closed window that was open at an earlier barrier.
-/

namespace ParcoachRma

open Run

/-! ## Records that follow the two sets -/

/-- The record of a window, among the threads of the process, has an active epoch and a running
thread if the window is in `O`, and has been cleared by a barrier if it is in `S`. -/
structure WindowIs (O S : Set MpiWin) (a : Analyzer) (s : RmaAnalyzerState) : Prop where
  active_le : s.activeEpoch ≤ 1
  active : s.activeEpoch = 1 ↔ s.stateWin ∈ O
  fromSync : s.fromSync = 1 ↔ s.stateWin ∈ S
  running : s.stateWin ∈ O → ∃ tid, s.threadId = some tid ∧ (tid, s.stateWin) ∈ a.threads
  own : ∀ tid, s.threadId = some tid →
    tid < a.nextThread ∧ ∀ w, (tid, w) ∈ a.threads → w = s.stateWin

/-- All records of the process follow the sets `O` and `S`. -/
structure EpochsAre (O S : Set MpiWin) (a : Analyzer) : Prop where
  threads_lt : ∀ p ∈ a.threads, p.1 < a.nextThread
  record : ∀ s ∈ a.stateHtbl, WindowIs O S a s

/-- The sets matter on the windows of the table only. -/
theorem EpochsAre.congr {O O' S S' : Set MpiWin} {a : Analyzer} (h : EpochsAre O S a)
    (hO : ∀ w ∈ a.windows, (w ∈ O ↔ w ∈ O')) (hS : ∀ w ∈ a.windows, (w ∈ S ↔ w ∈ S')) :
    EpochsAre O' S' a := by
  refine ⟨h.threads_lt, fun s hs => ?_⟩
  have hw : s.stateWin ∈ a.windows := List.mem_map_of_mem hs
  have hr := h.record s hs
  exact ⟨hr.active_le, hr.active.trans (hO _ hw), hr.fromSync.trans (hS _ hw),
    fun h => hr.running ((hO _ hw).mpr h), hr.own⟩

theorem isActiveEpoch_ok {O S : Set MpiWin} {a : Analyzer} {win : MpiWin} {b : Bool}
    (h : EpochsAre O S a) (hb : rmaAnalyzerIsActiveEpoch win a = .ok b) :
    b = true ↔ win ∈ O := by
  obtain ⟨s, hs, hdec⟩ := bind_ok.mp hb
  obtain ⟨hmem, rfl⟩ := mem_of_getState hs
  have hr := h.record s hmem
  obtain rfl := Except.ok.inj hdec
  rw [decide_eq_true_eq, ← hr.active]
  have := hr.active_le
  omega

/-! ## The calls as operations on the sets -/

section Calls

variable {O S : Set MpiWin} {a a' : Analyzer} {win : MpiWin}

/-- Initialising the checking thread opens the window. -/
theorem initCommCheckThread_epochs (h : EpochsAre O S a)
    (hinit : rmaAnalyzerInitCommCheckThread win a = .ok a') :
    EpochsAre (insert win O) S a' ∧ a'.windows = a.windows := by
  obtain ⟨state, hstate, rfl⟩ := initCommCheckThread_spec hinit
  obtain ⟨hmem, rfl⟩ := mem_of_getState hstate
  have hnew : ∀ w, (a.nextThread, w) ∉ a.threads := fun w hw => (h.threads_lt _ hw).false
  refine ⟨⟨?_, fun s hs => ?_⟩, windows_setState _ _⟩
  · intro p hp
    rcases List.mem_cons.mp hp with rfl | hp
    · exact Nat.lt_succ_self _
    · exact (h.threads_lt p hp).trans (Nat.lt_succ_self _)
  · rcases mem_setState hs with rfl | ⟨hs, hne⟩
    · have hr := h.record state hmem
      refine ⟨le_rfl, ?_, hr.fromSync, fun _ => ⟨a.nextThread, rfl, List.mem_cons_self⟩, ?_⟩
      · exact iff_of_true rfl (Set.mem_insert _ _)
      · intro tid htid
        cases htid
        refine ⟨Nat.lt_succ_self _, fun w hw => ?_⟩
        rcases List.mem_cons.mp hw with heq | hw
        · cases heq
          rfl
        · exact absurd hw (hnew w)
    · have hr := h.record s hs
      have hO : s.stateWin ∈ insert state.stateWin O ↔ s.stateWin ∈ O :=
        ⟨fun hin => hin.resolve_left hne, .inr⟩
      refine ⟨hr.active_le, hr.active.trans hO.symm, hr.fromSync, fun hin => ?_, ?_⟩
      · obtain ⟨tid, htid, hrun⟩ := hr.running (hO.mp hin)
        exact ⟨tid, htid, List.mem_cons_of_mem _ hrun⟩
      · intro tid htid
        obtain ⟨hlt, hown⟩ := hr.own tid htid
        refine ⟨hlt.trans (Nat.lt_succ_self _), fun w hw => ?_⟩
        rcases List.mem_cons.mp hw with heq | hw
        · cases heq
          exact absurd rfl hlt.ne
        · exact hown w hw

/-- Clearing the checking thread closes the window; no other window loses its thread. -/
theorem clearCommCheckThread_epochs {doReduce : Bool} {tmp : Nat} (h : EpochsAre O S a)
    (hclear : rmaAnalyzerClearCommCheckThread doReduce tmp win a = .ok a') :
    EpochsAre (O \ {win}) S a' ∧ a'.windows = a.windows ∧ a'.nextThread = a.nextThread := by
  obtain ⟨state, tid, value, lt, nt, hstate, htid, -, rfl⟩ := clearCommCheckThread_spec hclear
  obtain ⟨hmem, rfl⟩ := mem_of_getState hstate
  have hown := (h.record state hmem).own tid htid
  refine ⟨⟨fun p hp => h.threads_lt p (List.mem_of_mem_filter hp), fun s hs => ?_⟩,
    windows_setState _ _, rfl⟩
  rcases mem_setState hs with rfl | ⟨hs, hne⟩
  · have hr := h.record state hmem
    refine ⟨Nat.zero_le _, ?_, hr.fromSync, fun hin => absurd rfl hin.2, ?_⟩
    · exact iff_of_false Nat.zero_ne_one fun hin => hin.2 rfl
    · intro tid' htid'
      obtain ⟨hlt, hown'⟩ := hr.own tid' htid'
      exact ⟨hlt, fun w hw => hown' w (List.mem_of_mem_filter hw)⟩
  · have hr := h.record s hs
    have hO : s.stateWin ∈ O \ {state.stateWin} ↔ s.stateWin ∈ O :=
      ⟨fun hin => hin.1, fun hin => ⟨hin, hne⟩⟩
    refine ⟨hr.active_le, hr.active.trans hO.symm, hr.fromSync, fun hin => ?_, ?_⟩
    · obtain ⟨tid', htid', hrun⟩ := hr.running (hO.mp hin)
      refine ⟨tid', htid', List.mem_filter.mpr ⟨hrun, ?_⟩⟩
      rw [decide_eq_true_eq]
      rintro rfl
      exact hne (hown.2 _ hrun)
    · intro tid' htid'
      obtain ⟨hlt, hown'⟩ := hr.own tid' htid'
      exact ⟨hlt, fun w hw => hown' w (List.mem_of_mem_filter hw)⟩

/-- Writing back a record with the same flags and thread changes nothing about the epochs. -/
theorem setState_epochs {state state' : RmaAnalyzerState} (h : EpochsAre O S a)
    (hmem : state ∈ a.stateHtbl) (hwin : state'.stateWin = state.stateWin)
    (hactive : state'.activeEpoch = state.activeEpoch) (hthread : state'.threadId = state.threadId)
    (hsync : state'.fromSync = 1 ↔ state.stateWin ∈ S) : EpochsAre O S (a.setState state') := by
  refine ⟨h.threads_lt, fun s hs => ?_⟩
  rcases mem_setState hs with rfl | ⟨hs, -⟩
  · have hr := h.record state hmem
    refine ⟨?_, ?_, ?_, ?_, ?_⟩
    · rw [hactive]
      exact hr.active_le
    · rw [hactive, hwin]
      exact hr.active
    · rw [hsync, hwin]
    · rw [hwin, hthread]
      exact hr.running
    · rw [hwin, hthread]
      exact hr.own
  · exact ⟨(h.record s hs).active_le, (h.record s hs).active, (h.record s hs).fromSync,
      (h.record s hs).running, (h.record s hs).own⟩

/-- A fence opens the window, whether or not it was open. -/
theorem newWinFence_epochs {tmp : Nat} (h : EpochsAre O S a)
    (hfence : newWinFence tmp win a = .ok a') :
    EpochsAre (insert win O) S a' ∧ a'.windows = a.windows := by
  obtain ⟨state, -, hfence⟩ := bind_ok.mp hfence
  obtain ⟨b, hb, hfence⟩ := bind_ok.mp hfence
  obtain ⟨state', hstate', hinit⟩ := bind_ok.mp hfence
  obtain ⟨hmem, rfl⟩ := mem_of_getState hstate'
  -- The fence that ends an epoch closes the window before it opens it again.
  obtain ⟨O', hO', hb, hwins⟩ : ∃ O', insert state'.stateWin O' = insert state'.stateWin O ∧
      EpochsAre O' S b ∧ b.windows = a.windows := by
    split_ifs at hb
    · obtain ⟨hb, hwins, -⟩ := clearCommCheckThread_epochs h hb
      exact ⟨_, Set.insert_sdiff_singleton, hb, hwins⟩
    · obtain rfl := Except.ok.inj hb
      exact ⟨O, rfl, h, rfl⟩
  have hset : EpochsAre O' S
      (b.setState { state' with countFence := state'.countFence + 1 }) :=
    setState_epochs hb hmem rfl rfl rfl (hb.record state' hmem).fromSync
  obtain ⟨hopen, hwins'⟩ := initCommCheckThread_epochs hset hinit
  rw [hO'] at hopen
  exact ⟨hopen, by rw [hwins', windows_setState, hwins]⟩

/-! ## Barriers -/

/-- The first half of a barrier closes a window and remembers it if it was open. -/
theorem clearInWin_epochs {doReduce : Bool} {tmp : MpiWin → Nat} (h : EpochsAre O S a)
    (hclear : clearInWin doReduce tmp a win = .ok a') :
    EpochsAre (O \ {win}) (S ∪ O ∩ {win}) a' ∧ a'.windows = a.windows ∧
      a'.nextThread = a.nextThread := by
  obtain ⟨active, hactive, hclear⟩ := bind_ok.mp hclear
  have hiff := isActiveEpoch_ok h hactive
  cases active with
  | false =>
      have hout : win ∉ O := fun hin => absurd (hiff.mpr hin) Bool.false_ne_true
      obtain rfl := Except.ok.inj hclear
      rw [Set.sdiff_singleton_eq_self hout, Set.inter_singleton_eq_empty.mpr hout, Set.union_empty]
      exact ⟨h, rfl, rfl⟩
  | true =>
      have hin : win ∈ O := hiff.mp rfl
      obtain ⟨b, hb, hset⟩ := bind_ok.mp hclear
      obtain ⟨state, hstate, hset⟩ := bind_ok.mp hset
      obtain ⟨hb, hwins, hnext⟩ := clearCommCheckThread_epochs h hb
      obtain rfl := Except.ok.inj hset
      obtain ⟨hmem, rfl⟩ := mem_of_getState hstate
      rw [Set.inter_eq_right.mpr (Set.singleton_subset_iff.mpr hin)]
      refine ⟨?_, by rw [windows_setState, hwins], hnext⟩
      -- `from_sync` of the other records is left as it is.
      refine ⟨hb.threads_lt, fun s hs => ?_⟩
      rcases mem_setState hs with rfl | ⟨hs, hne⟩
      · have hr := hb.record state hmem
        exact ⟨hr.active_le, hr.active, iff_of_true rfl (.inr rfl), hr.running, hr.own⟩
      · have hr := hb.record s hs
        refine ⟨hr.active_le, hr.active, hr.fromSync.trans ?_, hr.running, hr.own⟩
        exact ⟨.inl, fun hin => hin.resolve_right hne⟩

/-- The second half of a barrier opens a window that is closed and remembered. -/
theorem initInWin_epochs (h : EpochsAre O S a) (hinit : initInWin a win = .ok a') :
    EpochsAre (O ∪ S ∩ {win}) S a' ∧ a'.windows = a.windows ∧
      (win ∉ S → a'.nextThread = a.nextThread) := by
  obtain ⟨current, hcurrent, hinit⟩ := bind_ok.mp hinit
  obtain ⟨active, hactive, hinit⟩ := bind_ok.mp hinit
  obtain ⟨hmem, rfl⟩ := mem_of_getState hcurrent
  have hiff := isActiveEpoch_ok h hactive
  have hsync := (h.record current hmem).fromSync
  split_ifs at hinit with hcond
  · obtain ⟨-, hone⟩ := hcond
    have hin : current.stateWin ∈ S := hsync.mp hone
    obtain ⟨hopen, hwins⟩ := initCommCheckThread_epochs h hinit
    rw [Set.inter_eq_right.mpr (Set.singleton_subset_iff.mpr hin), Set.union_singleton]
    exact ⟨hopen, hwins, fun hout => absurd hin hout⟩
  · obtain rfl := Except.ok.inj hinit
    have hsub : S ∩ {current.stateWin} ⊆ O := by
      intro w hw
      obtain ⟨hin, rfl⟩ := hw
      rw [← hiff, ← Bool.not_eq_false]
      exact fun hfalse => hcond ⟨hfalse, hsync.mpr hin⟩
    rw [Set.union_eq_self_of_subset_right hsub]
    exact ⟨h, rfl, fun _ => rfl⟩

theorem clearInWins_epochs {doReduce : Bool} {tmp : MpiWin → Nat} {wins : List MpiWin}
    (h : EpochsAre O S a) (hclear : run (clearInWin doReduce tmp) a wins = .ok a') :
    EpochsAre (O \ {w | w ∈ wins}) (S ∪ O ∩ {w | w ∈ wins}) a' ∧ a'.windows = a.windows ∧
      a'.nextThread = a.nextThread := by
  induction wins generalizing O S a with
  | nil =>
      obtain rfl := Except.ok.inj hclear
      simp only [List.not_mem_nil, Set.ofPred_false, Set.sdiff_empty, Set.inter_empty,
        Set.union_empty]
      exact ⟨h, trivial, trivial⟩
  | cons win wins ih =>
      obtain ⟨b, hb, hclear⟩ := run_cons_ok.mp hclear
      obtain ⟨hb, hwins, hnext⟩ := clearInWin_epochs h hb
      obtain ⟨ha', hwins', hnext'⟩ := ih hb hclear
      refine ⟨ha'.congr (fun w _ => ?_) (fun w _ => ?_), hwins'.trans hwins, hnext'.trans hnext⟩
      · simp only [Set.mem_sdiff, Set.mem_singleton_iff, Set.mem_ofPred_eq, List.mem_cons]
        tauto
      · simp only [Set.mem_union, Set.mem_inter_iff, Set.mem_sdiff, Set.mem_singleton_iff,
          Set.mem_ofPred_eq, List.mem_cons]
        tauto

theorem initInWins_epochs {wins : List MpiWin} (h : EpochsAre O S a)
    (hinit : run initInWin a wins = .ok a') :
    EpochsAre (O ∪ S ∩ {w | w ∈ wins}) S a' ∧ a'.windows = a.windows ∧
      ((∀ w ∈ wins, w ∉ S) → a'.nextThread = a.nextThread) := by
  induction wins generalizing O a with
  | nil =>
      obtain rfl := Except.ok.inj hinit
      simp only [List.not_mem_nil, Set.ofPred_false, Set.inter_empty, Set.union_empty]
      exact ⟨h, trivial, fun _ => trivial⟩
  | cons win wins ih =>
      obtain ⟨b, hb, hinit⟩ := run_cons_ok.mp hinit
      obtain ⟨hb, hwins, hnext⟩ := initInWin_epochs h hb
      obtain ⟨ha', hwins', hnext'⟩ := ih hb hinit
      refine ⟨ha'.congr (fun w _ => ?_) (fun _ _ => Iff.rfl), hwins'.trans hwins, fun hout => ?_⟩
      · simp only [Set.mem_union, Set.mem_inter_iff, Set.mem_singleton_iff, Set.mem_ofPred_eq,
          List.mem_cons]
        tauto
      · rw [hnext' fun w hw => hout w (List.mem_cons_of_mem _ hw),
          hnext (hout win List.mem_cons_self)]

/-- A barrier opens every window that is open or remembered, and remembers all of them. -/
theorem newBarrier_epochs {tmp : MpiWin → Nat} (h : EpochsAre O S a)
    (hbarrier : newBarrier tmp a = .ok a') :
    EpochsAre (O ∪ S) (O ∪ S) a' ∧ a'.windows = a.windows ∧
      ((∀ w ∈ a.windows, w ∉ O ∪ S) → a'.nextThread = a.nextThread) := by
  obtain ⟨b, hclear, hinit⟩ := bind_ok.mp hbarrier
  obtain ⟨hb, hwins, hnext⟩ := clearInWins_epochs h hclear
  obtain ⟨ha', hwins', hnext'⟩ := initInWins_epochs hb hinit
  rw [hwins] at ha' hnext' hwins'
  refine ⟨ha'.congr (fun w hw => ?_) (fun w hw => ?_), hwins', fun hout => ?_⟩
  · rw [hwins'] at hw
    simp only [Set.mem_union, Set.mem_inter_iff, Set.mem_sdiff, Set.mem_ofPred_eq, hw]
    tauto
  · rw [hwins'] at hw
    simp only [Set.mem_union, Set.mem_inter_iff, Set.mem_ofPred_eq, hw]
    tauto
  · rw [hnext' fun w hw => ?_, hnext]
    have := hout w hw
    simp only [Set.mem_union, Set.mem_inter_iff, Set.mem_ofPred_eq, hw] at this ⊢
    tauto

end Calls

/-! ## Histories of synchronisation calls -/

/-- The synchronisation calls of a process, with what the reductions of the call leave with it.  A
fence opens an epoch whatever its assertion, which the wrapper hands to the library only. -/
inductive SyncCall where
  | lockAll (win : MpiWin)
  | unlockAll (win : MpiWin) (tmp : Nat)
  | fence (win : MpiWin) (tmp : Nat)
  | barrier (tmp : MpiWin → Nat)

/-- One call, as a step on the state of the process. -/
def syncStep (a : Analyzer) : SyncCall → Except Fault Analyzer
  | .lockAll win => newWinLockAll win a
  | .unlockAll win tmp => newWinUnlockAll tmp win a
  | .fence win tmp => newWinFence tmp win a
  | .barrier tmp => newBarrier tmp a

/-- The open epochs after one more call: a lock and a fence open the epoch of their window, an
unlock closes it, a barrier keeps all. -/
def openNext (O : Set MpiWin) : SyncCall → Set MpiWin
  | .lockAll win => insert win O
  | .unlockAll win _ => O \ {win}
  | .fence win _ => insert win O
  | .barrier _ => O

/-- The windows with an open epoch after the calls. -/
def openAfter (calls : List SyncCall) : Set MpiWin := calls.foldl openNext ∅

/-- The windows that had an open epoch at one of the barriers of the calls. -/
def openAtBarrier (calls : List SyncCall) : Set MpiWin :=
  {w | ∃ pre tmp, pre ++ [.barrier tmp] <+: calls ∧ w ∈ openAfter pre}

theorem openAfter_snoc (calls : List SyncCall) (c : SyncCall) :
    openAfter (calls ++ [c]) = openNext (openAfter calls) c := by
  simp [openAfter]

theorem openAtBarrier_snoc_barrier (calls : List SyncCall) (tmp : MpiWin → Nat) :
    openAtBarrier (calls ++ [.barrier tmp]) = openAtBarrier calls ∪ openAfter calls := by
  ext w
  refine ⟨fun ⟨pre, tmp', hpre, hw⟩ => ?_, fun hw => ?_⟩
  · rcases List.prefix_concat_iff.mp hpre with hlast | hin
    · obtain ⟨rfl, -⟩ := List.append_inj' hlast rfl
      exact .inr hw
    · exact .inl ⟨pre, tmp', hin, hw⟩
  · rcases hw with ⟨pre, tmp', hpre, hw⟩ | hw
    · exact ⟨pre, tmp', hpre.trans (List.prefix_append _ _), hw⟩
    · exact ⟨calls, tmp, List.prefix_rfl, hw⟩

theorem openAtBarrier_snoc {calls : List SyncCall} {c : SyncCall} (hc : ∀ tmp, c ≠ .barrier tmp) :
    openAtBarrier (calls ++ [c]) = openAtBarrier calls := by
  ext w
  refine ⟨fun ⟨pre, tmp, hpre, hw⟩ => ?_, fun ⟨pre, tmp, hpre, hw⟩ => ?_⟩
  · rcases List.prefix_concat_iff.mp hpre with hlast | hin
    · obtain ⟨-, hlast⟩ := List.append_inj' hlast rfl
      simp only [List.cons.injEq, and_true] at hlast
      exact absurd hlast.symm (hc tmp)
    · exact ⟨pre, tmp, hin, hw⟩
  · exact ⟨pre, tmp, hpre.trans (List.prefix_append _ _), hw⟩

/-- The windows have just been made: no epoch, no fence, no barrier and no thread so far. -/
structure JustStarted (a : Analyzer) : Prop where
  threads : a.threads = []
  inactive : ∀ s ∈ a.stateHtbl, s.activeEpoch = 0 ∧ s.fromSync = 0 ∧ s.threadId = none

theorem JustStarted.epochs {a : Analyzer} (h : JustStarted a) : EpochsAre ∅ ∅ a := by
  refine ⟨fun p hp => by simp [h.threads] at hp, fun s hs => ?_⟩
  obtain ⟨hactive, hsync, hthread⟩ := h.inactive s hs
  exact ⟨by omega, by simp [hactive], by simp [hsync], fun hin => hin.elim, by simp [hthread]⟩

/-- The table of the process follows the history of its calls. -/
structure Follows (a₀ : Analyzer) (calls : List SyncCall) (a : Analyzer) : Prop where
  windows : a.windows = a₀.windows
  epochs : EpochsAre (openAfter calls) (openAtBarrier calls) a

/-- Every call other than a barrier does to the table what it does to the history. -/
theorem follows_of_syncStep {a₀ a a' : Analyzer} {calls : List SyncCall} {c : SyncCall}
    (hc : ∀ tmp, c ≠ .barrier tmp) (h : Follows a₀ calls a) (hstep : syncStep a c = .ok a') :
    Follows a₀ (calls ++ [c]) a' := by
  have hkeep : EpochsAre (openNext (openAfter calls) c) (openAtBarrier calls) a' ∧
      a'.windows = a.windows := by
    cases c with
    | lockAll win => exact initCommCheckThread_epochs h.epochs hstep
    | unlockAll win tmp =>
        obtain ⟨hepochs, hwins, -⟩ := clearCommCheckThread_epochs h.epochs hstep
        exact ⟨hepochs, hwins⟩
    | fence win tmp => exact newWinFence_epochs h.epochs hstep
    | barrier tmp => exact absurd rfl (hc tmp)
  refine ⟨hkeep.2.trans h.windows, ?_⟩
  rw [openAfter_snoc, openAtBarrier_snoc hc]
  exact hkeep.1

/-! ## When barriers keep the open epochs -/

/-- The barrier that led from `a` to `a'` has kept the set of open epochs, which was `O`: a window
has an active epoch and a running checking thread exactly if it is in `O`, and no thread has been
started if none is. -/
def KeepsOpenEpochs (O : Set MpiWin) (a a' : Analyzer) : Prop :=
  (∀ s ∈ a'.stateHtbl,
    (s.activeEpoch = 1 ∧ ∃ tid, (tid, s.stateWin) ∈ a'.threads) ↔ s.stateWin ∈ O) ∧
  ((∀ w ∈ a.windows, w ∉ O) → a'.nextThread = a.nextThread)

/-- Every barrier of the history keeps the open epochs. -/
def BarriersKeepEpochs (a : Analyzer) (calls : List SyncCall) : Prop :=
  ∀ pre tmp t t', pre ++ [.barrier tmp] <+: calls → run syncStep a pre = .ok t →
    syncStep t (.barrier tmp) = .ok t' → KeepsOpenEpochs (openAfter pre) t t'

theorem keepsOpenEpochs_iff {O S : Set MpiWin} {a a' : Analyzer} {tmp : MpiWin → Nat}
    (h : EpochsAre O S a) (hbarrier : newBarrier tmp a = .ok a') :
    KeepsOpenEpochs O a a' ↔ ∀ w ∈ a.windows, w ∈ S → w ∈ O := by
  obtain ⟨h', hwins, hnext⟩ := newBarrier_epochs h hbarrier
  have hopen : ∀ s ∈ a'.stateHtbl,
      (s.activeEpoch = 1 ∧ ∃ tid, (tid, s.stateWin) ∈ a'.threads) ↔ s.stateWin ∈ O ∪ S := by
    intro s hs
    have hr := h'.record s hs
    refine ⟨fun hrun => hr.active.mp hrun.1, fun hin => ⟨hr.active.mpr hin, ?_⟩⟩
    obtain ⟨tid, -, hrun⟩ := hr.running hin
    exact ⟨tid, hrun⟩
  refine ⟨fun keeps w hw hin => ?_, fun hsub => ⟨fun s hs => ?_, fun hout => ?_⟩⟩
  · rw [← hwins] at hw
    obtain ⟨s, hs, rfl⟩ := List.mem_map.mp hw
    exact (keeps.1 s hs).mp ((hopen s hs).mpr (.inr hin))
  · have hw : s.stateWin ∈ a.windows := by
      rw [← hwins]
      exact List.mem_map_of_mem hs
    rw [hopen s hs]
    exact ⟨fun hin => hin.elim id (hsub _ hw), .inl⟩
  · exact hnext fun w hw hin => hout w hw (hin.elim id (hsub w hw))

/-- Every barrier of the history keeps the set of open epochs exactly if at none of them there is
a closed window that was open at an earlier barrier. -/
theorem barriers_keep_epochs_iff {a : Analyzer} {calls : List SyncCall} (started : JustStarted a)
    (hrun : ∃ a', run syncStep a calls = .ok a') :
    BarriersKeepEpochs a calls ↔
      ∀ pre tmp, pre ++ [.barrier tmp] <+: calls →
        ∀ w ∈ a.windows, w ∈ openAtBarrier pre → w ∈ openAfter pre := by
  let Q : List SyncCall → Analyzer → SyncCall → Analyzer → Prop := fun pre t c t' =>
    ∀ tmp, c = .barrier tmp → KeepsOpenEpochs (openAfter pre) t t'
  let C : List SyncCall → Analyzer → SyncCall → Analyzer → Prop := fun pre _ c _ =>
    ∀ tmp, c = .barrier tmp → ∀ w ∈ a.windows, w ∈ openAtBarrier pre → w ∈ openAfter pre
  have hiff : EachStep syncStep Q a calls ↔ EachStep syncStep C a calls := by
    refine forall_step_iff (I := Follows a) ⟨rfl, ?_⟩ ?_ ?_
    · have hnone : openAtBarrier [] = ∅ := by simp [openAtBarrier]
      rw [hnone]
      exact started.epochs
    · intro pre c t t' _ hI hstep
      refine forall_congr' fun tmp => forall_congr' fun hc => ?_
      subst hc
      rw [keepsOpenEpochs_iff hI.epochs hstep, hI.windows]
    · intro pre c t t' _ hI hstep hC
      cases c with
      | lockAll win => exact follows_of_syncStep (by simp) hI hstep
      | unlockAll win tmp => exact follows_of_syncStep (by simp) hI hstep
      | fence win tmp => exact follows_of_syncStep (by simp) hI hstep
      | barrier tmp =>
          obtain ⟨hepochs, hwins, -⟩ := newBarrier_epochs hI.epochs hstep
          refine ⟨hwins.trans hI.windows, ?_⟩
          rw [openAfter_snoc, openAtBarrier_snoc_barrier, Set.union_comm (openAtBarrier pre)]
          refine hepochs.congr (fun w hw => ?_) fun _ _ => Iff.rfl
          rw [hwins, hI.windows] at hw
          exact ⟨fun hin => hin.elim id (hC tmp rfl w hw), .inl⟩
  refine ⟨fun keeps pre tmp hpre => ?_, fun cond pre tmp t t' hpre ht hstep => ?_⟩
  · have hC := hiff.mp fun p c t t' hp ht hs tmp' hc => by
      subst hc
      exact keeps p tmp' t t' hp ht hs
    obtain ⟨a', hrun⟩ := hrun
    obtain ⟨t', ht'⟩ := exists_of_prefix hpre hrun
    obtain ⟨t, ht, hstep⟩ := run_snoc_ok.mp ht'
    exact hC pre _ t t' hpre ht hstep tmp rfl
  · have hQ := hiff.mpr fun p c t t' hp _ _ tmp' hc => by
      subst hc
      exact cond p tmp' hp
    exact hQ pre _ t t' hpre ht hstep tmp rfl

/-- A process with one window that has just been made. -/
def exampleProcess : Analyzer where
  stateHtbl := [RmaAnalyzerState.new 0 4096 400 0 2 65535]
  winMpiTagId := 1 :: List.replicate 31 0
  languageProgram := .c
  filterWindow := 1
  threads := []
  nextThread := 0
  nextObject := 0

theorem exampleProcess_justStarted : JustStarted exampleProcess :=
  ⟨rfl, by simp [exampleProcess, RmaAnalyzerState.new]⟩

/-- A barrier before the first epoch, then two epochs with a barrier in each. -/
def barrierInEachEpoch : List SyncCall :=
  [.barrier fun _ => 0, .lockAll 0, .barrier fun _ => 1, .unlockAll 0 2, .lockAll 0,
    .barrier fun _ => 3]

/-- Before each of these barriers but the first the epoch of the window is open. -/
theorem zero_mem_openAfter {pre : List SyncCall} {tmp : MpiWin → Nat}
    (hpre : pre ++ [.barrier tmp] <+: barrierInEachEpoch) : pre = [] ∨ 0 ∈ openAfter pre := by
  rcases pre with _ | ⟨c₁, _ | ⟨c₂, _ | ⟨c₃, _ | ⟨c₄, _ | ⟨c₅, _ | ⟨c₆, pre⟩⟩⟩⟩⟩⟩
  · exact .inl rfl
  all_goals simp only [barrierInEachEpoch, List.cons_append, List.nil_append,
    List.cons_prefix_cons, List.nil_prefix, List.prefix_nil, List.append_eq_nil_iff,
    List.cons_ne_nil, reduceCtorEq, and_false, and_true] at hpre
  · obtain ⟨rfl, rfl, -⟩ := hpre
    exact .inr (by simp [openAfter, openNext])
  · obtain ⟨rfl, rfl, rfl, rfl, rfl, -⟩ := hpre
    exact .inr (by simp [openAfter, openNext])

/-- None of the barriers changes which epochs are open. -/
theorem barriers_keep_barrierInEachEpoch :
    BarriersKeepEpochs exampleProcess barrierInEachEpoch := by
  refine (barriers_keep_epochs_iff exampleProcess_justStarted ⟨_, rfl⟩).mpr
    fun pre tmp hpre w hwin hw => ?_
  obtain rfl : w = 0 := List.mem_singleton.mp hwin
  rcases zero_mem_openAfter hpre with rfl | hopen
  · obtain ⟨pre', tmp', hpre', -⟩ := hw
    simp at hpre'
  · exact hopen

/-- An epoch with a barrier in it has been opened and closed; the next barrier starts a checking
thread although no epoch is open. -/
theorem barrier_reopens_unlockAll :
    JustStarted exampleProcess ∧
    ∃ t t', run syncStep exampleProcess
        [.lockAll 0, .barrier fun _ => 0, .unlockAll 0 0] = .ok t ∧
      syncStep t (.barrier fun _ => 0) = .ok t' ∧
      ¬ KeepsOpenEpochs (openAfter [.lockAll 0, .barrier fun _ => 0, .unlockAll 0 0]) t t' := by
  refine ⟨exampleProcess_justStarted, _, _, rfl, rfl, fun keeps => ?_⟩
  have hclosed : ∀ w, w ∉ openAfter [.lockAll 0, .barrier fun _ => 0, .unlockAll 0 0] := by
    simp [openAfter, openNext]
  exact absurd (keeps.2 fun w _ => hclosed w) (by decide)

end ParcoachRma
