import ParcoachRma.SaveInterval

/-!
# What the search of the interval tree detects

Runs of save calls on one window, from empty stores, in the two builds.  Until it aborts, either
build stores exactly the intervals saved so far; the list build aborts at the first call whose
interval is in conflict with a saved one (`ConflictSaved`), the tree build at the first call for
which a conflict is exposed to the low bound of the new interval (`ConflictExposed`).  The search
never reports without a conflict, but a conflict can be hidden from it.

* `sameReports_iff`: the builds report at the same call exactly if the first conflict of the
  sequence is exposed.
* `verdict_perm_iff`: two orders of the same intervals get the same verdict exactly if both hide
  all their conflicts or neither does.
-/

namespace ParcoachRma

open Run

/-- The interval of the pointer `q` is in conflict with that of `p`. -/
def Conflicts (q p : IntervalPtr) : Prop := ifIntersects q.itv p.itv = true

instance (q p : IntervalPtr) : Decidable (Conflicts q p) := inferInstanceAs (Decidable (_ = _))

theorem Conflicts.symm {q p : IntervalPtr} (h : Conflicts q p) : Conflicts p q := by
  unfold Conflicts at *
  rw [ifIntersects_comm]
  exact h

/-- One save call in the tree build, as a step on the record of the window. -/
def treeSave (filterWindow : Int) (state : RmaAnalyzerState) (p : IntervalPtr) :
    Except Fault RmaAnalyzerState :=
  (rmaAnalyzerSaveInterval filterWindow state p).map Prod.snd

/-- One save call in the list build, as a step on the record of the window. -/
def listSave (filterWindow : Int) (state : RmaAnalyzerState) (p : IntervalPtr) :
    Except Fault RmaAnalyzerState :=
  (rmaAnalyzerSaveIntervalUseList filterWindow state p).map Prod.snd

/-- The stores of a window at the start of an epoch. -/
def EmptyStores (w : RmaAnalyzerState) : Prop :=
  w.localTree = .nil ∧ w.notifTree = .nil ∧ w.localList = []

/-- After the saves `pre`, the save of `p` reports a conflict. -/
def ReportsAt (save : RmaAnalyzerState → IntervalPtr → Except Fault RmaAnalyzerState)
    (w : RmaAnalyzerState) (pre : List IntervalPtr) (p : IntervalPtr) : Prop :=
  ∃ state, run save w pre = .ok state ∧ ∃ report, save state p = .error (.mpiAbort report)

/-! ## What is stored, and what a new interval meets there -/

/-- The tree that holds the intervals saved so far. -/
def savedTree (pre : List IntervalPtr) : IntervalTree := pre.foldl insertIntervalTree .nil

theorem savedTree_snoc (pre : List IntervalPtr) (p : IntervalPtr) :
    savedTree (pre ++ [p]) = insertIntervalTree (savedTree pre) p := by
  simp [savedTree]

theorem mem_savedTree {pre : List IntervalPtr} {q : IntervalPtr} :
    q ∈ (savedTree pre).toList ↔ q ∈ pre := by
  induction pre using List.reverseRecOn with
  | nil => simp [savedTree]
  | append_singleton pre p ih =>
      rw [savedTree_snoc, insertIntervalTree, AvlTree.mem_insert, ih, List.mem_append,
        List.mem_singleton, or_comm]

/-- Some interval saved so far is in conflict with the new one. -/
def ConflictSaved (pre : List IntervalPtr) (p : IntervalPtr) : Prop :=
  ∃ q ∈ pre, Conflicts q p

/-- Some interval in conflict with the new one is exposed to its low bound in the tree of the
intervals saved so far: every node above it sends the search to its side. -/
def ConflictExposed (pre : List IntervalPtr) (p : IntervalPtr) : Prop :=
  ∃ q, AvlTree.Exposed lowKey (lowKey p) (savedTree pre) q ∧ Conflicts q p

theorem ConflictExposed.saved {pre : List IntervalPtr} {p : IntervalPtr}
    (h : ConflictExposed pre p) : ConflictSaved pre p := by
  obtain ⟨q, hq, hc⟩ := h
  exact ⟨q, mem_savedTree.mp hq.mem, hc⟩

/-! ## Builds that stop at the first call a test fires on -/

/-- From the window `w`, over the calls `itvs`, the save function aborts on the calls on which the
test `T` fires and goes through the others; `I` relates the record to the intervals saved so
far. -/
structure StopsAt (save : RmaAnalyzerState → IntervalPtr → Except Fault RmaAnalyzerState)
    (w : RmaAnalyzerState) (itvs : List IntervalPtr)
    (T : List IntervalPtr → IntervalPtr → Prop)
    (I : List IntervalPtr → RmaAnalyzerState → Prop) : Prop where
  init : I [] w
  fires : ∀ pre p state, pre ++ [p] <+: itvs → I pre state → T pre p →
    ∃ report, save state p = .error (.mpiAbort report)
  passes : ∀ pre p state, pre ++ [p] <+: itvs → I pre state → ¬ T pre p →
    ∃ state', save state p = .ok state' ∧ I (pre ++ [p]) state'

namespace StopsAt

variable {save : RmaAnalyzerState → IntervalPtr → Except Fault RmaAnalyzerState}
  {w : RmaAnalyzerState} {itvs pre : List IntervalPtr} {p : IntervalPtr}
  {T : List IntervalPtr → IntervalPtr → Prop} {I : List IntervalPtr → RmaAnalyzerState → Prop}

theorem faults (h : StopsAt save w itvs T I) (pre : List IntervalPtr) (p : IntervalPtr)
    (state : RmaAnalyzerState) (hpre : pre ++ [p] <+: itvs) (hI : I pre state) (hT : T pre p) :
    ∃ f, save state p = .error f := by
  obtain ⟨report, hrep⟩ := h.fires pre p state hpre hI hT
  exact ⟨_, hrep⟩

theorem holds_of_run (h : StopsAt save w itvs T I) {state : RmaAnalyzerState} (hpre : pre <+: itvs)
    (hrun : run save w pre = .ok state) : I pre state :=
  invariant_of_test h.init h.faults h.passes hpre hrun

theorem run_ok_iff (h : StopsAt save w itvs T I) (hpre : pre <+: itvs) :
    (∃ state, run save w pre = .ok state) ↔ ∀ pre' p, pre' ++ [p] <+: pre → ¬ T pre' p :=
  run_ok_iff_forall_not h.init h.faults h.passes hpre

/-- A report comes at the first call on which the test fires. -/
theorem reportsAt_iff (h : StopsAt save w itvs T I) (hpre : pre ++ [p] <+: itvs) :
    ReportsAt save w pre p ↔ FiresFirst T pre p := by
  have hshort := (List.prefix_append pre [p]).trans hpre
  refine ⟨fun ⟨state, hrun, report, hrep⟩ => ⟨?_, ?_⟩, fun ⟨hT, hnot⟩ => ?_⟩
  · by_contra hT
    obtain ⟨state', hok, -⟩ := h.passes pre p state hpre (h.holds_of_run hshort hrun) hT
    rw [hrep] at hok
    cases hok
  · exact (h.run_ok_iff hshort).mp ⟨state, hrun⟩
  · obtain ⟨state, hrun⟩ := (h.run_ok_iff hshort).mpr hnot
    exact ⟨state, hrun, h.fires pre p state hpre (h.holds_of_run hshort hrun) hT⟩

end StopsAt

/-! ## The two builds -/

section Builds

variable {fw : Int} {w : RmaAnalyzerState} {itvs : List IntervalPtr}

/-- The window is the one the run started from, with the intervals of `pre` in its tree. -/
structure TreeHolds (w : RmaAnalyzerState) (pre : List IntervalPtr) (state : RmaAnalyzerState) :
    Prop where
  winBase : state.winBase = w.winBase
  winSize : state.winSize = w.winSize
  localTree : state.localTree = savedTree pre

/-- The window is the one the run started from, with the intervals of `pre` in its list. -/
structure ListHolds (w : RmaAnalyzerState) (pre : List IntervalPtr) (state : RmaAnalyzerState) :
    Prop where
  winBase : state.winBase = w.winBase
  winSize : state.winSize = w.winSize
  localList : ∀ x, x ∈ state.localList ↔ ∃ q ∈ pre, q.itv = x

/-- The tree build stops at the first exposed conflict. -/
theorem treeSave_stopsAt (empty : EmptyStores w) (adm : ∀ p ∈ itvs, admits fw w p.itv = true) :
    StopsAt (treeSave fw) w itvs ConflictExposed (TreeHolds w) where
  init := ⟨rfl, rfl, empty.1⟩
  fires pre p state hpre hold hc := by
    have hadm : admits fw state p.itv = true :=
      (admits_congr hold.winBase hold.winSize p.itv).trans (adm p (hpre.subset (by simp)))
    have hfound : (overlapSearch state.localTree p).isSome = true := by
      rw [hold.localTree]
      exact overlapSearch_isSome_iff.mpr hc
    obtain ⟨q, hq⟩ := Option.isSome_iff_exists.mp hfound
    refine ⟨conflictReport p.itv q.itv, ?_⟩
    simp [treeSave, rmaAnalyzerSaveInterval, hadm, hq, Except.map]
  passes pre p state hpre hold hc := by
    have hadm : admits fw state p.itv = true :=
      (admits_congr hold.winBase hold.winSize p.itv).trans (adm p (hpre.subset (by simp)))
    have hnone : overlapSearch state.localTree p = none := by
      rw [← Option.not_isSome_iff_eq_none, overlapSearch_isSome_iff, hold.localTree]
      exact hc
    obtain ⟨t, ht⟩ := rmaAnalyzerSaveNotif_eq p
      { state with localTree := insertIntervalTree state.localTree p }
    refine ⟨{ state with localTree := insertIntervalTree state.localTree p, notifTree := t }, ?_,
      hold.winBase, hold.winSize, ?_⟩
    · simp [treeSave, rmaAnalyzerSaveInterval, hadm, hnone, Except.map, ht]
    · rw [savedTree_snoc, ← hold.localTree]

theorem conflict_in_list_iff {pre : List IntervalPtr} {p : IntervalPtr}
    {state : RmaAnalyzerState} (hold : ListHolds w pre state) :
    ifIntersectsIntervalList p.itv state.localList = true ↔ ConflictSaved pre p := by
  rw [ifIntersectsIntervalList_iff]
  refine ⟨fun ⟨x, hx, hi⟩ => ?_, fun ⟨q, hq, hi⟩ => ?_⟩
  · obtain ⟨q, hq, rfl⟩ := (hold.localList x).mp hx
    exact ⟨q, hq, hi⟩
  · exact ⟨q.itv, (hold.localList q.itv).mpr ⟨q, hq, rfl⟩, hi⟩

/-- The list build stops at the first conflict. -/
theorem listSave_stopsAt (empty : EmptyStores w) (adm : ∀ p ∈ itvs, admits fw w p.itv = true) :
    StopsAt (listSave fw) w itvs ConflictSaved (ListHolds w) where
  init := ⟨rfl, rfl, by simp [empty.2.2]⟩
  fires pre p state hpre hold hc := by
    have hadm : admits fw state p.itv = true :=
      (admits_congr hold.winBase hold.winSize p.itv).trans (adm p (hpre.subset (by simp)))
    have hlist := (conflict_in_list_iff hold).mpr hc
    exact ⟨"", by simp [listSave, rmaAnalyzerSaveIntervalUseList, hadm, hlist, Except.map]⟩
  passes pre p state hpre hold hc := by
    have hadm : admits fw state p.itv = true :=
      (admits_congr hold.winBase hold.winSize p.itv).trans (adm p (hpre.subset (by simp)))
    have hlist := mt (conflict_in_list_iff hold).mp hc
    refine ⟨{ state with localList := insertIntervalHead state.localList p.itv }, ?_,
      hold.winBase, hold.winSize, fun x => ?_⟩
    · simp [listSave, rmaAnalyzerSaveIntervalUseList, hadm, hlist, Except.map]
    · simp only [insertIntervalHead, List.mem_cons, hold.localList, List.mem_append,
        List.not_mem_nil, or_false, or_and_right, exists_or, exists_eq_left]
      rw [or_comm, eq_comm]

end Builds

/-! ## The builds compared -/

/-- At every call of the sequence, the two builds report together, and as long as the tree build
has not reported its search returns an interval exactly if some saved one is in conflict. -/
def SameReports (fw : Int) (w : RmaAnalyzerState) (itvs : List IntervalPtr) : Prop :=
  ∀ pre p, pre ++ [p] <+: itvs →
    (ReportsAt (treeSave fw) w pre p ↔ ReportsAt (listSave fw) w pre p) ∧
    ∀ state, run (treeSave fw) w pre = .ok state →
      ((overlapSearch state.localTree p).isSome = true ↔ ConflictSaved pre p)

/-- The tree build reports at the same calls as the list build exactly if the first call with a
conflict has an exposed one: some saved interval in conflict with the new one has no node above it
that sends the search to the other side or has the same low bound. -/
theorem sameReports_iff {fw : Int} {w : RmaAnalyzerState} {itvs : List IntervalPtr}
    (empty : EmptyStores w) (adm : ∀ p ∈ itvs, admits fw w p.itv = true) :
    SameReports fw w itvs ↔ ∀ pre p, pre ++ [p] <+: itvs →
      FiresFirst ConflictSaved pre p → ConflictExposed pre p := by
  have tree := treeSave_stopsAt empty adm
  have list := listSave_stopsAt empty adm
  refine ⟨fun same pre p hpre first => ?_, fun exposed pre p hpre => ?_⟩
  · exact ((tree.reportsAt_iff hpre).mp
      ((same pre p hpre).1.mpr ((list.reportsAt_iff hpre).mpr first))).1
  · have hshort := (List.prefix_append pre [p]).trans hpre
    -- No exposed conflict so far means no conflict so far: the first one would be exposed.
    have quiet : (∀ pre' p', pre' ++ [p'] <+: pre → ¬ ConflictExposed pre' p') →
        ∀ pre' p', pre' ++ [p'] <+: pre → ¬ ConflictSaved pre' p' := by
      intro hnot pre' p' hpre' hc
      obtain ⟨pre₁, p₁, hpre₁, first⟩ := exists_firesFirst.mp ⟨pre', p', hpre', hc⟩
      exact hnot pre₁ p₁ hpre₁ (exposed pre₁ p₁ (hpre₁.trans hshort) first)
    constructor
    · rw [tree.reportsAt_iff hpre, list.reportsAt_iff hpre]
      refine ⟨fun first => ⟨first.1.saved, quiet first.2⟩, fun first => ?_⟩
      exact ⟨exposed pre p hpre first, fun pre' p' hpre' hc => first.2 pre' p' hpre' hc.saved⟩
    · intro state hrun
      rw [overlapSearch_isSome_iff, (tree.holds_of_run hshort hrun).localTree]
      refine ⟨ConflictExposed.saved, fun hc => ?_⟩
      exact exposed pre p hpre ⟨hc, quiet ((tree.run_ok_iff hshort).mp ⟨state, hrun⟩)⟩

/-- A window of 400 bytes at address 4096. -/
def exampleWindow : RmaAnalyzerState := RmaAnalyzerState.new 0 4096 400 0 2 65535

theorem exampleWindow_emptyStores : EmptyStores exampleWindow := ⟨rfl, rfl, rfl⟩

/-- A load of 4 bytes at offset 80 of the window. -/
def exampleLoad : IntervalPtr := ⟨0, createInterval 4176 4179 .localRead (-1) 10 none⟩

/-- A remote get of the first 100 bytes of the window. -/
def exampleGet : IntervalPtr := ⟨1, createInterval 4096 4195 .rmaRead (-1) 20 none⟩

/-- A remote put of 4 bytes at offset 90 of the window. -/
def examplePut : IntervalPtr := ⟨2, createInterval 4186 4189 .rmaWrite (-1) 30 none⟩

/-- Where the get comes first, the builds report together. -/
theorem sameReports_get_put : SameReports 1 exampleWindow [exampleGet, examplePut] := by
  apply (sameReports_iff exampleWindow_emptyStores (by decide)).mpr
  intro pre p hpre first
  obtain ⟨⟨q, hq, -⟩, -⟩ := first
  rcases pre with _ | ⟨a, _ | ⟨b, pre⟩⟩
  · simp at hq
  · simp only [List.cons_append, List.nil_append, List.cons_prefix_cons, List.nil_prefix,
      and_true] at hpre
    obtain ⟨rfl, rfl⟩ := hpre
    exact ⟨exampleGet, .root, by decide⟩
  · simp [List.cons_prefix_cons] at hpre

/-- The put is in conflict with the get, but the load at the root sends the search for the put to
the right, while the get is on the left. -/
theorem not_sameReports_load_get_put :
    EmptyStores exampleWindow ∧
    (∀ p ∈ [exampleLoad, exampleGet, examplePut],
      admits 1 exampleWindow p.itv = true ∧ p.itv.lowBound ≤ p.itv.upBound) ∧
    ¬ SameReports 1 exampleWindow [exampleLoad, exampleGet, examplePut] := by
  refine ⟨exampleWindow_emptyStores, by decide, fun same => ?_⟩
  have hmiss := (same [exampleLoad, exampleGet] examplePut List.prefix_rfl).2 _ rfl
  have hsaved : ConflictSaved [exampleLoad, exampleGet] examplePut :=
    ⟨exampleGet, by simp, by decide⟩
  exact absurd (hmiss.mpr hsaved) (by decide)

/-! ## The verdict on an epoch -/

/-- Some call of the sequence reports a conflict. -/
def Reports (fw : Int) (w : RmaAnalyzerState) (itvs : List IntervalPtr) : Prop :=
  ∃ pre p, pre ++ [p] <+: itvs ∧ ReportsAt (treeSave fw) w pre p

/-- Some two of the intervals are in conflict. -/
def HasConflict (itvs : List IntervalPtr) : Prop :=
  ¬ itvs.Pairwise fun q p => ¬ Conflicts q p

/-- Some two of the intervals are in conflict, and at every call all saved intervals in conflict
with the new one are hidden from the search. -/
def HidesConflicts (itvs : List IntervalPtr) : Prop :=
  HasConflict itvs ∧ ∀ pre p, pre ++ [p] <+: itvs → ¬ ConflictExposed pre p

theorem hasConflict_iff {itvs : List IntervalPtr} :
    HasConflict itvs ↔ ∃ pre p, pre ++ [p] <+: itvs ∧ ConflictSaved pre p := by
  induction itvs using List.reverseRecOn with
  | nil => simp [HasConflict]
  | append_singleton itvs e ih =>
      unfold HasConflict at ih ⊢
      simp only [List.pairwise_append, List.pairwise_singleton, true_and, List.mem_singleton,
        forall_eq, not_and_or, ih, not_forall, not_not]
      refine ⟨fun h => ?_, fun ⟨pre, p, hpre, hc⟩ => ?_⟩
      · rcases h with ⟨pre, p, hpre, hc⟩ | ⟨q, hq, hc⟩
        · exact ⟨pre, p, hpre.trans (List.prefix_append _ _), hc⟩
        · exact ⟨itvs, e, List.prefix_rfl, q, hq, hc⟩
      · rcases List.prefix_concat_iff.mp hpre with hlast | hin
        · obtain ⟨rfl, hlast⟩ := List.append_inj' hlast rfl
          obtain rfl : p = e := by simpa using hlast
          obtain ⟨q, hq, hc⟩ := hc
          exact .inr ⟨q, hq, hc⟩
        · exact .inl ⟨pre, p, hin, hc⟩

theorem hasConflict_of_perm {o₁ o₂ : List IntervalPtr} (h : o₁.Perm o₂) :
    HasConflict o₁ ↔ HasConflict o₂ :=
  not_congr (h.pairwise_iff fun hc hc' => hc hc'.symm)

theorem reports_iff {fw : Int} {w : RmaAnalyzerState} {itvs : List IntervalPtr}
    (empty : EmptyStores w) (adm : ∀ p ∈ itvs, admits fw w p.itv = true) :
    Reports fw w itvs ↔ ∃ pre p, pre ++ [p] <+: itvs ∧ ConflictExposed pre p := by
  rw [exists_firesFirst]
  have tree := treeSave_stopsAt empty adm
  refine ⟨fun ⟨pre, p, hpre, h⟩ => ⟨pre, p, hpre, (tree.reportsAt_iff hpre).mp h⟩,
    fun ⟨pre, p, hpre, h⟩ => ⟨pre, p, hpre, (tree.reportsAt_iff hpre).mpr h⟩⟩

/-- An order of conflicting intervals is reported on exactly if it does not hide them all. -/
theorem reports_iff_not_hides {fw : Int} {w : RmaAnalyzerState} {itvs : List IntervalPtr}
    (empty : EmptyStores w) (adm : ∀ p ∈ itvs, admits fw w p.itv = true)
    (hc : HasConflict itvs) : Reports fw w itvs ↔ ¬ HidesConflicts itvs := by
  rw [reports_iff empty adm]
  simp [HidesConflicts, hc]

theorem not_reports_of_not_hasConflict {fw : Int} {w : RmaAnalyzerState}
    {itvs : List IntervalPtr} (empty : EmptyStores w)
    (adm : ∀ p ∈ itvs, admits fw w p.itv = true) (hc : ¬ HasConflict itvs) :
    ¬ Reports fw w itvs := by
  rw [reports_iff empty adm]
  intro ⟨pre, p, hpre, h⟩
  exact hc (hasConflict_iff.mpr ⟨pre, p, hpre, h.saved⟩)

/-- Conflicting intervals have an order that is reported on: two in conflict first. -/
theorem exists_perm_not_hides {itvs : List IntervalPtr} (hc : HasConflict itvs) :
    ∃ o, o.Perm itvs ∧ ¬ HidesConflicts o := by
  obtain ⟨pre, p, ⟨post, rfl⟩, q, hq, hqp⟩ := hasConflict_iff.mp hc
  obtain ⟨xs, ys, rfl⟩ := List.append_of_mem hq
  refine ⟨q :: p :: (xs ++ ys ++ post), ?_, fun hides => ?_⟩
  · have hp : (xs ++ q :: ys ++ [p] ++ post).Perm (q :: (xs ++ ys ++ p :: post)) := by simp
    refine List.Perm.symm (hp.trans (List.Perm.cons q ?_))
    exact List.perm_middle
  · refine hides.2 [q] p ⟨xs ++ ys ++ post, rfl⟩ ⟨q, ?_, hqp⟩
    exact .root

/-- Two orders of the same intervals get the same verdict exactly if both hide all conflicts or
neither does; all orders get the same verdict exactly if none hides all conflicts. -/
theorem verdict_perm_iff {fw : Int} {w : RmaAnalyzerState} {itvs : List IntervalPtr}
    (empty : EmptyStores w) (adm : ∀ p ∈ itvs, admits fw w p.itv = true) :
    (∀ o₁ o₂, o₁.Perm itvs → o₂.Perm itvs →
      ((Reports fw w o₁ ↔ Reports fw w o₂) ↔ (HidesConflicts o₁ ↔ HidesConflicts o₂))) ∧
    ((∀ o₁ o₂, o₁.Perm itvs → o₂.Perm itvs → (Reports fw w o₁ ↔ Reports fw w o₂)) ↔
      ∀ o, o.Perm itvs → ¬ HidesConflicts o) := by
  have admo : ∀ {o : List IntervalPtr}, o.Perm itvs → ∀ p ∈ o, admits fw w p.itv = true :=
    fun ho p hp => adm p (ho.subset hp)
  by_cases hc : HasConflict itvs
  · have hreports : ∀ {o : List IntervalPtr}, o.Perm itvs →
        (Reports fw w o ↔ ¬ HidesConflicts o) := fun ho =>
      reports_iff_not_hides empty (admo ho) ((hasConflict_of_perm ho).mpr hc)
    refine ⟨fun o₁ o₂ h₁ h₂ => ?_, fun same o ho => ?_, fun none o₁ o₂ h₁ h₂ => ?_⟩
    · rw [hreports h₁, hreports h₂, not_iff_not]
    · obtain ⟨o', ho', hides'⟩ := exists_perm_not_hides hc
      exact (hreports ho).mp ((same o' o ho' ho).mp ((hreports ho').mpr hides'))
    · rw [hreports h₁, hreports h₂]
      exact iff_of_true (none o₁ h₁) (none o₂ h₂)
  · have hquiet : ∀ {o : List IntervalPtr}, o.Perm itvs →
        ¬ Reports fw w o ∧ ¬ HidesConflicts o := fun ho =>
      have hco := mt (hasConflict_of_perm ho).mp hc
      ⟨not_reports_of_not_hasConflict empty (admo ho) hco, fun hides => hco hides.1⟩
    refine ⟨fun o₁ o₂ h₁ h₂ => ?_, fun _ o ho => (hquiet ho).2, fun _ o₁ o₂ h₁ h₂ => ?_⟩
    · exact iff_of_true (iff_of_false (hquiet h₁).1 (hquiet h₂).1)
        (iff_of_false (hquiet h₁).2 (hquiet h₂).2)
    · exact iff_of_false (hquiet h₁).1 (hquiet h₂).1

theorem not_reports_of_run_ok {fw : Int} {w state : RmaAnalyzerState} {itvs : List IntervalPtr}
    (h : run (treeSave fw) w itvs = .ok state) : ¬ Reports fw w itvs := by
  intro ⟨pre, p, hpre, u, hu, report, hrep⟩
  obtain ⟨t, ht⟩ := exists_of_prefix hpre h
  obtain ⟨u', hu', hstep⟩ := run_snoc_ok.mp ht
  obtain rfl : u = u' := Except.ok.inj (hu.symm.trans hu')
  rw [hrep] at hstep
  cases hstep

/-- A put to bytes of a get is reported, whichever of the two is saved first. -/
theorem verdict_perm_get_put :
    Reports 1 exampleWindow [exampleGet, examplePut] ∧
      Reports 1 exampleWindow [examplePut, exampleGet] := by
  have adm : ∀ p ∈ [exampleGet, examplePut], admits 1 exampleWindow p.itv = true := by decide
  have hfirst : Reports 1 exampleWindow [exampleGet, examplePut] :=
    ⟨[exampleGet], examplePut, List.prefix_rfl, _, rfl, _, rfl⟩
  have hsame := (verdict_perm_iff exampleWindow_emptyStores adm).2.mpr fun o ho hides => by
    -- Of two intervals, the first one is at the root when the second one is saved.
    obtain ⟨q, p, rfl⟩ := List.length_eq_two.mp ho.length_eq
    have hqp : Conflicts q p := by simpa [HasConflict] using hides.1
    exact hides.2 [q] p List.prefix_rfl ⟨q, .root, hqp⟩
  exact ⟨hfirst, (hsame _ _ (List.Perm.refl _) (List.Perm.swap _ _ _)).mp hfirst⟩

/-- With the load first, the put is saved without a report; with the get first, it is
reported. -/
theorem not_verdict_perm_load_get_put :
    [exampleLoad, exampleGet, examplePut].Perm [exampleGet, examplePut, exampleLoad] ∧
    ¬ Reports 1 exampleWindow [exampleLoad, exampleGet, examplePut] ∧
    Reports 1 exampleWindow [exampleGet, examplePut, exampleLoad] := by
  refine ⟨by decide, not_reports_of_run_ok rfl, ?_⟩
  exact ⟨[exampleGet], examplePut, ⟨[exampleLoad], rfl⟩, _, rfl, _, rfl⟩

end ParcoachRma
