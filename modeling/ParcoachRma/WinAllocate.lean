import ParcoachRma.WindowFilter

/-!
# Windows the library allocates

`MPI_Win_allocate` stores the base of the memory at the address it is given; its wrapper starts the
analyzer with that address in place of the base.  The base is what the filter compares local
accesses with, and what the checking thread adds to the intervals it receives.

`sameAnalysis_iff`: over accesses to the memory of the window, the window is analysed as one that
`MPI_Win_create` has made of the same memory exactly if the address is the base, or no access is
remote and the filter is off or finds the local ones at the address, too.
-/

namespace ParcoachRma

open Run

/-! ## The wrapper -/

/-- `baseptr` is where the library has stored the base. -/
def newWinAllocate (size : UInt64) (comm : MpiComm) (sizeComm : Nat) (baseptr : UInt64)
    (win : MpiWin) (filterWindow : Option Int) (a : Analyzer) : Except Fault Analyzer :=
  rmaAnalyzerStart baseptr size comm sizeComm win .c filterWindow a

/-! ## Accesses to the memory of a window -/

/-- A region of memory; the address behind its last byte is one, too. -/
structure MemoryRegion where
  base : UInt64
  size : UInt64
  end_lt : base.toNat + size.toNat < 2 ^ 64

/-- An access during an epoch: one of the process itself, or an interval that the checking thread
receives, which is saved as the object at `addr`. -/
inductive EpochAccess where
  | own (p : IntervalPtr)
  | remote (addr : Nat) (received : Interval)

namespace EpochAccess

/-- The interval that is saved, in a window with the base. -/
def placed (winBase : UInt64) : EpochAccess → IntervalPtr
  | own p => p
  | remote addr received => ⟨addr, received.rebase winBase⟩

def IsOwn : EpochAccess → Prop
  | own _ => True
  | remote .. => False

/-- The access is not empty and lies in the region. -/
def In (region : MemoryRegion) : EpochAccess → Prop
  | own p => p.itv.Nonempty ∧ p.itv.addresses ⊆ bytesFrom region.base.toNat region.size.toNat
  | remote _ received => received.Nonempty ∧ received.upBound < region.size

/-- The access is saved in the record of the window. -/
def save (fw : Int) (state : RmaAnalyzerState) (x : EpochAccess) :
    Except Fault RmaAnalyzerState :=
  treeSave fw state (x.placed state.winBase)

end EpochAccess

/-- After the accesses `pre`, the access `x` is reported with the text. -/
def ReportsAccess (fw : Int) (w : RmaAnalyzerState) (pre : List EpochAccess) (x : EpochAccess)
    (report : String) : Prop :=
  ∃ state, run (EpochAccess.save fw) w pre = .ok state ∧ x.save fw state = .error (.mpiAbort report)

/-- The two windows admit the same accesses, place the remote ones at the same addresses and report
the same conflicts.  What is admitted and where it is placed depends on the access alone, so it is
asked of every access that the process would make, whatever is reported before it. -/
structure SameAnalysis (fw : Int) (v w : RmaAnalyzerState) (xs : List EpochAccess) : Prop where
  admits : ∀ x ∈ xs, admits fw v (x.placed v.winBase).itv = admits fw w (x.placed w.winBase).itv
  places : ∀ x ∈ xs, (x.placed v.winBase).itv.lowBound = (x.placed w.winBase).itv.lowBound ∧
    (x.placed v.winBase).itv.upBound = (x.placed w.winBase).itv.upBound
  reports : ∀ pre x report, pre ++ [x] <+: xs →
    (ReportsAccess fw v pre x report ↔ ReportsAccess fw w pre x report)

/-! ## Windows that differ in their base -/

/-- The record with another base. -/
def RmaAnalyzerState.withBase (b : UInt64) (state : RmaAnalyzerState) : RmaAnalyzerState :=
  { state with winBase := b }

section Base

variable {fw : Int} {b : UInt64} {w state : RmaAnalyzerState} {xs : List EpochAccess}

/-- Where the filter decides alike, the base makes no other difference to a save. -/
theorem treeSave_withBase {p : IntervalPtr}
    (hadm : admits fw (state.withBase b) p.itv = admits fw state p.itv) :
    treeSave fw (state.withBase b) p = (treeSave fw state p).map (·.withBase b) := by
  unfold treeSave rmaAnalyzerSaveInterval
  rw [hadm]
  split_ifs with h
  · have htree : (state.withBase b).localTree = state.localTree := rfl
    rw [htree]
    cases overlapSearch state.localTree p with
    | some q => rfl
    | none =>
        unfold rmaAnalyzerSaveNotif
        split_ifs <;> rfl
  · rfl

/-- The accesses of the process itself between which the filter makes no difference. -/
structure BaseIndependent (fw : Int) (b : UInt64) (w : RmaAnalyzerState) (xs : List EpochAccess) :
    Prop where
  own : ∀ x ∈ xs, x.IsOwn
  admits : ∀ x ∈ xs, admits fw (w.withBase b) (x.placed b).itv =
    admits fw w (x.placed w.winBase).itv

/-- The window of the record. -/
structure SameBounds (w state : RmaAnalyzerState) : Prop where
  winBase : state.winBase = w.winBase
  winSize : state.winSize = w.winSize

theorem SameBounds.save {state' : RmaAnalyzerState} {x : EpochAccess} (h : SameBounds w state)
    (hsave : x.save fw state = .ok state') : SameBounds w state' := by
  unfold EpochAccess.save treeSave at hsave
  cases hres : rmaAnalyzerSaveInterval fw state (x.placed state.winBase) with
  | error e =>
      rw [hres] at hsave
      cases hsave
  | ok r =>
      rw [hres] at hsave
      rcases r with ⟨saved, t⟩
      rcases rmaAnalyzerSaveInterval_eq hres with ⟨localTree, notifTree, heq⟩
      obtain rfl : t = state' := Except.ok.inj hsave
      exact ⟨by rw [heq]; exact h.winBase, by rw [heq]; exact h.winSize⟩

/-- One access. -/
theorem save_withBase {x : EpochAccess} (h : BaseIndependent fw b w xs) (hx : x ∈ xs)
    (hsame : SameBounds w state) :
    x.save fw (state.withBase b) = (x.save fw state).map (·.withBase b) := by
  have hown := h.own x hx
  have hadm := h.admits x hx
  cases x with
  | remote addr received => exact hown.elim
  | own p =>
      have hbase : (state.withBase b).winBase = (w.withBase b).winBase := rfl
      have hv : admits fw (state.withBase b) p.itv = admits fw (w.withBase b) p.itv :=
        admits_congr hbase hsame.winSize p.itv
      have hw : admits fw state p.itv = admits fw w p.itv :=
        admits_congr hsame.winBase hsame.winSize p.itv
      exact treeSave_withBase (hv.trans (hadm.trans hw.symm))

/-- A whole run, from any state on the way. -/
theorem run_withBase (h : BaseIndependent fw b w xs) {pre : List EpochAccess}
    (hpre : ∀ x ∈ pre, x ∈ xs) (hsame : SameBounds w state) :
    run (EpochAccess.save fw) (state.withBase b) pre =
      (run (EpochAccess.save fw) state pre).map (·.withBase b) := by
  induction pre generalizing state with
  | nil => rfl
  | cons x pre ih =>
      have hstep := save_withBase h (hpre x List.mem_cons_self) hsame
      simp only [run, List.foldlM_cons] at ih ⊢
      rw [hstep]
      cases hsave : x.save fw state with
      | error e => rfl
      | ok t => exact ih (fun y hy => hpre y (List.mem_cons_of_mem _ hy)) (hsame.save hsave)

theorem map_eq_ok {α β : Type*} {f : α → β} {x : Except Fault α} {y : β} :
    x.map f = .ok y ↔ ∃ a, x = .ok a ∧ f a = y := by
  cases x <;> simp [Except.map]

theorem map_eq_error {α β : Type*} {f : α → β} {x : Except Fault α} {e : Fault} :
    x.map f = .error e ↔ x = .error e := by
  cases x <;> simp [Except.map]

theorem sameBounds_run {pre : List EpochAccess} {state : RmaAnalyzerState}
    (hrun : run (EpochAccess.save fw) w pre = .ok state) : SameBounds w state :=
  invariant (fun _ _ _ h hsave => h.save hsave) ⟨rfl, rfl⟩ hrun

/-- Both windows report the same. -/
theorem reportsAccess_withBase (h : BaseIndependent fw b w xs) {pre : List EpochAccess}
    {x : EpochAccess} {report : String} (hpre : pre ++ [x] <+: xs) :
    ReportsAccess fw (w.withBase b) pre x report ↔ ReportsAccess fw w pre x report := by
  have hmem : ∀ y ∈ pre, y ∈ xs := fun y hy => hpre.subset (List.mem_append_left _ hy)
  have hx : x ∈ xs := hpre.subset (List.mem_append_right _ List.mem_cons_self)
  unfold ReportsAccess
  simp only [run_withBase h hmem ⟨rfl, rfl⟩, map_eq_ok]
  constructor
  · intro hparts
    rcases hparts with ⟨-, ⟨state, hrun, rfl⟩, hsave⟩
    rw [save_withBase h hx (sameBounds_run hrun), map_eq_error] at hsave
    exact ⟨state, hrun, hsave⟩
  · intro hparts
    rcases hparts with ⟨state, hrun, hsave⟩
    refine ⟨_, ⟨state, hrun, rfl⟩, ?_⟩
    rw [save_withBase h hx (sameBounds_run hrun), map_eq_error]
    exact hsave

end Base

/-! ## The two ways of making a window -/

/-- The received interval is placed at the same address exactly if the bases are the same. -/
theorem placed_lowBound_eq_iff {b c : UInt64} {addr : Nat} {received : Interval} :
    ((EpochAccess.remote addr received).placed b).itv.lowBound =
      ((EpochAccess.remote addr received).placed c).itv.lowBound ↔ b = c :=
  UInt64.add_right_inj (received.lowBound)

/-- An access of the process itself to the region is admitted by the window made of it. -/
theorem inside_of_in {region : MemoryRegion} {w : RmaAnalyzerState} {x : EpochAccess}
    (hbase : w.winBase = region.base) (hsize : w.winSize = region.size) (own : x.IsOwn)
    (hin : x.In region) : Inside w (x.placed w.winBase).itv := by
  cases x with
  | remote addr received => exact own.elim
  | own p =>
      refine ⟨?_, ?_⟩
      · rw [RmaAnalyzerState.windowBytes, hbase, hsize]
        exact hin.2
      · rw [hbase, hsize]
        exact region.end_lt

theorem EpochAccess.In.nonempty {region : MemoryRegion} {x : EpochAccess} {b : UInt64}
    (hin : x.In region) (own : x.IsOwn) : (x.placed b).itv.Nonempty := by
  cases x with
  | remote addr received => exact own.elim
  | own p => exact hin.1

/-- On records that differ in the base. -/
theorem sameAnalysis_withBase_iff {region : MemoryRegion} {fw : Int} {b : UInt64}
    {w : RmaAnalyzerState} {xs : List EpochAccess} (hbase : w.winBase = region.base)
    (hsize : w.winSize = region.size) (hin : ∀ x ∈ xs, x.In region) :
    SameAnalysis fw (w.withBase b) w xs ↔
      b = region.base ∨ (∀ x ∈ xs, x.IsOwn) ∧
        (fw = 0 ∨ ∀ x ∈ xs, Inside (w.withBase b) (x.placed b).itv) := by
  -- The window of the region admits all accesses of the process itself.
  have admitted : ∀ x ∈ xs, x.IsOwn → admits fw w (x.placed w.winBase).itv = true := by
    intro x hx own
    by_cases off : fw = 0
    · simp only [admits, off, beq_self_eq_true, Bool.true_or]
    · exact (admits_iff_inside off ((hin x hx).nonempty own)).mpr
        (inside_of_in hbase hsize own (hin x hx))
  constructor
  · intro hsame
    by_cases heq : b = region.base
    · exact .inl heq
    · have own : ∀ x ∈ xs, x.IsOwn := by
        intro x hx
        cases x with
        | own p => trivial
        | remote addr received =>
            exact heq ((placed_lowBound_eq_iff.mp (hsame.places _ hx).1).trans hbase)
      refine .inr ⟨own, ?_⟩
      by_cases off : fw = 0
      · exact .inl off
      · refine .inr fun x hx => ?_
        exact (admits_iff_inside off ((hin x hx).nonempty (own x hx))).mp
          ((hsame.admits x hx).trans (admitted x hx (own x hx)))
  · intro hcase
    rcases hcase with rfl | ⟨own, hfilter⟩
    · have hself : w.withBase region.base = w := by rw [← hbase]; rfl
      rw [hself]
      exact ⟨fun _ _ => rfl, fun _ _ => ⟨rfl, rfl⟩, fun _ _ _ _ => Iff.rfl⟩
    · have hadm : ∀ x ∈ xs, admits fw (w.withBase b) (x.placed b).itv =
          admits fw w (x.placed w.winBase).itv := by
        intro x hx
        rw [admitted x hx (own x hx)]
        by_cases off : fw = 0
        · simp only [admits, off, beq_self_eq_true, Bool.true_or]
        · exact (admits_iff_inside off ((hin x hx).nonempty (own x hx))).mpr
            (hfilter.resolve_left off x hx)
      refine ⟨hadm, fun x hx => ?_, fun pre x report hpre => ?_⟩
      · cases x with
        | own p => exact ⟨rfl, rfl⟩
        | remote addr received => exact (own _ hx).elim
      · exact reportsAccess_withBase ⟨own, hadm⟩ hpre

/-- A window of memory that the library has allocated is analysed as one that has been created of
the same memory exactly if the base is what is stored at its own address, or all accesses are the
process's own and the filter is off or finds them all in a window at the address of the base. -/
theorem sameAnalysis_iff {region : MemoryRegion} {comm : MpiComm} {sizeComm : Nat} {win : MpiWin}
    {baseptr : UInt64} {filterWindow : Option Int} {a₀ a a' : Analyzer} {v w : RmaAnalyzerState}
    {xs : List EpochAccess} (fresh : win ∉ a₀.windows)
    (hcreate : newWinCreate region.base region.size comm sizeComm win filterWindow a₀ = .ok a)
    (halloc : newWinAllocate region.size comm sizeComm baseptr win filterWindow a₀ = .ok a')
    (hw : rmaAnalyzerGetState win a = .ok w) (hv : rmaAnalyzerGetState win a' = .ok v)
    (hin : ∀ x ∈ xs, x.In region) :
    SameAnalysis a.filterWindow v w xs ↔
      baseptr = region.base ∨ (∀ x ∈ xs, x.IsOwn) ∧
        (a.filterWindow = 0 ∨ ∀ x ∈ xs, Inside v (x.placed v.winBase).itv) := by
  obtain rfl := Except.ok.inj ((rmaAnalyzerStart_spec fresh hcreate).1.symm.trans hw)
  obtain rfl := Except.ok.inj ((rmaAnalyzerStart_spec fresh halloc).1.symm.trans hv)
  exact sameAnalysis_withBase_iff (b := baseptr)
    (w := RmaAnalyzerState.new win region.base region.size comm sizeComm _) rfl rfl hin

/-- The memory of the window of the examples. -/
def exampleRegion : MemoryRegion := ⟨4096, 400, by decide⟩

/-- The record of the window, made by `MPI_Win_create`. -/
def exampleCreated : RmaAnalyzerState := RmaAnalyzerState.new 7 4096 400 0 2 65535

/-- The record made by `MPI_Win_allocate`, with the base stored at address 65536. -/
def exampleAllocated : RmaAnalyzerState := RmaAnalyzerState.new 7 65536 400 0 2 65535

/-- A process with the window of the record, and the setting of the filter. -/
def processOf (fw : Int) (state : RmaAnalyzerState) : Analyzer :=
  { Analyzer.init with
    languageProgram := .c
    filterWindow := fw
    winMpiTagId := 1 :: List.replicate 31 0
    stateHtbl := [state] }

theorem newWinCreate_exampleRegion (fw : Int) :
    newWinCreate exampleRegion.base exampleRegion.size 0 2 7 (some fw) .init =
      .ok (processOf fw exampleCreated) := rfl

theorem newWinAllocate_exampleRegion (fw : Int) :
    newWinAllocate exampleRegion.size 0 2 65536 7 (some fw) .init =
      .ok (processOf fw exampleAllocated) := rfl

theorem exampleLoad_in : ∀ x ∈ [EpochAccess.own exampleLoad], x.In exampleRegion := by
  intro x hx
  obtain rfl := List.mem_singleton.mp hx
  have hle : exampleLoad.itv.lowBound.toNat ≤ exampleLoad.itv.upBound.toNat := by decide
  exact ⟨UInt64.le_iff_toNat_le.mpr hle, (Set.Icc_subset_Ico_iff hle).mpr ⟨by decide, by decide⟩⟩

/-- A get into 4 bytes of the window, and a load of two of them. -/
def getThenLoad : List EpochAccess :=
  [.own ⟨0, createInterval 4176 4179 .rmaWrite (-1) 10 none⟩,
    .own ⟨1, createInterval 4178 4179 .localRead (-1) 11 none⟩]

theorem getThenLoad_in : ∀ x ∈ getThenLoad, x.IsOwn ∧ x.In exampleRegion := by
  have hin : ∀ p : IntervalPtr, p.itv.lowBound.toNat ≤ p.itv.upBound.toNat →
      4096 ≤ p.itv.lowBound.toNat → p.itv.upBound.toNat < 4096 + 400 →
      (EpochAccess.own p).In exampleRegion := fun p hle hlow hup =>
    ⟨UInt64.le_iff_toNat_le.mpr hle, (Set.Icc_subset_Ico_iff hle).mpr ⟨hlow, hup⟩⟩
  intro x hx
  simp only [getThenLoad, List.mem_cons, List.not_mem_nil, or_false] at hx
  rcases hx with rfl | rfl
  · exact ⟨trivial, hin _ (by decide) (by decide) (by decide)⟩
  · exact ⟨trivial, hin _ (by decide) (by decide) (by decide)⟩

/-- The record made by `MPI_Win_allocate` where the base is stored just before the memory. -/
def allocatedNearby : RmaAnalyzerState := RmaAnalyzerState.new 7 4088 400 0 2 65535

/-- With the filter on, both windows admit the accesses and report the load. -/
theorem sameAnalysis_getThenLoad :
    SameAnalysis 1 allocatedNearby exampleCreated getThenLoad ∧
      ∃ pre x report, pre ++ [x] <+: getThenLoad ∧
        ReportsAccess 1 allocatedNearby pre x report ∧
        ReportsAccess 1 exampleCreated pre x report := by
  have halloc : newWinAllocate exampleRegion.size 0 2 4088 7 (some 1) .init =
      .ok (processOf 1 allocatedNearby) := rfl
  have hadm : ∀ x ∈ getThenLoad, admits 1 allocatedNearby (x.placed 4088).itv = true := by decide
  have hinside : ∀ x ∈ getThenLoad, Inside allocatedNearby (x.placed 4088).itv := by
    intro x hx
    obtain ⟨own, hin⟩ := getThenLoad_in x hx
    exact (admits_iff_inside one_ne_zero (hin.nonempty own)).mp (hadm x hx)
  have hsame : SameAnalysis 1 allocatedNearby exampleCreated getThenLoad :=
    (sameAnalysis_iff List.not_mem_nil (newWinCreate_exampleRegion 1) halloc rfl rfl
      fun x hx => (getThenLoad_in x hx).2).mpr
      (.inr ⟨fun x hx => (getThenLoad_in x hx).1, .inr hinside⟩)
  have hreport : ReportsAccess 1 exampleCreated [getThenLoad[0]] getThenLoad[1] _ :=
    ⟨_, rfl, rfl⟩
  exact ⟨hsame, _, _, _, List.prefix_rfl, (hsame.reports _ _ _ List.prefix_rfl).mpr hreport,
    hreport⟩

/-- With the filter on, the window at the address of its base does not admit them. -/
theorem not_sameAnalysis_of_load :
    ¬ ∀ (region : MemoryRegion) (baseptr : UInt64) (a a' : Analyzer) (v w : RmaAnalyzerState)
      (xs : List EpochAccess),
      newWinCreate region.base region.size 0 2 7 (some 1) .init = .ok a →
      newWinAllocate region.size 0 2 baseptr 7 (some 1) .init = .ok a' →
      rmaAnalyzerGetState 7 a = .ok w → rmaAnalyzerGetState 7 a' = .ok v →
      (∀ x ∈ xs, x.In region) → SameAnalysis a.filterWindow v w xs := by
  intro h
  have hsame := h exampleRegion 65536 _ _ _ _ [.own exampleLoad] (newWinCreate_exampleRegion 1)
    (newWinAllocate_exampleRegion 1) rfl rfl exampleLoad_in
  have hadm := hsame.admits _ List.mem_cons_self
  exact absurd hadm (by decide)

end ParcoachRma
