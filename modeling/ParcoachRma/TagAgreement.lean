import ParcoachRma.TagSeparation

/-!
# Tags in different processes

Windows are created and freed collectively, but each process takes the first free slot of its own
table, and no message tells the others which one.  A sender uses its own first tag for the window,
the target listens on its own.

`tagsAgree_iff`: along a history of collective calls the members of every live window hold the same
first tag exactly if at every creation some slot is the first free one for all members.
-/

namespace ParcoachRma

open Run

/-! ## Collective calls -/

/-- The state of all processes, and the live windows with the members of their communicators. -/
structure World (ι : Type) where
  procs : ι → Analyzer
  live : List (MpiWin × List ι)

/-- All processes at their start, with no window. -/
def World.init {ι : Type} : World ι where
  procs := fun _ => Analyzer.init
  live := []

/-- A collective call: the members of a communicator, in the order of their ranks, create a window
on memory of their own, or a window is freed by all members of its communicator. -/
inductive CollectiveCall (ι : Type) where
  | create (base size : ι → UInt64) (comm : MpiComm) (members : List ι) (win : MpiWin)
  | free (win : MpiWin)

section Members

variable {ι : Type} [DecidableEq ι]

/-- The members make the call, each on its own state. -/
def onMembers (f : ι → Analyzer → Except Fault Analyzer) (members : List ι)
    (procs : ι → Analyzer) : Except Fault (ι → Analyzer) :=
  members.foldlM (fun procs p => do return Function.update procs p (← f p (procs p))) procs

/-- One collective call.  A new window is none of the live ones, and the ranks of a communicator
are different processes. -/
def collectiveStep (w : World ι) : CollectiveCall ι → Except Fault (World ι)
  | .create base size comm members win =>
      if win ∈ w.live.map Prod.fst ∨ ¬ members.Nodup then .error .exitFailure
      else do
        let procs ← onMembers
          (fun p => newWinCreate (base p) (size p) comm members.length win none) members w.procs
        return { procs := procs, live := w.live ++ [(win, members)] }
  | .free win =>
      match w.live.find? (·.1 = win) with
      | none => .error .exitFailure
      | some (_, members) => do
          let procs ← onMembers (fun _ => newWinFree win) members w.procs
          return { procs := procs, live := w.live.filter (·.1 ≠ win) }

/-- Each member has made the call once, all other processes are as they were. -/
theorem onMembers_spec {f : ι → Analyzer → Except Fault Analyzer} {members : List ι}
    (nodup : members.Nodup) {procs procs' : ι → Analyzer}
    (h : onMembers f members procs = .ok procs') :
    (∀ p ∈ members, f p (procs p) = .ok (procs' p)) ∧ ∀ p, p ∉ members → procs' p = procs p := by
  unfold onMembers at h
  induction members generalizing procs with
  | nil =>
      obtain rfl := Except.ok.inj h
      exact ⟨by simp, fun _ _ => rfl⟩
  | cons q members ih =>
      obtain ⟨hq, nodup⟩ := List.nodup_cons.mp nodup
      obtain ⟨procs₁, hfirst, hrest⟩ := run_cons_ok.mp h
      obtain ⟨a, ha, hret⟩ := bind_ok.mp hfirst
      obtain rfl := Except.ok.inj hret
      obtain ⟨hmem, hother⟩ := ih nodup hrest
      refine ⟨fun p hp => ?_, fun p hp => ?_⟩
      · rcases List.mem_cons.mp hp with rfl | hp
        · rw [hother p hq, Function.update_self]
          exact ha
        · have hne : p ≠ q := fun heq => hq (heq ▸ hp)
          rw [← hmem p hp, Function.update_of_ne hne]
      · have hne : p ≠ q := fun heq => hp (heq ▸ List.mem_cons_self)
        rw [hother p fun hp' => hp (List.mem_cons_of_mem _ hp'), Function.update_of_ne hne]

end Members

/-! ## The invariant -/

/-- What holds after every history: the tables of all processes are in order, and a process has a
record of exactly the live windows it is a member of. -/
structure WorldOk {ι : Type} (w : World ι) : Prop where
  tags : ∀ p, TagsOk (w.procs p)
  nodup : (w.live.map Prod.fst).Nodup
  distinct : ∀ e ∈ w.live, e.2.Nodup
  member : ∀ p win, win ∈ (w.procs p).windows → ∃ members, (win, members) ∈ w.live ∧ p ∈ members

namespace WorldOk

theorem init {ι : Type} : WorldOk (World.init : World ι) :=
  ⟨fun _ => TagsOk.init, by simp [World.init], by simp [World.init],
    fun _ _ h => by simp [World.init, Analyzer.init, Analyzer.windows] at h⟩

variable {ι : Type} [DecidableEq ι] {w w' : World ι}

/-- The processes of a new window have made their records, the others are as they were. -/
theorem create {base size : ι → UInt64} {comm : MpiComm} {members : List ι} {win : MpiWin}
    (h : WorldOk w) (hstep : collectiveStep w (.create base size comm members win) = .ok w') :
    WorldOk w' ∧ w'.live = w.live ++ [(win, members)] ∧
      (∀ p, p ∉ members → w'.procs p = w.procs p) ∧
      ∀ p ∈ members, win ∉ (w.procs p).windows ∧
        newWinCreate (base p) (size p) comm members.length win none (w.procs p) =
          .ok (w'.procs p) := by
  simp only [collectiveStep] at hstep
  split_ifs at hstep with hguard
  obtain ⟨hfresh, hnodup⟩ := not_or.mp hguard
  rw [not_not] at hnodup
  obtain ⟨procs, hprocs, hret⟩ := bind_ok.mp hstep
  obtain rfl := Except.ok.inj hret
  obtain ⟨hmem, hother⟩ := onMembers_spec hnodup hprocs
  have hnew : ∀ p, win ∉ (w.procs p).windows := fun p hp => by
    obtain ⟨members', hlive, -⟩ := h.member p win hp
    exact hfresh (List.mem_map_of_mem (f := Prod.fst) hlive)
  refine ⟨⟨fun p => ?_, ?_, fun e he => ?_, fun p v hv => ?_⟩, rfl, hother,
    fun p hp => ⟨hnew p, hmem p hp⟩⟩
  · by_cases hp : p ∈ members
    · exact ((h.tags p).create (hnew p) (hmem p hp)).1
    · change TagsOk (procs p)
      rw [hother p hp]
      exact h.tags p
  · rw [List.map_append, List.nodup_append]
    refine ⟨h.nodup, List.nodup_singleton _, fun x hx y hy hxy => ?_⟩
    obtain rfl : y = win := by simpa using hy
    exact hfresh (hxy ▸ hx)
  · rcases List.mem_append.mp he with he | he
    · exact h.distinct e he
    · rw [List.mem_singleton] at he
      rw [he]
      exact hnodup
  · have hold : v ∈ (w.procs p).windows → ∃ ms, (v, ms) ∈ w.live ++ [(win, members)] ∧ p ∈ ms := by
      intro hv
      obtain ⟨ms, hms, hpm⟩ := h.member p v hv
      exact ⟨ms, List.mem_append_left _ hms, hpm⟩
    by_cases hp : p ∈ members
    · obtain ⟨-, tag, htags, -⟩ := (h.tags p).create (hnew p) (hmem p hp)
      rw [windows_eq_map_tags, htags, List.map_append, List.mem_append,
        ← windows_eq_map_tags] at hv
      rcases hv with hv | hv
      · exact hold hv
      · obtain rfl : v = win := by simpa using hv
        exact ⟨members, List.mem_append_right _ (List.mem_singleton_self _), hp⟩
    · exact hold ((hother p hp) ▸ hv)

/-- The processes of a freed window have removed their records. -/
theorem free {win : MpiWin} (h : WorldOk w) (hstep : collectiveStep w (.free win) = .ok w') :
    WorldOk w' ∧ w'.live = w.live.filter (·.1 ≠ win) ∧
      ∀ p e, e ∈ (w'.procs p).tags ↔ e ∈ (w.procs p).tags ∧ e.1 ≠ win := by
  simp only [collectiveStep] at hstep
  split at hstep
  · cases hstep
  · rename_i v members hfind
    obtain ⟨procs, hprocs, hret⟩ := bind_ok.mp hstep
    obtain rfl := Except.ok.inj hret
    have hlive := List.mem_of_find?_eq_some hfind
    obtain rfl : v = win := by simpa using List.find?_some hfind
    obtain ⟨hmem, hother⟩ := onMembers_spec (h.distinct _ hlive) hprocs
    have htags : ∀ p e, e ∈ (procs p).tags ↔ e ∈ (w.procs p).tags ∧ e.1 ≠ v := by
      intro p e
      by_cases hp : p ∈ members
      · rw [((h.tags p).free (hmem p hp)).2, List.mem_filter, decide_eq_true_eq]
      · rw [hother p hp]
        refine ⟨fun he => ⟨he, ?_⟩, fun he => he.1⟩
        rintro rfl
        have hwin : e.1 ∈ (w.procs p).windows := by
          rw [windows_eq_map_tags]
          exact List.mem_map_of_mem he
        obtain ⟨ms, hms, hpm⟩ := h.member p e.1 hwin
        have hsame : (e.1, ms) = (e.1, members) := List.inj_on_of_nodup_map h.nodup hms hlive rfl
        obtain rfl : ms = members := congrArg Prod.snd hsame
        exact hp hpm
    refine ⟨⟨fun p => ?_, ?_, fun e he => h.distinct e (List.mem_of_mem_filter he),
      fun p u hu => ?_⟩, rfl, htags⟩
    · by_cases hp : p ∈ members
      · exact ((h.tags p).free (hmem p hp)).1
      · change TagsOk (procs p)
        rw [hother p hp]
        exact h.tags p
    · exact h.nodup.sublist (List.filter_sublist.map _)
    · rw [windows_eq_map_tags] at hu
      obtain ⟨e, he, rfl⟩ := List.mem_map.mp hu
      obtain ⟨hold, hne⟩ := (htags p e).mp he
      have hwin : e.1 ∈ (w.procs p).windows := by
        rw [windows_eq_map_tags]
        exact List.mem_map_of_mem hold
      obtain ⟨ms, hms, hpm⟩ := h.member p e.1 hwin
      exact ⟨ms, List.mem_filter.mpr ⟨hms, by simpa using hne⟩, hpm⟩

theorem step {c : CollectiveCall ι} (h : WorldOk w) (hstep : collectiveStep w c = .ok w') :
    WorldOk w' := by
  cases c with
  | create base size comm members win => exact (h.create hstep).1
  | free win => exact (h.free hstep).1

end WorldOk

/-! ## Agreement -/

/-- The first free slot of the table is slot `i`; for a full table, its length. -/
def FirstFree (i : Nat) (table : List Nat) : Prop :=
  (∀ j < i, Used table j) ∧ ¬ Used table i

instance (i : Nat) (table : List Nat) : Decidable (FirstFree i table) :=
  inferInstanceAs (Decidable (_ ∧ _))

theorem FirstFree.unique {i j : Nat} {table : List Nat} (hi : FirstFree i table)
    (hj : FirstFree j table) : i = j := by
  rcases Nat.lt_trichotomy i j with hlt | heq | hgt
  · exact absurd (hj.1 i hlt) hi.2
  · exact heq
  · exact absurd (hi.1 j hgt) hj.2

/-- The tag range that a process takes where slot `i` is the first free one. -/
def rangeOfFirstFree (i : Nat) : Int := if i < rmaAnalyzerMaxWin then i else -1

theorem rangeOfFirstFree_inj {i j : Nat} (hi : i ≤ rmaAnalyzerMaxWin) (hj : j ≤ rmaAnalyzerMaxWin)
    (h : rangeOfFirstFree i = rangeOfFirstFree j) : i = j := by
  unfold rangeOfFirstFree at h
  split_ifs at h <;> omega

theorem firstFree_getTagRangeId {table table' : List Nat} {tagId : Int}
    (hlen : table.length = rmaAnalyzerMaxWin)
    (h : rmaAnalyzerGetTagRangeId table = (tagId, table')) :
    ∃ i ≤ rmaAnalyzerMaxWin, FirstFree i table ∧ tagId = rangeOfFirstFree i := by
  rcases getTagRangeId_spec h with ⟨rfl, -, hall⟩ | ⟨i, hi, rfl, -, hfree, hlower⟩
  · refine ⟨table.length, hlen.le, ⟨hall, fun ⟨v, hv, _⟩ => ?_⟩, ?_⟩
    · simp at hv
    · rw [rangeOfFirstFree, hlen, if_neg (lt_irrefl _)]
  · refine ⟨i, hlen ▸ hi.le, ⟨hlower, hfree⟩, ?_⟩
    rw [rangeOfFirstFree, if_pos (hlen ▸ hi)]

/-- All members of a live window hold the same first tag for it. -/
def TagsAgree {ι : Type} (w : World ι) : Prop :=
  ∀ e ∈ w.live, ∃ tag, ∀ p ∈ e.2, (e.1, tag) ∈ (w.procs p).tags

/-- The tags agree in every state of the history. -/
def AlwaysAgree {ι : Type} [DecidableEq ι] (calls : List (CollectiveCall ι)) : Prop :=
  ∀ pre w, pre <+: calls → run collectiveStep World.init pre = .ok w → TagsAgree w

section Agree

variable {ι : Type} [DecidableEq ι] {w w' : World ι}

/-- A creation keeps the agreement exactly if some slot is the first free one for all members. -/
theorem tagsAgree_create_iff {base size : ι → UInt64} {comm : MpiComm} {members : List ι}
    {win : MpiWin} (h : WorldOk w) (hagree : TagsAgree w)
    (hstep : collectiveStep w (.create base size comm members win) = .ok w') :
    TagsAgree w' ↔ ∃ i, ∀ p ∈ members, FirstFree i (w.procs p).winMpiTagId := by
  obtain ⟨-, hlive, hother, hcreate⟩ := h.create hstep
  -- Each member takes the range of its own first free slot.
  have htag : ∀ p ∈ members, win ∉ (w.procs p).windows ∧ ∃ i ≤ rmaAnalyzerMaxWin,
      FirstFree i (w.procs p).winMpiTagId ∧
      (w'.procs p).tags = (w.procs p).tags ++ [(win, tagOfSlot (rangeOfFirstFree i))] := by
    intro p hp
    obtain ⟨hfresh, hok⟩ := hcreate p hp
    obtain ⟨tagId, table, hget, -, hhtbl⟩ := newWinCreate_spec hok
    obtain ⟨i, hi, hfirst, rfl⟩ := firstFree_getTagRangeId (h.tags p).length hget
    refine ⟨hfresh, i, hi, hfirst, ?_⟩
    simp only [Analyzer.tags, hhtbl, List.map_append]
    rfl
  constructor
  · intro hagree'
    obtain ⟨tag, hsame⟩ := hagree' (win, members) (by simp [hlive])
    cases members with
    | nil => exact ⟨0, by simp⟩
    | cons q rest =>
        have hrange : ∀ p ∈ q :: rest, ∃ i ≤ rmaAnalyzerMaxWin,
            FirstFree i (w.procs p).winMpiTagId ∧ tag = tagOfSlot (rangeOfFirstFree i) := by
          intro p hp
          obtain ⟨hfresh, i, hi, hfirst, htags⟩ := htag p hp
          refine ⟨i, hi, hfirst, ?_⟩
          have hpair := hsame p hp
          rw [htags, List.mem_append, List.mem_singleton] at hpair
          rcases hpair with hold | hnew
          · refine absurd ?_ hfresh
            rw [windows_eq_map_tags]
            exact List.mem_map_of_mem (f := Prod.fst) hold
          · exact congrArg Prod.snd hnew
        obtain ⟨i, hi, -, htagi⟩ := hrange q List.mem_cons_self
        refine ⟨i, fun p hp => ?_⟩
        obtain ⟨j, hj, hfirst, htagj⟩ := hrange p hp
        obtain rfl : i = j :=
          rangeOfFirstFree_inj hi hj (tagOfSlot_inj (htagi.symm.trans htagj))
        exact hfirst
  · rintro ⟨i, hall⟩ e he
    rw [hlive] at he
    rcases List.mem_append.mp he with he | he
    · obtain ⟨tag, hsame⟩ := hagree e he
      refine ⟨tag, fun p hp => ?_⟩
      by_cases hmem : p ∈ members
      · obtain ⟨-, j, -, -, htags⟩ := htag p hmem
        rw [htags]
        exact List.mem_append_left _ (hsame p hp)
      · rw [hother p hmem]
        exact hsame p hp
    · rw [List.mem_singleton] at he
      subst he
      refine ⟨tagOfSlot (rangeOfFirstFree i), fun p hp => ?_⟩
      obtain ⟨-, j, -, hfirst, htags⟩ := htag p hp
      obtain rfl : i = j := (hall p hp).unique hfirst
      rw [htags]
      exact List.mem_append_right _ (List.mem_singleton_self _)

/-- Freeing a window keeps the agreement on the others. -/
theorem tagsAgree_free {win : MpiWin} (h : WorldOk w) (hagree : TagsAgree w)
    (hstep : collectiveStep w (.free win) = .ok w') : TagsAgree w' := by
  obtain ⟨-, hlive, htags⟩ := h.free hstep
  intro e he
  rw [hlive] at he
  obtain ⟨hold, hne⟩ := List.mem_filter.mp he
  obtain ⟨tag, hsame⟩ := hagree e hold
  exact ⟨tag, fun p hp => (htags p _).mpr ⟨hsame p hp, by simpa using hne⟩⟩

end Agree

/-- Along a history of collective calls, the members of every live window hold the same first tag
for it in every state exactly if at every creation some slot is the first free one in the tables
of all members. -/
theorem tagsAgree_iff {ι : Type} [DecidableEq ι] {calls : List (CollectiveCall ι)}
    (hrun : ∃ w, run collectiveStep World.init calls = .ok w) :
    AlwaysAgree calls ↔
      ∀ pre base size comm members win w,
        pre ++ [.create base size comm members win] <+: calls →
        run collectiveStep World.init pre = .ok w →
        ∃ i, ∀ p ∈ members, FirstFree i (w.procs p).winMpiTagId := by
  let C : List (CollectiveCall ι) → World ι → CollectiveCall ι → World ι → Prop := fun _ t c _ =>
    ∀ base size comm members win, c = .create base size comm members win →
      ∃ i, ∀ p ∈ members, FirstFree i (t.procs p).winMpiTagId
  have hiff : EachStep collectiveStep (fun _ _ _ t' => TagsAgree t') World.init calls ↔
      EachStep collectiveStep C World.init calls := by
    have exact_step : ∀ t c t', WorldOk t → TagsAgree t → collectiveStep t c = .ok t' →
        (TagsAgree t' ↔ C [] t c t') := by
      intro t c t' hok hagree hstep
      cases c with
      | create base size comm members win =>
          rw [tagsAgree_create_iff hok hagree hstep]
          refine ⟨fun h _ _ _ _ _ heq => ?_, fun h => h _ _ _ _ _ rfl⟩
          cases heq
          exact h
      | free win =>
          exact iff_of_true (tagsAgree_free hok hagree hstep) fun _ _ _ _ _ heq => by cases heq
    refine forall_step_iff (I := fun _ t => WorldOk t ∧ TagsAgree t)
      ⟨WorldOk.init, by simp [TagsAgree, World.init]⟩ ?_ ?_
    · intro pre c t t' _ hI hstep
      exact exact_step t c t' hI.1 hI.2 hstep
    · intro pre c t t' _ hI hstep hC
      exact ⟨hI.1.step hstep, (exact_step t c t' hI.1 hI.2 hstep).mpr hC⟩
  refine ⟨fun hagree pre base size comm members win w hpre hw => ?_, fun hcond pre w hpre hw => ?_⟩
  · have hC := hiff.mp fun p c t t' hp ht hs => hagree _ t' hp (run_snoc_ok.mpr ⟨t, ht, hs⟩)
    obtain ⟨w', hrun⟩ := hrun
    obtain ⟨t', ht'⟩ := exists_of_prefix hpre hrun
    obtain ⟨t, ht, hstep⟩ := run_snoc_ok.mp ht'
    obtain rfl := Except.ok.inj (ht.symm.trans hw)
    exact hC pre _ t t' hpre ht hstep _ _ _ _ _ rfl
  · have hQ := hiff.mpr fun p c t t' hp ht _ base size comm members win heq => by
      subst heq
      exact hcond p base size comm members win t hp ht
    cases pre using List.reverseRecOn with
    | nil =>
        obtain rfl := Except.ok.inj hw
        simp [TagsAgree, World.init]
    | append_singleton pre c =>
        obtain ⟨t, ht, hstep⟩ := run_snoc_ok.mp hw
        exact hQ pre c t w hpre ht hstep

/-- A window of 400 bytes in each process. -/
def exampleCreate (members : List (Fin 2)) (win : MpiWin) : CollectiveCall (Fin 2) :=
  .create (fun _ => 4096) (fun _ => 400) 0 members win

/-- Two windows on the communicator of both processes. -/
theorem tagsAgree_same_comm :
    AlwaysAgree [exampleCreate [0, 1] 0, exampleCreate [0, 1] 1] := by
  refine (tagsAgree_iff ⟨_, rfl⟩).mpr fun pre base size comm members win w hpre hw => ?_
  rcases pre with _ | ⟨c, _ | ⟨d, pre⟩⟩
  · obtain ⟨hc, -⟩ := List.cons_prefix_cons.mp hpre
    cases hc
    obtain rfl := Except.ok.inj hw
    exact ⟨0, by decide⟩
  · obtain ⟨rfl, hrest⟩ := List.cons_prefix_cons.mp hpre
    obtain ⟨hc, -⟩ := List.cons_prefix_cons.mp hrest
    cases hc
    obtain rfl := Except.ok.inj hw
    exact ⟨1, by decide⟩
  · have hlen := hpre.length_le
    simp at hlen

/-- One process has a window of its own, then both create one: they use the tags of different
slots for it. -/
theorem not_tagsAgree_own_window :
    ∃ w : World (Fin 2), run collectiveStep World.init
      [exampleCreate [0] 0, exampleCreate [0, 1] 1] = .ok w ∧ ¬ TagsAgree w := by
  refine ⟨_, rfl, fun hagree => ?_⟩
  obtain ⟨tag, hsame⟩ := hagree (1, [0, 1]) (List.mem_cons_of_mem _ List.mem_cons_self)
  have hfirst : (1, tag) ∈ [((0 : MpiWin), tagOfSlot 0), (1, tagOfSlot 1)] := hsame 0 (by simp)
  have hsecond : (1, tag) ∈ [((1 : MpiWin), tagOfSlot 0)] := hsame 1 (by simp)
  simp only [List.mem_cons, Prod.mk.injEq, List.not_mem_nil, or_false, true_and] at hfirst hsecond
  rw [hsecond] at hfirst
  exact absurd hfirst (by decide)

end ParcoachRma
