import ParcoachRma.Barrier
import ParcoachRma.Start
import Mathlib.Data.List.Perm.Subperm

/-!
# Tags of different windows

The tag of a message is the first tag of the window's range plus the number of the epoch.  The
ranges of live windows are disjoint as long as the table has room (`TagTable`), but nothing stops
the epoch counter at the end of its range.

`currentTag_separated`: two live windows with a range of their own use different tags unless their
epoch counters are at least the length of a range apart.  In a history that never has more than 32
windows at a time, all windows have a range of their own.
-/

namespace ParcoachRma

open Run

/-! ## Histories of windows -/

/-- The calls of a process that create and free windows and synchronise.  Locks of one target and
the post-start-complete-wait calls do to the record what the calls for all targets do. -/
inductive WinCall where
  | create (base size : UInt64) (comm : MpiComm) (sizeComm : Nat) (win : MpiWin)
  | free (win : MpiWin)
  | sync (c : SyncCall)

/-- One call, as a step on the state of the process.  The MPI library gives a new window a handle
that no live window has. -/
def winCallStep (a : Analyzer) : WinCall → Except Fault Analyzer
  | .create base size comm sizeComm win =>
      if win ∈ a.windows then .error .exitFailure
      else newWinCreate base size comm sizeComm win none a
  | .free win => newWinFree win a
  | .sync c => syncStep a c

/-! ## Synchronisation keeps the ranges -/

/-- The two states have the same windows, with the same ranges. -/
structure SameTags (a a' : Analyzer) : Prop where
  table : a'.winMpiTagId = a.winMpiTagId
  tags : a'.tags = a.tags

theorem SameTags.refl (a : Analyzer) : SameTags a a := ⟨rfl, rfl⟩

theorem SameTags.trans {a b c : Analyzer} (h : SameTags a b) (h' : SameTags b c) : SameTags a c :=
  ⟨h'.table.trans h.table, h'.tags.trans h.tags⟩

theorem SameTags.nodup {a b : Analyzer} (h : SameTags a b) (nodup : a.windows.Nodup) :
    b.windows.Nodup := by
  rw [windows_eq_map_tags, h.tags, ← windows_eq_map_tags]
  exact nodup

section Frame

variable {a a' : Analyzer} {win : MpiWin}

/-- A record that is written back under its handle with its first tag keeps the ranges. -/
theorem sameTags_setState {b : Analyzer} {state state' : RmaAnalyzerState}
    (nodup : a.windows.Nodup) (hhtbl : b.stateHtbl = a.stateHtbl)
    (htable : b.winMpiTagId = a.winMpiTagId) (hmem : state ∈ a.stateHtbl)
    (hwin : state'.stateWin = state.stateWin) (htag : state'.mpiTag = state.mpiTag) :
    SameTags a (b.setState state') := by
  refine ⟨htable, ?_⟩
  simp only [Analyzer.tags, Analyzer.setState, List.map_map, hhtbl]
  apply List.map_congr_left
  intro s hs
  simp only [Function.comp_apply]
  split_ifs with heq
  · have hsame : s = state := List.inj_on_of_nodup_map nodup hs hmem (heq.trans hwin)
    rw [hsame, hwin, htag]
  · rfl

theorem sameTags_initCommCheckThread (nodup : a.windows.Nodup)
    (h : rmaAnalyzerInitCommCheckThread win a = .ok a') : SameTags a a' := by
  obtain ⟨state, hstate, rfl⟩ := initCommCheckThread_spec h
  exact sameTags_setState nodup rfl rfl (mem_of_getState hstate).1 rfl rfl

theorem sameTags_clearCommCheckThread {doReduce : Bool} {tmp : Nat} (nodup : a.windows.Nodup)
    (h : rmaAnalyzerClearCommCheckThread doReduce tmp win a = .ok a') : SameTags a a' := by
  obtain ⟨state, tid, value, lt, nt, hstate, -, -, rfl⟩ := clearCommCheckThread_spec h
  exact sameTags_setState nodup rfl rfl (mem_of_getState hstate).1 rfl rfl

/-- Clearing in the middle of a call, if it is done at all. -/
theorem sameTags_of_ite {c : Prop} [Decidable c] {doReduce : Bool} {tmp : Nat}
    (nodup : a.windows.Nodup)
    (h : (if c then rmaAnalyzerClearCommCheckThread doReduce tmp win a else .ok a) = .ok a') :
    SameTags a a' := by
  split_ifs at h
  · exact sameTags_clearCommCheckThread nodup h
  · obtain rfl := Except.ok.inj h
    exact SameTags.refl a

theorem sameTags_newWinFence {tmp : Nat} (nodup : a.windows.Nodup)
    (h : newWinFence tmp win a = .ok a') : SameTags a a' := by
  obtain ⟨state, -, h⟩ := bind_ok.mp h
  obtain ⟨b, hb, h⟩ := bind_ok.mp h
  obtain ⟨state', hstate', hinit⟩ := bind_ok.mp h
  have hclear := sameTags_of_ite nodup hb
  have hset : SameTags b (b.setState { state' with countFence := state'.countFence + 1 }) :=
    sameTags_setState (hclear.nodup nodup) rfl rfl (mem_of_getState hstate').1 rfl rfl
  have hall := hclear.trans hset
  exact hall.trans (sameTags_initCommCheckThread (hall.nodup nodup) hinit)

theorem sameTags_clearInWin {doReduce : Bool} {tmp : MpiWin → Nat} (nodup : a.windows.Nodup)
    (h : clearInWin doReduce tmp a win = .ok a') : SameTags a a' := by
  obtain ⟨active, -, h⟩ := bind_ok.mp h
  cases active with
  | false =>
      obtain rfl := Except.ok.inj h
      exact SameTags.refl a
  | true =>
      obtain ⟨b, hb, h⟩ := bind_ok.mp h
      obtain ⟨state, hstate, h⟩ := bind_ok.mp h
      obtain rfl := Except.ok.inj h
      have hclear := sameTags_clearCommCheckThread nodup hb
      exact hclear.trans
        (sameTags_setState (hclear.nodup nodup) rfl rfl (mem_of_getState hstate).1 rfl rfl)

theorem sameTags_initInWin (nodup : a.windows.Nodup) (h : initInWin a win = .ok a') :
    SameTags a a' := by
  obtain ⟨current, -, h⟩ := bind_ok.mp h
  obtain ⟨active, -, h⟩ := bind_ok.mp h
  split_ifs at h
  · exact sameTags_initCommCheckThread nodup h
  · obtain rfl := Except.ok.inj h
    exact SameTags.refl a

/-- What keeps the ranges window by window keeps them over all windows. -/
theorem sameTags_run {f : Analyzer → MpiWin → Except Fault Analyzer} {wins : List MpiWin}
    (hf : ∀ b win b', b.windows.Nodup → f b win = .ok b' → SameTags b b')
    (nodup : a.windows.Nodup) (h : run f a wins = .ok a') : SameTags a a' :=
  invariant (P := fun b => SameTags a b)
    (fun b win b' hb hstep => hb.trans (hf b win b' (hb.nodup nodup) hstep)) (SameTags.refl a) h

theorem sameTags_newBarrier {tmp : MpiWin → Nat} (nodup : a.windows.Nodup)
    (h : newBarrier tmp a = .ok a') : SameTags a a' := by
  obtain ⟨b, hclear, hinit⟩ := bind_ok.mp h
  have hb := sameTags_run (fun _ _ _ hn hs => sameTags_clearInWin hn hs) nodup hclear
  exact hb.trans
    (sameTags_run (fun _ _ _ hn hs => sameTags_initInWin hn hs) (hb.nodup nodup) hinit)

theorem sameTags_syncStep {c : SyncCall} (nodup : a.windows.Nodup)
    (h : syncStep a c = .ok a') : SameTags a a' := by
  cases c with
  | lockAll win => exact sameTags_initCommCheckThread nodup h
  | unlockAll win tmp => exact sameTags_clearCommCheckThread nodup h
  | fence win tmp => exact sameTags_newWinFence nodup h
  | barrier tmp => exact sameTags_newBarrier nodup h

end Frame

/-! ## The table of ranges -/

/-- The table and the windows agree: a window has the range of a used slot, or none, each used slot
belongs to a window, and no two windows have one range. -/
structure TagTable (table : List Nat) (tags : List (MpiWin × Int)) : Prop where
  nodup : (tags.map Prod.fst).Nodup
  slot : ∀ p ∈ tags, p.2 = tagOfSlot (-1) ∨ ∃ i : Nat, p.2 = tagOfSlot i ∧ Used table i
  live : ∀ i : Nat, Used table i → ∃ p ∈ tags, p.2 = tagOfSlot i
  distinct : ∀ p ∈ tags, ∀ q ∈ tags, p.2 = q.2 → p.2 ≠ tagOfSlot (-1) → p = q

namespace TagTable

variable {table : List Nat} {tags : List (MpiWin × Int)} {win : MpiWin} {i : Nat}

/-- No window has the range of a slot that is free. -/
theorem ne_of_not_used (h : TagTable table tags) (hfree : ¬ Used table i) {p : MpiWin × Int}
    (hp : p ∈ tags) : p.2 ≠ tagOfSlot i := by
  intro heq
  rcases h.slot p hp with hnone | ⟨j, hj, hused⟩
  · exact tagOfSlot_ne_none i (heq.symm.trans hnone)
  · obtain rfl : j = i := slot_inj (hj.symm.trans heq)
    exact hfree hused

theorem nodup_snoc (h : TagTable table tags) (hfresh : win ∉ tags.map Prod.fst) (tag : Int) :
    ((tags ++ [(win, tag)]).map Prod.fst).Nodup := by
  rw [List.map_append, List.nodup_append]
  refine ⟨h.nodup, List.nodup_singleton _, fun x hx y hy hxy => ?_⟩
  obtain rfl : y = win := by simpa using hy
  exact hfresh (hxy ▸ hx)

/-- A window that gets no range. -/
theorem snoc_none (h : TagTable table tags) (hfresh : win ∉ tags.map Prod.fst) :
    TagTable table (tags ++ [(win, tagOfSlot (-1))]) := by
  refine ⟨h.nodup_snoc hfresh _, fun p hp => ?_, fun j hj => ?_, fun p hp q hq heq hne => ?_⟩
  · rcases List.mem_append.mp hp with hp | hp
    · exact h.slot p hp
    · rw [List.mem_singleton] at hp
      exact .inl (congrArg Prod.snd hp)
  · obtain ⟨p, hp, hpj⟩ := h.live j hj
    exact ⟨p, List.mem_append_left _ hp, hpj⟩
  · have hold : ∀ r ∈ tags ++ [(win, tagOfSlot (-1))], r.2 ≠ tagOfSlot (-1) → r ∈ tags := by
      intro r hr hrne
      rcases List.mem_append.mp hr with hr | hr
      · exact hr
      · rw [List.mem_singleton] at hr
        exact absurd (congrArg Prod.snd hr) hrne
    exact h.distinct p (hold p hp hne) q (hold q hq (heq ▸ hne)) heq hne

/-- A window that gets the range of a free slot. -/
theorem snoc_slot (h : TagTable table tags) (hfresh : win ∉ tags.map Prod.fst)
    (hi : i < table.length) (hfree : ¬ Used table i) :
    TagTable (table.set i 1) (tags ++ [(win, tagOfSlot i)]) := by
  refine ⟨h.nodup_snoc hfresh _, fun p hp => ?_, fun j hj => ?_, fun p hp q hq heq hne => ?_⟩
  · rcases List.mem_append.mp hp with hp | hp
    · refine (h.slot p hp).imp_right fun ⟨j, hj, hused⟩ => ⟨j, hj, ?_⟩
      rw [used_set hi]
      split_ifs
      · exact one_ne_zero
      · exact hused
    · rw [List.mem_singleton] at hp
      refine .inr ⟨i, congrArg Prod.snd hp, ?_⟩
      rw [used_set hi, if_pos rfl]
      exact one_ne_zero
  · rw [used_set hi] at hj
    split_ifs at hj with hji
    · exact ⟨(win, tagOfSlot i), by simp, by rw [hji]⟩
    · obtain ⟨p, hp, hpj⟩ := h.live j hj
      exact ⟨p, List.mem_append_left _ hp, hpj⟩
  · rcases List.mem_append.mp hp with hp | hp <;> rcases List.mem_append.mp hq with hq | hq
    · exact h.distinct p hp q hq heq hne
    · rw [List.mem_singleton] at hq
      exact absurd (heq.trans (congrArg Prod.snd hq)) (h.ne_of_not_used hfree hp)
    · rw [List.mem_singleton] at hp
      exact absurd (heq.symm.trans (congrArg Prod.snd hp)) (h.ne_of_not_used hfree hq)
    · rw [List.mem_singleton] at hp hq
      rw [hp, hq]

/-- A window that gives its range back. -/
theorem erase (h : TagTable table tags) (hmem : (win, tagOfSlot i) ∈ tags)
    (hi : i < table.length) : TagTable (table.set i 0) (tags.filter (·.1 ≠ win)) := by
  -- The window is the only one with the range of the slot.
  have honly : ∀ p ∈ tags, p.2 = tagOfSlot i → p.1 = win := fun p hp heq =>
    congrArg Prod.fst (h.distinct p hp _ hmem heq (heq ▸ tagOfSlot_ne_none i))
  refine ⟨h.nodup.sublist (List.filter_sublist.map _), fun p hp => ?_, fun j hj => ?_,
    fun p hp q hq heq hne => ?_⟩
  · obtain ⟨hp, hpne⟩ := List.mem_filter.mp hp
    refine (h.slot p hp).imp_right fun ⟨j, hj, hused⟩ => ⟨j, hj, ?_⟩
    rw [used_set hi, if_neg]
    · exact hused
    · rintro rfl
      exact absurd (honly p hp hj) (by simpa using hpne)
  · rw [used_set hi] at hj
    split_ifs at hj with hji
    · exact absurd rfl hj
    · obtain ⟨p, hp, hpj⟩ := h.live j hj
      refine ⟨p, List.mem_filter.mpr ⟨hp, decide_eq_true fun hwin => hji ?_⟩, hpj⟩
      have hsame : p = (win, tagOfSlot i) := List.inj_on_of_nodup_map h.nodup hp hmem hwin
      exact slot_inj (hpj.symm.trans (congrArg Prod.snd hsame))
  · exact h.distinct p (List.mem_of_mem_filter hp) q (List.mem_of_mem_filter hq) heq hne

/-- The tags of the windows that have a range. -/
def rangedTags (tags : List (MpiWin × Int)) : List (MpiWin × Int) :=
  tags.filter (·.2 ≠ tagOfSlot (-1))

theorem mem_rangedTags {p : MpiWin × Int} :
    p ∈ rangedTags tags ↔ p ∈ tags ∧ p.2 ≠ tagOfSlot (-1) := by
  simp [rangedTags]

/-- The first tags of all slots of a table of that length. -/
def slotTags (length : Nat) : List Int := (List.range length).map fun i : Nat => tagOfSlot i

theorem nodup_slotTags (length : Nat) : (slotTags length).Nodup :=
  List.nodup_range.map fun _ _ => slot_inj

theorem nodup_rangedTags (h : TagTable table tags) : ((rangedTags tags).map Prod.snd).Nodup := by
  have hnodup : (rangedTags tags).Nodup := (h.nodup.of_map Prod.fst).filter _
  apply hnodup.map_on
  intro p hp q hq heq
  rcases mem_rangedTags.mp hp with ⟨hp, hne⟩
  rcases mem_rangedTags.mp hq with ⟨hq, -⟩
  exact h.distinct p hp q hq heq hne

/-- A window with a range has the tags of a used slot of the table. -/
theorem used_of_mem_rangedTags (h : TagTable table tags) {p : MpiWin × Int}
    (hp : p ∈ rangedTags tags) :
    ∃ i : Nat, i < table.length ∧ p.2 = tagOfSlot i ∧ Used table i := by
  rcases mem_rangedTags.mp hp with ⟨hp, hne⟩
  rcases h.slot p hp with hnone | ⟨i, hi, hused⟩
  · exact absurd hnone hne
  · have hlt : i < table.length := by
      rcases hused with ⟨v, hv, -⟩
      exact (List.getElem?_eq_some_iff.mp hv).1
    exact ⟨i, hlt, hi, hused⟩

/-- All slots are used exactly if there are as many windows with a range. -/
theorem all_used_iff (h : TagTable table tags) :
    (∀ i, i < table.length → Used table i) ↔ table.length ≤ (rangedTags tags).length := by
  have hlength : (slotTags table.length).length = table.length := by simp [slotTags]
  have hsub : (rangedTags tags).map Prod.snd ⊆ slotTags table.length := by
    intro tag htag
    obtain ⟨p, hp, rfl⟩ := List.mem_map.mp htag
    rcases h.used_of_mem_rangedTags hp with ⟨i, hi, htag, -⟩
    rw [htag]
    exact List.mem_map.mpr ⟨i, List.mem_range.mpr hi, rfl⟩
  constructor
  · intro hall
    have hback : slotTags table.length ⊆ (rangedTags tags).map Prod.snd := by
      intro tag htag
      obtain ⟨i, hi, rfl⟩ := List.mem_map.mp htag
      obtain ⟨p, hp, hpi⟩ := h.live i (hall i (List.mem_range.mp hi))
      exact List.mem_map.mpr ⟨p, mem_rangedTags.mpr ⟨hp, hpi ▸ tagOfSlot_ne_none i⟩, hpi⟩
    have hle := ((nodup_slotTags table.length).subperm hback).length_le
    rw [hlength, List.length_map] at hle
    exact hle
  · intro hle i hi
    have hperm : ((rangedTags tags).map Prod.snd).Perm (slotTags table.length) := by
      apply (h.nodup_rangedTags.subperm hsub).perm_of_length_le
      rw [hlength, List.length_map]
      exact hle
    have hmem : tagOfSlot i ∈ (rangedTags tags).map Prod.snd :=
      hperm.mem_iff.mpr (List.mem_map.mpr ⟨i, List.mem_range.mpr hi, rfl⟩)
    obtain ⟨p, hp, hpi⟩ := List.mem_map.mp hmem
    rcases h.used_of_mem_rangedTags hp with ⟨j, -, hj, hused⟩
    obtain rfl : i = j := slot_inj (hpi.symm.trans hj)
    exact hused

/-- With fewer windows than slots, some slot is free. -/
theorem exists_not_used (h : TagTable table tags) (hlt : tags.length < table.length) :
    ∃ i, i < table.length ∧ ¬ Used table i := by
  by_contra hall
  push Not at hall
  have hle : table.length ≤ (rangedTags tags).length := h.all_used_iff.mp hall
  have hfilter : (rangedTags tags).length ≤ tags.length := List.length_filter_le _ _
  omega

end TagTable

/-! ## Reachable states -/

/-- The ranges of a process after some calls. -/
structure TagsOk (a : Analyzer) : Prop where
  length : a.winMpiTagId.length = rmaAnalyzerMaxWin
  table : TagTable a.winMpiTagId a.tags

namespace TagsOk

variable {a a' : Analyzer}

theorem nodup (h : TagsOk a) : a.windows.Nodup := by
  rw [windows_eq_map_tags]
  exact h.table.nodup

theorem init : TagsOk Analyzer.init := by
  refine ⟨rfl, List.nodup_nil, by simp [Analyzer.tags, Analyzer.init], fun i hi => ?_,
    by simp [Analyzer.tags, Analyzer.init]⟩
  obtain ⟨v, hv, hne⟩ := hi
  simp only [Analyzer.init, List.getElem?_replicate] at hv
  split_ifs at hv
  exact absurd (Option.some.inj hv).symm hne

theorem of_sameTags (h : TagsOk a) (hsame : SameTags a a') : TagsOk a' := by
  refine ⟨?_, ?_⟩
  · rw [hsame.table]
    exact h.length
  · rw [hsame.table, hsame.tags]
    exact h.table

/-- A window that is started gets the range of a slot that is free, or none if none is. -/
theorem start {base size : UInt64} {comm : MpiComm} {sizeComm : Nat} {win : MpiWin}
    {language : Lang} {filterWindow : Option Int} (h : TagsOk a) (hfresh : win ∉ a.windows)
    (hstep : rmaAnalyzerStart base size comm sizeComm win language filterWindow a = .ok a') :
    TagsOk a' ∧ ∃ tag, a'.tags = a.tags ++ [(win, tag)] ∧
      (tag = tagOfSlot (-1) ∧ (∀ i, i < a.winMpiTagId.length → Used a.winMpiTagId i) ∨
        ∃ i : Nat, tag = tagOfSlot i ∧ i < a.winMpiTagId.length ∧ ¬ Used a.winMpiTagId i) := by
  obtain ⟨tagId, table, hget, htable, hhtbl⟩ := rmaAnalyzerStart_range hstep
  have htags : a'.tags = a.tags ++ [(win, tagOfSlot tagId)] := by
    simp only [Analyzer.tags, hhtbl, List.map_append]
    rfl
  rw [windows_eq_map_tags] at hfresh
  rcases getTagRangeId_spec hget with ⟨rfl, rfl, hall⟩ | ⟨i, hi, rfl, rfl, hfree, -⟩
  · refine ⟨⟨htable ▸ h.length, ?_⟩, _, htags, .inl ⟨rfl, hall⟩⟩
    rw [htable, htags]
    exact h.table.snoc_none hfresh
  · refine ⟨⟨?_, ?_⟩, _, htags, .inr ⟨i, rfl, hi, hfree⟩⟩
    · rw [htable, List.length_set]
      exact h.length
    · rw [htable, htags]
      exact h.table.snoc_slot hfresh hi hfree

/-- A window that is created while fewer than 32 are live gets a range. -/
theorem create {base size : UInt64} {comm : MpiComm} {sizeComm : Nat} {win : MpiWin}
    (h : TagsOk a) (hfresh : win ∉ a.windows)
    (hstep : newWinCreate base size comm sizeComm win none a = .ok a') :
    TagsOk a' ∧ ∃ tag, a'.tags = a.tags ++ [(win, tag)] ∧
      (a.windows.length < rmaAnalyzerMaxWin → rmaAnalyzerBaseMpiTag ≤ tag) := by
  obtain ⟨hok, tag, htags, hslot⟩ := h.start hfresh hstep
  refine ⟨hok, tag, htags, fun hlt => ?_⟩
  rcases hslot with ⟨-, hall⟩ | ⟨i, rfl, -, -⟩
  · have hlen : a.tags.length < a.winMpiTagId.length := by
      rw [h.length]
      simpa [windows_eq_map_tags] using hlt
    obtain ⟨i, hi, hfree⟩ := h.table.exists_not_used hlen
    exact absurd (hall i hi) hfree
  · unfold tagOfSlot rmaAnalyzerMaxEpochNumber
    omega

/-- Every window has the tags of some slot, perhaps of slot -1. -/
theorem exists_tagOfSlot (h : TagsOk a) {p : MpiWin × Int} (hp : p ∈ a.tags) :
    ∃ tagId, p.2 = tagOfSlot tagId := by
  rcases h.table.slot p hp with htag | ⟨i, htag, -⟩
  · exact ⟨-1, htag⟩
  · exact ⟨i, htag⟩

/-- A window that is stopped gives its range back. -/
theorem stop {win : MpiWin} (h : TagsOk a) (hstep : rmaAnalyzerStop win a = .ok a') :
    TagsOk a' ∧ a'.tags = a.tags.filter (·.1 ≠ win) := by
  obtain ⟨state, table, hstate, hfreed, htable, htags⟩ := rmaAnalyzerStop_spec hstep
  obtain ⟨hmem, rfl⟩ := mem_of_getState hstate
  have hpair : (state.stateWin, state.mpiTag) ∈ a.tags := List.mem_map_of_mem hmem
  -- A range that can be given back is one of the table.
  obtain ⟨tagId, htag⟩ : ∃ tagId, state.mpiTag = tagOfSlot tagId := h.exists_tagOfSlot hpair
  rw [htag] at hfreed hpair
  obtain ⟨i, hi, rfl, rfl⟩ := freeTagRange_spec hfreed
  refine ⟨⟨?_, ?_⟩, htags⟩
  · rw [htable, List.length_set]
    exact h.length
  · rw [htable, htags]
    exact h.table.erase hpair hi

theorem free {win : MpiWin} (h : TagsOk a) (hstep : newWinFree win a = .ok a') :
    TagsOk a' ∧ a'.tags = a.tags.filter (·.1 ≠ win) := by
  obtain ⟨state, -, hstep⟩ := bind_ok.mp hstep
  obtain ⟨b, hb, hstop⟩ := bind_ok.mp hstep
  have hsame := sameTags_of_ite h.nodup hb
  obtain ⟨hok, htags⟩ := (h.of_sameTags hsame).stop hstop
  exact ⟨hok, by rw [htags, hsame.tags]⟩

theorem step {c : WinCall} (h : TagsOk a) (hstep : winCallStep a c = .ok a') : TagsOk a' := by
  cases c with
  | create base size comm sizeComm win =>
      simp only [winCallStep] at hstep
      split_ifs at hstep with hfresh
      exact (h.create hfresh hstep).1
  | free win => exact (h.free hstep).1
  | sync c => exact h.of_sameTags (sameTags_syncStep h.nodup hstep)

/-- A call that leaves at most 32 windows leaves every window with a range, if it was so before. -/
theorem ranged_step {c : WinCall} (h : TagsOk a) (hstep : winCallStep a c = .ok a')
    (hle : a'.windows.length ≤ rmaAnalyzerMaxWin)
    (hranged : ∀ p ∈ a.tags, rmaAnalyzerBaseMpiTag ≤ p.2) :
    ∀ p ∈ a'.tags, rmaAnalyzerBaseMpiTag ≤ p.2 := by
  cases c with
  | create base size comm sizeComm win =>
      simp only [winCallStep] at hstep
      split_ifs at hstep with hfresh
      obtain ⟨-, tag, htags, hge⟩ := h.create hfresh hstep
      rw [windows_eq_map_tags, htags] at hle
      intro p hp
      rw [htags] at hp
      rcases List.mem_append.mp hp with hp | hp
      · exact hranged p hp
      · rw [List.mem_singleton] at hp
        subst hp
        apply hge
        simp only [windows_eq_map_tags, List.length_map, List.length_append,
          List.length_singleton] at hle ⊢
        omega
  | free win =>
      intro p hp
      rw [(h.free hstep).2] at hp
      exact hranged p (List.mem_of_mem_filter hp)
  | sync c =>
      rw [(sameTags_syncStep h.nodup hstep).tags]
      exact hranged

end TagsOk

/-- Distinct windows with a range of their own and the same current tag have epoch counters that
are at least the length of a range apart. -/
theorem separated_of_tagsOk {a : Analyzer} (h : TagsOk a) {s t : RmaAnalyzerState}
    (hs : s ∈ a.stateHtbl) (ht : t ∈ a.stateHtbl) (hne : s.stateWin ≠ t.stateWin)
    (hsr : rmaAnalyzerBaseMpiTag ≤ s.mpiTag) (htr : rmaAnalyzerBaseMpiTag ≤ t.mpiTag)
    (heq : s.currentTag = t.currentTag) :
    rmaAnalyzerMaxEpochNumber ≤ ((s.countEpoch : Int) - t.countEpoch).natAbs := by
  have hps : (s.stateWin, s.mpiTag) ∈ a.tags := List.mem_map_of_mem hs
  have hpt : (t.stateWin, t.mpiTag) ∈ a.tags := List.mem_map_of_mem ht
  have hslot : ∀ p ∈ a.tags, rmaAnalyzerBaseMpiTag ≤ p.2 → ∃ i : Nat, p.2 = tagOfSlot i := by
    intro p hp hge
    rcases h.table.slot p hp with hnone | ⟨i, hi, -⟩
    · rw [hnone] at hge
      unfold tagOfSlot rmaAnalyzerMaxEpochNumber at hge
      omega
    · exact ⟨i, hi⟩
  obtain ⟨i, hi⟩ := hslot _ hps hsr
  obtain ⟨j, hj⟩ := hslot _ hpt htr
  have hij : i ≠ j := by
    rintro rfl
    have hsame := h.table.distinct _ hps _ hpt (hi.trans hj.symm) (hi ▸ tagOfSlot_ne_none i)
    exact hne (congrArg Prod.fst hsame)
  unfold RmaAnalyzerState.currentTag at heq
  simp only at hi hj
  rw [hi, hj] at heq
  unfold tagOfSlot rmaAnalyzerMaxEpochNumber at *
  omega

/-- In every reachable state two live windows with a range of their own use different tags, unless
their epoch counters are at least the length of a range apart.  If there have never been more than
32 windows at a time, every window has a range of its own. -/
theorem currentTag_separated {calls : List WinCall} {a : Analyzer}
    (hrun : run winCallStep Analyzer.init calls = .ok a) :
    (∀ s ∈ a.stateHtbl, ∀ t ∈ a.stateHtbl, s.stateWin ≠ t.stateWin →
      rmaAnalyzerBaseMpiTag ≤ s.mpiTag → rmaAnalyzerBaseMpiTag ≤ t.mpiTag →
      s.currentTag = t.currentTag →
      rmaAnalyzerMaxEpochNumber ≤ ((s.countEpoch : Int) - t.countEpoch).natAbs) ∧
    ((∀ pre t, pre <+: calls → run winCallStep Analyzer.init pre = .ok t →
        t.windows.length ≤ rmaAnalyzerMaxWin) →
      ∀ s ∈ a.stateHtbl, rmaAnalyzerBaseMpiTag ≤ s.mpiTag) := by
  have hok := invariant (fun _ _ _ h hs => TagsOk.step h hs) TagsOk.init hrun
  refine ⟨fun s hs t ht hne hsr htr heq => separated_of_tagsOk hok hs ht hne hsr htr heq,
    fun hlimit s hs => ?_⟩
  have hinv : run winCallStep Analyzer.init calls = .ok a ∧ TagsOk a ∧
      ∀ p ∈ a.tags, rmaAnalyzerBaseMpiTag ≤ p.2 := by
    refine invariant_of_prefix (I := fun pre t => run winCallStep Analyzer.init pre = .ok t ∧
      TagsOk t ∧ ∀ p ∈ t.tags, rmaAnalyzerBaseMpiTag ≤ p.2) ?_ ?_ List.prefix_rfl hrun
    · exact ⟨rfl, TagsOk.init, by simp [Analyzer.tags, Analyzer.init]⟩
    · intro pre c t t' hpre hI hstep
      have hrun' := run_snoc_ok.mpr ⟨t, hI.1, hstep⟩
      exact ⟨hrun', hI.2.1.step hstep,
        hI.2.1.ranged_step hstep (hlimit _ t' hpre hrun') hI.2.2⟩
  exact hinv.2.2 (s.stateWin, s.mpiTag) (List.mem_map_of_mem hs)

/-- Two windows that are created in a process, with the second in an epoch. -/
def twoWindows : List WinCall :=
  [.create 4096 400 0 2 0, .create 8192 400 0 2 1, .sync (.lockAll 1)]

/-- The tags of two windows in a process. -/
theorem currentTag_separated_twoWindows :
    ∃ a, run winCallStep Analyzer.init twoWindows = .ok a ∧
      ∀ s ∈ a.stateHtbl, ∀ t ∈ a.stateHtbl, s.stateWin ≠ t.stateWin →
        rmaAnalyzerBaseMpiTag ≤ s.mpiTag → rmaAnalyzerBaseMpiTag ≤ t.mpiTag →
        s.currentTag = t.currentTag →
        rmaAnalyzerMaxEpochNumber ≤ ((s.countEpoch : Int) - t.countEpoch).natAbs := by
  have hrun : run winCallStep Analyzer.init twoWindows = .ok _ := rfl
  exact ⟨_, hrun, (currentTag_separated hrun).1⟩

/-! ## Windows that share a tag -/

/-- Two live windows use one tag. -/
def TagsCollide (a : Analyzer) : Prop :=
  ∃ s ∈ a.stateHtbl, ∃ t ∈ a.stateHtbl, s.stateWin ≠ t.stateWin ∧ s.currentTag = t.currentTag

/-- Epochs on the first window. -/
def lockUnlock : Nat → List WinCall
  | 0 => []
  | n + 1 => .sync (.lockAll 0) :: .sync (.unlockAll 0 0) :: lockUnlock n

/-- The first window has been through `n` epochs and is idle, the second one is as given. -/
def FirstIdle (n : Nat) (t : RmaAnalyzerState) (a : Analyzer) : Prop :=
  ∃ s, a.stateHtbl = [s, t] ∧ s.stateWin = 0 ∧ s.mpiTag = rmaAnalyzerBaseMpiTag ∧
    s.countEpoch = n ∧ s.localTree = .nil ∧ s.notifTree = .nil

section Collide

variable {n : Nat} {t : RmaAnalyzerState} {a : Analyzer}

theorem lockAll_firstIdle (ht : t.stateWin = 1) (h : FirstIdle n t a) :
    ∃ a' s, winCallStep a (.sync (.lockAll 0)) = .ok a' ∧ a'.stateHtbl = [s, t] ∧
      s.stateWin = 0 ∧ s.mpiTag = rmaAnalyzerBaseMpiTag ∧ s.countEpoch = n + 1 ∧
      s.localTree = .nil ∧ s.notifTree = .nil ∧ s.threadId = some a.nextThread ∧
      a.nextThread ∈ a'.threads.map Prod.fst := by
  obtain ⟨s, hhtbl, hwin, htag, hcount, hlocal, hnotif⟩ := h
  have hget : rmaAnalyzerGetState 0 a = .ok s := by
    simp [rmaAnalyzerGetState, hhtbl, hwin]
  refine ⟨_, { s.enterEpoch with threadId := some a.nextThread },
    initCommCheckThread_of_getState hget, ?_, hwin, htag, ?_, hlocal, hnotif, rfl, ?_⟩
  · simp [Analyzer.setState, Analyzer.pthreadCreate, hhtbl, hwin, ht,
      RmaAnalyzerState.enterEpoch]
  · simp [RmaAnalyzerState.enterEpoch, hcount]
  · simp [Analyzer.setState, Analyzer.pthreadCreate]

theorem lockUnlock_firstIdle (ht : t.stateWin = 1) (h : FirstIdle n t a) (m : Nat) :
    ∃ a', run winCallStep a (lockUnlock m) = .ok a' ∧ FirstIdle (n + m) t a' := by
  induction m generalizing n a with
  | zero => exact ⟨a, rfl, h⟩
  | succ m ih =>
      obtain ⟨b, s, hlock, hhtbl, hwin, htag, hcount, hlocal, hnotif, htid, hmem⟩ :=
        lockAll_firstIdle ht h
      have hget : rmaAnalyzerGetState 0 b = .ok s := by
        simp [rmaAnalyzerGetState, hhtbl, hwin]
      have hunlock : newWinUnlockAll 0 0 b = .ok _ :=
        clearCommCheckThread_of_getState hget htid hmem hlocal hnotif
      obtain ⟨a', hrun, hidle⟩ := ih (n := n + 1) (a := Analyzer.setState
        (s.requestEnd 0).leaveEpoch { b with threads := b.threads.filter (·.1 ≠ a.nextThread) })
        ⟨(s.requestEnd 0).leaveEpoch, by simp [Analyzer.setState, hhtbl, hwin, ht,
          RmaAnalyzerState.leaveEpoch, RmaAnalyzerState.requestEnd],
          hwin, htag, hcount, hlocal, hnotif⟩
      refine ⟨a', run_cons_ok.mpr ⟨b, hlock, run_cons_ok.mpr ⟨_, hunlock, hrun⟩⟩, ?_⟩
      rwa [Nat.add_right_comm] at hidle

end Collide

/-- Two windows that share a tag: one in its first epoch, and one that has gone through as many
epochs as its range has tags and is in the next one.  With more than 32 windows the last ones share
the tags of no slot, also when no more than 32 are left. -/
theorem exists_tagsCollide :
    (∃ a, run winCallStep Analyzer.init
        (twoWindows ++ (lockUnlock 1024 ++ [.sync (.lockAll 0)])) = .ok a ∧
      a.windows.length = 2 ∧ TagsCollide a) ∧
    ∃ a, run winCallStep Analyzer.init
        ((List.range 34).map (.create 4096 400 0 2 ·) ++ [.free 0, .free 1]) = .ok a ∧
      a.windows.length = 32 ∧ TagsCollide a := by
  refine ⟨?_, ?_⟩
  · obtain ⟨a₀, hrun₀, t, hwin, hcount, htag, hidle₀⟩ : ∃ a₀,
        run winCallStep Analyzer.init twoWindows = .ok a₀ ∧ ∃ t, t.stateWin = 1 ∧
          t.countEpoch = 1 ∧ t.mpiTag = tagOfSlot 1 ∧ FirstIdle 0 t a₀ :=
      ⟨_, rfl, _, rfl, rfl, rfl, _, rfl, rfl, rfl, rfl, rfl, rfl⟩
    obtain ⟨a₁, hrun₁, hidle₁⟩ := lockUnlock_firstIdle hwin hidle₀ 1024
    obtain ⟨a, s, hlock, hhtbl, hwin', htag', hcount', -⟩ := lockAll_firstIdle hwin hidle₁
    refine ⟨a, run_append_ok.mpr ⟨a₀, hrun₀, run_append_ok.mpr ⟨a₁, hrun₁,
      run_cons_ok.mpr ⟨a, hlock, rfl⟩⟩⟩, by simp [Analyzer.windows, hhtbl], s, by simp [hhtbl], t,
      by simp [hhtbl], by simp [hwin, hwin'], ?_⟩
    simp only [RmaAnalyzerState.currentTag, htag, htag', hcount, hcount', tagOfSlot,
      rmaAnalyzerMaxEpochNumber]
    omega
  · obtain ⟨a, hrun, hlen, hs, ht⟩ : ∃ a, run winCallStep Analyzer.init
        ((List.range 34).map (.create 4096 400 0 2 ·) ++ [.free 0, .free 1]) = .ok a ∧
        a.windows.length = 32 ∧
        rmaAnalyzerGetState 32 a = .ok (.new 32 4096 400 0 2 (tagOfSlot (-1))) ∧
        rmaAnalyzerGetState 33 a = .ok (.new 33 4096 400 0 2 (tagOfSlot (-1))) :=
      ⟨_, rfl, rfl, rfl, rfl⟩
    exact ⟨a, hrun, hlen, _, (mem_of_getState hs).1, _, (mem_of_getState ht).1, by decide, rfl⟩

end ParcoachRma
