import ParcoachRma.SystemDetection

/-!
# Epochs in which the windows are only put to

Where the processes keep nothing but remote writes, the windows' trees hold disjoint ranges and the
search is exact (`WriteEpochs.lean`).  With the termination protocol this reaches across processes:
two puts that meet are both sent to the target in the epoch, both are saved there before the epoch
ends, and the second save reports.

* `apart_of_joined`: no run gets past the end of an epoch in which two puts have met.
* `canReach_report_of_meet`: once two have met, a report is all the threads can end in.
-/

namespace ParcoachRma

open Run Counting AvlTree

variable {n : Nat} {w : SharedWindow n} {s s' : Cluster n} {p : Fin n} {x x' : Process n}

/-! ## What is sent -/

/-- The target keeps the interval only if it is a remote write. -/
def SharedWindow.KeepsWrite (w : SharedWindow n) (t : Fin n) (itv : Interval) : Prop :=
  ∀ addr, w.Admits t (itv.rebase (w.base t)) → IsWrite ⟨addr, itv.rebase (w.base t)⟩

/-- The processes keep remote writes of others only: no access and no buffer of their own, and
nothing is cleared. -/
def PutsOnly (w : SharedWindow n) : SystemEvent n → Prop
  | .protocol (.commSend p c) => ¬ w.Admits p c.localItv ∧
      ∀ t : Fin n, (t : Nat) = c.targetRank → w.KeepsWrite t c.targetItv
  | .access p address size accessType fileline filename =>
      ¬ w.Admits p (accessInterval address size accessType fileline filename)
  | .clear _ _ => False
  | _ => True

/-- What has been sent, or is about to be, is in an epoch and has the property. -/
structure SentAll (P : Fin n → Interval → Prop) (s : Cluster n) : Prop where
  sent : ∀ q t k, ∀ z ∈ s.sent q t k, 1 ≤ k ∧ P t z
  sending : ∀ q dst c, (s.proc q).app = .sending dst c → P dst c.targetItv

theorem SentAll.of_step {P : Fin n → Interval → Prop} (hs : SentAll P s)
    (hothers : ∀ t, t ≠ p → s'.proc t = s.proc t) (hsent : s'.sent = s.sent)
    (hsending : ∀ dst c, (s'.proc p).app = .sending dst c →
      (s.proc p).app = .sending dst c ∨ P dst c.targetItv) : SentAll P s' where
  sent q t k z hz := by
    rw [hsent] at hz
    exact hs.sent q t k z hz
  sending q dst c happ := by
    by_cases hq : q = p
    · subst hq
      rcases hsending dst c happ with hold | hnew
      · exact hs.sending q dst c hold
      · exact hnew
    · rw [hothers q hq] at happ
      exact hs.sending q dst c happ

theorem SentAll.protocolStep {e : ProtocolEvent n} (hs : SentAll w.KeepsWrite s)
    (hin : InOrder s) (hputs : PutsOnly w (.protocol e)) (h : protocolStep s e = .ok s') :
    SentAll w.KeepsWrite s' := by
  cases protocolStep_stores h with
  | @openEpoch p _ =>
      have hproc : (s.initCommCheckThread p).proc p = _ := Cluster.setProc_proc_self ..
      refine hs.of_step (fun t ht => Cluster.setProc_proc_of_ne s _ ht) rfl fun dst c happ => ?_
      rw [hproc] at happ
      cases happ
  | @saveLocal p c _ lt nt hrank _ _ =>
      refine hs.of_step (fun t ht => Cluster.setProc_proc_of_ne s _ ht) rfl fun dst c happ => ?_
      rw [Cluster.setProc_proc_self] at happ
      cases happ
      exact .inr (hputs.2 _ rfl)
  | @saveReceived p _ _ _ _ _ _ =>
      refine hs.of_step (fun t ht => Cluster.setProc_proc_of_ne s _ ht) rfl fun dst c happ => ?_
      rw [show Cluster.proc _ p = _ from Cluster.setProc_proc_self ..] at happ
      exact .inl happ
  | @leaveEpoch p _ =>
      refine hs.of_step (fun t ht => Cluster.setProc_proc_of_ne s _ ht) rfl fun dst c happ => ?_
      rw [Cluster.setProc_proc_self] at happ
      cases happ
  | @mpiSend p dst c happ =>
      constructor
      · intro q t k z hz
        change z ∈ ite _ _ _ at hz
        split_ifs at hz with hnew
        · obtain ⟨rfl, rfl, rfl⟩ := hnew
          rcases Multiset.mem_cons.mp hz with rfl | hz
          · exact ⟨(hin.ofProc q).opened (by simp [happ]), hs.sending q t c happ⟩
          · exact hs.sent q t _ z hz
        · exact hs.sent q t k z hz
      · have hproc : (s.mpiSend p dst c).proc p = _ := Cluster.setProc_proc_self ..
        intro q dst' c' happ'
        by_cases hq : q = p
        · rw [hq, hproc] at happ'
          cases happ'
        · have hother : (s.mpiSend p dst c).proc q = s.proc q := Cluster.setProc_proc_of_ne s _ hq
          rw [hother] at happ'
          exact hs.sending q dst' c' happ'
  | quiet _ _ hothers hsame _ hsent =>
      exact hs.of_step hothers hsent fun dst c happ => .inl (hsame.sending dst c happ)

theorem SentAll.systemStep {e : SystemEvent n} (hs : SentAll w.KeepsWrite s) (hin : InOrder s)
    (hputs : PutsOnly w e) (h : systemStep s e = .ok s') : SentAll w.KeepsWrite s' := by
  cases e with
  | protocol e => exact hs.protocolStep hin hputs h
  | access p address size accessType fileline filename =>
      simp only [ParcoachRma.systemStep] at h
      split_ifs at h
      unfold Cluster.saveAccess at h
      split_ifs at h
      · obtain ⟨⟨saved, record⟩, hsave, h⟩ := bind_ok.mp h
        obtain rfl := Except.ok.inj h
        refine hs.of_step (fun t ht => Cluster.setProc_proc_of_ne s _ ht) rfl fun dst c happ => ?_
        rw [Cluster.setProc_proc_self] at happ
        exact .inl happ
      · obtain rfl := Except.ok.inj h
        exact hs
  | clear p notifId => exact hputs.elim

/-! ## What is stored -/

/-- The intervals kept by the process do not meet. -/
def Apart (w : SharedWindow n) (p : Fin n) (m : Multiset Interval) : Prop :=
  ∀ y z, {y, z} ≤ m → w.Admits p y → w.Admits p z → ¬ Meet y.addresses z.addresses

/-- A pair in a multiset with one more element has it, or was there before. -/
theorem pair_le_cons {α : Type*} {a y z : α} {m : Multiset α} (h : {y, z} ≤ a ::ₘ m) :
    {y, z} ≤ m ∨ y = a ∧ z ∈ m ∨ z = a ∧ y ∈ m := by
  classical
  change y ::ₘ {z} ≤ a ::ₘ m at h
  by_cases hy : y = a
  · subst hy
    exact .inr (.inl ⟨rfl, by rwa [Multiset.cons_le_cons_iff, Multiset.singleton_le] at h⟩)
  · by_cases hz : z = a
    · subst hz
      rw [← Multiset.singleton_add, add_comm, Multiset.singleton_add, Multiset.cons_le_cons_iff,
        Multiset.singleton_le] at h
      exact .inr (.inr ⟨rfl, h⟩)
    · have hnot : a ∉ y ::ₘ ({z} : Multiset α) := by
        rw [Multiset.mem_cons, Multiset.mem_singleton, not_or]
        exact ⟨Ne.symm hy, Ne.symm hz⟩
      exact .inl ((Multiset.le_cons_of_notMem hnot).mp h)

theorem Apart.cons {m : Multiset Interval} {itv : Interval} (h : Apart w p m)
    (hnew : w.Admits p itv → ∀ y ∈ m, w.Admits p y → ¬ Meet y.addresses itv.addresses) :
    Apart w p (itv ::ₘ m) := by
  intro y z hpair hy hz
  rcases pair_le_cons hpair with hold | ⟨rfl, hmem⟩ | ⟨rfl, hmem⟩
  · exact h y z hold hy hz
  · rw [Meet, Set.inter_comm]
    exact hnew hy z hmem hz
  · exact hnew hz y hmem hy

/-- The tree of the process holds disjoint remote writes, in an epoch all that it has received and
keeps; and in no epoch two of these have met. -/
structure HoldsPuts (w : SharedWindow n) (p : Fin n) (passed : Nat → Multiset Interval)
    (x : Process n) : Prop where
  writes : HoldsWrites (w.record p) x.record
  kept : x.app ≠ .outside → ∀ y ∈ passed x.record.countEpoch, w.Admits p y →
    ∃ q ∈ x.record.localTree.toList, q.itv = y
  apart : ∀ k, Apart w p (passed k)

namespace HoldsPuts

variable {passed : Nat → Multiset Interval}

theorem of_sameStore (h : HoldsPuts w p passed x) (hsame : x.SameStore x') :
    HoldsPuts w p passed x' where
  writes := by
    refine ⟨hsame.winBase.trans h.writes.winBase, hsame.winSize.trans h.writes.winSize, ?_, ?_⟩
    · rw [hsame.localTree]
      exact h.writes.writes
    · rw [hsame.localTree]
      exact h.writes.apart
  kept happ y hy := by
    rw [hsame.countEpoch] at hy
    rw [hsame.localTree]
    exact h.kept (fun hout => happ (hsame.outside.mpr hout)) y hy
  apart := h.apart

/-- A received interval is saved: the search has found no stored one that it meets. -/
theorem saveReceived (h : HoldsPuts w p passed x) {itv : Interval} {addr saved : Nat}
    {lt : IntervalTree} {nt : NotifTree} (hfilter : x.filterWindow = w.filterWindow p)
    (hwrite : w.Admits p itv → IsWrite ⟨addr, itv⟩) (hlive : x.app ≠ .outside)
    (hsave : rmaAnalyzerSaveInterval x.filterWindow x.record ⟨addr, itv⟩ =
      .ok (saved, { x.record with localTree := lt, notifTree := nt })) :
    HoldsWrites (w.record p) { x.record with localTree := lt, notifTree := nt } ∧
    (∀ y ∈ itv ::ₘ passed x.record.countEpoch, w.Admits p y → ∃ q ∈ lt.toList, q.itv = y) ∧
    Apart w p (itv ::ₘ passed x.record.countEpoch) := by
  have hadmits : admits x.filterWindow x.record itv = true ↔ w.Admits p itv := by
    rw [SharedWindow.Admits, hfilter, admits_congr h.writes.winBase h.writes.winSize]
  have htree : treeSave x.filterWindow x.record ⟨addr, itv⟩ =
      .ok { x.record with localTree := lt, notifTree := nt } := by
    rw [treeSave, hsave]
    rfl
  have hsaved : HoldsWrites (w.record p) { x.record with localTree := lt, notifTree := nt } := by
    refine h.writes.save (fun hadm => hwrite ?_) htree
    rwa [SharedWindow.Admits, ← hfilter]
  rcases treeSave_ok htree with ⟨hadm, heq⟩ | ⟨hadm, hnone, heq⟩
  · have hout : ¬ w.Admits p itv := by
      rw [← hadmits, hadm]
      exact Bool.false_ne_true
    have hlt : lt = x.record.localTree := congrArg RmaAnalyzerState.localTree heq
    refine ⟨hsaved, fun y hy hyadm => ?_, (h.apart _).cons fun hin => absurd hin hout⟩
    rw [hlt]
    rcases Multiset.mem_cons.mp hy with rfl | hy
    · exact absurd hyadm hout
    · exact h.kept hlive y hy hyadm
  · obtain ⟨t, ht⟩ := rmaAnalyzerSaveNotif_eq ⟨addr, itv⟩
      { x.record with localTree := insertIntervalTree x.record.localTree ⟨addr, itv⟩ }
    rw [ht] at heq
    have hlt : lt = insertIntervalTree x.record.localTree ⟨addr, itv⟩ :=
      congrArg RmaAnalyzerState.localTree heq
    have hle : itv.lowBound ≤ itv.upBound := (hwrite (hadmits.mp hadm)).2
    refine ⟨hsaved, fun y hy hyadm => ?_, (h.apart _).cons fun _ y hy hyadm => ?_⟩
    · rw [hlt]
      rcases Multiset.mem_cons.mp hy with rfl | hy
      · exact ⟨⟨addr, y⟩, mem_insert.mpr (.inl rfl), rfl⟩
      · obtain ⟨q, hq, rfl⟩ := h.kept hlive y hy hyadm
        exact ⟨q, mem_insert.mpr (.inr hq), rfl⟩
    · -- What the search does not find, it does not meet.
      obtain ⟨q, hq, rfl⟩ := h.kept hlive y hy hyadm
      intro hmeet
      have hfound := (h.writes.overlapSearch_iff (q := ⟨addr, itv⟩) hle).mpr ⟨q, hq, hmeet⟩
      rw [hnone] at hfound
      cases hfound

end HoldsPuts

/-- An interval that is not kept leaves the tree as it is. -/
theorem tree_of_not_admits {accesses : Multiset Interval} {itv : Interval} {addr saved : Nat}
    {record : RmaAnalyzerState} (h : StoresAccesses w p accesses x) (hout : ¬ w.Admits p itv)
    (hsave : rmaAnalyzerSaveInterval x.filterWindow x.record ⟨addr, itv⟩ = .ok (saved, record)) :
    record.localTree = x.record.localTree := by
  rw [← h.admits_iff] at hout
  unfold rmaAnalyzerSaveInterval at hsave
  rw [if_neg hout] at hsave
  cases hsave
  rfl

/-! ## The invariant over a run -/

/-- Every process holds puts. -/
def AllHoldPuts (w : SharedWindow n) (s : Cluster n) : Prop :=
  ∀ p, HoldsPuts w p (s.passed p) (s.proc p)

/-- What holds while the windows are only put to. -/
structure PutsInv (w : SharedWindow n) (es : List (SystemEvent n)) (s : Cluster n) : Prop where
  inv : Inv w s
  inOrder : InOrder s
  stored : StoredFrom w es s
  sent : SentAll w.KeepsWrite s
  holds : AllHoldPuts w s

theorem putsInv_init (w : SharedWindow n) : PutsInv w [] (Cluster.init w) where
  inv := inv_init w
  inOrder := inOrder_init w
  stored := storedFrom_init w
  sent := ⟨fun _ _ _ _ hz => absurd hz (Multiset.notMem_zero _), nofun⟩
  holds p := by
    refine ⟨⟨rfl, rfl, nofun, RangesApart.nil⟩, fun happ => absurd rfl happ, fun k y z hpair => ?_⟩
    exact absurd (Multiset.subset_of_le hpair (Multiset.mem_cons_self y _)) (Multiset.notMem_zero y)

/-- A step of one process. -/
theorem AllHoldPuts.of_step (hs : AllHoldPuts w s)
    (hothers : ∀ t, t ≠ p → s'.proc t = s.proc t ∧ s'.passed t = s.passed t)
    (hproc : HoldsPuts w p (s'.passed p) (s'.proc p)) : AllHoldPuts w s' := by
  intro t
  by_cases ht : t = p
  · rw [ht]
    exact hproc
  · rw [(hothers t ht).1, (hothers t ht).2]
    exact hs t

namespace PutsInv

variable {es : List (SystemEvent n)}

/-- What the checking thread holds is kept only if it is a remote write. -/
theorem isWrite_received (hs : PutsInv w es s) {received : Interval}
    (hthread : (s.proc p).thread = .counted received) (addr : Nat)
    (hadm : w.Admits p (received.rebase (w.base p))) :
    IsWrite ⟨addr, received.rebase (w.base p)⟩ := by
  have hmem : received.rebase (w.base p) ∈ s.received w p (s.epoch p) :=
    Multiset.mem_of_le (hs.inv.hand_le_received hthread) (Multiset.mem_cons_self _ _)
  obtain ⟨q, -, hq⟩ := Multiset.mem_sum.mp hmem
  obtain ⟨z, hz, heq⟩ := Multiset.mem_map.mp hq
  rw [← heq] at hadm ⊢
  exact (hs.sent.sent q p _ z hz).2 addr hadm

theorem holds_protocolStep {e : ProtocolEvent n} (hs : PutsInv w es s)
    (hputs : PutsOnly w (.protocol e)) (h : protocolStep s e = .ok s') : AllHoldPuts w s' := by
  cases protocolStep_stores h with
  | @openEpoch p happ =>
      have hx := hs.holds p
      have hproc : (s.initCommCheckThread p).proc p = _ := Cluster.setProc_proc_self ..
      have hfresh := ((hs.inv.ofProc p).fresh ((s.proc p).record.countEpoch + 1)
        (Nat.lt_succ_self _)).2
      refine hs.holds.of_step (fun t ht => ⟨Cluster.setProc_proc_of_ne s _ ht, rfl⟩) ?_
      rw [hproc]
      refine ⟨⟨hx.writes.winBase, hx.writes.winSize, hx.writes.writes, hx.writes.apart⟩,
        fun _ y hy => ?_, hx.apart⟩
      change y ∈ s.passed p ((s.proc p).record.countEpoch + 1) at hy
      rw [hfresh] at hy
      exact absurd hy (Multiset.notMem_zero y)
  | @saveLocal p c _ lt nt hrank happ hsave =>
      have hx := hs.holds p
      have hlt := tree_of_not_admits (hs.stored p) hputs.1 hsave
      refine hs.holds.of_step (fun t ht => ⟨Cluster.setProc_proc_of_ne s _ ht, rfl⟩) ?_
      rw [Cluster.setProc_proc_self]
      refine ⟨⟨hx.writes.winBase, hx.writes.winSize, ?_, ?_⟩, fun _ => ?_, hx.apart⟩
      · rw [hlt]
        exact hx.writes.writes
      · rw [hlt]
        exact hx.writes.apart
      · rw [hlt]
        exact hx.kept (by simp [happ])
  | @saveReceived p itv _ lt nt hthread hsave =>
      have hx := hs.holds p
      have hbase := (hs.inv.ofProc p).winBase
      have hlive : (s.proc p).app ≠ .outside := by
        intro happ
        have habsent := (hs.inv.ofProc p).absent (.inl happ)
        rw [hthread] at habsent
        cases habsent
      rw [hbase] at hsave
      obtain ⟨hwrites, hkept, hapart⟩ := hx.saveReceived (hs.stored p).filterWindow
        (hs.isWrite_received hthread _) hlive hsave
      refine hs.holds.of_step (p := p)
        (fun t ht => ⟨Cluster.setProc_proc_of_ne s _ ht, funext fun k => if_neg fun h => ht h.1⟩) ?_
      rw [show Cluster.proc _ p = _ from Cluster.setProc_proc_self .., hbase]
      have hpassed : ∀ k, (if p = p ∧ k = s.epoch p then itv.rebase (w.base p) ::ₘ s.passed p k
          else s.passed p k) = if k = s.epoch p then itv.rebase (w.base p) ::ₘ s.passed p k
          else s.passed p k := fun k => by simp only [true_and]
      refine ⟨hwrites, fun _ => ?_, fun k => ?_⟩
      · change ∀ y ∈ ite _ _ _, _
        rw [if_pos ⟨rfl, rfl⟩]
        exact hkept
      · change Apart w p (ite _ _ _)
        rw [hpassed]
        split_ifs with hk
        · rw [hk]
          exact hapart
        · exact hx.apart k
  | @leaveEpoch p happ =>
      have hx := hs.holds p
      refine hs.holds.of_step (fun t ht => ⟨Cluster.setProc_proc_of_ne s _ ht, rfl⟩) ?_
      rw [Cluster.setProc_proc_self]
      exact ⟨⟨hx.writes.winBase, hx.writes.winSize, fun q hq => absurd hq List.not_mem_nil,
        RangesApart.nil⟩,
        fun happ => absurd rfl happ, hx.apart⟩
  | @mpiSend p dst c happ =>
      have hproc : (s.mpiSend p dst c).proc p = _ := Cluster.setProc_proc_self ..
      refine hs.holds.of_step (fun t ht => ⟨Cluster.setProc_proc_of_ne s _ ht, rfl⟩) ?_
      rw [hproc]
      exact (hs.holds p).of_sameStore ⟨rfl, rfl, rfl, rfl, rfl, rfl, by simp [happ], by simp⟩
  | @quiet _ p _ _ _ hothers hsame hpassed _ =>
      refine hs.holds.of_step (fun t ht => ⟨hothers t ht, by rw [hpassed]⟩) ?_
      rw [hpassed]
      exact (hs.holds p).of_sameStore hsame

theorem systemStep {e : SystemEvent n} (hs : PutsInv w es s) (hputs : PutsOnly w e)
    (h : systemStep s e = .ok s') : PutsInv w (es ++ [e]) s' where
  inv := inv_systemStep hs.inv h
  inOrder := hs.inOrder.systemStep hs.inv (fun p notifId he => by rw [he] at hputs; exact hputs) h
  stored := hs.stored.systemStep hs.inv h
  sent := hs.sent.systemStep hs.inOrder hputs h
  holds := by
    cases e with
    | protocol e => exact hs.holds_protocolStep hputs h
    | access p address size accessType fileline filename =>
        simp only [ParcoachRma.systemStep] at h
        split_ifs at h
        unfold Cluster.saveAccess at h
        split_ifs at h
        · obtain ⟨⟨saved, record⟩, hsave, h⟩ := bind_ok.mp h
          obtain rfl := Except.ok.inj h
          have hlt := tree_of_not_admits (hs.stored p) hputs hsave
          obtain ⟨lt, nt, rfl⟩ := rmaAnalyzerSaveInterval_eq hsave
          refine hs.holds.of_step (fun t ht => ⟨Cluster.setProc_proc_of_ne s _ ht, rfl⟩) ?_
          rw [Cluster.setProc_proc_self]
          exact (hs.holds p).of_sameStore ⟨rfl, rfl, hlt, rfl, rfl, rfl, Iff.rfl, fun _ _ h => h⟩
        · obtain rfl := Except.ok.inj h
          exact hs.holds
    | clear p notifId => exact hputs.elim

end PutsInv

theorem putsInv_run {es : List (SystemEvent n)} (hputs : ∀ e ∈ es, PutsOnly w e)
    (h : run systemStep (Cluster.init w) es = .ok s) : PutsInv w es s := by
  refine invariant_of_prefix (putsInv_init w) (fun pre e t t' hpre ht hstep => ?_)
    (List.prefix_refl es) h
  exact ht.systemStep (hputs e (hpre.subset (by simp))) hstep

/-! ## Puts that meet -/

/-- Once the thread is joined, what it has passed is all that was sent, and no two of it meet. -/
theorem PutsInv.apart_received {es : List (SystemEvent n)} (hs : PutsInv w es s) {t : Fin n}
    {k : Nat} (joined : s.Joined t k) : Apart w t (s.received w t k) := by
  have hsettled := hs.inv.settled_of_joined joined
  have hpassed : s.passed t k = s.received w t k :=
    hsettled.delivered_eq (hs.inv.conserves t k)
  rw [← hpassed]
  exact (hs.holds t).apart k

/-- If the windows are only put to, no two puts to a process that both go into its window meet, in
an epoch whose checking thread has been joined.  So a run in which two have met has no end of the
epoch: it stops at a report before. -/
theorem apart_of_joined {es : List (SystemEvent n)} (hputs : ∀ e ∈ es, PutsOnly w e)
    (h : run systemStep (Cluster.init w) es = .ok s) {t : Fin n} {k : Nat}
    (joined : s.Joined t k) : Apart w t (s.received w t k) :=
  (putsInv_run hputs h).apart_received joined

/-- A put at displacement 16 of process 1, apart from that of `exampleSend`. -/
def apartSend : CommSend := ⟨65536, 4, 16, 4, 1, .rmaRead, .rmaWrite, -1, 11, none⟩

/-- The puts of process 0 go into the window of process 1, their buffer is outside of all
windows. -/
theorem putsOnly_sends {es : List (ProtocolEvent 2)}
    (hes : ∀ p c, .commSend p c ∈ es → p = 0 ∧ (c = exampleSend ∨ c = apartSend)) :
    ∀ e ∈ es.map SystemEvent.protocol, PutsOnly exampleShared e := by
  intro e he
  obtain ⟨e', he', rfl⟩ := List.mem_map.mp he
  cases e' with
  | commSend p c =>
      obtain ⟨rfl, hc⟩ := hes p c he'
      have hput : ¬ exampleShared.Admits 0 c.localItv ∧ c.targetRank = 1 ∧
          c.targetAccessType = .rmaWrite ∧
          (c.targetItv.rebase 8192).lowBound ≤ (c.targetItv.rebase 8192).upBound := by
        rcases hc with rfl | rfl <;> decide
      obtain ⟨hbuffer, hrank, htype, hle⟩ := hput
      refine ⟨hbuffer, fun t ht addr _ => ?_⟩
      obtain rfl : t = 1 := Fin.ext (ht.trans hrank)
      exact ⟨htype, hle⟩
  | _ => trivial

/-- Process 0 puts twice to process 1, which receives and saves both before the epoch ends. -/
def apartEvents : List (ProtocolEvent 2) :=
  [.openEpoch puttingProcess, .openEpoch targetProcess, .commSend puttingProcess exampleSend,
    .app puttingProcess, .app puttingProcess, .commSend puttingProcess apartSend,
    .app puttingProcess, .app puttingProcess,
    .thread targetProcess, .deliver targetProcess exampleSend.targetItv, .thread targetProcess,
    .thread targetProcess, .thread targetProcess, .thread targetProcess,
    .thread targetProcess, .deliver targetProcess apartSend.targetItv, .thread targetProcess,
    .thread targetProcess, .thread targetProcess, .thread targetProcess,
    .closeEpoch puttingProcess, .closeEpoch targetProcess, .app puttingProcess,
    .app targetProcess, .app puttingProcess, .app puttingProcess, .app targetProcess,
    .app targetProcess, .app targetProcess, .app targetProcess,
    .thread targetProcess, .thread targetProcess, .thread targetProcess, .app targetProcess]

set_option maxRecDepth 10000 in
/-- The two puts of the epoch have been joined, and they do not meet. -/
theorem apart_of_joined_apartEvents :
    ∃ s, run systemStep (Cluster.init exampleShared) (apartEvents.map .protocol) = .ok s ∧
      s.Joined 1 1 ∧ Apart exampleShared 1 (s.received exampleShared 1 1) ∧
      s.received exampleShared 1 1 =
        {apartSend.targetItv.rebase 8192, exampleSend.targetItv.rebase 8192} := by
  have hrun : run systemStep (Cluster.init exampleShared) (apartEvents.map .protocol) = .ok _ :=
    rfl
  have hputs : ∀ e ∈ apartEvents.map SystemEvent.protocol, PutsOnly exampleShared e :=
    putsOnly_sends (by simp [apartEvents, puttingProcess])
  exact ⟨_, hrun, ⟨le_rfl, .inr ⟨rfl, .inl rfl⟩⟩,
    apart_of_joined hputs hrun ⟨le_rfl, .inr ⟨rfl, .inl rfl⟩⟩, rfl⟩

/-- What has been sent stays sent. -/
theorem received_le_protocolStep {e : ProtocolEvent n} (h : protocolStep s e = .ok s') (t : Fin n)
    (k : Nat) : s.received w t k ≤ s'.received w t k := by
  apply Finset.sum_le_sum
  intro q _
  apply Multiset.map_le_map
  cases protocolStep_stores h with
  | openEpoch => exact le_rfl
  | saveLocal => exact le_rfl
  | saveReceived => exact le_rfl
  | leaveEpoch => exact le_rfl
  | mpiSend =>
      change _ ≤ ite _ _ _
      split_ifs
      · exact Multiset.le_cons_self _ _
      · exact le_rfl
  | quiet _ _ _ _ _ hsent => rw [hsent]

theorem received_le_run {es : List (ProtocolEvent n)} (h : run protocolStep s es = .ok s')
    (t : Fin n) (k : Nat) : s.received w t k ≤ s'.received w t k :=
  invariant (P := fun u => s.received w t k ≤ u.received w t k)
    (fun _ _ _ hle hstep => hle.trans (received_le_protocolStep hstep t k)) le_rfl h

/-- The steps of the protocol are steps of the system. -/
theorem run_systemStep_protocol (s : Cluster n) (es : List (ProtocolEvent n)) :
    run systemStep s (es.map .protocol) = run protocolStep s es := by
  rw [run, List.foldlM_map]
  rfl

/-- If the windows are only put to, then wherever a run is, once two puts to a process have been
sent that both go into its window and meet, the threads lead to a report without a further send. -/
theorem canReach_report_of_meet {es : List (SystemEvent n)} (hputs : ∀ e ∈ es, PutsOnly w e)
    (h : run systemStep (Cluster.init w) es = .ok s) {t : Fin n} {k : Nat} {y z : Interval}
    (hpair : {y, z} ≤ s.received w t k) (hy : w.Admits t y) (hz : w.Admits t z)
    (hmeet : Meet y.addresses z.addresses) :
    CanReach protocolStep (fun e => ¬ e.IsSend) Cluster.Reports s := by
  have hs := putsInv_run hputs h
  have hclear : ∀ p notifId, .clear p notifId ∉ es := fun p notifId hmem => hputs _ hmem
  obtain ⟨es', u, hes', hrun, hu⟩ := (closing_of_run hclear h).canReach
  refine ⟨es', u, hes', hrun, hu.resolve_left fun hquiet => ?_⟩
  -- The epoch of the two puts is over, at the end of a run that only puts.
  have hputs' : ∀ e ∈ es ++ es'.map SystemEvent.protocol, PutsOnly w e := by
    intro e he
    rcases List.mem_append.mp he with he | he
    · exact hputs e he
    · obtain ⟨e', he', rfl⟩ := List.mem_map.mp he
      have hsend := hes' e' he'
      cases e' with
      | commSend p c => exact absurd trivial hsend
      | _ => trivial
  have hrun' : run systemStep (Cluster.init w) (es ++ es'.map SystemEvent.protocol) = .ok u :=
    run_append_ok.mpr ⟨s, h, (run_systemStep_protocol s es').trans hrun⟩
  have hjoined : u.Joined t k := by
    have hmem : y ∈ s.received w t k := Multiset.mem_of_le hpair (Multiset.mem_cons_self y _)
    obtain ⟨q, -, hq⟩ := Multiset.mem_sum.mp hmem
    obtain ⟨v, hv, -⟩ := Multiset.mem_map.mp hq
    have hpos : 1 ≤ k := (hs.sent.sent q t k v hv).1
    have hle : k ≤ s.epoch q := by
      by_contra hlt
      rw [((hs.inv.ofProc q).fresh k (not_le.mp hlt)).1 t] at hv
      exact absurd hv (Multiset.notMem_zero v)
    have hlast : k ≤ u.epoch t := by
      rw [(hquiet t).2]
      exact hle.trans (Finset.le_sup (f := s.epoch) (Finset.mem_univ q))
    refine ⟨hpos, hlast.lt_or_eq.imp_right fun heq => ⟨heq, .inr (hquiet t).1⟩⟩
  have hpair' := hpair.trans (received_le_run hrun t k)
  exact (putsInv_run hputs' hrun').apart_received hjoined y z hpair' hy hz hmeet

/-- The origin puts twice to the same bytes of the target.  Both messages are in flight. -/
def meetingEvents : List (ProtocolEvent 2) :=
  [.openEpoch puttingProcess, .openEpoch targetProcess, .commSend puttingProcess exampleSend,
    .app puttingProcess, .app puttingProcess, .commSend puttingProcess exampleSend,
    .app puttingProcess]

set_option maxRecDepth 10000 in
/-- From there, the threads lead to a report. -/
theorem canReach_report_meetingEvents :
    ∃ s, run systemStep (Cluster.init exampleShared) (meetingEvents.map .protocol) = .ok s ∧
      CanReach protocolStep (fun e => ¬ e.IsSend) Cluster.Reports s := by
  have hrun : run systemStep (Cluster.init exampleShared) (meetingEvents.map .protocol) = .ok _ :=
    rfl
  have hputs : ∀ e ∈ meetingEvents.map SystemEvent.protocol, PutsOnly exampleShared e :=
    putsOnly_sends (by simp [meetingEvents, puttingProcess])
  have hmeet : Meet (exampleSend.targetItv.rebase 8192).addresses
      (exampleSend.targetItv.rebase 8192).addresses := by
    rw [Meet, Set.inter_self]
    exact ⟨8200, Set.mem_Icc.mpr (by decide)⟩
  exact ⟨_, hrun, canReach_report_of_meet hputs hrun (t := 1) (k := 1) (le_of_eq rfl) (by decide)
    (by decide) hmeet⟩

end ParcoachRma
