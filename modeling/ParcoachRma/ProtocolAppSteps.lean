import ParcoachRma.ProtocolInvariant

/-!
# Steps of the application thread keep the invariant

One lemma for each statement of `rma_analyzer_init_comm_check_thread`,
`rma_analyzer_update_on_comm_send` and `rma_analyzer_clear_comm_check_thread` that touches what the
threads and processes share, and `inv_appStep` for the next step of an application thread.
-/

namespace ParcoachRma

open Run Counting

variable {n : Nat} {w : SharedWindow n} {s s' : Cluster n} {p : Fin n} {x x' : Process n}

/-! ## The checking thread before the end of the epoch -/

/-- Before the end of the epoch is announced, the checking thread is running and has not seen it. -/
def Process.Runs (x : Process n) : Prop :=
  x.thread.Live ∧ x.record.threadEnd ≠ 1 ∧ ∀ req, x.thread ≠ .polling .compare req

/-- The application thread has opened the epoch and not yet announced its end. -/
def AppPc.Before : AppPc n → Prop
  | .outside => False
  | .joining => False
  | .joined => False
  | _ => True

section Place

variable {sent : Fin n → Nat → Multiset Interval} {passed : Nat → Multiset Interval} {app : AppPc n}

theorem LocalInv.runs (h : LocalInv w p sent passed x) (happ : x.app = app) (before : app.Before) :
    x.Runs := by
  have hcontrol := h.control
  unfold Process.Control at hcontrol
  rw [happ] at hcontrol
  cases app with
  | outside => exact before.elim
  | joining => exact before.elim
  | joined => exact before.elim
  | _ => exact hcontrol

/-- Outside the epochs there is no checking thread. -/
theorem LocalInv.absent (h : LocalInv w p sent passed x)
    (happ : x.app = .outside ∨ x.app = .joined) : x.thread = .absent := by
  have hcontrol := h.control
  unfold Process.Control at hcontrol
  rcases happ with happ | happ <;> rwa [happ] at hcontrol

/-- With no message between its sending and its counting, `array` is exact. -/
theorem LocalInv.array_eq (h : LocalInv w p sent passed x) (happ : x.app = app)
    (hpending : ∀ dst, app.pending dst = 0) (dst : Fin n) :
    x.record.array dst = (sent dst x.record.countEpoch).card := by
  have harray := h.array dst
  rwa [happ, hpending, add_zero] at harray

end Place

theorem Process.Runs.not_over (h : x.Runs) (happ : x.app.Before) : ¬ x.Over := by
  intro hcase
  rcases hcase with heq | heq | heq
  · have hlive := h.1
    rw [heq] at hlive
    exact hlive
  · rw [heq] at happ
    exact happ
  · rw [heq] at happ
    exact happ

/-- As long as the epoch is not over, only the channels of earlier epochs have settled. -/
theorem EndInv.settled_of_not_over (h : EndInv p (s.channel w p) x)
    (hepoch : x'.record.countEpoch = x.record.countEpoch) (hover : ¬ x'.Over) (k : Nat)
    (hk : k < x'.record.countEpoch ∨ k = x'.record.countEpoch ∧ x'.Over) :
    (s.channel w p k).Settled := by
  rw [hepoch] at hk
  exact h.settled k (.inl (hk.resolve_right fun hk => hover hk.2))

/-- Between opening the epoch and the reductions, nothing is known of the end. -/
theorem EndInv.of_inBody (h : EndInv p (s.channel w p) x)
    (hepoch : x'.record.countEpoch = x.record.countEpoch) (hbody : x'.app.InBody)
    (hover : ¬ x'.Over) : EndInv p (s.channel w p) x' where
  tmp i hi := by
    rw [hi] at hbody
    exact hbody.elim
  value hv := by
    rcases hv with hv | hv <;> rw [hv] at hbody <;> exact hbody.elim
  settled := h.settled_of_not_over hepoch hover

/-! ## Sending an interval -/

/-- The interval at the origin goes to the trees of the record. -/
theorem Inv.saveLocal {dst : Fin n} {c : CommSend} (hs : Inv w s)
    (happ : (s.proc p).app = .inside) (h : s.saveLocal p dst c = .ok s') : Inv w s' := by
  obtain ⟨⟨saved, record⟩, hsave, h⟩ := bind_ok.mp h
  obtain ⟨lt, nt, rfl⟩ := rmaAnalyzerSaveInterval_eq hsave
  obtain rfl := Except.ok.inj h
  have hx := hs.ofProc p
  have hruns := hx.runs happ trivial
  refine hs.setProc rfl (fun _ => by rw [happ]; trivial) rfl ?_
    ((hs.ofEnd p).of_inBody rfl trivial (Process.Runs.not_over hruns trivial))
  exact { hx with
    control := hruns
    array := hx.array_eq happ fun _ => rfl
    root := nofun }

/-- A message that has been sent is now counted. -/
theorem Inv.countSent {dst : Fin n} (hs : Inv w s) (happ : (s.proc p).app = .sent dst) :
    Inv w (s.countSent p dst) := by
  have hx := hs.ofProc p
  have hruns := hx.runs happ trivial
  refine hs.setProc rfl (fun _ => by rw [happ]; trivial) rfl ?_
    ((hs.ofEnd p).of_inBody rfl trivial (Process.Runs.not_over hruns trivial))
  exact { hx with
    control := hruns
    array := fun dst' => by
      have harray := hx.array dst'
      rw [happ] at harray
      refine Eq.trans ?_ harray
      simp only [RmaAnalyzerState.countSent, AppPc.pending, Fin.val_inj, eq_comm]
      split_ifs <;> rfl
    root := nofun }

/-- The message goes into the channel to its target, in the epoch of its sender. -/
theorem channel_mpiSend {dst : Fin n} {c : CommSend} (hs : Inv w s)
    (happ : (s.proc p).app = .sending dst c) (t : Fin n) (k : Nat) :
    (s.channel w t k).Step ((s.mpiSend p dst c).channel w t k) := by
  have hheld : (s.mpiSend p dst c).held t k = s.held t k := by
    have hepoch : (s.mpiSend p dst c).epoch t = s.epoch t :=
      setProc_epoch_of_eq (x := { s.proc p with app := .sent dst }) rfl t
    have hthread : ((s.mpiSend p dst c).proc t).thread = (s.proc t).thread :=
      setProc_congr (x := { s.proc p with app := .sent dst }) Process.thread rfl t
    rw [Cluster.held, hepoch, hthread, Cluster.held]
  have hclosed : ((s.mpiSend p dst c).channel w t k).closed = (s.channel w t k).closed :=
    funext fun q => setProc_closed_of_eq (x := { s.proc p with app := .sent dst }) rfl
      (by rw [happ]; rfl) q k
  by_cases hk : t = dst ∧ k = s.epoch p
  · obtain ⟨rfl, rfl⟩ := hk
    have hopen : ¬ (s.channel w t (s.epoch p)).closed p := by
      intro hcase
      rcases hcase with hlt | ⟨-, hout⟩
      · exact absurd hlt (lt_irrefl _)
      · exact hout (by rw [happ]; trivial)
    have hsend : (s.mpiSend p t c).channel w t (s.epoch p) =
        { s.channel w t (s.epoch p) with
          sent := Function.update (s.channel w t (s.epoch p)).sent p
            (c.targetItv.rebase (w.base t) ::ₘ (s.channel w t (s.epoch p)).sent p)
          transit := c.targetItv.rebase (w.base t) ::ₘ (s.channel w t (s.epoch p)).transit } := by
      refine Channel.ext (funext fun q => ?_) hclosed ?_ rfl
      · by_cases hq : q = p
        · subst hq
          simp [Cluster.channel, Cluster.mpiSend]
        · simp [Cluster.channel, Cluster.mpiSend, hq]
      · simp only [Cluster.channel, hheld]
        simp [Cluster.mpiSend, tag_eq_iff hs]
    rw [hsend]
    exact .send p _ hopen
  · have hsame : (s.mpiSend p dst c).channel w t k = s.channel w t k := by
      refine Channel.ext (funext fun q => ?_) hclosed ?_ rfl
      · simp only [Cluster.channel, Cluster.mpiSend]
        rw [if_neg fun h => hk h.2]
      · simp only [Cluster.channel, hheld]
        simp only [Cluster.mpiSend, tag_eq_iff hs, if_neg hk]
    rw [hsame]
    exact .refl _

theorem Inv.mpiSend {dst : Fin n} {c : CommSend} (hs : Inv w s)
    (happ : (s.proc p).app = .sending dst c) : Inv w (s.mpiSend p dst c) := by
  have hx := hs.ofProc p
  have hruns := hx.runs happ trivial
  have hproc : (s.mpiSend p dst c).proc p = { s.proc p with app := .sent dst } :=
    Cluster.setProc_proc_self ..
  refine hs.of_step (p := p) (fun t ht => ⟨Cluster.setProc_proc_of_ne s _ ht, ?_, rfl⟩)
    (channel_mpiSend hs happ) ?_ ?_ hs.contrib
  · funext t' k
    exact if_neg fun h => ht h.1
  · rw [hproc]
    exact { hx with
      control := hruns
      array := fun dst' => by
        have harray := hx.array dst'
        rw [happ] at harray
        change _ + AppPc.pending dst' (.sent dst) = Multiset.card (ite _ _ _)
        by_cases hd : dst' = dst
        · rw [if_pos ⟨rfl, hd, rfl⟩, Multiset.card_cons, ← harray, hd]
          simp [AppPc.pending]
        · rw [if_neg fun h => hd h.2.1, ← harray]
          simp [AppPc.pending, Ne.symm hd]
      fresh := fun k hk => by
        refine ⟨fun dst' => ?_, (hx.fresh k hk).2⟩
        refine (if_neg fun h => ?_).trans ((hx.fresh k hk).1 dst')
        exact absurd h.2.2 hk.ne'
      root := nofun }
  · rw [hproc]
    exact (hs.ofEnd p).of_inBody rfl trivial (Process.Runs.not_over hruns trivial)

/-! ## Ending an epoch -/

/-- The channels of the epoch that ends are closed here. -/
theorem Inv.startReduce (hs : Inv w s) (happ : (s.proc p).app = .inside) :
    Inv w (s.startReduce p) := by
  have hx := hs.ofProc p
  have hruns := hx.runs happ trivial
  refine hs.setProc rfl (fun h => h.elim) rfl ?_ ?_
  · exact { hx with
      control := hruns
      array := hx.array_eq happ fun _ => rfl
      root := nofun }
  · refine ⟨fun i hi hlt => ?_, fun hv => ?_, ?_⟩
    · cases hi
      exact absurd hlt (Nat.not_lt_zero _)
    · rcases hv with hv | hv <;> cases hv
    · exact (hs.ofEnd p).settled_of_not_over rfl (Process.Runs.not_over hruns trivial)

/-- What is contributed to a reduction is the number of intervals sent to its root. -/
theorem Inv.contribute {root : Nat} (hs : Inv w s) (happ : (s.proc p).app = .reducing root) :
    Inv w (s.contribute p root) where
  ofProc := hs.ofProc
  ofEnd := hs.ofEnd
  contrib k i q v hv := by
    have hv' : (if k = s.epoch p ∧ (i : Nat) = root ∧ q = p then
      some ((s.proc p).record.array root) else s.contrib k i q) = some v := hv
    split_ifs at hv' with hnew
    · obtain ⟨rfl, rfl, rfl⟩ := hnew
      have harray := (hs.ofProc q).array_eq happ (fun _ => rfl) i
      refine ⟨.inr ⟨rfl, ?_⟩, (Option.some.inj hv').symm.trans harray⟩
      change ¬ (s.proc q).app.InBody
      rw [happ]
      exact id
    · exact hs.contrib k i q v hv'
  conserves := hs.conserves

/-- The root waits for the others; another process goes on to the next reduction, and has nothing
new to know. -/
theorem Inv.mpiReduce {root : Nat} (hs : Inv w s) (happ : (s.proc p).app = .reducing root) :
    Inv w (s.mpiReduce p root) := by
  have hc := hs.contribute happ
  have hx : LocalInv w p (s.sent p) (s.passed p) (s.proc p) := hc.ofProc p
  have hend : EndInv p ((s.contribute p root).channel w p) (s.proc p) := hc.ofEnd p
  have hruns := hx.runs happ trivial
  unfold Cluster.mpiReduce
  split_ifs with hp
  · refine hc.setProc rfl (fun h => h.elim) rfl ?_ ⟨nofun, ?_, ?_⟩
    · exact { hx with
        control := hruns
        array := hx.array_eq happ fun _ => rfl
        root := fun i hi => by
          cases hi
          exact hp }
    · rintro (hv | hv) <;> cases hv
    · exact hend.settled_of_not_over rfl (Process.Runs.not_over hruns trivial)
  · refine hc.setProc rfl (fun h => h.elim) rfl ?_ ⟨fun i hi hlt => ?_, ?_, ?_⟩
    · exact { hx with
        control := hruns
        array := hx.array_eq happ fun _ => rfl
        root := nofun }
    · cases hi
      exact hend.tmp root happ (by omega)
    · rintro (hv | hv) <;> cases hv
    · exact hend.settled_of_not_over rfl (Process.Runs.not_over hruns trivial)

/-- The sum of the contributions to a process is the number of all intervals sent to it. -/
theorem total_of_reduceSum {k sum : Nat} (hs : Inv w s)
    (hsum : Cluster.reduceSum (s.contrib k p) = some sum) :
    (s.channel w p k).AllClosed ∧ sum = (s.channel w p k).total := by
  unfold Cluster.reduceSum at hsum
  split_ifs at hsum with hall
  have hcontrib : ∀ q, s.Closed q k ∧ (s.contrib k p q).getD 0 = (s.sent q p k).card := by
    intro q
    obtain ⟨v, hv⟩ := Option.isSome_iff_exists.mp (hall q)
    rw [hv]
    exact hs.contrib k p q v hv
  refine ⟨fun q => (hcontrib q).1, ?_⟩
  rw [← Option.some.inj hsum]
  apply Finset.sum_congr rfl
  intro q _
  rw [(hcontrib q).2]
  exact (Multiset.card_map ..).symm

/-- The root learns the number of all intervals sent to it. -/
theorem Inv.reduceReturn {root sum : Nat} (hs : Inv w s) (happ : (s.proc p).app = .waiting root)
    (hsum : Cluster.reduceSum (s.contrib (s.epoch p) root) = some sum) :
    Inv w (s.reduceReturn p root sum) := by
  have hx := hs.ofProc p
  have hruns := hx.runs happ trivial
  obtain rfl := hx.root root happ
  refine hs.setProc rfl (fun h => h.elim) rfl ?_ ⟨fun i _ _ => total_of_reduceSum hs hsum, ?_, ?_⟩
  · exact { hx with
      control := hruns
      array := hx.array_eq happ fun _ => rfl
      root := nofun }
  · rintro (hv | hv) <;> cases hv
  · exact (hs.ofEnd p).settled_of_not_over rfl (Process.Runs.not_over hruns trivial)

/-- After the loop of reductions, the number is written to `value`. -/
theorem Inv.setValue {root : Nat} (hs : Inv w s) (happ : (s.proc p).app = .reducing root)
    (hroot : n ≤ root) : Inv w (s.setValue p) := by
  have hx := hs.ofProc p
  have hruns := hx.runs happ trivial
  have htmp := (hs.ofEnd p).tmp root happ (p.isLt.trans_le hroot)
  refine hs.setProc rfl (fun h => h.elim) rfl ?_ ⟨nofun, fun _ => htmp, ?_⟩
  · exact { hx with
      control := hruns
      array := hx.array_eq happ fun _ => rfl
      root := nofun }
  · exact (hs.ofEnd p).settled_of_not_over rfl (Process.Runs.not_over hruns trivial)

/-- The checking thread is told to end. -/
theorem Inv.setThreadEnd (hs : Inv w s) (happ : (s.proc p).app = .valued) :
    Inv w (s.setThreadEnd p) := by
  have hx := hs.ofProc p
  have hruns := hx.runs happ trivial
  have hvalue := (hs.ofEnd p).value (.inl happ)
  refine hs.setProc rfl (fun h => h.elim) rfl ?_ ⟨nofun, fun _ => hvalue, fun k hk => ?_⟩
  · exact { hx with
      control := fun heq => by
        have hlive := hruns.1
        rw [show (s.proc p).thread = .absent from heq] at hlive
        exact hlive
      array := hx.array_eq happ fun _ => rfl
      root := nofun }
  · refine (hs.ofEnd p).settled k (.inl (hk.resolve_right fun h => ?_))
    rcases h.2 with hover | hover | hover
    · have hlive := hruns.1
      rw [show (s.proc p).thread = .exited from hover] at hlive
      exact hlive
    · cases hover
    · cases hover

/-- `pthread_join` returns once the thread has ended; it leaves nothing behind. -/
theorem Inv.pthreadJoin (hs : Inv w s) (happ : (s.proc p).app = .joining)
    (hthread : (s.proc p).thread = .exited) : Inv w (s.pthreadJoin p) := by
  have hx := hs.ofProc p
  refine hs.setProc rfl (fun h => h.elim) (by rw [hthread]; rfl) ?_ ⟨nofun, ?_, fun k hk => ?_⟩
  · exact { hx with
      control := rfl
      tag := nofun
      count := fun h => h.elim
      idle := fun _ => hx.idle (by rw [hthread]; exact id)
      array := hx.array_eq happ fun _ => rfl
      root := nofun }
  · rintro (hv | hv) <;> cases hv
  · exact (hs.ofEnd p).settled k (hk.imp_right fun h => ⟨h.1, .inl hthread⟩)

/-- The record is cleared, and its trees are freed. -/
theorem Inv.leaveEpoch (hs : Inv w s) (happ : (s.proc p).app = .joined)
    (h : s.leaveEpoch p = .ok s') : Inv w s' := by
  obtain ⟨record, hfree, h⟩ := bind_ok.mp h
  obtain ⟨lt, nt, rfl⟩ := RmaAnalyzerState.eq_of_freeTrees hfree
  obtain rfl := Except.ok.inj h
  have hx := hs.ofProc p
  have habsent := hx.absent (.inr happ)
  refine hs.setProc rfl (fun h => h.elim) rfl ?_ ⟨nofun, ?_, fun k hk => ?_⟩
  · exact { hx with
      control := habsent
      count := fun hlive => by
        rw [show (s.proc p).thread = .absent from habsent] at hlive
        exact hlive.elim
      idle := fun _ => rfl
      array := hx.array_eq happ fun _ => rfl
      root := nofun }
  · rintro (hv | hv) <;> cases hv
  · exact (hs.ofEnd p).settled k (hk.imp_right fun h => ⟨h.1, .inr (.inl happ)⟩)

/-! ## Opening an epoch -/

/-- Opening an epoch changes no channel: those of the last epoch stay closed, and in those of the
new one nothing has happened yet. -/
theorem channel_initCommCheckThread (hs : Inv w s) (happ : (s.proc p).app = .outside) (t : Fin n)
    (k : Nat) : (s.initCommCheckThread p).channel w t k = s.channel w t k := by
  have habsent := (hs.ofProc p).absent (.inl happ)
  have hproc : (s.initCommCheckThread p).proc p =
      { s.proc p with record := (s.proc p).record.enterEpoch, app := .inside, thread := .start } :=
    Cluster.setProc_proc_self ..
  have hepoch : (s.initCommCheckThread p).epoch p = s.epoch p + 1 :=
    congrArg (fun y : Process n => y.record.countEpoch) hproc
  refine Channel.ext rfl (funext fun q => propext ?_) ?_ rfl
  · change (s.initCommCheckThread p).Closed q k ↔ s.Closed q k
    by_cases hq : q = p
    · subst hq
      have hin : ((s.initCommCheckThread q).proc q).app.InBody := by
        rw [hproc]
        trivial
      have hout : ¬ (s.proc q).app.InBody := by
        rw [happ]
        exact id
      simp only [Cluster.Closed, hepoch, hin, hout, not_true_eq_false, not_false_eq_true, and_true,
        and_false, or_false]
      omega
    · have hsame : (s.initCommCheckThread p).proc q = s.proc q := Cluster.setProc_proc_of_ne s _ hq
      rw [Cluster.Closed, Cluster.Closed, Cluster.epoch, hsame, Cluster.epoch]
  · have hheld : (s.initCommCheckThread p).held t k = s.held t k := by
      by_cases ht : t = p
      · subst ht
        simp only [Cluster.held, hproc, habsent, ThreadPc.hand, ite_self]
      · have hsame : (s.initCommCheckThread p).proc t = s.proc t :=
          Cluster.setProc_proc_of_ne s _ ht
        rw [Cluster.held, Cluster.epoch, hsame]
        rfl
    change Multiset.map _ (s.net t _ + (s.initCommCheckThread p).held t k) = _
    rw [hheld]
    rfl

theorem Inv.initCommCheckThread (hs : Inv w s) (happ : (s.proc p).app = .outside) :
    Inv w (s.initCommCheckThread p) := by
  have hx := hs.ofProc p
  have hproc : (s.initCommCheckThread p).proc p =
      { s.proc p with record := (s.proc p).record.enterEpoch, app := .inside, thread := .start } :=
    Cluster.setProc_proc_self ..
  have habsent := hx.absent (.inl happ)
  have hfresh := hx.fresh ((s.proc p).record.countEpoch + 1) (Nat.lt_succ_self _)
  refine hs.of_step (p := p) (fun t ht => ⟨Cluster.setProc_proc_of_ne s _ ht, rfl, rfl⟩)
    (fun t k => ?_) ?_ ?_ hs.contrib
  · rw [channel_initCommCheckThread hs happ]
    exact .refl _
  · rw [hproc]
    exact { hx with
      control := ⟨trivial, Nat.zero_ne_one, nofun⟩
      tag := nofun
      count := fun _ => by
        have hcount := hx.idle (by rw [habsent]; exact id)
        change _ = (s.passed p ((s.proc p).record.countEpoch + 1)).card + 0
        rw [hfresh.2]
        exact hcount
      idle := fun h => absurd trivial h
      array := fun dst => by
        change (if (dst : Nat) < (s.proc p).record.sizeComm then 0 else _) + 0 =
          (s.sent p dst ((s.proc p).record.countEpoch + 1)).card
        rw [hx.sizeComm, if_pos dst.isLt, hfresh.1 dst]
        rfl
      fresh := fun k hk => hx.fresh k ((Nat.lt_succ_self _).trans hk)
      root := nofun }
  · rw [hproc]
    refine ⟨nofun, ?_, fun k hk => ?_⟩
    · rintro (hv | hv) <;> cases hv
    · have hk' : k < (s.proc p).record.countEpoch + 1 := by
        apply hk.resolve_right
        intro h
        rcases h.2 with hover | hover | hover <;> cases hover
      apply (hs.ofEnd p).settled k
      rcases Nat.lt_succ_iff_lt_or_eq.mp hk' with hlt | heq
      · exact .inl hlt
      · exact .inr ⟨heq, .inr (.inr happ)⟩

theorem inv_appStep (hs : Inv w s) (h : s.appStep p = .ok s') : Inv w s' := by
  unfold Cluster.appStep at h
  split at h <;> rename_i happ
  · cases h
  · cases h
  · cases h
    exact hs.mpiSend happ
  · cases h
    exact hs.countSent happ
  · cases h
    split_ifs with hroot
    · exact hs.mpiReduce happ
    · exact hs.setValue happ ((hs.ofProc p).sizeComm ▸ not_lt.mp hroot)
  · split at h
    · cases h
      exact hs.reduceReturn happ ‹_›
    · cases h
  · cases h
    exact hs.setThreadEnd happ
  · split_ifs at h with hthread
    cases h
    exact hs.pthreadJoin happ hthread
  · exact hs.leaveEpoch happ h

end ParcoachRma
