import ParcoachRma.ProtocolInvariant

/-!
# Steps of the checking thread and of the network keep the invariant

The loop over a posted receive (`Inv.setThread`), the exit from it (`Inv.cancelAndExit`), the two
steps that take an interval to the trees, and the match of a message.

`Inv.settled_of_count` is the heart of the protocol: a thread that has been told to end and has
counted `value` intervals leaves nothing behind.
-/

namespace ParcoachRma

open Run Counting

variable {n : Nat} {w : SharedWindow n} {s s' : Cluster n} {p : Fin n} {x x' : Process n}

/-! ## The loop over a posted receive -/

/-- Wherever a live thread goes, it has the application thread where it was before. -/
theorem LocalInv.control_of_live {sent : Fin n → Nat → Multiset Interval}
    {passed : Nat → Multiset Interval} (h : LocalInv w p sent passed x) (hlive : x.thread.Live)
    (happ : x'.app = x.app) (hend : x'.record.threadEnd = x.record.threadEnd)
    (hlive' : x'.thread.Live)
    (hcompare : ∀ req, x'.thread = .polling .compare req →
      x.record.threadEnd = 1 ∨ ∃ req', x.thread = .polling .compare req') : x'.Control := by
  have hne : ∀ y : ThreadPc, y.Live → y ≠ .absent := by
    rintro y hy rfl
    exact hy
  have hcontrol := h.control
  unfold Process.Control at *
  rw [happ]
  split at hcontrol
  · exact absurd hcontrol (hne _ hlive)
  · exact absurd hcontrol (hne _ hlive)
  · exact hne _ hlive'
  · refine ⟨hlive', by rw [hend]; exact hcontrol.2.1, fun req hreq => ?_⟩
    rcases hcompare req hreq with hset | ⟨req', hreq'⟩
    · exact hcontrol.2.1 hset
    · exact hcontrol.2.2 req' hreq'

/-- What is known at the end does not depend on a thread that goes on. -/
theorem EndInv.of_thread {channel : Nat → Channel (Fin n) Interval} (h : EndInv p channel x)
    (happ : x'.app = x.app) (hepoch : x'.record.countEpoch = x.record.countEpoch)
    (htmp : x'.tmp = x.tmp) (hvalue : x'.record.value = x.record.value)
    (hlive : x'.thread ≠ .exited) : EndInv p channel x' where
  tmp i hi hlt := by
    rw [hepoch, htmp]
    exact h.tmp i (happ ▸ hi) hlt
  value hv := by
    rw [hepoch, hvalue]
    exact h.value (happ ▸ hv)
  settled k hk := by
    rw [hepoch, Process.Over, happ] at hk
    exact h.settled k (hk.imp_right fun ⟨heq, hover⟩ => ⟨heq, .inr (hover.resolve_left hlive)⟩)

theorem ThreadPc.Live.ne_exited {thread : ThreadPc} (h : thread.Live) : thread ≠ .exited := by
  rintro rfl
  exact h

/-- A step in the loop over a posted receive. -/
theorem Inv.setThread {old new : ThreadPc} (hs : Inv w s) (hthread : (s.proc p).thread = old)
    (hold : old.Live) (hnew : new.Live) (hhand : new.hand = old.hand)
    (hahead : new.ahead = old.ahead)
    (htag : ∀ poll req, new = .polling poll req → req.tag = (s.proc p).record.currentTag)
    (hcompare : ∀ req, new = .polling .compare req → (s.proc p).record.threadEnd = 1) :
    Inv w (s.setThread p new) := by
  subst hthread
  have hx := hs.ofProc p
  refine hs.setProc rfl id hhand ?_ ((hs.ofEnd p).of_thread rfl rfl rfl rfl hnew.ne_exited)
  exact { hx with
    control := hx.control_of_live hold rfl rfl hnew fun req hreq => .inl (hcompare req hreq)
    tag := htag
    count := fun _ => (hx.count hold).trans (congrArg _ hahead.symm)
    idle := fun h => absurd hnew h }

/-- The thread leaves only with the number of intervals that have been sent, so none is in
transit. -/
theorem Inv.settled_of_count {req : Request} (hs : Inv w s)
    (hthread : (s.proc p).thread = .polling .compare req)
    (hcount : (s.proc p).record.count = (s.proc p).record.value) :
    (s.proc p).app = .joining ∧ (s.channel w p (s.epoch p)).Settled := by
  have hx := hs.ofProc p
  have happ : (s.proc p).app = .joining := by
    have hcontrol := hx.control
    unfold Process.Control at hcontrol
    split at hcontrol
    · rw [hthread] at hcontrol
      cases hcontrol
    · rw [hthread] at hcontrol
      cases hcontrol
    · assumption
    · exact absurd hthread (hcontrol.2.2 req)
  obtain ⟨hclosed, hvalue⟩ := (hs.ofEnd p).value (.inr happ)
  refine ⟨happ, Channel.settled_of_card (hs.conserves p _) hclosed ?_⟩
  have hpassed := hx.count (by rw [hthread]; trivial)
  rw [hthread] at hpassed
  exact hpassed.symm.trans (hcount.trans hvalue)

theorem Inv.cancelAndExit {req : Request} (hs : Inv w s)
    (hthread : (s.proc p).thread = .polling .compare req)
    (hcount : (s.proc p).record.count = (s.proc p).record.value) : Inv w (s.cancelAndExit p) := by
  have hx := hs.ofProc p
  obtain ⟨happ, hsettled⟩ := hs.settled_of_count hthread hcount
  -- The receive that is cancelled has not been matched.
  have hhand : (s.proc p).thread.hand = 0 := by
    have htransit := Multiset.map_eq_zero.mp hsettled.2
    rw [held_epoch] at htransit
    exact Multiset.le_zero.mp (htransit ▸ Multiset.le_add_left _ _)
  refine hs.setProc rfl id hhand.symm ?_ ⟨?_, fun hv => (hs.ofEnd p).value hv, fun k hk => ?_⟩
  · exact { hx with
      control := by
        simp only [Process.Control, happ]
        exact nofun
      tag := nofun
      count := fun h => h.elim
      idle := fun _ => rfl }
  · intro i hi
    rw [show (s.proc p).app = .reducing i from hi] at happ
    cases happ
  · rcases hk with hlt | ⟨rfl, -⟩
    · exact (hs.ofEnd p).settled k (.inl hlt)
    · exact hsettled

/-! ## Counting and saving -/

/-- A received interval is counted. -/
theorem Inv.countReceived {itv : Interval} (hs : Inv w s)
    (hthread : (s.proc p).thread = .received itv) : Inv w (s.countReceived p itv) := by
  have hx := hs.ofProc p
  have hlive : (s.proc p).thread.Live := by
    rw [hthread]
    trivial
  refine hs.setProc rfl id (by rw [hthread]; rfl) ?_
    ((hs.ofEnd p).of_thread rfl rfl rfl rfl nofun)
  exact { hx with
    control := hx.control_of_live hlive rfl rfl trivial nofun
    tag := nofun
    count := fun _ => by
      have hcount := hx.count hlive
      rw [hthread] at hcount
      exact congrArg (· + 1) hcount
    idle := fun h => absurd trivial h }

/-- A save that returns changes the trees of the record only, and is observed. -/
theorem saveReceived_spec {itv : Interval} (h : s.saveReceived p itv = .ok s') :
    ∃ localTree notifTree, s' =
      { s.setProc p { s.proc p with
          record := { (s.proc p).record with localTree := localTree, notifTree := notifTree }
          nextObject := (s.proc p).nextObject + 1
          thread := .start } with
        passed := fun t k =>
          if t = p ∧ k = s.epoch p then itv.rebase (s.proc p).record.winBase ::ₘ s.passed t k
          else s.passed t k } := by
  obtain ⟨⟨saved, record⟩, hsave, h⟩ := bind_ok.mp h
  obtain ⟨localTree, notifTree, rfl⟩ := rmaAnalyzerSaveInterval_eq hsave
  exact ⟨localTree, notifTree, (Except.ok.inj h).symm⟩

/-- The interval the thread holds is delivered. -/
theorem channel_deliver {itv : Interval} (hepoch : x.record.countEpoch = s.epoch p)
    (hbody : x.app.InBody = (s.proc p).app.InBody) (hhand : (s.proc p).thread.hand = {itv})
    (hhand' : x.thread.hand = 0) (t : Fin n) (k : Nat) :
    (s.channel w t k).Step (Cluster.channel w
      { s.setProc p x with
        passed := fun t k =>
          if t = p ∧ k = s.epoch p then itv.rebase (w.base p) ::ₘ s.passed t k
          else s.passed t k } t k) := by
  have hclosed := setProc_closed_of_eq hepoch hbody
  by_cases hk : t = p ∧ k = s.epoch p
  · obtain ⟨rfl, rfl⟩ := hk
    have htaken : (s.channel w t (s.epoch t)).transit = itv.rebase (w.base t) ::ₘ
        (s.net t (w.mpiTag + s.epoch t)).map (Interval.rebase (w.base t)) := by
      simp only [Cluster.channel, Cluster.held, if_true, hhand, Multiset.map_add,
        Multiset.map_singleton]
      rw [add_comm, Multiset.singleton_add]
    convert Channel.Step.deliver _ _ htaken using 1
    refine Channel.ext rfl (funext fun q => hclosed q _) ?_ (if_pos ⟨rfl, rfl⟩)
    change Multiset.map _ (s.net t _ + (s.setProc t x).held t (s.epoch t)) = _
    rw [setProc_held_self hepoch, hhand', add_zero]
  · convert Channel.Step.refl (s.channel w t k) using 1
    refine Channel.ext rfl (funext fun q => hclosed q k) ?_ (if_neg hk)
    change Multiset.map _ (s.net t _ + (s.setProc p x).held t k) = _
    rw [setProc_held_of_ne hepoch hk]
    rfl

theorem Inv.saveReceived {itv : Interval} (hs : Inv w s)
    (hthread : (s.proc p).thread = .counted itv) (h : s.saveReceived p itv = .ok s') :
    Inv w s' := by
  obtain ⟨localTree, notifTree, rfl⟩ := saveReceived_spec h
  have hx := hs.ofProc p
  have hlive : (s.proc p).thread.Live := by
    rw [hthread]
    trivial
  rw [hx.winBase]
  refine hs.of_step (p := p) (fun t ht => ⟨Cluster.setProc_proc_of_ne s _ ht, rfl, ?_⟩)
    (channel_deliver rfl rfl (by rw [hthread]; rfl) rfl) ?_ ?_ hs.contrib
  · funext k
    exact if_neg fun h => ht h.1
  · change LocalInv w p _ _ ((s.setProc p _).proc p)
    rw [Cluster.setProc_proc_self]
    exact { hx with
      control := hx.control_of_live hlive rfl rfl trivial nofun
      tag := nofun
      count := fun _ => by
        have hcount := hx.count hlive
        rw [hthread] at hcount
        apply hcount.trans
        change (s.passed p (s.epoch p)).card + 1 = Multiset.card (ite _ _ _)
        rw [if_pos ⟨rfl, rfl⟩, Multiset.card_cons]
        rfl
      idle := fun h => absurd trivial h
      fresh := fun k hk => by
        refine ⟨(hx.fresh k hk).1, ?_⟩
        refine (if_neg fun h => ?_).trans (hx.fresh k hk).2
        exact absurd h.2 (Nat.ne_of_gt hk) }
  · change EndInv p _ ((s.setProc p _).proc p)
    rw [Cluster.setProc_proc_self]
    exact (hs.ofEnd p).of_thread rfl rfl rfl rfl nofun

theorem inv_threadStep (hs : Inv w s) (h : s.threadStep p = .ok s') : Inv w s' := by
  have hx := hs.ofProc p
  unfold Cluster.threadStep at h
  split at h <;> rename_i hthread
  · cases h
  · cases h
    refine hs.setThread hthread trivial trivial rfl rfl (fun _ req hreq => ?_) nofun
    cases hreq
    rfl
  · cases h
    refine hs.setThread hthread trivial trivial rfl rfl (fun _ req hreq => ?_) fun req hreq => ?_
    · cases hreq
      exact hx.tag _ _ hthread
    · by_contra hend
      rw [if_neg hend] at hreq
      cases hreq
  · cases h
    split_ifs with hcount
    · exact hs.cancelAndExit hthread hcount
    · refine hs.setThread hthread trivial trivial rfl rfl (fun _ req hreq => ?_) nofun
      cases hreq
      exact hx.tag _ _ hthread
  · cases h
    exact hs.setThread hthread trivial trivial rfl rfl nofun nofun
  · cases h
    refine hs.setThread hthread trivial trivial rfl rfl (fun _ req hreq => ?_) nofun
    cases hreq
    exact hx.tag _ _ hthread
  · cases h
    exact hs.countReceived hthread
  · exact hs.saveReceived hthread h
  · cases h

/-! ## Steps of the network -/

/-- A message that is matched stays in transit. -/
theorem channel_matchMessage {poll : Poll} {tag : Int} {itv : Interval} (hs : Inv w s)
    (hthread : (s.proc p).thread = .polling poll ⟨tag, none⟩) (hmem : itv ∈ s.net p tag)
    (t : Fin n) (k : Nat) : (s.matchMessage p poll tag itv).channel w t k = s.channel w t k := by
  have hclosed := setProc_closed_of_eq (s := s) (p := p)
    (x := { s.proc p with thread := .polling poll ⟨tag, some itv⟩ }) rfl rfl
  have hself := setProc_held_self (s := s) (p := p)
    (x := { s.proc p with thread := .polling poll ⟨tag, some itv⟩ }) rfl
  have htag : ∀ k : Nat, w.mpiTag + k = tag ↔ k = s.epoch p := by
    intro k
    rw [← tag_eq_iff hs, ← (hs.ofProc p).tag poll _ hthread]
  refine Channel.ext rfl (funext fun q => hclosed q k)
    (congrArg (Multiset.map (Interval.rebase (w.base t))) ?_) rfl
  change (if t = p ∧ w.mpiTag + k = tag then (s.net t (w.mpiTag + k)).erase itv
    else s.net t (w.mpiTag + k)) + (s.setProc p _).held t k = _
  by_cases hk : t = p ∧ k = s.epoch p
  · obtain ⟨rfl, rfl⟩ := hk
    rw [if_pos ⟨rfl, (htag _).mpr rfl⟩, hself, held_epoch, hthread, (htag _).mpr rfl]
    change (s.net t tag).erase itv + {itv} = s.net t tag + 0
    rw [add_comm, Multiset.singleton_add, Multiset.cons_erase hmem, add_zero]
  · have hne := setProc_held_of_ne (s := s) (p := p)
      (x := { s.proc p with thread := .polling poll ⟨tag, some itv⟩ }) rfl hk
    rw [if_neg fun h => hk ⟨h.1, (htag k).mp h.2⟩, hne]

theorem Inv.matchMessage {poll : Poll} {tag : Int} {itv : Interval} (hs : Inv w s)
    (hthread : (s.proc p).thread = .polling poll ⟨tag, none⟩) (hmem : itv ∈ s.net p tag) :
    Inv w (s.matchMessage p poll tag itv) := by
  have hx := hs.ofProc p
  have hlive : (s.proc p).thread.Live := by
    rw [hthread]
    trivial
  have hproc : (s.matchMessage p poll tag itv).proc p =
      { s.proc p with thread := .polling poll ⟨tag, some itv⟩ } := Cluster.setProc_proc_self ..
  refine hs.of_step (p := p) (fun t ht => ⟨Cluster.setProc_proc_of_ne s _ ht, rfl, rfl⟩)
    (fun t k => ?_) ?_ ?_ hs.contrib
  · rw [channel_matchMessage hs hthread hmem]
    exact .refl _
  · rw [hproc]
    exact { hx with
      control := hx.control_of_live hlive rfl rfl trivial fun req hreq => by
        cases hreq
        exact .inr ⟨_, hthread⟩
      tag := fun _ req hreq => by
        cases hreq
        exact hx.tag poll ⟨tag, none⟩ hthread
      count := fun _ => by
        have hcount := hx.count hlive
        rwa [hthread] at hcount
      idle := fun h => absurd trivial h }
  · rw [hproc]
    exact (hs.ofEnd p).of_thread rfl rfl rfl rfl nofun

end ParcoachRma
