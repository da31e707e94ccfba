import ParcoachRma.Protocol

/-!
# The invariant of the termination protocol

The intervals sent to a process in an epoch form a counting channel (`Cluster.channel`): the network
and the hand of the checking thread are in transit, what went to `rma_analyzer_save_interval` is
delivered, and a process closes the channel when it starts to end its epoch.

`Inv` ties the counters to the channels: `array` counts what has been sent, `count` what has been
delivered, and `tmp` and then `value` is the number of all intervals sent, known only once all
processes have closed.

`Inv.of_step` is the step rule: the channels go on, the other processes are left alone, and only
what is new at the process that takes the step has to be shown.
-/

namespace ParcoachRma

open Run Counting

variable {n : Nat}

/-! ## What the threads hold -/

/-- The interval in the buffer of a receive. -/
def Request.hand (req : Request) : Multiset Interval :=
  match req.buf with
  | some itv => {itv}
  | none => 0

/-- The interval a checking thread has taken from the network and not yet saved. -/
def ThreadPc.hand : ThreadPc → Multiset Interval
  | .polling _ req => req.hand
  | .received itv => {itv}
  | .counted itv => {itv}
  | _ => 0

/-- The thread has been created and has not ended. -/
def ThreadPc.Live : ThreadPc → Prop
  | .absent => False
  | .exited => False
  | _ => True

/-- An interval is counted before it is saved. -/
def ThreadPc.ahead : ThreadPc → Nat
  | .counted _ => 1
  | _ => 0

/-- An interval is sent before it is counted in `array`. -/
def AppPc.pending (dst : Fin n) : AppPc n → Nat
  | .sent d => if d = dst then 1 else 0
  | _ => 0

/-- Where the checking thread can be, by the place of the application thread. -/
def Process.Control (x : Process n) : Prop :=
  match x.app with
  | .outside => x.thread = .absent
  | .joined => x.thread = .absent
  | .joining => x.thread ≠ .absent
  | _ => x.thread.Live ∧ x.record.threadEnd ≠ 1 ∧ ∀ req, x.thread ≠ .polling .compare req

/-- The checking thread of the epoch has nothing more to do. -/
def Process.Over (x : Process n) : Prop :=
  x.thread = .exited ∨ x.app = .joined ∨ x.app = .outside

/-! ## Channels -/

/-- The interval the checking thread of an epoch holds. -/
def Cluster.held (s : Cluster n) (t : Fin n) (k : Nat) : Multiset Interval :=
  if k = s.epoch t then (s.proc t).thread.hand else 0

@[simp] theorem held_epoch (s : Cluster n) (t : Fin n) :
    s.held t (s.epoch t) = (s.proc t).thread.hand := if_pos rfl

/-- The intervals sent to a process in an epoch, as the target saves them. -/
def Cluster.channel (w : SharedWindow n) (s : Cluster n) (t : Fin n) (k : Nat) :
    Channel (Fin n) Interval where
  sent q := (s.sent q t k).map (Interval.rebase (w.base t))
  closed q := s.Closed q k
  transit := (s.net t (w.mpiTag + k) + s.held t k).map (Interval.rebase (w.base t))
  delivered := s.passed t k

/-! ## The invariant -/

/-- What a process knows by itself. -/
structure LocalInv (w : SharedWindow n) (p : Fin n) (sent : Fin n → Nat → Multiset Interval)
    (passed : Nat → Multiset Interval) (x : Process n) : Prop where
  mpiTag : x.record.mpiTag = w.mpiTag
  winBase : x.record.winBase = w.base p
  sizeComm : x.record.sizeComm = n
  control : x.Control
  tag : ∀ poll req, x.thread = .polling poll req → req.tag = x.record.currentTag
  count : x.thread.Live → x.record.count = (passed x.record.countEpoch).card + x.thread.ahead
  idle : ¬ x.thread.Live → x.record.count = 0
  array : ∀ dst : Fin n, x.record.array dst + x.app.pending dst =
    (sent dst x.record.countEpoch).card
  fresh : ∀ k, x.record.countEpoch < k → (∀ dst, sent dst k = 0) ∧ passed k = 0
  root : ∀ i, x.app = .waiting i → i = p

/-- What a process knows of the intervals sent to it. -/
structure EndInv (p : Fin n) (channel : Nat → Channel (Fin n) Interval) (x : Process n) :
    Prop where
  tmp : ∀ i, x.app = .reducing i → p < i →
    (channel x.record.countEpoch).AllClosed ∧ x.tmp = (channel x.record.countEpoch).total
  value : x.app = .valued ∨ x.app = .joining →
    (channel x.record.countEpoch).AllClosed ∧
      x.record.value = (channel x.record.countEpoch).total
  settled : ∀ k, k < x.record.countEpoch ∨ k = x.record.countEpoch ∧ x.Over →
    (channel k).Settled

structure Inv (w : SharedWindow n) (s : Cluster n) : Prop where
  ofProc : ∀ p, LocalInv w p (s.sent p) (s.passed p) (s.proc p)
  ofEnd : ∀ p, EndInv p (s.channel w p) (s.proc p)
  contrib : ∀ k (i q : Fin n) v, s.contrib k i q = some v →
    s.Closed q k ∧ v = (s.sent q i k).card
  conserves : ∀ t k, (s.channel w t k).Conserves

variable {w : SharedWindow n} {s s' : Cluster n} {p : Fin n} {x x' : Process n}

/-- What is known at the end stays true while the channels go on. -/
theorem EndInv.step {channel channel' : Nat → Channel (Fin n) Interval} (h : EndInv p channel x)
    (hchan : ∀ k, (channel k).Step (channel' k)) : EndInv p channel' x where
  tmp i hi hlt := by
    obtain ⟨hclosed, htmp⟩ := h.tmp i hi hlt
    rw [(hchan _).total_of_allClosed hclosed]
    exact ⟨(hchan _).allClosed hclosed, htmp⟩
  value hx := by
    obtain ⟨hclosed, hvalue⟩ := h.value hx
    rw [(hchan _).total_of_allClosed hclosed]
    exact ⟨(hchan _).allClosed hclosed, hvalue⟩
  settled k hk := (hchan k).settled (h.settled k hk)

/-- All processes use the same tag in an epoch, and different ones in different epochs. -/
theorem tag_eq_iff (hs : Inv w s) {k : Nat} :
    w.mpiTag + k = (s.proc p).record.currentTag ↔ k = s.epoch p := by
  rw [RmaAnalyzerState.currentTag, (hs.ofProc p).mpiTag, Cluster.epoch]
  omega

/-- A step of one process: all channels go on, the other processes are left alone, and what is new
at the process and in the reductions is shown on the channels before the step. -/
theorem Inv.of_step (hs : Inv w s)
    (hothers : ∀ t, t ≠ p →
      s'.proc t = s.proc t ∧ s'.sent t = s.sent t ∧ s'.passed t = s.passed t)
    (hchan : ∀ t k, (s.channel w t k).Step (s'.channel w t k))
    (hproc : LocalInv w p (s'.sent p) (s'.passed p) (s'.proc p))
    (hend : EndInv p (s.channel w p) (s'.proc p))
    (hcontrib : ∀ k (i q : Fin n) v, s'.contrib k i q = some v →
      s.Closed q k ∧ v = (s.sent q i k).card) : Inv w s' where
  ofProc t := by
    by_cases ht : t = p
    · rw [ht]
      exact hproc
    · obtain ⟨hx, hsent, hpassed⟩ := hothers t ht
      rw [hx, hsent, hpassed]
      exact hs.ofProc t
  ofEnd t := by
    by_cases ht : t = p
    · rw [ht]
      exact hend.step (hchan p)
    · rw [(hothers t ht).1]
      exact (hs.ofEnd t).step (hchan t)
  contrib k i q v hv := by
    obtain ⟨hclosed, rfl⟩ := hcontrib k i q v hv
    have hsent := congrArg Multiset.card ((hchan i k).sent_of_closed hclosed)
    simp only [Cluster.channel, Multiset.card_map] at hsent
    exact ⟨(hchan i k).closed hclosed, hsent.symm⟩
  conserves t k := (hchan t k).conserves (hs.conserves t k)

/-! ## Writing back a process -/

/-- What the new process has in common with the old one, all processes have. -/
theorem setProc_congr {β : Type*} (f : Process n → β) (hf : f x = f (s.proc p)) (t : Fin n) :
    f ((s.setProc p x).proc t) = f (s.proc t) := by
  by_cases ht : t = p
  · rw [ht, Cluster.setProc_proc_self, hf]
  · rw [Cluster.setProc_proc_of_ne s x ht]

theorem setProc_epoch_of_eq (h : x.record.countEpoch = s.epoch p) (t : Fin n) :
    (s.setProc p x).epoch t = s.epoch t :=
  setProc_congr (fun y => y.record.countEpoch) h t

theorem setProc_held_self (hepoch : x.record.countEpoch = s.epoch p) :
    (s.setProc p x).held p (s.epoch p) = x.thread.hand := by
  rw [Cluster.held, setProc_epoch_of_eq hepoch, Cluster.setProc_proc_self, if_pos rfl]

theorem setProc_held_of_ne (hepoch : x.record.countEpoch = s.epoch p) {t : Fin n} {k : Nat}
    (h : ¬ (t = p ∧ k = s.epoch p)) : (s.setProc p x).held t k = s.held t k := by
  rw [Cluster.held, setProc_epoch_of_eq hepoch, Cluster.held]
  refine if_ctx_congr Iff.rfl (fun heq => ?_) fun _ => rfl
  rw [Cluster.setProc_proc_of_ne s x fun ht => h ⟨ht, ht ▸ heq⟩]

/-- A process that stays where it is as far as sending is concerned closes no channel. -/
theorem setProc_closed_of_eq (hepoch : x.record.countEpoch = s.epoch p)
    (hbody : x.app.InBody = (s.proc p).app.InBody) (q : Fin n) (k : Nat) :
    (s.setProc p x).Closed q k = s.Closed q k := by
  rw [Cluster.Closed, setProc_epoch_of_eq hepoch,
    setProc_congr (fun y => y.app.InBody) hbody q, Cluster.Closed]

/-- A process that stays in its epoch, does not go back to sending and keeps what its checking
thread holds at most closes channels. -/
theorem channel_setProc (hepoch : x.record.countEpoch = s.epoch p)
    (hbody : x.app.InBody → (s.proc p).app.InBody)
    (hhand : x.thread.hand = (s.proc p).thread.hand) (t : Fin n) (k : Nat) :
    (s.channel w t k).Step ((s.setProc p x).channel w t k) := by
  have hsame : (s.setProc p x).channel w t k =
      { s.channel w t k with closed := fun q => (s.setProc p x).Closed q k } := by
    have hheld : (s.setProc p x).held t k = s.held t k := by
      rw [Cluster.held, setProc_epoch_of_eq hepoch,
        setProc_congr (fun y => y.thread.hand) hhand t, Cluster.held]
    unfold Cluster.channel
    rw [hheld]
    rfl
  rw [hsame]
  refine .close _ fun q hq => ?_
  rcases hq with hlt | ⟨heq, hout⟩
  · exact .inl (by rwa [setProc_epoch_of_eq hepoch])
  · refine .inr ⟨by rwa [setProc_epoch_of_eq hepoch], fun hin => hout ?_⟩
    by_cases hqp : q = p
    · rw [hqp, Cluster.setProc_proc_self] at hin
      rw [hqp]
      exact hbody hin
    · rwa [Cluster.setProc_proc_of_ne s x hqp] at hin

/-- A step that only writes back such a process. -/
theorem Inv.setProc (hs : Inv w s) (hepoch : x.record.countEpoch = s.epoch p)
    (hbody : x.app.InBody → (s.proc p).app.InBody)
    (hhand : x.thread.hand = (s.proc p).thread.hand)
    (hproc : LocalInv w p (s.sent p) (s.passed p) x) (hend : EndInv p (s.channel w p) x) :
    Inv w (s.setProc p x) := by
  refine hs.of_step (fun t ht => ⟨Cluster.setProc_proc_of_ne s x ht, rfl, rfl⟩)
    (channel_setProc hepoch hbody hhand) ?_ ?_ hs.contrib
  · rw [Cluster.setProc_proc_self]
    exact hproc
  · rw [Cluster.setProc_proc_self]
    exact hend

end ParcoachRma
