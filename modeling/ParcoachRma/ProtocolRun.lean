import ParcoachRma.ProtocolAppSteps
import ParcoachRma.ProtocolThreadSteps

/-!
# No interval is lost

In every run of the termination protocol, by any number of processes over any number of epochs:

* `passed_le_sent`: at any time, a checking thread has saved only intervals that were sent to it in
  its epoch, each at most as often as it was sent.
* `passed_eq_sent_of_joined`: when its join has returned, it has saved all of them.
-/

namespace ParcoachRma

open Run Counting

variable {n : Nat} {w : SharedWindow n} {s s' : Cluster n} {p : Fin n} {x x' : Process n}

/-! ## The invariant over a run -/

theorem held_init (w : SharedWindow n) (t : Fin n) (k : Nat) : (Cluster.init w).held t k = 0 := by
  unfold Cluster.held
  exact ite_self _

theorem inv_init (w : SharedWindow n) : Inv w (Cluster.init w) := by
  refine ⟨fun p => ?_, fun p => ⟨nofun, ?_, fun k hk => ⟨fun q => ?_, ?_⟩⟩, nofun, fun t k => ?_⟩
  · exact
      { mpiTag := rfl
        winBase := rfl
        sizeComm := rfl
        control := rfl
        tag := nofun
        count := fun h => h.elim
        idle := fun _ => rfl
        array := fun _ => rfl
        fresh := fun _ _ => ⟨fun _ => rfl, rfl⟩
        root := nofun }
  · rintro (hv | hv) <;> cases hv
  · rcases hk with hlt | ⟨rfl, -⟩
    · exact absurd hlt (Nat.not_lt_zero _)
    · exact .inr ⟨rfl, id⟩
  · change Multiset.map _ (0 + (Cluster.init w).held p k) = 0
    rw [held_init]
    rfl
  · change ∑ _, Multiset.map _ 0 = Multiset.map _ (0 + (Cluster.init w).held t k) + 0
    rw [held_init]
    simp

theorem inv_protocolStep {e : ProtocolEvent n} (hs : Inv w s) (h : protocolStep s e = .ok s') :
    Inv w s' := by
  cases e with
  | openEpoch p =>
      simp only [protocolStep] at h
      split at h <;> cases h
      exact hs.initCommCheckThread ‹_›
  | commSend p c =>
      simp only [protocolStep] at h
      split at h
      · split_ifs at h
        exact hs.saveLocal ‹_› h
      · cases h
  | closeEpoch p =>
      simp only [protocolStep] at h
      split at h <;> cases h
      exact hs.startReduce ‹_›
  | app p => exact inv_appStep hs h
  | thread p => exact inv_threadStep hs h
  | deliver p itv =>
      simp only [protocolStep, Cluster.deliver] at h
      split at h
      · split_ifs at h with hmem
        cases h
        exact hs.matchMessage ‹_› hmem
      · cases h

theorem inv_run {es : List (ProtocolEvent n)}
    (h : run protocolStep (Cluster.init w) es = .ok s) : Inv w s :=
  invariant (P := Inv w) (fun _ _ _ => inv_protocolStep) (inv_init w) h

/-! ## The end of an epoch -/

theorem Inv.settled_of_joined (hs : Inv w s) {t : Fin n} {k : Nat} (joined : s.Joined t k) :
    (s.channel w t k).Settled :=
  (hs.ofEnd t).settled k (joined.2.imp_right fun ⟨heq, happ⟩ => ⟨heq, .inr happ⟩)

/-- At any time, what the checking thread of an epoch has saved was sent in that epoch, and no
interval was saved more often than it was sent. -/
theorem passed_le_sent {es : List (ProtocolEvent n)}
    (h : run protocolStep (Cluster.init w) es = .ok s) (t : Fin n) (k : Nat) :
    s.passed t k ≤ ∑ q, (s.sent q t k).map (Interval.rebase (w.base t)) :=
  ((inv_run h).conserves t k).symm ▸ Multiset.le_add_left _ _

/-- When the join of the checking thread of an epoch has returned, the thread has passed to
`rma_analyzer_save_interval` exactly the intervals all processes have sent to it in that epoch.
None is left in flight, and none will follow. -/
theorem passed_eq_sent_of_joined {es : List (ProtocolEvent n)}
    (h : run protocolStep (Cluster.init w) es = .ok s) {t : Fin n} {k : Nat}
    (joined : s.Joined t k) :
    s.passed t k = ∑ q, (s.sent q t k).map (Interval.rebase (w.base t)) ∧
    s.net t (w.mpiTag + k) = 0 ∧ s.held t k = 0 ∧ ∀ q, s.Closed q k := by
  have hs := inv_run h
  have hsettled := hs.settled_of_joined joined
  have htransit := Multiset.map_eq_zero.mp hsettled.2
  refine ⟨hsettled.delivered_eq (hs.conserves t k), ?_, ?_, hsettled.1⟩
  · exact Multiset.le_zero.mp (htransit ▸ Multiset.le_add_right _ _)
  · exact Multiset.le_zero.mp (htransit ▸ Multiset.le_add_left _ _)

/-! ## Two processes -/

/-- Two processes with windows at different addresses. -/
def exampleShared : SharedWindow 2 where
  win _ := 0
  base p := if p = 0 then 4096 else 8192
  size _ := 400
  comm _ := 0
  filterWindow _ := 1
  mpiTag := 65535

/-- A put of 4 bytes at displacement 8 of process 1. -/
def exampleSend : CommSend := ⟨65536, 4, 8, 4, 1, .rmaRead, .rmaWrite, -1, 10, none⟩

/-- Process 0 puts once and ends its epoch.  While process 1 is still in the reductions of this one,
process 0 opens the next and puts again. -/
def exampleEvents : List (ProtocolEvent 2) :=
  [.openEpoch 0, .openEpoch 1, .commSend 0 exampleSend, .app 0, .app 0,
    .closeEpoch 0, .closeEpoch 1, .app 0, .app 1, .app 0, .app 0, .app 0, .app 0,
    .thread 0, .thread 0, .thread 0, .app 0, .app 0,
    .openEpoch 0, .commSend 0 exampleSend, .app 0,
    .app 1, .app 1, .thread 1, .app 1, .deliver 1 exampleSend.targetItv, .thread 1, .thread 1,
    .thread 1, .app 1, .thread 1, .thread 1, .thread 1, .thread 1, .app 1]

set_option maxRecDepth 10000 in
/-- The checking thread of process 1 has saved the first put, and the second is in flight under the
tag of the second epoch. -/
theorem passed_eq_sent_twoProcesses :
    ∃ s, run protocolStep (Cluster.init exampleShared) exampleEvents = .ok s ∧
      (s.passed 1 1 = ∑ q, (s.sent q 1 1).map (Interval.rebase 8192) ∧
        s.net 1 (65535 + 1) = 0 ∧ s.held 1 1 = 0 ∧ ∀ q, s.Closed q 1) ∧
      s.passed 1 1 = {exampleSend.targetItv.rebase 8192} ∧
      s.net 1 (65535 + 2) = {exampleSend.targetItv} := by
  have hrun : run protocolStep (Cluster.init exampleShared) exampleEvents = .ok _ := rfl
  refine ⟨_, hrun, ?_, rfl, rfl⟩
  exact passed_eq_sent_of_joined hrun ⟨le_rfl, .inr ⟨rfl, .inl rfl⟩⟩

end ParcoachRma
