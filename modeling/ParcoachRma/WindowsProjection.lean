import ParcoachRma.Windows
import ParcoachRma.Alike
import ParcoachRma.SystemDetection

/-!
# Every window by itself

A run of several windows is, on each of them, a run of the system with this window alone
(`run_projectRun`): windows in different slots of the table have tags of their own, so that no
checking thread takes a message of another window, and processes that end their epochs in one common
order contribute to the same reductions.

What is known of one window follows for each: the checking thread that is joined has passed on all
that was sent (`passed_eq_sent_of_windowJoined`), and a report is a conflict on one window
(`report_conflict_of_windows`).
-/

namespace ParcoachRma

open Run Counting

variable {n m : Nat}

/-! ## What a step on one window does -/

/-- In the loop of reductions. -/
def AppPc.Reduces : AppPc n → Prop
  | .reducing _ => True
  | .waiting _ => True
  | _ => False

theorem AppPc.Reduces.not_idle {app : AppPc n} (h : app.Reduces) : ¬ app.Idle := by
  cases app with
  | reducing => exact id
  | waiting => exact id
  | _ => exact h.elim

theorem AppPc.Reduces.not_inBody {app : AppPc n} (h : app.Reduces) : ¬ app.InBody := by
  cases app with
  | reducing => exact id
  | waiting => exact id
  | _ => exact h.elim

section Step

variable {s s' : Cluster n} {e : ProtocolEvent n} {p : Fin n} {x x' : Process n}

/-- What a step of a process does to the call it is in. -/
inductive CallStep (e : ProtocolEvent n) (x x' : Process n) : Prop
  | opens : e = .openEpoch e.process → x.app = .outside → x'.app = .inside →
      x'.record.countEpoch = x.record.countEpoch + 1 → CallStep e x x'
  | sends (c : CommSend) (dst : Fin n) : e = .commSend e.process c → x.app = .inside →
      x'.app = .sending dst c → x'.record.countEpoch = x.record.countEpoch → CallStep e x x'
  | closes : e = .closeEpoch e.process → x.app = .inside → x'.app = .reducing 0 →
      x'.record.countEpoch = x.record.countEpoch → CallStep e x x'
  | goesOn : ¬ e.Begins → x'.record.countEpoch = x.record.countEpoch →
      (x'.app.InBody ↔ x.app.InBody) → (x.app.Idle → x'.app.Idle) →
      (x'.app.Reduces → x.app.Reduces) → CallStep e x x'

/-- What a step of a process leaves alone, and what it does to its call. -/
structure StepEffect (s : Cluster n) (e : ProtocolEvent n) (s' : Cluster n) : Prop where
  others : ∀ q, q ≠ e.process → s'.proc q = s.proc q
  filterWindow : (s'.proc e.process).filterWindow = (s.proc e.process).filterWindow
  net : ∀ q tag, tag ≠ (s.proc e.process).record.currentTag →
    (∀ poll req, (s.proc e.process).thread = .polling poll req → tag ≠ req.tag) →
    s'.net q tag = s.net q tag
  call : CallStep e (s.proc e.process) (s'.proc e.process)

/-- A step that writes back its process only. -/
theorem StepEffect.setProc (hp : e.process = p) (hfilter : x.filterWindow = (s.proc p).filterWindow)
    (hcall : CallStep e (s.proc p) x) : StepEffect s e (s.setProc p x) := by
  subst hp
  refine ⟨fun q hq => Cluster.setProc_proc_of_ne s x hq, ?_, fun _ _ _ _ => rfl, ?_⟩
  · rw [Cluster.setProc_proc_self, hfilter]
  · rwa [Cluster.setProc_proc_self]

/-- Another network beside. -/
theorem StepEffect.of_net (h : StepEffect s e s') {t : Cluster n} (hproc : t.proc = s'.proc)
    (hnet : ∀ q tag, tag ≠ (s.proc e.process).record.currentTag →
      (∀ poll req, (s.proc e.process).thread = .polling poll req → tag ≠ req.tag) →
      t.net q tag = s.net q tag) : StepEffect s e t := by
  refine ⟨?_, ?_, hnet, ?_⟩
  · rw [hproc]
    exact h.others
  · rw [hproc]
    exact h.filterWindow
  · rw [hproc]
    exact h.call

/-- The checking thread is not in a call. -/
theorem CallStep.of_app (he : ¬ e.Begins) (happ : x'.app = x.app)
    (hepoch : x'.record.countEpoch = x.record.countEpoch) : CallStep e x x' := by
  refine .goesOn he hepoch ?_ ?_ ?_ <;> rw [happ] <;> exact id

theorem appStep_effect (h : s.appStep p = .ok s') : StepEffect s (.app p) s' := by
  have hbegins : ¬ (ProtocolEvent.app p).Begins := id
  have hset : ∀ {x : Process n}, x.filterWindow = (s.proc p).filterWindow →
      x.record.countEpoch = (s.proc p).record.countEpoch →
      (x.app.InBody ↔ (s.proc p).app.InBody) → ((s.proc p).app.Idle → x.app.Idle) →
      (x.app.Reduces → (s.proc p).app.Reduces) → StepEffect s (.app p) (s.setProc p x) :=
    fun hfilter hepoch hbody hidle hreduces =>
      .setProc rfl hfilter (.goesOn hbegins hepoch hbody hidle hreduces)
  unfold Cluster.appStep at h
  split at h <;> rename_i happ
  · cases h
  · cases h
  · rename_i dst c
    cases h
    have hsent : StepEffect s (.app p) (s.setApp p (.sent dst)) :=
      hset rfl rfl (by rw [happ]; rfl) (by rw [happ]; exact id) fun h => h.elim
    exact hsent.of_net rfl fun q tag htag _ => if_neg fun hq => htag hq.2
  · cases h
    exact hset rfl rfl (by rw [happ]; rfl) (fun _ => trivial) fun h => h.elim
  · rename_i root
    cases h
    split_ifs
    · have hcontribute : StepEffect s (.app p)
          (s.setApp p (if root = p then .waiting root else .reducing (root + 1))) := by
        refine hset rfl rfl ?_ ?_ fun _ => by rw [happ]; trivial
        · rw [happ]
          dsimp only
          split_ifs <;> rfl
        · rw [happ]
          exact fun h => h.elim
      exact hcontribute.of_net rfl fun _ _ _ _ => rfl
    · exact hset rfl rfl (by rw [happ]; rfl) (by rw [happ]; exact fun h => h.elim)
        fun _ => by rw [happ]; trivial
  · split at h
    · cases h
      exact hset rfl rfl (by rw [happ]; rfl) (by rw [happ]; exact fun h => h.elim)
        fun _ => by rw [happ]; trivial
    · cases h
  · cases h
    exact hset rfl rfl (by rw [happ]; rfl) (by rw [happ]; exact fun h => h.elim) fun h => h.elim
  · split_ifs at h
    cases h
    exact hset rfl rfl (by rw [happ]; rfl) (by rw [happ]; exact fun h => h.elim) fun h => h.elim
  · obtain ⟨record, hfree, h⟩ := bind_ok.mp h
    obtain rfl := freeTrees_ok hfree
    obtain rfl := Except.ok.inj h
    exact hset rfl rfl (by rw [happ]; rfl) (fun _ => trivial) fun h => h.elim

theorem threadStep_effect (h : s.threadStep p = .ok s') : StepEffect s (.thread p) s' := by
  have hset : ∀ {x : Process n}, x.filterWindow = (s.proc p).filterWindow →
      x.record.countEpoch = (s.proc p).record.countEpoch → x.app = (s.proc p).app →
      StepEffect s (.thread p) (s.setProc p x) :=
    fun hfilter hepoch happ => .setProc rfl hfilter (.of_app id happ hepoch)
  unfold Cluster.threadStep at h
  split at h <;> rename_i hthread
  · cases h
  · cases h
    exact hset rfl rfl rfl
  · cases h
    exact hset rfl rfl rfl
  · cases h
    split_ifs
    · exact hset rfl rfl rfl
    · exact hset rfl rfl rfl
  · cases h
    exact hset rfl rfl rfl
  · cases h
    exact hset rfl rfl rfl
  · cases h
    exact hset rfl rfl rfl
  · obtain ⟨lt, nt, rfl⟩ := saveReceived_spec h
    have hsaved : StepEffect s (.thread p) (s.setProc p { s.proc p with
        record := { (s.proc p).record with localTree := lt, notifTree := nt }
        nextObject := (s.proc p).nextObject + 1
        thread := .start }) := hset rfl rfl rfl
    exact hsaved.of_net rfl fun _ _ _ _ => rfl
  · cases h

theorem protocolStep_effect (h : protocolStep s e = .ok s') : StepEffect s e s' := by
  cases e with
  | openEpoch p =>
      simp only [protocolStep] at h
      split at h <;> cases h
      exact .setProc rfl rfl (.opens rfl ‹_› rfl rfl)
  | commSend p c =>
      simp only [protocolStep] at h
      split at h
      · split_ifs at h
        obtain ⟨⟨saved, record⟩, hsave, h⟩ := bind_ok.mp h
        obtain ⟨lt, nt, rfl⟩ := rmaAnalyzerSaveInterval_eq hsave
        obtain rfl := Except.ok.inj h
        exact .setProc rfl rfl (.sends c _ rfl ‹_› rfl rfl)
      · cases h
  | closeEpoch p =>
      simp only [protocolStep] at h
      split at h <;> cases h
      exact .setProc rfl rfl (.closes rfl ‹_› rfl rfl)
  | app p => exact appStep_effect h
  | thread p => exact threadStep_effect h
  | deliver p itv =>
      simp only [protocolStep, Cluster.deliver] at h
      split at h
      · rename_i poll tag hthread
        split_ifs at h
        cases h
        have hmatched : StepEffect s (.deliver p itv)
            (s.setThread p (.polling poll ⟨tag, some itv⟩)) :=
          .setProc rfl rfl (.of_app id rfl rfl)
        exact hmatched.of_net rfl fun q g _ hposted =>
          if_neg fun hq => hposted poll _ hthread hq.2
      · cases h

/-- For the protocol, a save is a step that stays in the same place. -/
theorem saveAccess_effect {itv : Interval} (h : s.saveAccess p itv = .ok s') :
    StepEffect s (.app p) s' := by
  unfold Cluster.saveAccess at h
  split_ifs at h
  · obtain ⟨⟨saved, record⟩, hsave, h⟩ := bind_ok.mp h
    obtain ⟨lt, nt, rfl⟩ := rmaAnalyzerSaveInterval_eq hsave
    obtain rfl := Except.ok.inj h
    exact .setProc rfl rfl (.of_app id rfl rfl)
  · obtain rfl := Except.ok.inj h
    exact ⟨fun _ _ => rfl, rfl, fun _ _ _ _ => rfl, .of_app id rfl rfl⟩

theorem clearNotif_effect {notifId : Int} (h : s.clearNotif p notifId = .ok s') :
    StepEffect s (.app p) s' := by
  obtain ⟨record, hclear, h⟩ := bind_ok.mp h
  obtain ⟨lt, nt, rfl, -⟩ := rmaAnalyzerClearFromNotifId_eq hclear
  obtain rfl := Except.ok.inj h
  exact .setProc rfl rfl (.of_app id rfl rfl)

end Step

/-! ## One call at a time -/

namespace WindowsProcess

variable {x : WindowsProcess n m} {i j : Fin m} {e : ProtocolEvent n} {y : Process n}

@[simp] theorem app_write_self : (x.write i y).app i = y.app := Function.update_self ..

@[simp] theorem record_write_self : (x.write i y).record i = y.record := Function.update_self ..

theorem app_write_of_ne (h : j ≠ i) : (x.write i y).app j = x.app j := Function.update_of_ne h ..

theorem record_write_of_ne (h : j ≠ i) : (x.write i y).record j = x.record j :=
  Function.update_of_ne h ..

theorem view_write_self (h : y.filterWindow = x.filterWindow) : (x.write i y).view i = y := by
  simp only [view, write, Function.update_self, ← h]

theorem view_write_of_ne (h : j ≠ i) :
    (x.write i y).view j = { x.view j with nextObject := y.nextObject } := by
  simp only [view, write, Function.update_of_ne h]

@[simp] theorem closings_write : (x.write i y).closings = x.closings := rfl

@[simp] theorem app_before : (x.before i e).app = x.app := by
  cases e <;> rfl

@[simp] theorem record_before : (x.before i e).record = x.record := by
  cases e <;> rfl

@[simp] theorem iter_before : (x.before i e).iter = x.iter := by
  cases e <;> rfl

@[simp] theorem view_before : (x.before i e).view j = x.view j := by
  cases e <;> rfl

theorem closings_before_of_ne (h : e ≠ .closeEpoch e.process) :
    (x.before i e).closings = x.closings := by
  cases e with
  | closeEpoch p => exact absurd rfl h
  | _ => rfl

/-- The application thread is in one call at a time, its rounds of reductions are the epochs it has
started to end, and the last is the one it is in. -/
structure OneCall (x : WindowsProcess n m) : Prop where
  single : ∀ i j, i ≠ j → ¬ (x.app i).Idle → (x.app j).Idle
  visiting : x.iter.isSome = true → ∀ i, (x.app i).Idle
  reduces : ∀ i, (x.app i).Reduces → ∃ cl, x.closings = cl ++ [i]
  open_ : ∀ i, (x.app i).InBody → x.closings.count i + 1 = (x.record i).countEpoch
  closed : ∀ i, ¬ (x.app i).InBody → x.closings.count i = (x.record i).countEpoch

theorem count_before_of_ne (h : j ≠ i) :
    (x.before i e).closings.count j = x.closings.count j := by
  cases e with
  | closeEpoch p =>
      change (x.closings ++ [i]).count j = _
      have hnot : j ∉ [i] := by simpa using h
      rw [List.count_append, List.count_eq_zero_of_not_mem hnot, Nat.add_zero]
  | _ => rfl

/-- A process that steps into a call was free or in this call before, and is in no other one. -/
theorem OneCall.idle_of_step (hx : OneCall x) (hfree : e.Begins → x.Free)
    (hcall : CallStep e (x.view i) y) (hy : ¬ y.app.Idle) :
    x.iter.isSome ≠ true ∧ ∀ j, j ≠ i → (x.app j).Idle := by
  have hbegins : e.Begins → x.iter.isSome ≠ true ∧ ∀ j, j ≠ i → (x.app j).Idle := by
    intro he
    obtain ⟨hidle, hiter⟩ := hfree he
    refine ⟨?_, fun j _ => hidle j⟩
    rw [Option.isNone_iff_eq_none.mp hiter]
    exact Bool.false_ne_true
  cases hcall with
  | opens he _ happ =>
      rw [happ] at hy
      exact absurd trivial hy
  | sends c dst he => exact hbegins (he ▸ trivial)
  | closes he => exact hbegins (he ▸ trivial)
  | goesOn _ _ _ hidle =>
      have hi : ¬ (x.app i).Idle := fun h => hy (hidle h)
      exact ⟨fun hiter => hi (hx.visiting hiter i), fun j hj => hx.single i j (Ne.symm hj) hi⟩

/-- A step of the process on a window keeps it that way. -/
theorem OneCall.step (hx : OneCall x) (hfree : e.Begins → x.Free)
    (hcall : CallStep e (x.view i) y) : OneCall ((x.before i e).write i y) := by
  have hother : ∀ {j}, j ≠ i → ((x.before i e).write i y).app j = x.app j := by
    intro j hj
    rw [app_write_of_ne hj, app_before]
  have hrecord : ∀ {j}, j ≠ i → ((x.before i e).write i y).record j = x.record j := by
    intro j hj
    rw [record_write_of_ne hj, record_before]
  have hcount : ∀ {j}, j ≠ i → ((x.before i e).write i y).closings.count j = x.closings.count j :=
    count_before_of_ne
  have hsame : ¬ e.Begins → ((x.before i e).write i y).closings = x.closings := by
    intro he
    exact closings_before_of_ne fun h => he (h ▸ trivial)
  constructor
  · intro j k hjk hj
    by_cases hji : j = i
    · subst hji
      rw [app_write_self] at hj
      rw [hother (Ne.symm hjk)]
      exact (hx.idle_of_step hfree hcall hj).2 k (Ne.symm hjk)
    · rw [hother hji] at hj
      by_cases hki : k = i
      · subst hki
        rw [app_write_self]
        by_contra hy
        exact hj ((hx.idle_of_step hfree hcall hy).2 j hji)
      · rw [hother hki]
        exact hx.single j k hjk hj
  · intro hiter j
    change (x.before i e).iter.isSome = true at hiter
    rw [iter_before] at hiter
    by_cases hji : j = i
    · subst hji
      rw [app_write_self]
      by_contra hy
      exact (hx.idle_of_step hfree hcall hy).1 hiter
    · rw [hother hji]
      exact hx.visiting hiter j
  · intro j hj
    by_cases hji : j = i
    · subst hji
      rw [app_write_self] at hj
      cases hcall with
      | opens he _ happ =>
          rw [happ] at hj
          exact hj.elim
      | sends c dst he _ happ =>
          rw [happ] at hj
          exact hj.elim
      | closes he =>
          use x.closings
          rw [he]
          rfl
      | goesOn he _ _ _ hreduces =>
          rw [hsame he]
          exact hx.reduces j (hreduces hj)
    · rw [hother hji] at hj
      have he : ¬ e.Begins := fun he => hj.not_idle ((hfree he).1 j)
      rw [hsame he]
      exact hx.reduces j hj
  · intro j hj
    by_cases hji : j = i
    · subst hji
      rw [app_write_self] at hj
      rw [record_write_self]
      cases hcall with
      | opens he happ _ hepoch =>
          have hclosed := hx.closed j (by rw [show x.app j = _ from happ]; exact id)
          rw [hepoch, closings_write, closings_before_of_ne (by rw [he]; simp), hclosed]
          rfl
      | sends c dst he happ _ hepoch =>
          have hopen := hx.open_ j (by rw [show x.app j = _ from happ]; trivial)
          rw [hepoch, closings_write, closings_before_of_ne (by rw [he]; simp), hopen]
          rfl
      | closes he _ happ =>
          rw [happ] at hj
          exact hj.elim
      | goesOn he hepoch hbody =>
          rw [hsame he, hepoch]
          exact hx.open_ j (hbody.mp hj)
    · rw [hother hji] at hj
      rw [hcount hji, hrecord hji]
      exact hx.open_ j hj
  · intro j hj
    by_cases hji : j = i
    · subst hji
      rw [app_write_self] at hj
      rw [record_write_self]
      cases hcall with
      | opens he _ happ =>
          rw [happ] at hj
          exact absurd trivial hj
      | sends c dst he _ happ =>
          rw [happ] at hj
          exact absurd trivial hj
      | closes he happ _ hepoch =>
          have hopen := hx.open_ j (by rw [show x.app j = _ from happ]; trivial)
          rw [hepoch, closings_write, he]
          change (x.closings ++ [j]).count j = (x.record j).countEpoch
          rw [List.count_append, List.count_singleton_self, hopen]
      | goesOn he hepoch hbody =>
          rw [hsame he, hepoch]
          exact hx.closed j (fun h => hj (hbody.mpr h))
    · rw [hother hji] at hj
      rw [hcount hji, hrecord hji]
      exact hx.closed j hj

/-- It begins, or goes on with, a load or store, and is in no call. -/
theorem OneCall.setIter (hx : OneCall x) {iter : Option (MemoryAccess × List (Fin m))}
    (h : iter.isSome = true → ∀ i, (x.app i).Idle) : OneCall { x with iter := iter } :=
  { hx with visiting := h }

@[simp] theorem write_view : x.write i (x.view i) = x := by
  simp only [write, view, Function.update_eq_self]

/-- What a process has done stays done. -/
structure Goes (x x' : WindowsProcess n m) : Prop where
  oneCall : x.OneCall → x'.OneCall
  closings : x.closings <+: x'.closings
  countEpoch : ∀ i, (x.record i).countEpoch ≤ (x'.record i).countEpoch

theorem Goes.refl (x : WindowsProcess n m) : Goes x x := ⟨id, List.prefix_rfl, fun _ => le_rfl⟩

/-- A step of the process on a window. -/
theorem Goes.step (hfree : e.Begins → x.Free) (hcall : CallStep e (x.view i) y) :
    Goes x ((x.before i e).write i y) := by
  refine ⟨fun hx => hx.step hfree hcall, ?_, fun j => ?_⟩
  · rw [closings_write]
    cases e with
    | closeEpoch p => exact List.prefix_append x.closings [i]
    | _ => exact List.prefix_rfl
  · by_cases hj : j = i
    · subst hj
      rw [record_write_self]
      cases hcall with
      | opens _ _ _ hepoch => exact hepoch ▸ Nat.le_succ _
      | sends _ _ _ _ _ hepoch => exact hepoch.ge
      | closes _ _ _ hepoch => exact hepoch.ge
      | goesOn _ hepoch => exact hepoch.ge
    · rw [record_write_of_ne hj, record_before]

theorem Goes.setIter {iter : Option (MemoryAccess × List (Fin m))} {x' : WindowsProcess n m}
    (hx : Goes x x') (h : x.OneCall → iter.isSome = true → ∀ i, (x'.app i).Idle) :
    Goes x { x' with iter := iter } :=
  ⟨fun hone => (hx.oneCall hone).setIter (h hone), hx.closings, hx.countEpoch⟩

end WindowsProcess

/-! ## Tags -/

namespace SharedWindows

/-- The tags of the range of a window. -/
def tags (w : SharedWindows n m) (i : Fin m) : Set Int :=
  {tag | ∃ k : Nat, (k : Int) < rmaAnalyzerMaxEpochNumber ∧ tag = w.mpiTag i + k}

/-- No two windows have a tag in common. -/
def OwnTags (w : SharedWindows n m) : Prop := ∀ i j, i ≠ j → Disjoint (w.tags i) (w.tags j)

/-- Windows in different slots of the table have tags of their own. -/
theorem ownTags_of_slots {w : SharedWindows n m} {slot : Fin m → Nat}
    (hslot : ∀ i, w.mpiTag i = tagOfSlot (slot i)) (hinj : Function.Injective slot) :
    w.OwnTags := by
  intro i j hij
  rw [Set.disjoint_left]
  rintro tag ⟨k, hk, rfl⟩ ⟨l, hl, htag⟩
  rw [hslot, hslot, tagOfSlot, tagOfSlot] at htag
  unfold rmaAnalyzerMaxEpochNumber at *
  have hslots : slot i = slot j := by omega
  exact hij (hinj hslots)

end SharedWindows

/-! ## The run of a window -/

/-- The load or store, as an event on one window. -/
def MemoryAccess.event (a : MemoryAccess) (p : Fin n) : SystemEvent n :=
  .access p a.address a.size a.accessType a.fileline a.filename

/-- What an event is on one window. -/
def projectEvent (s : WindowsCluster n m) (i : Fin m) : WindowsEvent n m → List (SystemEvent n)
  | .protocol j e => if j = i then [.protocol e] else []
  | .access _ _ => []
  | .visit p =>
      match (s.proc p).iter with
      | some (a, j :: _) => if j = i then [a.event p] else []
      | _ => []
  | .clear j p notifId => if j = i then [.clear p notifId] else []

/-- What a run is on one window. -/
def projectRun (i : Fin m) (s : WindowsCluster n m) :
    List (WindowsEvent n m) → List (SystemEvent n)
  | [] => []
  | e :: es =>
      projectEvent s i e ++
        match programStep s e with
        | .ok s' => projectRun i s' es
        | .error _ => []

theorem projectRun_snoc {i : Fin m} {s t : WindowsCluster n m} {es : List (WindowsEvent n m)}
    (e : WindowsEvent n m) (h : run programStep s es = .ok t) :
    projectRun i s (es ++ [e]) = projectRun i s es ++ projectEvent t i e := by
  induction es generalizing s with
  | nil =>
      obtain rfl := Except.ok.inj h
      rw [List.nil_append, projectRun, projectRun]
      split <;> simp [projectRun]
  | cons f es ih =>
      obtain ⟨u, hu, hrun⟩ := run_cons_ok.mp h
      simp only [List.cons_append, projectRun, hu, ih hrun, List.append_assoc]

/-! ## The simulation -/

/-- Up to the addresses of objects, what there is of each window is what its own run has reached;
the reductions of a round are those of the epoch that this round ends. -/
structure Projects (w : SharedWindows n m) (order : List (Fin m)) (s : WindowsCluster n m)
    (c : Fin m → Cluster n) : Prop where
  alike : ∀ i r, (s.view i r).Alike id (w.tags i) (c i)
  contrib : ∀ cl i, cl ++ [i] <+: order →
    s.contrib (cl.length + 1) = (c i).contrib (cl.count i + 1)

section Simulation

variable {w : SharedWindows n m} {order : List (Fin m)} {s s' : WindowsCluster n m}
  {c : Fin m → Cluster n} {i : Fin m} {p : Fin n}

@[simp] theorem proc_before_self (e : ProtocolEvent n) :
    (s.before i e).proc e.process = (s.proc e.process).before i e := Function.update_self ..

theorem proc_before_of_ne {e : ProtocolEvent n} (h : p ≠ e.process) :
    (s.before i e).proc p = s.proc p := Function.update_of_ne h ..

@[simp] theorem proc_setIter_self (iter : Option (MemoryAccess × List (Fin m))) :
    (s.setIter p iter).proc p = { s.proc p with iter := iter } := Function.update_self ..

theorem proc_setIter_of_ne {iter : Option (MemoryAccess × List (Fin m))} {q : Fin n} (h : q ≠ p) :
    (s.setIter p iter).proc q = s.proc q := Function.update_of_ne h ..

/-- In the common order, a window is closed once for each of its epochs. -/
theorem eq_of_count_eq {cl cl' : List (Fin m)} (h : cl ++ [i] <+: order)
    (h' : cl' ++ [i] <+: order) (hcount : cl.count i = cl'.count i) : cl = cl' := by
  have hle : ∀ {xs ys : List (Fin m)}, xs ++ [i] <+: order → ys ++ [i] <+: order →
      xs.count i = ys.count i → xs.length ≤ ys.length → xs = ys := by
    intro xs ys hx hy hxy hlen
    have hpre : xs ++ [i] <+: ys ++ [i] :=
      List.prefix_of_prefix_length_le hx hy (by simpa using hlen)
    rcases List.prefix_concat_iff.mp hpre with heq | hin
    · exact (List.append_inj' heq rfl).1
    · have hsub := hin.sublist.count_le i
      rw [List.count_append, List.count_singleton_self, hxy] at hsub
      exact absurd hsub (Nat.not_succ_le_self _)
  rcases Nat.le_total cl.length cl'.length with hlen | hlen
  · exact hle h h' hcount hlen
  · exact (hle h' h hcount.symm hlen).symm

theorem Projects.epoch_eq (hs : Projects w order s c) (i : Fin m) (p : Fin n) :
    s.epoch i p = (c i).epoch p := ((hs.alike i 0).proc p).countEpoch

/-- Writing back a step of one window, which uses no tag of the others. -/
theorem Projects.write (hs : Projects w order s c) {t t' : Cluster n}
    (hstep : StepAlike id (w.tags i) (s.view i (s.round p)) (c i) p t t')
    (hfilter : ∀ q, (t.proc q).filterWindow = (s.proc q).filterWindow)
    (hnet : ∀ j, j ≠ i → ∀ q, ∀ tag ∈ w.tags j, t.net q tag = s.net q tag)
    (hround : ((s.proc p).app i).Reduces → ∃ cl, (s.proc p).closings = cl ++ [i] ∧
      cl ++ [i] <+: order ∧ cl.count i + 1 = s.epoch i p) :
    Projects w order (s.write i p t) (Function.update c i t') where
  alike j r := by
    by_cases hj : j = i
    · subst hj
      rw [Function.update_self]
      refine ⟨fun q => ?_, hstep.alike.net, fun q u k => ?_, fun u k => ?_⟩
      · change (((s.proc q).write j (t.proc q)).view j).Alike id _
        rw [WindowsProcess.view_write_self (hfilter q)]
        exact hstep.alike.proc q
      · change Multiset.map id (Function.update s.sent j t.sent j q u k) = _
        rw [Function.update_self]
        exact hstep.alike.sent q u k
      · change Multiset.map id (Function.update s.passed j t.passed j u k) = _
        rw [Function.update_self]
        exact hstep.alike.passed u k
    · have hold := hs.alike j r
      rw [Function.update_of_ne hj]
      refine ⟨fun q => ?_, fun q tag htag => ?_, fun q u k => ?_, fun u k => ?_⟩
      · have hx := hold.proc q
        change (((s.proc q).write i (t.proc q)).view j).Alike id _
        rw [WindowsProcess.view_write_of_ne hj]
        exact ⟨hx.record, hx.filterWindow, hx.app, hx.thread, hx.tmp⟩
      · change Multiset.map id (t.net q tag) = _
        rw [hnet j hj q tag htag]
        exact hold.net q tag htag
      · change Multiset.map id (Function.update s.sent i t.sent j q u k) = _
        rw [Function.update_of_ne hj]
        exact hold.sent q u k
      · change Multiset.map id (Function.update s.passed i t.passed j u k) = _
        rw [Function.update_of_ne hj]
        exact hold.passed u k
  contrib cl j hcl := by
    have hold := hs.contrib cl j hcl
    change Function.update s.contrib (s.round p) (t.contrib (s.epoch i p)) (cl.length + 1) = _
    rcases hstep.contrib with ⟨ht, ht'⟩ | ⟨root, value, happ, ht, ht'⟩
    · have hsame : t.contrib (s.epoch i p) = s.contrib (s.round p) := by
        rw [ht]
        rfl
      rw [hsame, Function.update_eq_self, hold]
      by_cases hj : j = i
      · subst hj
        rw [Function.update_self, ht']
      · rw [Function.update_of_ne hj]
    · have hreduces : ((s.proc p).app i).Reduces := by
        rw [show (s.proc p).app i = .reducing root from happ]
        trivial
      obtain ⟨cl₀, hclosings, hpre, hepoch⟩ := hround hreduces
      have hlast : s.round p = cl₀.length + 1 := by
        rw [WindowsCluster.round, hclosings, List.length_append, List.length_singleton]
      have hepoch' : (c i).epoch p = cl₀.count i + 1 := by
        rw [hepoch, hs.epoch_eq]
      by_cases hlen : cl.length = cl₀.length
      · -- The round of this contribution.
        have heq : cl ++ [j] = cl₀ ++ [i] := by
          apply List.IsPrefix.eq_of_length _ (by simp [hlen])
          exact List.prefix_of_prefix_length_le hcl hpre (by simp [hlen])
        obtain ⟨rfl, hji⟩ := List.append_inj' heq rfl
        obtain rfl : j = i := by simpa using hji
        rw [hlast, Function.update_self, Function.update_self, ht, ht']
        funext root' q
        unfold Cluster.contributing
        rw [hepoch']
        change (if s.epoch j p = s.epoch j p ∧ _ then _ else s.contrib (s.round p) root' q) = _
        rw [hlast, hold]
        simp only [true_and]
      · rw [hlast, Function.update_of_ne (by omega), hold]
        by_cases hj : j = i
        · subst hj
          rw [Function.update_self, ht']
          funext root' q
          have hne : ¬ cl.count j + 1 = (c j).epoch p := by
            rw [hepoch']
            intro hcount
            exact hlen (congrArg List.length (eq_of_count_eq hcl hpre (by omega)))
          exact (if_neg fun h => hne h.1).symm
        · rw [Function.update_of_ne hj]

/-- The tags a process uses on a window are those of its range. -/
theorem Projects.tag_mem (hs : Projects w order s c) (hinv : Inv (w.window i) (c i))
    (hepoch : (s.epoch i p : Int) < rmaAnalyzerMaxEpochNumber) :
    ((s.proc p).record i).currentTag ∈ w.tags i ∧
      ∀ poll req, (s.proc p).thread i = .polling poll req →
        req.tag = ((s.proc p).record i).currentTag := by
  have hx := (hs.alike i 0).proc p
  have htag : ((s.proc p).record i).currentTag = ((c i).proc p).record.currentTag :=
    hx.currentTag
  have hmpiTag := (hinv.ofProc p).mpiTag
  refine ⟨⟨s.epoch i p, hepoch, ?_⟩, fun poll req hth => ?_⟩
  · rw [htag, RmaAnalyzerState.currentTag, hmpiTag, hs.epoch_eq]
    rfl
  · have hthread : ThreadPc.Alike id (.polling poll req) ((c i).proc p).thread := hth ▸ hx.thread
    have hposted := (hinv.ofProc p).tag
    generalize ((c i).proc p).thread = th at hthread hposted
    rw [htag]
    cases hthread with
    | waiting => exact hposted _ _ rfl
    | @holding poll tag itv itv' => exact hposted poll ⟨tag, some itv'⟩ rfl

/-- The messages of a window are those of its own run. -/
theorem Projects.net_eq (hs : Projects w order s c) {tag : Int} (htag : tag ∈ w.tags i)
    (q : Fin n) : s.net q tag = (c i).net q tag := by
  have hnet := (hs.alike i 0).net q tag htag
  rwa [Multiset.map_id, Multiset.map_id] at hnet

/-- Nothing of the windows is new. -/
theorem Projects.of_view (hs : Projects w order s c)
    (hview : ∀ j q, (s'.proc q).view j = (s.proc q).view j) (hnet : s'.net = s.net)
    (hcontrib : s'.contrib = s.contrib) (hsent : s'.sent = s.sent)
    (hpassed : s'.passed = s.passed) : Projects w order s' c := by
  refine ⟨fun j r => ?_, fun cl j hcl => ?_⟩
  · have hsame : s'.view j r = s.view j r := by
      simp only [WindowsCluster.view, hview, hnet, hcontrib, hsent, hpassed]
    rw [hsame]
    exact hs.alike j r
  · rw [hcontrib]
    exact hs.contrib cl j hcl

theorem Projects.before (hs : Projects w order s c) (i : Fin m) (e : ProtocolEvent n) :
    Projects w order (s.before i e) c := by
  refine hs.of_view (fun j q => ?_) rfl rfl rfl rfl
  by_cases hq : q = e.process
  · rw [hq, proc_before_self, WindowsProcess.view_before]
  · rw [proc_before_of_ne hq]

theorem Projects.setIter (hs : Projects w order s c) (p : Fin n)
    (iter : Option (MemoryAccess × List (Fin m))) : Projects w order (s.setIter p iter) c := by
  refine hs.of_view (fun j q => ?_) rfl rfl rfl rfl
  by_cases hq : q = p
  · rw [hq, proc_setIter_self]
    rfl
  · rw [proc_setIter_of_ne hq]

/-- A step uses no tag of another window. -/
theorem Projects.net_frame (hs : Projects w order s c) (htags : w.OwnTags)
    (hinv : Inv (w.window i) (c i)) {e : ProtocolEvent n} {r : Nat} {t : Cluster n}
    (hepoch : (s.epoch i e.process : Int) < rmaAnalyzerMaxEpochNumber)
    (heffect : StepEffect (s.view i r) e t) :
    ∀ j, j ≠ i → ∀ q, ∀ tag ∈ w.tags j, t.net q tag = s.net q tag := by
  intro j hj q tag htag
  obtain ⟨hmem, hposted⟩ := hs.tag_mem hinv hepoch
  have hne : tag ≠ ((s.proc e.process).record i).currentTag := by
    intro heq
    exact Set.disjoint_left.mp (htags j i hj) htag (heq ▸ hmem)
  refine heffect.net q tag hne fun poll req hth => ?_
  rw [hposted poll req hth]
  exact hne

/-- A step of the protocol on a window is one of the window by itself. -/
theorem Projects.protocolStep (hs : Projects w order s c) (htags : w.OwnTags)
    (hinv : Inv (w.window i) (c i)) {e : ProtocolEvent n}
    (hepoch : (s.epoch i e.process : Int) < rmaAnalyzerMaxEpochNumber)
    (hone : (s.proc e.process).OneCall) (hfree : e.Begins → (s.proc e.process).Free)
    (hclosings : (s.proc e.process).closings <+: order) :
    EndAlike id
      (fun t t' => Projects w order ((s.before i e).write i e.process t) (Function.update c i t'))
      (ParcoachRma.protocolStep ((s.before i e).view i ((s.before i e).round e.process)) e)
      (ParcoachRma.protocolStep (c i) e) := by
  have hs₁ := hs.before i e
  have hepoch₁ : (s.before i e).epoch i e.process = s.epoch i e.process := by
    rw [WindowsCluster.epoch, proc_before_self, WindowsProcess.record_before, WindowsCluster.epoch]
  -- The rounds of a process in its reductions.
  have hround : ((s.proc e.process).app i).Reduces → ¬ e.Begins →
      ∃ cl, ((s.before i e).proc e.process).closings = cl ++ [i] ∧ cl ++ [i] <+: order ∧
        cl.count i + 1 = s.epoch i e.process := by
    intro hreduces hbegins
    obtain ⟨cl, hcl⟩ := hone.reduces i hreduces
    have hclosed := hone.closed i hreduces.not_inBody
    have hne : e ≠ .closeEpoch e.process := by
      intro he
      rw [he] at hbegins
      exact hbegins trivial
    refine ⟨cl, ?_, hcl ▸ hclosings, ?_⟩
    · rw [proc_before_self, WindowsProcess.closings_before_of_ne hne, hcl]
    · rw [WindowsCluster.epoch, ← hclosed, hcl, List.count_append, List.count_singleton_self]
  have hstep := protocolStep_alike keepsVerdicts_id
    (hs₁.alike i ((s.before i e).round e.process)) (ProtocolEvent.Alike.refl e) ?_ ?_
  · refine hstep.mono_of_eq fun t t' ht hst => ?_
    have heffect := protocolStep_effect ht
    refine hs₁.write hst (fun q => ?_) ?_ fun hreduces => ?_
    · by_cases hq : q = e.process
      · rw [hq, heffect.filterWindow]
        rfl
      · rw [heffect.others q hq]
        rfl
    · exact hs₁.net_frame htags hinv (hepoch₁ ▸ hepoch) heffect
    · rw [proc_before_self, WindowsProcess.app_before] at hreduces
      rw [hepoch₁]
      exact hround hreduces fun hbegins => hreduces.not_idle ((hfree hbegins).1 i)
  · rintro p itv itv' poll tag rfl heq hth
    obtain ⟨-, rfl⟩ := ProtocolEvent.deliver.inj heq
    obtain ⟨hmem, hposted⟩ := hs₁.tag_mem hinv (hepoch₁ ▸ hepoch)
    have htag : tag ∈ w.tags i := by
      have heq : tag = _ := hposted poll ⟨tag, none⟩ hth
      rw [heq]
      exact hmem
    change itv ∈ (s.before i (.deliver p itv)).net p tag ↔ _
    rw [hs₁.net_eq htag]
  · rintro p root rfl happ
    have happ' : (s.proc p).app i = .waiting root := by
      change ((s.before i (.app p)).proc p).app i = _ at happ
      rwa [show (s.before i (.app p)).proc p = _ from proc_before_self (.app p),
        WindowsProcess.app_before] at happ
    obtain ⟨cl, hcl, hpre, hcount⟩ := hround (by
      change ((s.proc p).app i).Reduces
      rw [happ']
      trivial) id
    have hcontrib := hs₁.contrib cl i hpre
    change (s.before i (.app p)).contrib ((s.before i (.app p)).round p) root = _
    rw [WindowsCluster.round, show ((s.before i (.app p)).proc p).closings = _ from hcl,
      List.length_append, List.length_singleton, hcontrib, hcount, hs.epoch_eq]
    rfl

/-- A step on a window that is in no call of the protocol. -/
theorem Projects.idleStep (hs : Projects w order s c) (htags : w.OwnTags)
    (hinv : Inv (w.window i) (c i)) (hepoch : (s.epoch i p : Int) < rmaAnalyzerMaxEpochNumber)
    (hidle : ((s.proc p).app i).Idle) {x y : Except Fault (Cluster n)}
    (hstep : EndAlike id (StepAlike id (w.tags i) (s.view i (s.round p)) (c i) p) x y)
    (heffect : ∀ t, x = .ok t → StepEffect (s.view i (s.round p)) (.app p) t) :
    EndAlike id (fun t t' => Projects w order (s.write i p t) (Function.update c i t')) x y := by
  refine hstep.mono_of_eq fun t t' ht hst => ?_
  have heffect := heffect t ht
  refine hs.write hst (fun q => ?_) ?_ fun hreduces => absurd hidle hreduces.not_idle
  · by_cases hq : q = p
    · rw [hq]
      exact heffect.filterWindow
    · rw [heffect.others q hq]
      rfl
  · exact hs.net_frame (e := .app p) htags hinv hepoch heffect

/-- What a step of the system is for the windows. -/
inductive ActsOn (w : SharedWindows n m) (order : List (Fin m)) (s : WindowsCluster n m)
    (c : Fin m → Cluster n) (e : WindowsEvent n m) : Prop
  | window (i : Fin m) (e' : SystemEvent n) :
      (∀ j, projectEvent s j e = if i = j then [e'] else []) →
      EndAlike id (fun s' t => Projects w order s' (Function.update c i t)) (programStep s e)
        (systemStep (c i) e') → ActsOn w order s c e
  | nothing (s' : WindowsCluster n m) : (∀ j, projectEvent s j e = []) →
      programStep s e = .ok s' → Projects w order s' c → ActsOn w order s c e
  | refused : programStep s e = .error .notEnabled → ActsOn w order s c e

theorem Projects.actsOn (hs : Projects w order s c) (htags : w.OwnTags)
    (hinv : ∀ i, Inv (w.window i) (c i))
    (hepoch : ∀ i p, (s.epoch i p : Int) < rmaAnalyzerMaxEpochNumber)
    (hone : ∀ p, (s.proc p).OneCall) (hclosings : ∀ p, (s.proc p).closings <+: order)
    (e : WindowsEvent n m) : ActsOn w order s c e := by
  have hidle : ∀ {i p}, ((s.proc p).app i).Idle → ((c i).proc p).app.Idle := by
    intro i p h
    exact ((hs.alike i 0).proc p).app.idle_iff.mp h
  cases e with
  | protocol i e =>
      by_cases hfree : e.Begins ∧ ¬ (s.proc e.process).Free
      · exact .refused (if_pos hfree)
      · refine .window i (.protocol e) (fun j => rfl) ?_
        simp only [programStep, if_neg hfree, systemStep]
        rw [not_and_not_right] at hfree
        have hstep := hs.protocolStep htags (hinv i) (hepoch i e.process) (hone e.process) hfree
          (hclosings e.process)
        rw [← bind_pure (ParcoachRma.protocolStep (c i) e)]
        exact hstep.bind fun t t' ht => .ok ht
  | access p a =>
      by_cases hfree : (s.proc p).Free
      · exact .nothing _ (fun j => rfl) (if_pos hfree) (hs.setIter p _)
      · exact .refused (if_neg hfree)
  | visit p =>
      rcases hiter : (s.proc p).iter with _ | ⟨a, _ | ⟨i, rest⟩⟩
      · apply ActsOn.refused
        simp only [programStep, hiter]
      · refine .nothing (s.setIter p none) (fun j => ?_) ?_ (hs.setIter p none)
        · simp only [projectEvent, hiter]
        · simp only [programStep, hiter]
      · have hin : ((s.proc p).app i).Idle := (hone p).visiting (by rw [hiter]; rfl) i
        refine .window i (a.event p) (fun j => ?_) ?_
        · simp only [projectEvent, hiter]
        · simp only [programStep, hiter, MemoryAccess.event, systemStep, if_pos (hidle hin)]
          have hsave := hs.idleStep htags (hinv i) (hepoch i p) hin
            ((hs.alike i (s.round p)).saveAccess keepsVerdicts_id p (rfl : id a.itv = id a.itv))
            fun t ht => saveAccess_effect ht
          rw [← bind_pure ((c i).saveAccess p _)]
          exact hsave.bind fun t t' ht => .ok (ht.setIter p _)
  | clear i p notifId =>
      by_cases hfree : (s.proc p).Free
      · have hin := hfree.1 i
        refine .window i (.clear p notifId) (fun j => rfl) ?_
        simp only [programStep, if_pos hfree, systemStep, if_pos (hidle hin)]
        have hclear := hs.idleStep htags (hinv i) (hepoch i p) hin
          ((hs.alike i (s.round p)).clearNotif keepsVerdicts_id p notifId)
          fun t ht => clearNotif_effect ht
        rw [← bind_pure ((c i).clearNotif p notifId)]
        exact hclear.bind fun t t' ht => .ok ht
      · exact .refused (if_neg hfree)

/-- The processes after a step of one of them on a window. -/
theorem goes_write {r : Nat} {e : ProtocolEvent n} {t : Cluster n}
    (hfree : e.Begins → (s.proc e.process).Free)
    (heffect : StepEffect ((s.before i e).view i r) e t) (q : Fin n) :
    (s.proc q).Goes (((s.before i e).write i e.process t).proc q) := by
  change (s.proc q).Goes (((s.before i e).proc q).write i (t.proc q))
  by_cases hq : q = e.process
  · have hcall := heffect.call
    change CallStep e (((s.before i e).proc e.process).view i) _ at hcall
    rw [proc_before_self, WindowsProcess.view_before] at hcall
    rw [hq, proc_before_self]
    exact .step hfree hcall
  · rw [heffect.others q hq]
    change (s.proc q).Goes (((s.before i e).proc q).write i (((s.before i e).proc q).view i))
    rw [WindowsProcess.write_view, proc_before_of_ne hq]
    exact .refl _

theorem goes_idleStep {r : Nat} {t : Cluster n} (heffect : StepEffect (s.view i r) (.app p) t)
    (q : Fin n) : (s.proc q).Goes ((s.write i p t).proc q) := by
  have hsame : s.before i (.app p) = s := by
    change { s with proc := Function.update s.proc p (s.proc p) } = s
    rw [Function.update_eq_self]
  rw [← hsame] at heffect
  have hgoes := goes_write (s := s) (e := .app p) (fun h => h.elim) heffect q
  rwa [hsame] at hgoes

theorem goes_setIter {iter : Option (MemoryAccess × List (Fin m))}
    (hs : ∀ q, (s.proc q).Goes (s'.proc q))
    (h : (s.proc p).OneCall → iter.isSome = true → ∀ i, ((s'.proc p).app i).Idle) (q : Fin n) :
    (s.proc q).Goes ((s'.setIter p iter).proc q) := by
  by_cases hq : q = p
  · subst hq
    rw [proc_setIter_self]
    exact (hs q).setIter h
  · rw [proc_setIter_of_ne hq]
    exact hs q

theorem goes_programStep {e : WindowsEvent n m} (h : programStep s e = .ok s') (q : Fin n) :
    (s.proc q).Goes (s'.proc q) := by
  cases e with
  | protocol i e =>
      simp only [programStep] at h
      split_ifs at h with hfree
      rw [not_and_not_right] at hfree
      obtain ⟨t, ht, h⟩ := bind_ok.mp h
      obtain rfl := Except.ok.inj h
      exact goes_write hfree (protocolStep_effect ht) q
  | access p a =>
      simp only [programStep] at h
      split_ifs at h with hfree
      obtain rfl := Except.ok.inj h
      exact goes_setIter (fun q => .refl _) (fun _ _ => hfree.1) q
  | visit p =>
      rcases hiter : (s.proc p).iter with _ | ⟨a, _ | ⟨i, rest⟩⟩
      · simp only [programStep, hiter] at h
        cases h
      · simp only [programStep, hiter] at h
        obtain rfl := Except.ok.inj h
        exact goes_setIter (fun q => .refl _) (fun _ hiter => by cases hiter) q
      · simp only [programStep, hiter] at h
        obtain ⟨t, ht, h⟩ := bind_ok.mp h
        obtain rfl := Except.ok.inj h
        have hgoes := goes_idleStep (saveAccess_effect ht)
        refine goes_setIter hgoes (fun hone _ j => ?_) q
        -- A process that visits the windows goes on with it.
        refine ((hgoes p).oneCall hone).visiting ?_ j
        change (s.proc p).iter.isSome = true
        rw [hiter]
        rfl
  | clear i p notifId =>
      simp only [programStep] at h
      split_ifs at h
      obtain ⟨t, ht, h⟩ := bind_ok.mp h
      obtain rfl := Except.ok.inj h
      exact goes_idleStep (clearNotif_effect ht) q

/-! ## Runs -/

theorem oneCall_init (p : Fin n) : ((WindowsCluster.init w).proc p).OneCall where
  single _ _ _ _ := trivial
  visiting _ _ := trivial
  reduces _ h := h.elim
  open_ _ h := h.elim
  closed _ _ := rfl

theorem projects_init (w : SharedWindows n m) (order : List (Fin m)) :
    Projects w order (WindowsCluster.init w) fun i => Cluster.init (w.window i) where
  alike _ _ := ⟨fun _ => ⟨rfl, rfl, .same _, .absent, rfl⟩, fun _ _ _ => rfl, fun _ _ _ => rfl,
    fun _ _ => rfl⟩
  contrib _ _ _ := rfl

theorem oneCall_run {es : List (WindowsEvent n m)}
    (h : run programStep (WindowsCluster.init w) es = .ok s) (p : Fin n) : (s.proc p).OneCall :=
  invariant (P := fun s => ∀ p, (s.proc p).OneCall)
    (fun _ _ _ hs hstep p => (goes_programStep hstep p).oneCall (hs p)) oneCall_init h p

/-- By induction on the run, whose states before the last keep to the bounds and the order as
well. -/
theorem projects_run (htags : w.OwnTags) {es : List (WindowsEvent n m)}
    (h : run programStep (WindowsCluster.init w) es = .ok s)
    (hepoch : ∀ i p, (s.epoch i p : Int) < rmaAnalyzerMaxEpochNumber)
    (hclosings : ∀ p, (s.proc p).closings <+: order) :
    ∃ c, (∀ i, run systemStep (Cluster.init (w.window i))
      (projectRun i (WindowsCluster.init w) es) = .ok (c i)) ∧ Projects w order s c := by
  induction es using List.reverseRecOn generalizing s with
  | nil =>
      obtain rfl := Except.ok.inj h
      exact ⟨_, fun i => rfl, projects_init w order⟩
  | append_singleton es e ih =>
      obtain ⟨t, ht, hstep⟩ := run_snoc_ok.mp h
      have hgoes := goes_programStep hstep
      have hepoch' : ∀ i p, (t.epoch i p : Int) < rmaAnalyzerMaxEpochNumber := by
        intro i p
        exact (Int.ofNat_le.mpr ((hgoes p).countEpoch i)).trans_lt (hepoch i p)
      have hclosings' := fun p => (hgoes p).closings.trans (hclosings p)
      obtain ⟨c, hc, hprojects⟩ := ih ht hepoch' hclosings'
      have hacts := hprojects.actsOn htags (fun i => inv_systemRun (hc i)) hepoch'
        (oneCall_run ht) hclosings' e
      simp only [projectRun_snoc e ht, run_append_ok]
      cases hacts with
      | window i e' hevent hend =>
          rw [hstep] at hend
          obtain ⟨c', hc', hprojects'⟩ := hend.exists_ok
          refine ⟨_, fun j => ⟨c j, hc j, ?_⟩, hprojects'⟩
          rw [hevent]
          split_ifs with hj
          · subst hj
            rw [Function.update_self]
            exact run_cons_ok.mpr ⟨c', hc', rfl⟩
          · rw [Function.update_of_ne (Ne.symm hj)]
            rfl
      | nothing s' hevent hs' hprojects' =>
          obtain rfl := Except.ok.inj (hstep.symm.trans hs')
          refine ⟨c, fun j => ⟨c j, hc j, ?_⟩, hprojects'⟩
          rw [hevent]
          rfl
      | refused hrefused => cases hstep.symm.trans hrefused

/-- What there is of each window, the run of this window by itself has reached, with the same
network under its tags, up to the addresses of objects.  So windows do not disturb each other, if
they have tags of their own and the processes end epochs in one common order. -/
theorem run_projectRun (htags : w.OwnTags) {es : List (WindowsEvent n m)}
    (h : run programStep (WindowsCluster.init w) es = .ok s)
    (hepoch : ∀ i p, (s.epoch i p : Int) < rmaAnalyzerMaxEpochNumber)
    (hclosings : ∀ p, (s.proc p).closings <+: order) (i : Fin m) :
    ∃ c, run systemStep (Cluster.init (w.window i)) (projectRun i (WindowsCluster.init w) es) =
      .ok c ∧ ∀ round, (s.view i round).Alike id (w.tags i) c := by
  obtain ⟨c, hc, hprojects⟩ := projects_run htags h hepoch hclosings
  exact ⟨c i, hc i, hprojects.alike i⟩

/-! ## What a run of the windows does -/

theorem Projects.sent_eq (hs : Projects w order s c) (i : Fin m) : s.sent i = (c i).sent := by
  funext q t k
  have hsent := (hs.alike i 0).sent q t k
  rwa [Multiset.map_id, Multiset.map_id] at hsent

theorem Projects.passed_eq (hs : Projects w order s c) (i : Fin m) :
    s.passed i = (c i).passed := by
  funext t k
  have hpassed := (hs.alike i 0).passed t k
  rwa [Multiset.map_id, Multiset.map_id] at hpassed

theorem Projects.joined (hs : Projects w order s c) {t : Fin n} {k r : Nat}
    (joined : (s.view i r).Joined t k) : (c i).Joined t k := by
  have hx := (hs.alike i r).proc t
  have happ := hx.app
  obtain ⟨hk, hpast | ⟨hnow, hend⟩⟩ := joined
  · exact ⟨hk, .inl (hpast.trans_eq hx.countEpoch)⟩
  · refine ⟨hk, .inr ⟨hnow.trans hx.countEpoch, ?_⟩⟩
    generalize ((s.view i r).proc t).app = app, ((c i).proc t).app = app' at happ hend ⊢
    cases happ with
    | same => exact hend
    | sending => rcases hend with h | h <;> cases h

/-- When the join of the checking thread of an epoch on a window has returned, the thread has passed
on what has been sent to its process on this window in this epoch, and none of it is in flight,
whatever the epochs on the other windows are. -/
theorem passed_eq_sent_of_windowJoined (htags : w.OwnTags) {es : List (WindowsEvent n m)}
    (h : run programStep (WindowsCluster.init w) es = .ok s)
    (hepoch : ∀ i p, (s.epoch i p : Int) < rmaAnalyzerMaxEpochNumber)
    (hclosings : ∀ p, (s.proc p).closings <+: order) {t : Fin n} {k : Nat}
    (joined : (s.view i (s.round t)).Joined t k) :
    s.passed i t k = ∑ q, (s.sent i q t k).map (Interval.rebase (w.base i t)) ∧
      s.net t (w.mpiTag i + k) = 0 := by
  obtain ⟨c, hc, hprojects⟩ := projects_run htags h hepoch hclosings
  have hinv := inv_systemRun (hc i)
  have hsettled := hinv.settled_of_joined (hprojects.joined joined)
  have htransit := Multiset.map_eq_zero.mp hsettled.2
  have htag : w.mpiTag i + k ∈ w.tags i := by
    refine ⟨k, (Int.ofNat_le.mpr ?_).trans_lt (hepoch i t), rfl⟩
    exact joined.2.elim le_of_lt fun h => h.1.le
  constructor
  · rw [hprojects.passed_eq, hprojects.sent_eq]
    exact hsettled.delivered_eq (hinv.conserves t k)
  · rw [hprojects.net_eq htag]
    exact Multiset.le_zero.mp (htransit ▸ Multiset.le_add_right _ _)

/-- What a step reports is a conflict between two different accesses to one window of one process,
both kept by its filter and both of the epoch this process is in on this window. -/
theorem report_conflict_of_windows (htags : w.OwnTags) {es : List (WindowsEvent n m)}
    {e : WindowsEvent n m} {report : String}
    (h : run programStep (WindowsCluster.init w) es = .ok s)
    (hepoch : ∀ i p, (s.epoch i p : Int) < rmaAnalyzerMaxEpochNumber)
    (hclosings : ∀ p, (s.proc p).closings <+: order)
    (hreport : programStep s e = .error (.mpiAbort report)) :
    ∃ i p itv y, report = conflictReport itv y ∧ ifIntersects y itv = true ∧
      (w.window i).Admits p itv ∧ (w.window i).Admits p y ∧
      {itv, y} ≤ (s.view i (s.round p)).accesses (w.window i)
        (projectRun i (WindowsCluster.init w) (es ++ [e])) p := by
  obtain ⟨c, hc, hprojects⟩ := projects_run htags h hepoch hclosings
  have hacts := hprojects.actsOn htags (fun i => inv_systemRun (hc i)) hepoch (oneCall_run h)
    hclosings e
  cases hacts with
  | window i e' hevent hend =>
      rw [hreport] at hend
      obtain hstuck | ⟨g, hg, hfault⟩ := hend.exists_error
      · exact hstuck.elim
      · rw [← hfault.eq] at hg
        obtain ⟨hinv, hstored⟩ := storedFrom_run (hc i)
        obtain ⟨p, itv, y, hconflict, hi, hadmits, hyadmits, hle⟩ :=
          hstored.conflict_of_report hinv hg
        refine ⟨i, p, itv, y, hconflict, hi, hadmits, hyadmits, ?_⟩
        rw [projectRun_snoc e h, hevent, if_pos rfl]
        have hepochs : (s.view i (s.round p)).epoch p = (c i).epoch p := hprojects.epoch_eq i p
        rw [Cluster.accesses, Cluster.received, hepochs]
        change _ ≤ _ + ∑ q, (s.sent i q p _).map _
        rw [hprojects.sent_eq]
        exact hle
  | nothing s' hevent hs' => cases hreport.symm.trans hs'
  | refused hrefused => cases hreport.symm.trans hrefused

end Simulation

/-! ## Two windows -/

/-- Two windows of two processes, one after the other in memory. -/
def exampleWindows : SharedWindows 2 2 where
  win i _ := i.val
  base i p := UInt64.ofNat (4096 * (2 * i.val + p.val + 1))
  size _ _ := 400
  comm _ := 0
  filterWindow _ := 1
  mpiTag i := tagOfSlot i.val

def firstWindow : Fin 2 := ⟨0, Nat.zero_lt_two⟩

def secondWindow : Fin 2 := ⟨1, Nat.one_lt_two⟩

theorem ownTags_exampleWindows : exampleWindows.OwnTags :=
  SharedWindows.ownTags_of_slots (fun _ => rfl) Fin.val_injective

/-- Both processes open epochs on both windows.  The target writes to `address`, and the origin puts
to the second window; the message is in flight. -/
def crossingEvents (address : UInt64) : List (WindowsEvent 2 2) :=
  [.protocol firstWindow (.openEpoch puttingProcess),
    .protocol secondWindow (.openEpoch puttingProcess),
    .protocol firstWindow (.openEpoch targetProcess),
    .protocol secondWindow (.openEpoch targetProcess),
    .access targetProcess ⟨address, 3, .localWrite, 20, none⟩,
    .visit targetProcess, .visit targetProcess, .visit targetProcess,
    .protocol secondWindow (.commSend puttingProcess exampleSend),
    .protocol secondWindow (.app puttingProcess), .protocol secondWindow (.app puttingProcess)]

/-- Both processes end their epoch on the second window, and the target opens the next. -/
def joiningEvents : List (WindowsEvent 2 2) :=
  [.closeEpoch puttingProcess, .closeEpoch targetProcess, .app puttingProcess, .app targetProcess,
    .app targetProcess, .app puttingProcess, .app puttingProcess, .app targetProcess,
    .app targetProcess, .app targetProcess, .thread targetProcess,
    .deliver targetProcess exampleSend.targetItv, .thread targetProcess, .thread targetProcess,
    .thread targetProcess, .thread targetProcess, .thread targetProcess, .thread targetProcess,
    .thread targetProcess, .thread targetProcess, .app targetProcess, .app targetProcess,
    .openEpoch targetProcess].map (.protocol secondWindow)

/-- The message arrives, and is about to be saved. -/
def arrivingEvents : List (WindowsEvent 2 2) :=
  [.thread targetProcess, .deliver targetProcess exampleSend.targetItv, .thread targetProcess,
    .thread targetProcess, .thread targetProcess].map (.protocol secondWindow)

set_option maxRecDepth 10000 in
/-- The first window has stored the write of the target, and has its own run. -/
theorem run_projectRun_crossingEvents :
    ∃ s c, run programStep (WindowsCluster.init exampleWindows) (crossingEvents 8200) = .ok s ∧
      run systemStep (Cluster.init (exampleWindows.window firstWindow))
        (projectRun firstWindow (WindowsCluster.init exampleWindows) (crossingEvents 8200)) =
        .ok c ∧
      ∀ round, (s.view firstWindow round).Alike id (exampleWindows.tags firstWindow) c := by
  have hrun : run programStep (WindowsCluster.init exampleWindows) (crossingEvents 8200) = .ok _ :=
    rfl
  obtain ⟨c, hc⟩ := run_projectRun ownTags_exampleWindows hrun (by decide)
    (show ∀ p : Fin 2, (WindowsCluster.proc _ p).closings <+: ([] : List (Fin 2)) by decide)
    firstWindow
  exact ⟨_, c, hrun, hc⟩

/-- The epoch on the second window has ended at the target, those on the first go on. -/
theorem passed_eq_sent_joiningEvents :
    ∃ s, run programStep (WindowsCluster.init exampleWindows)
        (crossingEvents 8200 ++ joiningEvents) = .ok s ∧
      s.passed secondWindow targetProcess 1 =
        ∑ q, (s.sent secondWindow q targetProcess 1).map
          (Interval.rebase (exampleWindows.base secondWindow targetProcess)) ∧
      s.net targetProcess (exampleWindows.mpiTag secondWindow + (1 : Nat)) = 0 := by
  obtain ⟨s, hrun, hepoch, hclosings, hpast⟩ : ∃ s, run programStep
      (WindowsCluster.init exampleWindows) (crossingEvents 8200 ++ joiningEvents) = .ok s ∧
      (∀ i p, (s.epoch i p : Int) < rmaAnalyzerMaxEpochNumber) ∧
      (∀ p, (s.proc p).closings <+: [secondWindow]) ∧ 1 < s.epoch secondWindow targetProcess :=
    exists_of_any (by decide +kernel)
  exact ⟨s, hrun, passed_eq_sent_of_windowJoined ownTags_exampleWindows hrun hepoch hclosings
    ⟨le_rfl, .inl hpast⟩⟩

set_option maxRecDepth 10000 in
/-- The put meets a write to the second window. -/
theorem report_conflict_arrivingEvents :
    ∃ s report, run programStep (WindowsCluster.init exampleWindows)
        (crossingEvents 16392 ++ arrivingEvents) = .ok s ∧
      programStep s (.protocol secondWindow (.thread targetProcess)) = .error (.mpiAbort report) ∧
      ∃ i p itv y, report = conflictReport itv y ∧ ifIntersects y itv = true ∧
        (exampleWindows.window i).Admits p itv ∧ (exampleWindows.window i).Admits p y ∧
        {itv, y} ≤ (s.view i (s.round p)).accesses (exampleWindows.window i)
          (projectRun i (WindowsCluster.init exampleWindows) (crossingEvents 16392 ++
            arrivingEvents ++ [.protocol secondWindow (.thread targetProcess)])) p := by
  have hrun : run programStep (WindowsCluster.init exampleWindows)
    (crossingEvents 16392 ++ arrivingEvents) = .ok _ := rfl
  exact ⟨_, conflictReport (exampleSend.targetItv.rebase 16384)
    (accessInterval 16392 3 .localWrite 20 none), hrun, rfl,
    report_conflict_of_windows ownTags_exampleWindows hrun (by decide)
      (show ∀ p : Fin 2, (WindowsCluster.proc _ p).closings <+: ([] : List (Fin 2)) by decide) rfl⟩

end ParcoachRma
