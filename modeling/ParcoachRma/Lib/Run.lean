import Mathlib.Data.List.Basic
import Mathlib.Data.List.Infix
import Mathlib.Logic.Basic

/-!
# Runs of a fallible step function

`Run.run step s es` takes the events `es` one after the other from the state `s` and stops at the
first fault.  The rules here package the two inductions every run argument needs:

* `Run.invariant`: what every successful step preserves holds after every run.
* `Run.forall_step_iff`: when a step that starts from the invariant meets its specification
  exactly if a condition on the state before it holds, and a step that meets the condition keeps
  the invariant, then all steps of a run meet the specification exactly if all of them meet the
  condition.  `Run.forall_step_iff_of_each` has a further condition that all steps meet.

The state, the events and the faults are arbitrary.
-/

namespace ParcoachRma.Run

variable {σ ε φ : Type*} {step : σ → ε → Except φ σ}

/-- A computation that returns has returned at its first part. -/
theorem bind_ok {α β : Type _} {x : Except φ α} {f : α → Except φ β} {b : β} :
    x >>= f = .ok b ↔ ∃ a, x = .ok a ∧ f a = .ok b := by
  cases x with
  | error e => simp [bind, Except.bind]
  | ok a => simp [bind, Except.bind]

theorem ok_bind {α β : Type _} (a : α) (f : α → Except φ β) : (Except.ok a >>= f) = f a := rfl

/-- A computation whose result passes a test returns. -/
theorem exists_of_any {α : Type _} {x : Except φ α} {P : α → Prop} [DecidablePred P]
    (h : x.toOption.any (fun a => decide (P a)) = true) : ∃ a, x = .ok a ∧ P a := by
  cases x with
  | error _ => cases h
  | ok a => exact ⟨a, rfl, of_decide_eq_true h⟩

/-- A computation whose fault passes the test ends in this fault. -/
theorem eq_error_of_decide [DecidableEq φ] {α : Type _} {x : Except φ α} {f : φ}
    (h : (match x with | .error g => decide (g = f) | .ok _ => false) = true) : x = .error f := by
  cases x with
  | error g => exact congrArg Except.error (of_decide_eq_true h)
  | ok a => cases h

/-- The state reached by the events, or the fault of the first event that has one. -/
def run (step : σ → ε → Except φ σ) (s : σ) (es : List ε) : Except φ σ :=
  es.foldlM step s

@[simp] theorem run_nil (s : σ) : run step s [] = .ok s := rfl

theorem run_cons_ok {s s' : σ} {e : ε} {es : List ε} :
    run step s (e :: es) = .ok s' ↔ ∃ t, step s e = .ok t ∧ run step t es = .ok s' := by
  simp only [run, List.foldlM_cons]
  exact bind_ok

theorem run_append_ok {s s' : σ} {es fs : List ε} :
    run step s (es ++ fs) = .ok s' ↔ ∃ t, run step s es = .ok t ∧ run step t fs = .ok s' := by
  induction es generalizing s with
  | nil => simp
  | cons e es ih =>
      simp only [List.cons_append, run_cons_ok, ih]
      constructor
      · intro hparts
        rcases hparts with ⟨t, ht, u, hu, hs⟩
        exact ⟨u, ⟨t, ht, hu⟩, hs⟩
      · intro hparts
        rcases hparts with ⟨u, ⟨t, ht, hu⟩, hs⟩
        exact ⟨t, ht, u, hu, hs⟩

theorem run_snoc_ok {s s' : σ} {es : List ε} {e : ε} :
    run step s (es ++ [e]) = .ok s' ↔ ∃ t, run step s es = .ok t ∧ step t e = .ok s' := by
  simp [run_append_ok, run_cons_ok]

/-- A run that ends without a fault passes through a state at each of its prefixes. -/
theorem exists_of_prefix {s s' : σ} {pre es : List ε} (hpre : pre <+: es)
    (h : run step s es = .ok s') : ∃ t, run step s pre = .ok t := by
  obtain ⟨post, rfl⟩ := hpre
  obtain ⟨t, ht, -⟩ := run_append_ok.mp h
  exact ⟨t, ht⟩

/-! ## Invariants -/

/-- An invariant may speak of the events so far: it holds after every run whose steps keep it. -/
theorem invariant_of_prefix {I : List ε → σ → Prop} {s : σ} {es : List ε} (init : I [] s)
    (keep : ∀ pre e t t', pre ++ [e] <+: es → I pre t → step t e = .ok t' → I (pre ++ [e]) t')
    {pre : List ε} {t : σ} (hpre : pre <+: es) (h : run step s pre = .ok t) : I pre t := by
  induction pre using List.reverseRecOn generalizing t with
  | nil =>
      cases h
      exact init
  | append_singleton pre e ih =>
      obtain ⟨u, hu, hstep⟩ := run_snoc_ok.mp h
      exact keep pre e u t hpre (ih ((List.prefix_append _ _).trans hpre) hu) hstep

/-- What every successful step preserves holds in every state a run reaches. -/
theorem invariant {P : σ → Prop} (keep : ∀ s e s', P s → step s e = .ok s' → P s')
    {s s' : σ} {es : List ε} (init : P s) (h : run step s es = .ok s') : P s' :=
  invariant_of_prefix (I := fun _ t => P t) init
    (fun _ e t t' _ ht hstep => keep t e t' ht hstep) List.prefix_rfl h

/-! ## Exact conditions on the steps of a run -/

/-- Every successful step of the run from `s` over `es` satisfies `Q`, which may speak of the
events before the step, the state before it, the event and the state after it. -/
def EachStep (step : σ → ε → Except φ σ) (Q : List ε → σ → ε → σ → Prop) (s : σ) (es : List ε) :
    Prop :=
  ∀ pre e t t', pre ++ [e] <+: es → run step s pre = .ok t → step t e = .ok t' → Q pre t e t'

theorem eachStep_nil {Q : List ε → σ → ε → σ → Prop} {s : σ} : EachStep step Q s [] := by
  intro pre e _ _ hpre
  simp at hpre

theorem eachStep_cons {Q : List ε → σ → ε → σ → Prop} {s t : σ} {e : ε} {es : List ε}
    (hstep : step s e = .ok t) :
    EachStep step Q s (e :: es) ↔ Q [] s e t ∧ EachStep step (fun pre => Q (e :: pre)) t es := by
  refine ⟨fun h => ⟨?_, fun pre f u u' hpre hrun hs => ?_⟩, fun ⟨hfirst, hrest⟩ => ?_⟩
  · exact h [] e s t (List.prefix_append [e] es) rfl hstep
  · exact h (e :: pre) f u u' (List.prefix_cons_inj e |>.mpr hpre)
      (run_cons_ok.mpr ⟨t, hstep, hrun⟩) hs
  · intro pre f u u' hpre hrun hs
    cases pre with
    | nil =>
        obtain ⟨rfl, -⟩ := List.cons_prefix_cons.mp hpre
        obtain rfl := Except.ok.inj hrun
        obtain rfl := Except.ok.inj (hstep.symm.trans hs)
        exact hfirst
    | cons g pre =>
        obtain ⟨rfl, htail⟩ := List.cons_prefix_cons.mp hpre
        obtain ⟨t', ht', hrun⟩ := run_cons_ok.mp hrun
        obtain rfl := Except.ok.inj (hstep.symm.trans ht')
        exact hrest pre f u u' htail hrun hs

/-- The steps of a run over three events. -/
theorem eachStep_three {Q : List ε → σ → ε → σ → Prop} {s t u v : σ} {e f g : ε}
    (he : step s e = .ok t) (hf : step t f = .ok u) (hg : step u g = .ok v)
    (first : Q [] s e t) (second : Q [e] t f u) (third : Q [e, f] u g v) :
    EachStep step Q s [e, f, g] :=
  (eachStep_cons he).mpr ⟨first, (eachStep_cons hf).mpr ⟨second, (eachStep_cons hg).mpr
    ⟨third, eachStep_nil⟩⟩⟩

/-- Where the specification `Q` of a step is equivalent to the condition `C` as long as the
invariant holds before it, and steps that meet `C` keep the invariant, a run meets `Q` at all its
steps exactly if it meets `C` at all of them. -/
theorem forall_step_iff {I : List ε → σ → Prop} {Q C : List ε → σ → ε → σ → Prop} {s : σ}
    {es : List ε} (init : I [] s)
    (exact_step : ∀ pre e t t', pre ++ [e] <+: es → I pre t → step t e = .ok t' →
      (Q pre t e t' ↔ C pre t e t'))
    (keep : ∀ pre e t t', pre ++ [e] <+: es → I pre t → step t e = .ok t' → C pre t e t' →
      I (pre ++ [e]) t') :
    EachStep step Q s es ↔ EachStep step C s es := by
  -- Either hypothesis gives `C` at the steps so far, hence the invariant at every prefix.
  have inv_of : (∀ pre e t t', pre ++ [e] <+: es → I pre t → run step s pre = .ok t →
      step t e = .ok t' → C pre t e t') →
      ∀ pre t, pre <+: es → run step s pre = .ok t → I pre t := by
    intro hC pre
    induction pre using List.reverseRecOn with
    | nil =>
        intro t _ h
        cases h
        exact init
    | append_singleton pre e ih =>
        intro t hpre h
        obtain ⟨u, hu, hstep⟩ := run_snoc_ok.mp h
        have hinv := ih u ((List.prefix_append _ _).trans hpre) hu
        exact keep pre e u t hpre hinv hstep (hC pre e u t hpre hinv hu hstep)
  constructor
  · intro hQ pre e t t' hpre hrun hstep
    have hinv := inv_of
      (fun pre e t t' hp hi hr hs => (exact_step pre e t t' hp hi hs).mp (hQ pre e t t' hp hr hs))
      pre t ((List.prefix_append _ _).trans hpre) hrun
    exact (exact_step pre e t t' hpre hinv hstep).mp (hQ pre e t t' hpre hrun hstep)
  · intro hC pre e t t' hpre hrun hstep
    have hinv := inv_of (fun pre e t t' hp _ hr hs => hC pre e t t' hp hr hs)
      pre t ((List.prefix_append _ _).trans hpre) hrun
    exact (exact_step pre e t t' hpre hinv hstep).mpr (hC pre e t t' hpre hrun hstep)

/-- The same where all steps of the run meet a further condition `R`, and those that meet the
specification keep the invariant. -/
theorem forall_step_iff_of_each {I : List ε → σ → Prop} {R Q C : List ε → σ → ε → σ → Prop} {s : σ}
    {es : List ε} (hR : EachStep step R s es) (init : I [] s)
    (exact_step : ∀ pre e t t', pre ++ [e] <+: es → I pre t → R pre t e t' →
      step t e = .ok t' → (Q pre t e t' ↔ C pre t e t'))
    (keep : ∀ pre e t t', pre ++ [e] <+: es → I pre t → R pre t e t' → step t e = .ok t' →
      Q pre t e t' → I (pre ++ [e]) t') :
    EachStep step Q s es ↔ EachStep step C s es := by
  -- `R` speaks of steps of the run, so the invariant has to say that there is one.
  apply forall_step_iff (I := fun pre t => run step s pre = .ok t ∧ I pre t) ⟨rfl, init⟩
  · intro pre e t t' hpre hI hstep
    rcases hI with ⟨hrun, hI⟩
    exact exact_step pre e t t' hpre hI (hR pre e t t' hpre hrun hstep) hstep
  · intro pre e t t' hpre hI hstep hC
    rcases hI with ⟨hrun, hI⟩
    have hRe := hR pre e t t' hpre hrun hstep
    refine ⟨run_snoc_ok.mpr ⟨t, hrun, hstep⟩, keep pre e t t' hpre hI hRe hstep ?_⟩
    exact (exact_step pre e t t' hpre hI hRe hstep).mpr hC

/-! ## Steps that fault exactly if a test fires -/

/-- The test fires on `e` after `pre` and on no earlier event of `pre`. -/
def FiresFirst (T : List ε → ε → Prop) (pre : List ε) (e : ε) : Prop :=
  T pre e ∧ ∀ pre' e', pre' ++ [e'] <+: pre → ¬ T pre' e'

/-- A test that fires somewhere in a list has a first place where it fires. -/
theorem exists_firesFirst {T : List ε → ε → Prop} {es : List ε} :
    (∃ pre e, pre ++ [e] <+: es ∧ T pre e) ↔ ∃ pre e, pre ++ [e] <+: es ∧ FiresFirst T pre e := by
  refine ⟨fun ⟨pre, e, hpre, hT⟩ => ?_, fun ⟨pre, e, hpre, hT⟩ => ⟨pre, e, hpre, hT.1⟩⟩
  -- Strong induction on where the test fires: an earlier place is a shorter prefix.
  induction hn : pre.length using Nat.strong_induction_on generalizing pre e with
  | _ n ih =>
      by_cases hfirst : ∀ pre' e', pre' ++ [e'] <+: pre → ¬ T pre' e'
      · exact ⟨pre, e, hpre, hT, hfirst⟩
      · push Not at hfirst
        obtain ⟨pre', e', hpre', hT'⟩ := hfirst
        have hlen := hpre'.length_le
        rw [List.length_append, List.length_singleton] at hlen
        exact ih pre'.length (by omega) pre' e'
          (hpre'.trans ((List.prefix_append _ _).trans hpre)) hT' rfl

section Test

variable {I : List ε → σ → Prop} {T : List ε → ε → Prop} {s : σ} {es : List ε}

/-- Where a step faults if the test fires and keeps the invariant if it does not, the invariant
holds after every run. -/
theorem invariant_of_test (init : I [] s)
    (fires : ∀ pre e t, pre ++ [e] <+: es → I pre t → T pre e → ∃ f, step t e = .error f)
    (passes : ∀ pre e t, pre ++ [e] <+: es → I pre t → ¬ T pre e →
      ∃ t', step t e = .ok t' ∧ I (pre ++ [e]) t')
    {pre : List ε} {t : σ} (hpre : pre <+: es) (h : run step s pre = .ok t) : I pre t := by
  refine invariant_of_prefix init (fun p e u u' hp hIu hs => ?_) hpre h
  by_cases hT : T p e
  · obtain ⟨f, hf⟩ := fires p e u hp hIu hT
    rw [hf] at hs
    cases hs
  · obtain ⟨v, hv, hIv⟩ := passes p e u hp hIu hT
    obtain rfl : v = u' := Except.ok.inj (hv.symm.trans hs)
    exact hIv

/-- Where a step faults exactly if the test fires on the events so far, a run faults exactly if
the test fires on one of its events. -/
theorem run_ok_iff_forall_not (init : I [] s)
    (fires : ∀ pre e t, pre ++ [e] <+: es → I pre t → T pre e → ∃ f, step t e = .error f)
    (passes : ∀ pre e t, pre ++ [e] <+: es → I pre t → ¬ T pre e →
      ∃ t', step t e = .ok t' ∧ I (pre ++ [e]) t')
    {pre : List ε} (hpre : pre <+: es) :
    (∃ t, run step s pre = .ok t) ↔ ∀ pre' e, pre' ++ [e] <+: pre → ¬ T pre' e := by
  induction pre using List.reverseRecOn with
  | nil => simp
  | append_singleton pre e ih =>
      have hshort := (List.prefix_append pre [e]).trans hpre
      refine ⟨fun ⟨t', hrun⟩ pre' e' hpre' hT => ?_, fun hnot => ?_⟩
      · obtain ⟨t, ht, hstep⟩ := run_snoc_ok.mp hrun
        rcases List.prefix_concat_iff.mp hpre' with hlast | hin
        · obtain ⟨rfl, hlast⟩ := List.append_inj' hlast rfl
          obtain rfl : e' = e := by simpa using hlast
          have hIt := invariant_of_test init fires passes hshort ht
          obtain ⟨f, hf⟩ := fires pre' e' t hpre hIt hT
          rw [hf] at hstep
          cases hstep
        · exact (ih hshort).mp ⟨t, ht⟩ pre' e' hin hT
      · obtain ⟨t, ht⟩ := (ih hshort).mpr fun pre' e' hp =>
          hnot pre' e' (hp.trans (List.prefix_append _ _))
        have hIt := invariant_of_test init fires passes hshort ht
        obtain ⟨t', hstep, -⟩ := passes pre e t hpre hIt (hnot pre e List.prefix_rfl)
        exact ⟨t', run_snoc_ok.mpr ⟨t, ht, hstep⟩⟩

end Test

end ParcoachRma.Run
