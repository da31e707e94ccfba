import Mathlib.Order.WellFounded
import ParcoachRma.Lib.Run

/-!
# What a run can still reach

`CanReach step A Q s`: some events, all of them in `A`, lead from `s` to a state in `Q`.

`canReach_of_progress` is the rule for it: an invariant, a measure in a well-founded order, and in
every state that is not yet in `Q` an event that keeps the invariant and lowers the measure.  As
the rule may start from any state that satisfies the invariant, a system that keeps the invariant
cannot get into a state from which `Q` is out of reach.
-/

namespace ParcoachRma.Run

variable {σ ε φ α : Type*} {step : σ → ε → Except φ σ} {A : ε → Prop} {Q R : σ → Prop} {s t : σ}

/-- A computation that faults has faulted at its first part, or after it. -/
theorem bind_error {β γ : Type _} {x : Except φ β} {f : β → Except φ γ} {fault : φ} :
    x >>= f = .error fault ↔ x = .error fault ∨ ∃ b, x = .ok b ∧ f b = .error fault := by
  cases x with
  | error e => simp [bind, Except.bind]
  | ok b => simp [bind, Except.bind]

/-- Some events, all of them in `A`, lead from `s` to a state in `Q`. -/
def CanReach (step : σ → ε → Except φ σ) (A : ε → Prop) (Q : σ → Prop) (s : σ) : Prop :=
  ∃ es t, (∀ e ∈ es, A e) ∧ run step s es = .ok t ∧ Q t

theorem canReach_of_mem (h : Q s) : CanReach step A Q s :=
  ⟨[], s, by simp, rfl, h⟩

/-- One event more at the beginning. -/
theorem CanReach.cons (h : CanReach step A Q t) {e : ε} (he : A e) (hstep : step s e = .ok t) :
    CanReach step A Q s := by
  obtain ⟨es, u, hes, hrun, hu⟩ := h
  exact ⟨e :: es, u, List.forall_mem_cons.mpr ⟨he, hes⟩, run_cons_ok.mpr ⟨t, hstep, hrun⟩, hu⟩

/-- The event lowers the measure and keeps the invariant. -/
def Lowers [LT α] (step : σ → ε → Except φ σ) (I : σ → Prop) (μ : σ → α) (s : σ) (e : ε) : Prop :=
  ∃ t, step s e = .ok t ∧ I t ∧ μ t < μ s

/-- Where every state that is not in `Q` has an event that lowers a measure, `Q` can be reached. -/
theorem canReach_of_progress [LT α] [WellFoundedLT α] {I : σ → Prop} (μ : σ → α)
    (progress : ∀ s, I s → ¬ Q s → ∃ e, A e ∧ Lowers step I μ s e) (hs : I s) :
    CanReach step A Q s := by
  induction hm : μ s using WellFoundedLT.induction generalizing s with
  | ind m ih =>
      by_cases hQ : Q s
      · exact canReach_of_mem hQ
      · obtain ⟨e, he, t, hstep, ht, hlt⟩ := progress s hs hQ
        exact (ih (μ t) (hm ▸ hlt) ht rfl).cons he hstep

end ParcoachRma.Run
