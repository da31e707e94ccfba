import ParcoachRma.Lib.Run

/-!
# One fallible computation refines another

`Refines R F stuck x y`: where `x` returns, `y` returns something related by `R`; where `x` faults,
either the environment has failed `x` (`stuck`), or `y` ends in a related fault.  The relation goes
through sequencing (`Refines.bind`) and, from one step, through whole runs (`Refines.run`; where it
speaks of the events so far, `Refines.run_of_prefix`).

The faults and results of the two sides are arbitrary.
-/

namespace ParcoachRma

/-- What `x` does is what `y` does, unless the environment has failed `x`. -/
inductive Refines {σ τ φ ψ : Type*} (R : σ → τ → Prop) (F : φ → ψ → Prop) (stuck : φ → Prop) :
    Except φ σ → Except ψ τ → Prop
  | ok {s : σ} {t : τ} : R s t → Refines R F stuck (.ok s) (.ok t)
  | error {f : φ} {g : ψ} : F f g → Refines R F stuck (.error f) (.error g)
  | stuck {f : φ} {y : Except ψ τ} : stuck f → Refines R F stuck (.error f) y

namespace Refines

variable {σ τ σ' τ' φ ψ : Type _} {R : σ → τ → Prop} {R' : σ' → τ' → Prop} {F : φ → ψ → Prop}
  {stuck : φ → Prop}

/-- The rest of two computations whose first parts refine each other. -/
theorem bind {x : Except φ σ} {y : Except ψ τ} {f : σ → Except φ σ'} {g : τ → Except ψ τ'}
    (hxy : Refines R F stuck x y) (hfg : ∀ s t, R s t → Refines R' F stuck (f s) (g t)) :
    Refines R' F stuck (x >>= f) (y >>= g) := by
  cases hxy with
  | ok hst => exact hfg _ _ hst
  | error hf => exact .error hf
  | stuck hf => exact .stuck hf

/-- The second side has returned, and goes on in another way. -/
theorem bind_of_ok {x : Except φ σ} {t : τ} {f : σ → Except φ σ'} {y : Except ψ τ'}
    (hxt : Refines R F stuck x (.ok t)) (hfy : ∀ s, R s t → Refines R' F stuck (f s) y) :
    Refines R' F stuck (x >>= f) y := by
  cases hxt with
  | ok hst => exact hfy _ hst
  | stuck hf => exact .stuck hf

theorem mono_of_eq {S : σ → τ → Prop} {x : Except φ σ} {y : Except ψ τ}
    (hxy : Refines R F stuck x y) (hRS : ∀ s t, x = .ok s → R s t → S s t) :
    Refines S F stuck x y := by
  cases hxy with
  | ok hst => exact .ok (hRS _ _ rfl hst)
  | error hf => exact .error hf
  | stuck hf => exact .stuck hf

theorem mono {S : σ → τ → Prop} {x : Except φ σ} {y : Except ψ τ} (hxy : Refines R F stuck x y)
    (hRS : ∀ s t, R s t → S s t) : Refines S F stuck x y :=
  hxy.mono_of_eq fun s t _ => hRS s t

/-- The second side returns something else, to which the result is related as well. -/
theorem mono_ok {S : σ → τ' → Prop} {x : Except φ σ} {t : τ} {t' : τ'}
    (hxt : Refines R F stuck x (.ok t)) (hRS : ∀ s, R s t → S s t') :
    Refines S F stuck x (.ok t') := by
  cases hxt with
  | ok hst => exact .ok (hRS _ hst)
  | stuck hf => exact .stuck hf

theorem exists_ok {s : σ} {y : Except ψ τ} (hxy : Refines R F stuck (.ok s) y) :
    ∃ t, y = .ok t ∧ R s t := by
  cases hxy with
  | ok hst => exact ⟨_, rfl, hst⟩

theorem exists_error {f : φ} {y : Except ψ τ} (hxy : Refines R F stuck (.error f) y) :
    stuck f ∨ ∃ g, y = .error g ∧ F f g := by
  cases hxy with
  | error hf => exact .inr ⟨_, rfl, hf⟩
  | stuck hf => exact .inl hf

/-- By induction on the events, each of which the second side takes as its counterpart. -/
theorem run {ε δ : Type _} {step : σ → ε → Except φ σ} {step' : τ → δ → Except ψ τ} {call : ε → δ}
    (hstep : ∀ s t e, R s t → Refines R F stuck (step s e) (step' t (call e))) {s : σ} {t : τ}
    (hst : R s t) (es : List ε) :
    Refines R F stuck (Run.run step s es) (Run.run step' t (es.map call)) := by
  induction es generalizing s t with
  | nil => exact .ok hst
  | cons e es ih =>
      simp only [Run.run, List.map_cons, List.foldlM_cons]
      exact (hstep s t e hst).bind fun _ _ h => ih h

/-- By induction on the list, which both sides go through. -/
theorem foldlM {ι : Type _} {f : σ → ι → Except φ σ} {g : τ → ι → Except ψ τ} {l : List ι}
    (hstep : ∀ i ∈ l, ∀ s t, R s t → Refines R F stuck (f s i) (g t i)) {s : σ} {t : τ}
    (hst : R s t) : Refines R F stuck (l.foldlM f s) (l.foldlM g t) := by
  induction l generalizing s t with
  | nil => exact .ok hst
  | cons i l ih =>
      simp only [List.foldlM_cons]
      exact (hstep i List.mem_cons_self s t hst).bind fun _ _ h =>
        ih (fun j hj => hstep j (List.mem_cons_of_mem i hj)) h

/-- The relation may speak of the events so far.  By induction on the prefixes of the run. -/
theorem run_of_prefix {ε : Type _} {step : σ → ε → Except φ σ} {step' : τ → ε → Except ψ τ}
    {I : List ε → σ → τ → Prop} {es : List ε}
    (hstep : ∀ pre e s t, pre ++ [e] <+: es → I pre s t →
      Refines (I (pre ++ [e])) F stuck (step s e) (step' t e))
    {s : σ} {t : τ} (hst : I [] s t) {pre : List ε} (hpre : pre <+: es) :
    Refines (I pre) F stuck (Run.run step s pre) (Run.run step' t pre) := by
  induction pre using List.reverseRecOn with
  | nil => exact .ok hst
  | append_singleton pre e ih =>
      have hbefore := ih ((List.prefix_append pre [e]).trans hpre)
      have hsnoc := hbefore.bind fun u v huv => hstep pre e u v hpre huv
      simpa [Run.run, List.foldlM_append] using hsnoc

end Refines

end ParcoachRma
