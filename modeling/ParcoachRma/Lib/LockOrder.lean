import ParcoachRma.Lib.Run
import Mathlib.Data.Set.Insert
import Mathlib.Logic.Function.Basic

/-!
# Threads that take locks in nested order

Each thread runs a script of lock operations; an acquire waits until nobody holds the lock, and the
schedule says whose turn it is.

* `Nests a b held script`: the script acquires `b` while it holds `a`.
* `nests_of_holdAndWait`: where two threads each hold the lock the other one waits for, their
  scripts nest the two locks in opposite orders.
* `exists_holdAndWait`: where two scripts, after a part that leaves no lock behind, take the two
  locks in opposite orders, some schedule leads there.

Threads and locks are arbitrary types.
-/

namespace ParcoachRma.Locks

open Run

variable {τ ι : Type*}

/-- An operation on a lock. -/
inductive LockOp (ι : Type*) where
  | acquire (lock : ι)
  | release (lock : ι)
  deriving DecidableEq, Repr

/-- The owners of the locks, and of each thread what it has run and what it still has to run. -/
structure LockState (τ ι : Type*) where
  done : τ → List (LockOp ι)
  rest : τ → List (LockOp ι)
  owner : ι → Option τ

/-- Threads with their scripts ahead of them, and all locks free. -/
def LockState.start (script : τ → List (LockOp ι)) : LockState τ ι where
  done := fun _ => []
  rest := script
  owner := fun _ => none

/-- The locks held after some operations, from those held before. -/
def heldAfter (held : Set ι) : List (LockOp ι) → Set ι
  | [] => held
  | .acquire l :: ops => heldAfter (insert l held) ops
  | .release l :: ops => heldAfter (held \ {l}) ops

/-- With the locks `held` at its start, the script acquires `b` while it holds `a`. -/
def Nests (a b : ι) (held : Set ι) : List (LockOp ι) → Prop
  | [] => False
  | .acquire l :: ops => (l = b ∧ a ∈ held) ∨ Nests a b (insert l held) ops
  | .release l :: ops => Nests a b (held \ {l}) ops

/-- The thread waits for a lock that is held. -/
def Waits (s : LockState τ ι) (t : τ) (l : ι) : Prop :=
  ∃ rest, s.rest t = .acquire l :: rest ∧ s.owner l ≠ none

/-- Each of the two threads holds the lock that the other one waits for. -/
def HoldAndWait (s : LockState τ ι) (t u : τ) (a b : ι) : Prop :=
  s.owner a = some t ∧ Waits s t b ∧ s.owner b = some u ∧ Waits s u a

theorem heldAfter_append (held : Set ι) (xs ys : List (LockOp ι)) :
    heldAfter held (xs ++ ys) = heldAfter (heldAfter held xs) ys := by
  induction xs generalizing held with
  | nil => rfl
  | cons op xs ih => cases op <;> exact ih _

theorem nests_append {a b : ι} {held : Set ι} {xs ys : List (LockOp ι)} :
    Nests a b held (xs ++ ys) ↔ Nests a b held xs ∨ Nests a b (heldAfter held xs) ys := by
  induction xs generalizing held with
  | nil => simp [Nests, heldAfter]
  | cons op xs ih =>
      cases op with
      | acquire l => simp only [List.cons_append, Nests, heldAfter, ih, or_assoc]
      | release l => simp only [List.cons_append, Nests, heldAfter, ih]

/-- Scripts that leave no lock behind nest only what one of them nests by itself. -/
theorem exists_nests_of_flatMap {α : Type*} {f : α → List (LockOp ι)} {xs : List α} {a b : ι}
    (hf : ∀ x, heldAfter ∅ (f x) = ∅) (h : Nests a b ∅ (xs.flatMap f)) :
    ∃ x ∈ xs, Nests a b ∅ (f x) := by
  induction xs with
  | nil => exact h.elim
  | cons x xs ih =>
      rw [List.flatMap_cons, nests_append, hf x] at h
      rcases h with h | h
      · exact ⟨x, List.mem_cons_self, h⟩
      · obtain ⟨y, hy, h⟩ := ih h
        exact ⟨y, List.mem_cons_of_mem _ hy, h⟩

/-! ## One operation -/

section Fire

variable [DecidableEq ι]

/-- What an operation of the thread does to the owners; an acquire of a lock that is held does not
go through. -/
def fire (t : τ) (owner : ι → Option τ) : LockOp ι → Except Unit (ι → Option τ)
  | .acquire l => if owner l = none then .ok (Function.update owner l (some t)) else .error ()
  | .release l => .ok (Function.update owner l none)

theorem mem_heldAfter_of_fire {t : τ} {op : LockOp ι} {owner owner' : ι → Option τ}
    {ops : List (LockOp ι)} (held : ∀ l, owner l = some t → l ∈ heldAfter ∅ ops)
    (h : fire t owner op = .ok owner') {l : ι} (hl : owner' l = some t) :
    l ∈ heldAfter ∅ (ops ++ [op]) := by
  rw [heldAfter_append]
  cases op with
  | acquire m =>
      simp only [fire] at h
      split_ifs at h
      obtain rfl := Except.ok.inj h
      by_cases hlm : l = m
      · exact .inl hlm
      · rw [Function.update_of_ne hlm] at hl
        exact .inr (held l hl)
  | release m =>
      obtain rfl := Except.ok.inj h
      by_cases hlm : l = m
      · rw [hlm, Function.update_self] at hl
        cases hl
      · rw [Function.update_of_ne hlm] at hl
        exact ⟨held l hl, hlm⟩

/-- An operation of one thread gives no lock to another. -/
theorem owner_of_fire {t u : τ} (hne : u ≠ t) {op : LockOp ι} {owner owner' : ι → Option τ}
    (h : fire t owner op = .ok owner') {l : ι} (hl : owner' l = some u) : owner l = some u := by
  cases op with
  | acquire m =>
      simp only [fire] at h
      split_ifs at h
      obtain rfl := Except.ok.inj h
      by_cases hlm : l = m
      · rw [hlm, Function.update_self] at hl
        exact absurd (Option.some.inj hl).symm hne
      · rwa [Function.update_of_ne hlm] at hl
  | release m =>
      obtain rfl := Except.ok.inj h
      by_cases hlm : l = m
      · rw [hlm, Function.update_self] at hl
        cases hl
      · rwa [Function.update_of_ne hlm] at hl

end Fire

/-- A thread has run a prefix of its script, and holds only locks that this prefix leaves held. -/
structure Scripted (script : τ → List (LockOp ι)) (s : LockState τ ι) : Prop where
  split : ∀ t, s.done t ++ s.rest t = script t
  held : ∀ t l, s.owner l = some t → l ∈ heldAfter ∅ (s.done t)

theorem Scripted.start (script : τ → List (LockOp ι)) :
    Scripted script (LockState.start script) :=
  ⟨fun _ => rfl, fun _ _ h => by cases h⟩

/-! ## Steps of the threads -/

section Step

variable [DecidableEq τ] [DecidableEq ι]

/-- The next operation of the thread, if it has one and can go on. -/
def lockStep (s : LockState τ ι) (t : τ) : Except Unit (LockState τ ι) :=
  match s.rest t with
  | [] => .error ()
  | op :: rest => do
      let owner ← fire t s.owner op
      return { done := Function.update s.done t (s.done t ++ [op])
               rest := Function.update s.rest t rest
               owner := owner }

theorem lockStep_ok {s s' : LockState τ ι} {t : τ} :
    lockStep s t = .ok s' ↔ ∃ op rest owner, s.rest t = op :: rest ∧
      fire t s.owner op = .ok owner ∧
      ⟨Function.update s.done t (s.done t ++ [op]), Function.update s.rest t rest, owner⟩ = s' := by
  unfold lockStep
  cases hrest : s.rest t with
  | nil => simp
  | cons op rest =>
      simp only [bind_ok]
      refine ⟨fun ⟨owner, hfire, hs⟩ => ⟨op, rest, owner, rfl, hfire, Except.ok.inj hs⟩, ?_⟩
      intro ⟨op', rest', owner, heq, hfire, hs⟩
      cases heq
      exact ⟨owner, hfire, congrArg Except.ok hs⟩

/-! ## Opposite orders are necessary -/

theorem Scripted.step {script : τ → List (LockOp ι)} {s s' : LockState τ ι} {t : τ}
    (h : Scripted script s) (hstep : lockStep s t = .ok s') : Scripted script s' := by
  obtain ⟨op, rest, owner, hrest, hfire, rfl⟩ := lockStep_ok.mp hstep
  refine ⟨fun u => ?_, fun u l hl => ?_⟩
  · by_cases hu : u = t
    · subst hu
      have hsplit := h.split u
      rw [hrest] at hsplit
      simpa using hsplit
    · simpa [Function.update_of_ne hu] using h.split u
  · by_cases hu : u = t
    · subst hu
      simpa using mem_heldAfter_of_fire (h.held u) hfire hl
    · simpa [Function.update_of_ne hu] using h.held u l (owner_of_fire hu hfire hl)

/-- Where two threads hold and wait for each other, their scripts nest the locks in opposite
orders. -/
theorem nests_of_holdAndWait {script : τ → List (LockOp ι)} {s : LockState τ ι}
    {schedule : List τ} (hrun : run lockStep (LockState.start script) schedule = .ok s)
    {t u : τ} {a b : ι} (h : HoldAndWait s t u a b) :
    Nests a b ∅ (script t) ∧ Nests b a ∅ (script u) := by
  have hscript : Scripted script s :=
    invariant (fun _ _ _ hs hstep => Scripted.step hs hstep) (Scripted.start script) hrun
  obtain ⟨ha, ⟨restT, hrestT, -⟩, hb, ⟨restU, hrestU, -⟩⟩ := h
  rw [← hscript.split t, ← hscript.split u, hrestT, hrestU, nests_append, nests_append]
  exact ⟨.inr (.inl ⟨rfl, hscript.held t a ha⟩), .inr (.inl ⟨rfl, hscript.held u b hb⟩)⟩

/-! ## Opposite orders after closed parts are sufficient -/

/-- Run by itself with all locks free, the script goes through and leaves all locks free. -/
def Closed (τ : Type*) [DecidableEq τ] (ops : List (LockOp ι)) : Prop :=
  ∀ t : τ, run (fire t) (fun _ => none) ops = .ok fun _ => none

theorem Closed.flatMap {α : Type*} {f : α → List (LockOp ι)} (hf : ∀ x, Closed τ (f x))
    (xs : List α) : Closed τ (xs.flatMap f) := by
  induction xs with
  | nil => exact fun _ => rfl
  | cons x xs ih => exact fun t => run_append_ok.mpr ⟨_, hf x t, ih t⟩

/-- A thread that goes on alone takes its next operations one after the other. -/
theorem exists_run_alone {s : LockState τ ι} {t : τ} {ops rest : List (LockOp ι)}
    {owner : ι → Option τ} (hrest : s.rest t = ops ++ rest)
    (hrun : run (fire t) s.owner ops = .ok owner) :
    ∃ s', run lockStep s (List.replicate ops.length t) = .ok s' ∧ s'.owner = owner ∧
      s'.rest t = rest ∧ ∀ u, u ≠ t → s'.rest u = s.rest u := by
  induction ops generalizing s with
  | nil =>
      obtain rfl := Except.ok.inj hrun
      exact ⟨s, rfl, rfl, hrest, fun _ _ => rfl⟩
  | cons op ops ih =>
      obtain ⟨owner', hfire, hrun⟩ := run_cons_ok.mp hrun
      have hstep := lockStep_ok.mpr ⟨op, ops ++ rest, owner', hrest, hfire, rfl⟩
      obtain ⟨s', hs', howner, hrestT, hrestU⟩ :=
        ih (s := ⟨Function.update s.done t (s.done t ++ [op]),
          Function.update s.rest t (ops ++ rest), owner'⟩) (by simp) hrun
      refine ⟨s', run_cons_ok.mpr ⟨_, hstep, hs'⟩, howner, hrestT, fun u hu => ?_⟩
      exact (hrestU u hu).trans (Function.update_of_ne hu _ _)

/-- Where, after closed parts, one script takes `a` and then `b` and the other one `b` and then
`a`, some schedule leads to a state in which each holds what the other waits for. -/
theorem exists_holdAndWait {script : τ → List (LockOp ι)} {t u : τ} (hne : t ≠ u) {a b : ι}
    (hab : a ≠ b) {xs ys restT restU : List (LockOp ι)} (hx : Closed τ xs) (hy : Closed τ ys)
    (ht : script t = xs ++ .acquire a :: .acquire b :: restT)
    (hu : script u = ys ++ .acquire b :: .acquire a :: restU) :
    ∃ schedule s, run lockStep (LockState.start script) schedule = .ok s ∧
      HoldAndWait s t u a b := by
  obtain ⟨s₁, hs₁, howner₁, hrestT₁, hrestU₁⟩ :=
    exists_run_alone (s := LockState.start script) ht (hx t)
  have hrunU : run (fire u) s₁.owner ys = .ok fun _ => none := howner₁ ▸ hy u
  obtain ⟨s₂, hs₂, hfree, hrestU₂, hrestT₂⟩ :=
    exists_run_alone ((hrestU₁ u hne.symm).trans hu) hrunU
  -- Both are past their closed parts and all locks are free: each takes its first lock.
  let s₃ : LockState τ ι := ⟨Function.update s₂.done t (s₂.done t ++ [.acquire a]),
    Function.update s₂.rest t (.acquire b :: restT), Function.update s₂.owner a (some t)⟩
  have hstepT : lockStep s₂ t = .ok s₃ :=
    lockStep_ok.mpr ⟨_, _, _, (hrestT₂ t hne).trans hrestT₁, by simp [fire, hfree], rfl⟩
  let s₄ : LockState τ ι := ⟨Function.update s₃.done u (s₃.done u ++ [.acquire b]),
    Function.update s₃.rest u (.acquire a :: restU), Function.update s₃.owner b (some u)⟩
  have hstepU : lockStep s₃ u = .ok s₄ := by
    refine lockStep_ok.mpr ⟨_, _, _, ?_, ?_, rfl⟩
    · exact (Function.update_of_ne hne.symm _ _).trans hrestU₂
    · simp [fire, s₃, hfree, Function.update_of_ne hab.symm]
  refine ⟨_, s₄, run_append_ok.mpr ⟨s₁, hs₁, run_append_ok.mpr ⟨s₂, hs₂,
    run_cons_ok.mpr ⟨s₃, hstepT, run_cons_ok.mpr ⟨s₄, hstepU, run_nil s₄⟩⟩⟩⟩, ?_⟩
  refine ⟨?_, ⟨restT, ?_, ?_⟩, ?_, ⟨restU, ?_, ?_⟩⟩
  · simp [s₄, s₃, Function.update_of_ne hab]
  · simp [s₄, s₃, Function.update_of_ne hne]
  · simp [s₄]
  · simp [s₄]
  · simp [s₄]
  · simp [s₄, s₃, Function.update_of_ne hab]

end Step

end ParcoachRma.Locks
