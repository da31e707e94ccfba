import ParcoachRma.Lib.LockOrder

/-!
# Threads that work on a store under locks

Each thread runs a script of lock operations and of updates of one store that all threads share.
An update may fault, which ends the run.

* `runAlone`: what the script does to the store where no other thread interferes.
* `exists_lockRun`: without its updates, a run of the threads is a run of their lock operations.
* `not_holdAndWait_of_locks`: so what the lock operations alone rule out never happens to the
  threads.

Threads, locks, stores and faults are arbitrary types.
-/

namespace ParcoachRma.Locks

open Run

/-- An operation on a lock, or an update of the store. -/
inductive Instr (ι σ φ : Type*) where
  | lock (op : LockOp ι)
  | update (f : σ → Except φ σ)

/-- The store and the owners of the locks, and of each thread what it has run and what it still has
to run. -/
structure StoreState (τ ι σ φ : Type*) where
  store : σ
  done : τ → List (Instr ι σ φ)
  rest : τ → List (Instr ι σ φ)
  owner : ι → Option τ

variable {τ ι σ φ : Type*}

/-- The lock operations of a script. -/
def locksOf : List (Instr ι σ φ) → List (LockOp ι)
  | [] => []
  | .lock op :: instrs => op :: locksOf instrs
  | .update _ :: instrs => locksOf instrs

/-- The script of a thread that runs alone. -/
def runAlone (store : σ) : List (Instr ι σ φ) → Except φ σ
  | [] => .ok store
  | .lock _ :: instrs => runAlone store instrs
  | .update f :: instrs => do runAlone (← f store) instrs

@[simp] theorem locksOf_append (xs ys : List (Instr ι σ φ)) :
    locksOf (xs ++ ys) = locksOf xs ++ locksOf ys := by
  induction xs with
  | nil => rfl
  | cons i xs ih =>
      cases i with
      | lock op => exact congrArg (op :: ·) ih
      | update f => exact ih

theorem locksOf_flatMap {α : Type*} (f : α → List (Instr ι σ φ)) (xs : List α) :
    locksOf (xs.flatMap f) = xs.flatMap fun x => locksOf (f x) := by
  induction xs with
  | nil => rfl
  | cons x xs ih => rw [List.flatMap_cons, List.flatMap_cons, locksOf_append, ih]

theorem locksOf_update [DecidableEq τ] (script : τ → List (Instr ι σ φ)) (t : τ)
    (instrs : List (Instr ι σ φ)) :
    (fun u => locksOf (Function.update script t instrs u)) =
      Function.update (fun u => locksOf (script u)) t (locksOf instrs) := by
  funext u
  exact Function.apply_update (fun _ => locksOf) script t instrs u

namespace StoreState

/-- Threads with their scripts ahead of them, and all locks free. -/
def start (store : σ) (script : τ → List (Instr ι σ φ)) : StoreState τ ι σ φ where
  store := store
  done := fun _ => []
  rest := script
  owner := fun _ => none

/-- The state without the updates. -/
def locks (s : StoreState τ ι σ φ) : LockState τ ι where
  done := fun t => locksOf (s.done t)
  rest := fun t => locksOf (s.rest t)
  owner := s.owner

/-- The thread waits for a lock that is held. -/
def Waits (s : StoreState τ ι σ φ) (t : τ) (l : ι) : Prop :=
  ∃ rest, s.rest t = .lock (.acquire l) :: rest ∧ s.owner l ≠ none

/-- Each of the two threads holds the lock that the other one waits for. -/
def HoldAndWait (s : StoreState τ ι σ φ) (t u : τ) (a b : ι) : Prop :=
  s.owner a = some t ∧ s.Waits t b ∧ s.owner b = some u ∧ s.Waits u a

theorem Waits.locks {s : StoreState τ ι σ φ} {t : τ} {l : ι} (h : s.Waits t l) :
    Locks.Waits s.locks t l := by
  obtain ⟨rest, hrest, howner⟩ := h
  refine ⟨locksOf rest, ?_, howner⟩
  change locksOf (s.rest t) = _
  rw [hrest]
  rfl

theorem HoldAndWait.locks {s : StoreState τ ι σ φ} {t u : τ} {a b : ι}
    (h : s.HoldAndWait t u a b) : Locks.HoldAndWait s.locks t u a b := by
  obtain ⟨ha, ht, hb, hu⟩ := h
  exact ⟨ha, ht.locks, hb, hu.locks⟩

end StoreState

/-! ## Steps of the threads -/

section Step

variable [DecidableEq τ] [DecidableEq ι]

/-- The next instruction of the thread, if it has one and can go on. -/
def instrStep (s : StoreState τ ι σ φ) (t : τ) : Except (Option φ) (StoreState τ ι σ φ) :=
  match s.rest t with
  | [] => .error none
  | .lock op :: rest =>
      match fire t s.owner op with
      | .error () => .error none
      | .ok owner =>
          .ok { s with done := Function.update s.done t (s.done t ++ [.lock op])
                       rest := Function.update s.rest t rest
                       owner := owner }
  | .update f :: rest =>
      match f s.store with
      | .error fault => .error (some fault)
      | .ok store =>
          .ok { s with store := store
                       done := Function.update s.done t (s.done t ++ [.update f])
                       rest := Function.update s.rest t rest }

/-- A step is a lock operation, or it leaves the lock operations alone. -/
theorem lockStep_of_instrStep {s s' : StoreState τ ι σ φ} {t : τ} (h : instrStep s t = .ok s') :
    lockStep s.locks t = .ok s'.locks ∨ s'.locks = s.locks := by
  unfold instrStep at h
  split at h
  · cases h
  · rename_i op rest hrest
    split at h
    · cases h
    · rename_i owner hfire
      cases h
      left
      refine lockStep_ok.mpr ⟨op, locksOf rest, owner, ?_, hfire, ?_⟩
      · change locksOf (s.rest t) = _
        rw [hrest]
        rfl
      · simp only [StoreState.locks, locksOf_update, locksOf_append]
        rfl
  · rename_i f rest hrest
    split at h
    · cases h
    · cases h
      right
      have hlocks : locksOf (s.rest t) = locksOf rest := by rw [hrest]; rfl
      simp only [StoreState.locks, locksOf_update, locksOf_append, ← hlocks]
      simp [locksOf]

/-- Without its updates, a run of the threads is a run of their lock operations. -/
theorem exists_lockRun {store : σ} {script : τ → List (Instr ι σ φ)} {schedule : List τ}
    {s : StoreState τ ι σ φ}
    (hrun : run instrStep (StoreState.start store script) schedule = .ok s) :
    ∃ schedule', run lockStep (LockState.start fun t => locksOf (script t)) schedule' =
      .ok s.locks := by
  refine invariant (P := fun s : StoreState τ ι σ φ => ∃ schedule',
    run lockStep (LockState.start fun t => locksOf (script t)) schedule' = .ok s.locks)
    (fun s t s' hs hstep => ?_) ⟨[], rfl⟩ hrun
  obtain ⟨schedule', hs⟩ := hs
  rcases lockStep_of_instrStep hstep with hlock | hsame
  · exact ⟨schedule' ++ [t], run_snoc_ok.mpr ⟨_, hs, hlock⟩⟩
  · exact ⟨schedule', hsame ▸ hs⟩

/-- Where no schedule of the lock operations makes two threads hold and wait for each other, no
schedule of the threads does. -/
theorem not_holdAndWait_of_locks {store : σ} {script : τ → List (Instr ι σ φ)} {t u : τ} {a b : ι}
    (free : ∀ schedule s,
      run lockStep (LockState.start fun v => locksOf (script v)) schedule = .ok s →
        ¬ HoldAndWait s t u a b)
    {schedule : List τ} {s : StoreState τ ι σ φ}
    (hrun : run instrStep (StoreState.start store script) schedule = .ok s) :
    ¬ s.HoldAndWait t u a b := by
  intro hwait
  obtain ⟨schedule', hlocks⟩ := exists_lockRun hrun
  exact free schedule' s.locks hlocks hwait.locks

end Step

end ParcoachRma.Locks
