import ParcoachRma.Instrumentation

/-!
# What the analyzer sees of an instrumented function

The instrumentation pass and the library agree on names only: the pass renames a routine or makes a
new call, the library defines the wrapper.

`instrumented_iff`: what the analyzer sees of the function afterwards is the image of the accesses
and MPI calls before, with none left out, exactly if each call of a routine that has a wrapper is
covered by the pass (`Covered`).  `uncovered_eq` lists the routines it never covers.
-/

namespace ParcoachRma

open SymbolTable

/-! ## The library -/

/-- The routines the runtime library has a wrapper for, in the order of its two files. -/
def wrappers : List (String × String) :=
  [("MPI_Win_create", "new_Win_create"),
    ("MPI_Win_allocate", "new_Win_allocate"),
    ("MPI_Win_lock_all", "new_Win_lock_all"),
    ("MPI_Win_lock", "new_Win_lock"),
    ("MPI_Win_fence", "new_Win_fence"),
    ("MPI_Win_start", "new_Win_start"),
    ("MPI_Win_post", "new_Win_post"),
    ("MPI_Put", "new_Put"),
    ("MPI_Get", "new_Get"),
    ("MPI_Accumulate", "new_Accumulate"),
    ("MPIX_Win_create_notify", "new_Win_create_notify"),
    ("MPIX_Win_allocate_notify", "new_Win_allocate_notify"),
    ("MPIX_Put_notify", "new_Put_notify"),
    ("MPIX_Get_notify", "new_Get_notify"),
    ("MPIX_Win_wait_notify", "new_Win_wait_notify"),
    ("MPIX_Win_test_notify", "new_Win_test_notify"),
    ("MPI_Win_unlock_all", "new_Win_unlock_all"),
    ("MPI_Win_unlock", "new_Win_unlock"),
    ("MPI_Win_complete", "new_Win_complete"),
    ("MPI_Win_wait", "new_Win_wait"),
    ("MPI_Win_free", "new_Win_free"),
    ("MPI_Barrier", "new_Barrier"),
    ("mpi_win_create_", "new_win_create_"),
    ("mpi_win_allocate_", "new_win_allocate_"),
    ("mpi_win_lock_all_", "new_win_lock_all_"),
    ("mpi_win_lock_", "new_win_lock_"),
    ("mpi_win_fence_", "new_win_fence_"),
    ("mpi_win_start_", "new_win_start_"),
    ("mpi_win_post_", "new_win_post_"),
    ("mpi_put_", "new_put_"),
    ("mpi_get_", "new_get_"),
    ("mpi_accumulate_", "new_accumulate_"),
    ("mpix_win_create_notify_", "new_win_create_notify_"),
    ("mpix_put_notify_", "new_put_notify_"),
    ("mpix_get_notify_", "new_get_notify_"),
    ("mpix_win_wait_notify_", "new_win_wait_notify_"),
    ("mpix_win_test_notify_", "new_win_test_notify_"),
    ("mpi_win_unlock_all_", "new_win_unlock_all_"),
    ("mpi_win_unlock_", "new_win_unlock_"),
    ("mpi_win_complete_", "new_win_complete_"),
    ("mpi_win_wait_", "new_win_wait_"),
    ("mpi_win_free_", "new_win_free_"),
    ("mpi_win_flush_", "new_win_flush_"),
    ("mpi_barrier_", "new_barrier_")]

/-- The wrapper of a routine. -/
def wrapperOf (routine : String) : Option String := firstMatch wrappers routine

/-- The wrappers that take the source position after the arguments of the routine. -/
def positionWrappers : List String := ["new_Put", "new_Get", "new_Put_notify", "new_Get_notify"]

/-- The functions of the library that are called by instrumented code. -/
def entryPoints : List String := ["LOAD", "STORE"] ++ wrappers.map (·.2)

/-- What can be seen of a function: its calls of the library, and its loads and stores. -/
inductive Observation where
  | event (routine : String) (args : List Value)
  | access (isStore : Bool) (pointer : Value) (bits : Nat)
  deriving DecidableEq, Repr

/-- A call of a routine with a name is seen if it is one of the library. -/
def observeCall (args : List Value) (routine : String) : List Observation :=
  if routine ∈ entryPoints then [.event routine args] else []

/-- What is seen of an instruction, under the names of the symbols. -/
def observe (t : SymbolTable) (I : Instruction) : List Observation :=
  match I.opcode with
  | .store pointer bits => [.access true pointer bits]
  | .load pointer bits => [.access false pointer bits]
  | .call callee args => ((callee.symbol?.bind t.name?).map (observeCall args)).getD []
  | .bitCast _ | .other => []

def trace (F : LlvmFunction) : List Observation := F.body.flatMap (observe F.symbols)

/-- The image of a call of a routine: the call of its wrapper, if it has one. -/
def imageCall (I : Instruction) (args : List Value) (routine : String) : List Observation :=
  match wrapperOf routine with
  | some w => [.event w (if w ∈ positionWrappers then args ++ positionArgs I else args)]
  | none => observeCall args routine

/-- The image of an instruction: an access with its hook before it, or a call of the library. -/
def image (t : SymbolTable) (I : Instruction) : List Observation :=
  match I.opcode with
  | .store pointer bits =>
      [.event "STORE" (hookArgs pointer bits I), .access true pointer bits]
  | .load pointer bits =>
      [.event "LOAD" (hookArgs pointer bits I), .access false pointer bits]
  | .call callee args => ((callee.symbol?.bind t.name?).map (imageCall I args)).getD []
  | .bitCast _ | .other => []

/-- The function `G` is what instrumentation is to make of `F`: the analyzer sees the image of all
accesses and calls in their order, and no routine that has a wrapper is called any more. -/
structure Instrumented (F G : LlvmFunction) : Prop where
  trace : trace G = F.body.flatMap (image F.symbols)
  redirected : ∀ J ∈ G.body, ∀ i n, J.callee? = some i → G.symbols.name? i = some n →
    wrapperOf n = none

/-- The wrapper in the new call that a chain makes for a call of the routine. -/
def newCallOf (chain : String → Option CallAction) (routine : String) : Option String :=
  (chain routine).bind CallAction.newFuncName

/-- The wrapper in the new call that the pass makes. -/
def replacementOf (routine : String) : Option String :=
  (newCallOf mpiCall routine).or (newCallOf mpixCall routine)

/-- The pass leads the call to the wrapper: it is a direct one that is replaced, or an instruction
of the function makes the pass rename the routine, and no symbol of the module has the name of the
wrapper yet. -/
def Covered (F : LlvmFunction) (I : Instruction) : Prop :=
  ∀ i n w, I.callee? = some i → F.symbols.name? i = some n → wrapperOf n = some w →
    (∃ args, I.opcode = .call (.global i) args) ∧ (replacementOf n).isSome ∨
      w ∉ F.symbols.names ∧ ∃ J ∈ F.body, RenamesAt J i n

/-- The routines with a wrapper that no call or cast makes the pass redirect. -/
theorem uncovered_eq :
    (wrappers.map (·.1)).filter (fun n => (replacementOf n).isNone && (newNameOf n).isNone) =
      ["MPI_Win_allocate", "MPI_Win_fence", "MPI_Win_start", "MPI_Win_post",
        "MPIX_Win_allocate_notify", "MPI_Win_complete", "MPI_Win_wait", "mpi_win_allocate_",
        "mpi_win_fence_", "mpi_win_start_", "mpi_win_post_", "mpix_win_create_notify_",
        "mpix_put_notify_", "mpix_get_notify_", "mpix_win_wait_notify_", "mpix_win_test_notify_",
        "mpi_win_complete_", "mpi_win_wait_"] := by
  decide

/-! ## What becomes of one instruction -/

section Outcome

variable {t₀ t tf : SymbolTable} {done : Set Nat} {I : Instruction} {i : Nat} {args : List Value}
  {n w : String} {chain : String → Option CallAction}

/-- The chain makes no new call for names that the pass renames or gives, nor for those with a
dot. -/
structure NewCallsOnly (chain : String → Option CallAction) : Prop where
  rules : ∀ {n w}, newNameOf n = some w → newCallOf chain n = none ∧ newCallOf chain w = none
  dot : ∀ {n}, Dotted n → newCallOf chain n = none

/-- The routines whose calls are replaced. -/
def replacedRoutines : List String := ["MPI_Get", "MPI_Put", "MPIX_Put_notify", "MPIX_Get_notify"]

/-- A chain that makes new calls for these routines only. -/
theorem newCallsOnly_of_mem
    (hmem : ∀ {n w}, newCallOf chain n = some w → n ∈ replacedRoutines) : NewCallsOnly chain where
  rules {n w} h := by
    have hold : ∀ p ∈ newNames, p.1 ∉ replacedRoutines := by decide
    have hnew : ∀ n ∈ replacedRoutines, MpiNamed n := by decide
    refine ⟨Option.eq_none_iff_forall_ne_some.mpr fun x hx => ?_,
      Option.eq_none_iff_forall_ne_some.mpr fun x hx => ?_⟩
    · exact hold _ (mem_newNames h) (hmem hx)
    · exact (mpiNamed_of_newNameOf h).2 (hnew w (hmem hx))
  dot {n} hn := by
    have hdot : ∀ n ∈ replacedRoutines, ¬ Dotted n := by decide
    exact Option.eq_none_iff_forall_ne_some.mpr fun x hx => hdot n (hmem hx) hn

theorem newCallsOnly_mpiCall : NewCallsOnly mpiCall := by
  apply newCallsOnly_of_mem
  intro n w h
  have hall : ∀ p ∈ mpiCallChain, p.2.newFuncName.isSome → p.1 ∈ replacedRoutines := by
    decide
  obtain ⟨action, haction, hw⟩ := Option.bind_eq_some_iff.mp h
  exact hall _ (mem_of_mpiCall haction) (Option.isSome_of_eq_some hw)

theorem newCallsOnly_mpixCall : NewCallsOnly mpixCall := by
  apply newCallsOnly_of_mem
  intro n w h
  have hall : ∀ p ∈ mpixCallChain, p.2.newFuncName.isSome → p.1 ∈ replacedRoutines := by
    decide
  obtain ⟨action, haction, hw⟩ := Option.bind_eq_some_iff.mp h
  exact hall _ (mem_of_mpixCall haction) (Option.isSome_of_eq_some hw)

theorem visitCall_of_newCall (h : (t.name? i).bind (newCallOf chain) = some w) :
    visitCall chain I i args t =
      ⟨(t.getOrInsert w).1, replaceCallInst I args (t.getOrInsert w).2, true⟩ := by
  unfold newCallOf at h
  rw [← Option.bind_assoc] at h
  obtain ⟨action, haction, hw⟩ := Option.bind_eq_some_iff.mp h
  cases action with
  | rename newName => cases hw
  | count => cases hw
  | replace newFuncName =>
      obtain rfl := Option.some.inj hw
      rw [visitCall, haction]

theorem visitCall_of_none (I : Instruction) (args : List Value)
    (h : (t.name? i).bind (newCallOf chain) = none) :
    (visitCall chain I i args t).inserted = [] ∧ (visitCall chain I i args t).toDelete = false := by
  unfold newCallOf at h
  rw [← Option.bind_assoc] at h
  unfold visitCall
  rcases haction : (t.name? i).bind chain with - | action
  · exact ⟨rfl, rfl⟩
  · rw [haction] at h
    cases action with
    | rename newName => exact ⟨rfl, rfl⟩
    | count => exact ⟨rfl, rfl⟩
    | replace newFuncName => cases h

theorem observe_call_added (hkeeps : Keeps passRules t tf) {callee : Nat} {name : String}
    (hname : name ∈ addedNames) (hcallee : t.name? callee = some name) :
    observe tf ⟨.call (.global callee) args, none⟩ = [.event name args] := by
  have htf : tf.name? callee = some name := hkeeps _ _ hcallee (passRules.target_added name hname)
  have hentry : name ∈ entryPoints := by
    have hall : ∀ n ∈ addedNames, n ∈ entryPoints := by decide
    exact hall name hname
  simp [observe, Value.symbol?, htf, observeCall, hentry]

theorem observe_createAndInsertFunction {name : String} (hname : name ∈ addedNames)
    (hkeeps : Keeps passRules (t.getOrInsert name).1 tf) {addr : Value} {size : Nat} :
    (createAndInsertFunction I addr (t.getOrInsert name).2 size).flatMap (observe tf) =
      [.event name (hookArgs addr size I)] := by
  rw [createAndInsertFunction, List.flatMap_cons, List.flatMap_cons, List.flatMap_cons,
    observe_call_added hkeeps hname (name?_getOrInsert_self t name)]
  rfl

theorem observe_replaceCallInst (hw : w ∈ addedNames)
    (hkeeps : Keeps passRules (t.getOrInsert w).1 tf) :
    (replaceCallInst I args (t.getOrInsert w).2).flatMap (observe tf) =
      [.event w (args ++ positionArgs I)] := by
  rw [replaceCallInst, List.flatMap_cons, List.flatMap_cons,
    observe_call_added hkeeps hw (name?_getOrInsert_self t w)]
  rfl

/-- What is seen in the place of an instruction, under the names in the end. -/
def outcome (t₀ tf : SymbolTable) (I : Instruction) : List Observation :=
  match I.opcode with
  | .call (.global i) args =>
      match (t₀.name? i).bind replacementOf with
      | some w => [.event w (args ++ positionArgs I)]
      | none => observe tf I
  | .call _ _ => observe tf I
  | .store _ _ | .load _ _ | .bitCast _ | .other => image t₀ I

/-- A name that the first chain makes a new call for is none of the second. -/
theorem newCallOf_mpixCall_eq_none (h : newCallOf mpiCall n = some w) :
    newCallOf mpixCall n = none := by
  obtain ⟨action, haction, -⟩ := Option.bind_eq_some_iff.mp h
  rw [newCallOf, mpixCall_eq_none haction, Option.bind_none]

theorem mem_addedNames_of_newCallOf (hchain : PassChain chain) (h : newCallOf chain n = some w) :
    w ∈ addedNames := by
  obtain ⟨action, haction, hw⟩ := Option.bind_eq_some_iff.mp h
  cases action with
  | rename newName => cases hw
  | count => cases hw
  | replace newFuncName =>
      obtain rfl := Option.some.inj hw
      exact hchain.replace haction

/-- The name a routine has when it is visited leads to the same new call as its first one. -/
theorem newCallOf_current (I : Instruction) (args : List Value) (h : Evolves passRules t₀ t done)
    (hn : t₀.name? i = some n) :
    (t.name? i).bind (newCallOf mpiCall) = newCallOf mpiCall n ∧
      ((visitCall mpiCall I i args t).symbols.name? i).bind (newCallOf mpixCall) =
        newCallOf mpixCall n := by
  constructor
  · exact h.bind_name? newCallsOnly_mpiCall.rules newCallsOnly_mpiCall.dot hn
  · exact (evolves_visitCall passChain_mpiCall h).bind_name? newCallsOnly_mpixCall.rules
      newCallsOnly_mpixCall.dot hn

/-- The two chains on the routine of a direct call. -/
theorem observe_visitCalls (h : Evolves passRules t₀ t done) (hn : t₀.name? i = some n)
    (hkeeps : Keeps passRules (visitCall mpixCall I i args
      (visitCall mpiCall I i args t).symbols).symbols tf) :
    ((visitCall mpiCall I i args t).inserted ++
        (visitCall mpixCall I i args (visitCall mpiCall I i args t).symbols).inserted ++
      if (visitCall mpiCall I i args t).toDelete ||
          (visitCall mpixCall I i args (visitCall mpiCall I i args t).symbols).toDelete
      then [] else [I]).flatMap (observe tf) =
    match replacementOf n with
    | some w => [.event w (args ++ positionArgs I)]
    | none => observe tf I := by
  obtain ⟨hmpi, hmpix⟩ := newCallOf_current I args h hn
  rcases hnew : newCallOf mpiCall n with - | w
  · rw [hnew] at hmpi
    obtain ⟨hinserted, hdelete⟩ := visitCall_of_none I args hmpi
    rcases hnewx : newCallOf mpixCall n with - | w
    · rw [hnewx] at hmpix
      obtain ⟨hinsertedx, hdeletex⟩ := visitCall_of_none I args hmpix
      rw [hinserted, hinsertedx, hdelete, hdeletex, replacementOf, hnew, hnewx]
      simp
    · rw [hnewx] at hmpix
      rw [visitCall_of_newCall hmpix] at hkeeps ⊢
      have hw := mem_addedNames_of_newCallOf passChain_mpixCall hnewx
      rw [hinserted, hdelete, replacementOf, hnew, hnewx]
      simpa using observe_replaceCallInst hw hkeeps
  · rw [newCallOf_mpixCall_eq_none hnew] at hmpix
    obtain ⟨hinsertedx, hdeletex⟩ := visitCall_of_none I args hmpix
    have hkeeps := (keeps_visitCall passChain_mpixCall).trans hkeeps
    rw [hnew] at hmpi
    have hw := mem_addedNames_of_newCallOf passChain_mpiCall hnew
    rw [hinsertedx, hdeletex, replacementOf, hnew]
    rw [visitCall_of_newCall hmpi] at hkeeps ⊢
    simpa using observe_replaceCallInst hw hkeeps

theorem observe_visit (h : Evolves passRules t₀ t done)
    (hdeclared : ∀ i, I.callee? = some i → (t₀.name? i).isSome)
    (hkeeps : Keeps passRules (visit I t).symbols tf) :
    ((visit I t).inserted ++ if (visit I t).toDelete then [] else [I]).flatMap (observe tf) =
      outcome t₀ tf I := by
  rw [List.flatMap_append]
  unfold visit at hkeeps ⊢
  unfold outcome
  split
  · rename_i i hop
    simp [hop, observe, image]
  · rename_i i args hop
    simp only [hop] at hkeeps ⊢
    obtain ⟨n, hn⟩ := Option.isSome_iff_exists.mp (hdeclared i (Instruction.callee?_call hop))
    rw [hn, Option.bind_some, ← List.flatMap_append]
    exact observe_visitCalls h hn hkeeps
  · rename_i pointer bits hop
    simp only [hop] at hkeeps ⊢
    rw [observe_createAndInsertFunction (by decide) hkeeps]
    simp [hop, observe, image]
  · rename_i pointer bits hop
    simp only [hop] at hkeeps ⊢
    rw [observe_createAndInsertFunction (by decide) hkeeps]
    simp [hop, observe, image]
  · rename_i operand hcast hop
    simp [hop, observe, image]
  · rename_i callee args hcall hop
    simp [hop]
  · rename_i hop
    simp [hop, observe, image]

/-- What is seen of a whole body. -/
theorem observe_visitAll {body : List Instruction} (h : Evolves passRules t₀ t done)
    (hdeclared : ∀ I ∈ body, ∀ i, I.callee? = some i → (t₀.name? i).isSome)
    (hkeeps : Keeps passRules (visitAll body t).1 tf) :
    (eraseMarked (visitAll body t).2).flatMap (observe tf) = body.flatMap (outcome t₀ tf) := by
  induction body generalizing t done with
  | nil => rfl
  | cons I body ih =>
      have hfirst := observe_visit h (hdeclared I List.mem_cons_self) (keeps_visitAll.trans hkeeps)
      have hrest := ih (evolves_visit h)
        (fun J hJ => hdeclared J (List.mem_cons_of_mem I hJ)) hkeeps
      rw [eraseMarked_visitAll_cons, ← List.append_assoc, List.flatMap_append, hfirst, hrest]
      rfl

/-- A direct call that is replaced is deleted. -/
theorem toDelete_of_replaced (h : Evolves passRules t₀ t done)
    (hop : I.opcode = .call (.global i) args) (hn : t₀.name? i = some n)
    (hw : replacementOf n = some w) : (visit I t).toDelete = true := by
  obtain ⟨hmpi, hmpix⟩ := newCallOf_current I args h hn
  simp only [visit, hop, Bool.or_eq_true]
  rcases Option.or_eq_some_iff.mp hw with hnew | ⟨-, hnew⟩
  · exact .inl (by rw [visitCall_of_newCall (hmpi.trans hnew)])
  · exact .inr (by rw [visitCall_of_newCall (hmpix.trans hnew)])

/-! ## Calls of a routine -/

theorem not_mem_entryPoints_of_dotted (hdot : Dotted n) : n ∉ entryPoints := by
  have hall : ∀ e ∈ entryPoints, ¬ Dotted e := by decide
  exact fun hn => hall n hn hdot

theorem not_mem_entryPoints_of_mpiNamed (h : MpiNamed n) : n ∉ entryPoints := by
  have hall : ∀ e ∈ entryPoints, ¬ MpiNamed e := by decide
  exact fun hn => hall n hn h

theorem mpiNamed_of_wrapperOf (h : wrapperOf n = some w) : MpiNamed n := by
  have hall : ∀ p ∈ wrappers, MpiNamed p.1 := by decide
  exact hall _ (mem_of_firstMatch h)

theorem wrapperOf_eq_none (h : ¬ MpiNamed n) : wrapperOf n = none := by
  by_contra hne
  obtain ⟨w, hw⟩ := Option.ne_none_iff_exists'.mp hne
  exact h (mpiNamed_of_wrapperOf hw)

/-- The name the pass gives to a routine is that of its wrapper, which takes the arguments of the
routine only, or else it is of no function of the library. -/
theorem wrapperOf_of_newNameOf (h : newNameOf n = some w) :
    wrapperOf n = some w ∧ w ∉ positionWrappers ∨ wrapperOf n = none ∧ w ∉ entryPoints := by
  have hall : ∀ p ∈ newNames, wrapperOf p.1 = some p.2 ∧ p.2 ∉ positionWrappers ∨
      wrapperOf p.1 = none ∧ p.2 ∉ entryPoints := by decide
  exact hall _ (mem_newNames h)

theorem newNameOf_wrapperOf {v : String} (h : newNameOf n = some v) (hw : wrapperOf n = some w) :
    v = w ∧ w ∉ positionWrappers := by
  rcases wrapperOf_of_newNameOf h with ⟨hv, hposition⟩ | ⟨hnone, -⟩
  · obtain rfl := Option.some.inj (hv.symm.trans hw)
    exact ⟨rfl, hposition⟩
  · rw [hnone] at hw
    cases hw

theorem wrapperOf_entryPoints (hw : wrapperOf n = some w) : n ∉ entryPoints ∧ w ∈ entryPoints := by
  refine ⟨not_mem_entryPoints_of_mpiNamed (mpiNamed_of_wrapperOf hw), ?_⟩
  exact List.mem_append_right _ (List.mem_map_of_mem (mem_of_firstMatch hw))

/-- A new call is one of the wrapper of the routine, which takes the position. -/
theorem wrapperOf_of_replacementOf (h : replacementOf n = some w) :
    wrapperOf n = some w ∧ w ∈ positionWrappers := by
  have hmpi : ∀ p ∈ mpiCallChain, ∀ x ∈ p.2.newFuncName,
      wrapperOf p.1 = some x ∧ x ∈ positionWrappers := by decide
  have hmpix : ∀ p ∈ mpixCallChain, ∀ x ∈ p.2.newFuncName,
      wrapperOf p.1 = some x ∧ x ∈ positionWrappers := by decide
  rcases Option.or_eq_some_iff.mp h with hnew | ⟨-, hnew⟩
  · obtain ⟨action, haction, hx⟩ := Option.bind_eq_some_iff.mp hnew
    exact hmpi _ (mem_of_mpiCall haction) w hx
  · obtain ⟨action, haction, hx⟩ := Option.bind_eq_some_iff.mp hnew
    exact hmpix _ (mem_of_mpixCall haction) w hx

variable {callee : Value}

theorem observe_call (hop : I.opcode = .call callee args) (hi : callee.symbol? = some i)
    (hn : tf.name? i = some n) : observe tf I = observeCall args n := by
  rw [observe, hop]
  simp [hi, hn]

theorem image_call (hop : I.opcode = .call callee args) (hi : callee.symbol? = some i)
    (hn : t₀.name? i = some n) : image t₀ I = imageCall I args n := by
  rw [image, hop]
  simp [hi, hn]

/-- A direct call that is replaced. -/
theorem outcome_of_replaced (hop : I.opcode = .call (.global i) args) (hn : t₀.name? i = some n)
    (hw : replacementOf n = some w) : outcome t₀ tf I = image t₀ I := by
  obtain ⟨hwrapper, hposition⟩ := wrapperOf_of_replacementOf hw
  rw [image_call hop rfl hn, imageCall, hwrapper]
  simp [outcome, hop, hn, hw, hposition]

/-- Any other call. -/
theorem outcome_of_not_replaced (hop : I.opcode = .call callee args)
    (hi : callee.symbol? = some i) (hn : t₀.name? i = some n)
    (hnot : ¬ (callee = .global i ∧ (replacementOf n).isSome)) :
    outcome t₀ tf I = observe tf I := by
  cases callee with
  | global j =>
      obtain rfl : j = i := Option.some.inj hi
      have hnone : replacementOf n = none := by simpa using hnot
      simp [outcome, hop, hn, hnone]
  | cast v => simp [outcome, hop]
  | register id => cases hi
  | int k => cases hi
  | string s => cases hi

end Outcome

/-! ## The whole function -/

section Function

variable {F : LlvmFunction} {tf : SymbolTable} {I : Instruction} {i : Nat} {n : String}

/-- The symbols that the pass renames in the function. -/
def LlvmFunction.renamed (F : LlvmFunction) : Set Nat :=
  {j | ∃ J ∈ F.body, j ∈ renamedBy F.symbols J}

theorem mem_renamed_iff (hn : F.symbols.name? i = some n) :
    i ∈ F.renamed ↔ ∃ J ∈ F.body, RenamesAt J i n := by
  refine ⟨?_, fun ⟨J, hJ, hren⟩ => ⟨J, hJ, n, hn, hren⟩⟩
  intro hparts
  rcases hparts with ⟨J, hJ, m, hm, hren⟩
  obtain rfl := Option.some.inj (hm.symm.trans hn)
  exact ⟨J, hJ, hren⟩

theorem evolves_instrument :
    Evolves passRules F.symbols (instrumentMemAccesses F).symbols F.renamed := by
  have h : Evolves passRules F.symbols (visitAll F.body F.symbols).1 (∅ ∪ F.renamed) :=
    evolves_visitAll Evolves.refl
  rwa [Set.empty_union] at h

theorem trace_instrument : trace (instrumentMemAccesses F) =
    F.body.flatMap (outcome F.symbols (instrumentMemAccesses F).symbols) :=
  observe_visitAll Evolves.refl F.declared Keeps.refl

/-- The name a routine has in the end. -/
theorem exists_final_name (hn : F.symbols.name? i = some n) :
    ∃ nf, (instrumentMemAccesses F).symbols.name? i = some nf ∧
      (i ∈ F.renamed ∧ (∃ v, newNameOf n = some v ∧ F.symbols.RenamedTo v nf) ∨
        i ∉ F.renamed ∧ nf = n) := by
  by_cases hdone : i ∈ F.renamed
  · obtain ⟨v, hv, nf, hnf, hren⟩ := evolves_instrument.renamed hn hdone
    exact ⟨nf, hnf, .inl ⟨hdone, v, hv, hren⟩⟩
  · exact ⟨n, evolves_instrument.kept hn hdone, .inr ⟨hdone, rfl⟩⟩

/-- A routine without a wrapper is no more seen under its new name than under its old one. -/
theorem observeCall_final {nf : String} {args : List Value} (hw : wrapperOf n = none)
    (hfinal : i ∈ F.renamed ∧ (∃ v, newNameOf n = some v ∧ F.symbols.RenamedTo v nf) ∨
      i ∉ F.renamed ∧ nf = n) : observeCall args nf = observeCall args n := by
  rcases hfinal with ⟨-, v, hv, hren⟩ | ⟨-, rfl⟩
  · have hold : n ∉ entryPoints :=
      not_mem_entryPoints_of_mpiNamed (mpiNamed_of_newNameOf hv).1
    have hnf : nf ∉ entryPoints := by
      rcases hren.dotted_or_eq with hdot | rfl
      · exact not_mem_entryPoints_of_dotted hdot
      · rcases wrapperOf_of_newNameOf hv with ⟨hsome, -⟩ | ⟨-, hnew⟩
        · rw [hw] at hsome
          cases hsome
        · exact hnew
    rw [observeCall, observeCall, if_neg hold, if_neg hnf]
  · rfl

/-- What is seen in the place of an instruction that is covered is its image. -/
theorem outcome_of_covered (hI : I ∈ F.body) (hcovered : Covered F I) :
    outcome F.symbols (instrumentMemAccesses F).symbols I = image F.symbols I := by
  rcases hop : I.opcode with operand | ⟨callee, args⟩ | ⟨pointer, bits⟩ | ⟨pointer, bits⟩ | -
  case call =>
    rcases hi : callee.symbol? with - | i
    · cases callee <;> simp_all [outcome, image, observe, Value.symbol?]
    · have hcallee : I.callee? = some i := (Instruction.callee?_call hop).trans hi
      obtain ⟨n, hn⟩ := Option.isSome_iff_exists.mp (F.declared I hI i hcallee)
      by_cases hreplaced : callee = .global i ∧ (replacementOf n).isSome
      · obtain ⟨rfl, hsome⟩ := hreplaced
        obtain ⟨w, hw⟩ := Option.isSome_iff_exists.mp hsome
        exact outcome_of_replaced hop hn hw
      · obtain ⟨nf, hnf, hfinal⟩ := exists_final_name hn
        rw [outcome_of_not_replaced hop hi hn hreplaced, observe_call hop hi hnf,
          image_call hop hi hn, imageCall]
        rcases hw : wrapperOf n with - | w
        · exact observeCall_final hw hfinal
        · obtain ⟨hfree, hren⟩ := (hcovered i n w hcallee hn hw).resolve_left fun hdirect =>
            hreplaced ⟨by
              obtain ⟨args', heq⟩ := hdirect.1
              rw [hop] at heq
              exact (Opcode.call.inj heq).1, hdirect.2⟩
          obtain ⟨-, v, hv, hnew⟩ := hfinal.resolve_right fun hkept =>
            hkept.1 ((mem_renamed_iff hn).mpr hren)
          obtain ⟨rfl, hposition⟩ := newNameOf_wrapperOf hv hw
          unfold RenamedTo at hnew
          rw [if_neg hfree] at hnew
          rw [hnew, observeCall, if_pos (wrapperOf_entryPoints hw).2]
          simp [hposition]
  all_goals simp [outcome, hop]

/-- What is not covered is not seen, but has an image. -/
theorem outcome_of_not_covered (hcovered : ¬ Covered F I) :
    outcome F.symbols (instrumentMemAccesses F).symbols I = [] ∧
      (image F.symbols I).length = 1 := by
  unfold Covered at hcovered
  push Not at hcovered
  obtain ⟨i, n, w, hcallee, hn, hw, hreplaced, hren⟩ := hcovered
  rcases hop : I.opcode with operand | ⟨callee, args⟩ | ⟨pointer, bits⟩ | ⟨pointer, bits⟩ | -
  case call =>
    have hi : callee.symbol? = some i := (Instruction.callee?_call hop).symm.trans hcallee
    obtain ⟨nf, hnf, hfinal⟩ := exists_final_name hn
    rw [image_call hop hi hn, imageCall, hw, outcome_of_not_replaced hop hi hn ?_,
      observe_call hop hi hnf, observeCall]
    refine ⟨if_neg ?_, rfl⟩
    rcases hfinal with ⟨hdone, v, hv, hnew⟩ | ⟨-, rfl⟩
    · obtain ⟨rfl, -⟩ := newNameOf_wrapperOf hv hw
      unfold RenamedTo at hnew
      rw [if_pos ?_] at hnew
      · exact not_mem_entryPoints_of_dotted hnew
      · by_contra hfree
        obtain ⟨J, hJ, hat⟩ := (mem_renamed_iff hn).mp hdone
        exact hren hfree J hJ hat
    · exact (wrapperOf_entryPoints hw).1
    · intro hparts
      rcases hparts with ⟨rfl, hsome⟩
      exact hreplaced ⟨args, hop⟩ hsome
  all_goals
    simp [Instruction.callee?, hop] at hcallee

theorem outcome_length_le (hI : I ∈ F.body) :
    (outcome F.symbols (instrumentMemAccesses F).symbols I).length ≤
      (image F.symbols I).length := by
  by_cases hcovered : Covered F I
  · rw [outcome_of_covered hI hcovered]
  · rw [(outcome_of_not_covered hcovered).1]
    exact Nat.zero_le _

theorem trace_eq_iff :
    trace (instrumentMemAccesses F) = F.body.flatMap (image F.symbols) ↔
      ∀ I ∈ F.body, Covered F I := by
  rw [trace_instrument]
  constructor
  · intro heq I hI
    by_contra hcovered
    obtain ⟨hnil, hone⟩ := outcome_of_not_covered hcovered
    -- Then less is seen than there is in the image.
    have hlt : (F.body.map fun J =>
          (outcome F.symbols (instrumentMemAccesses F).symbols J).length).sum <
        (F.body.map fun J => (image F.symbols J).length).sum := by
      apply List.sum_lt_sum
      · exact fun J hJ => outcome_length_le hJ
      · exact ⟨I, hI, by rw [hnil, hone]; exact Nat.one_pos⟩
    have hlength := congrArg List.length heq
    rw [List.length_flatMap, List.length_flatMap] at hlength
    exact absurd hlength hlt.ne
  · intro hcovered
    exact List.flatMap_congr fun I hI => outcome_of_covered hI (hcovered I hI)

/-- A routine that has been renamed has no wrapper under its new name. -/
theorem wrapperOf_renamed {v nf : String} (hv : newNameOf n = some v)
    (hren : F.symbols.RenamedTo v nf) : wrapperOf nf = none := by
  rcases hren.dotted_or_eq with hdot | rfl
  · by_contra hne
    obtain ⟨w, hw⟩ := Option.ne_none_iff_exists'.mp hne
    have hall : ∀ p ∈ wrappers, ¬ Dotted p.1 := by decide
    exact hall _ (mem_of_firstMatch hw) hdot
  · exact wrapperOf_eq_none (mpiNamed_of_newNameOf hv).2

/-- If all calls are covered, none of a routine that has a wrapper is left. -/
theorem redirected_of_covered (hcovered : ∀ I ∈ F.body, Covered F I) {J : Instruction}
    (hJ : J ∈ (instrumentMemAccesses F).body) (hcallee : J.callee? = some i)
    (hname : (instrumentMemAccesses F).symbols.name? i = some n) : wrapperOf n = none := by
  rcases mem_eraseMarked_visitAll Evolves.refl hJ with ⟨hold, t, done, h, hkept⟩ | hadded
  · obtain ⟨m, hm⟩ := Option.isSome_iff_exists.mp (F.declared J hold i hcallee)
    obtain ⟨nf, hnf, hfinal⟩ := exists_final_name hm
    obtain rfl := Option.some.inj (hnf.symm.trans hname)
    rcases hfinal with ⟨-, v, hv, hren⟩ | ⟨hdone, rfl⟩
    · exact wrapperOf_renamed hv hren
    · by_contra hne
      obtain ⟨w, hw⟩ := Option.ne_none_iff_exists'.mp hne
      rcases hcovered J hold i nf w hcallee hm hw with ⟨⟨args, hop⟩, hsome⟩ | ⟨-, hren⟩
      · obtain ⟨x, hx⟩ := Option.isSome_iff_exists.mp hsome
        rw [toDelete_of_replaced h hop hm hx] at hkept
        cases hkept
      · exact hdone ((mem_renamed_iff hm).mpr hren)
  · obtain ⟨m, hm, hmname⟩ := hadded i hcallee
    obtain rfl := Option.some.inj (hmname.symm.trans hname)
    exact wrapperOf_eq_none (not_mpiNamed_of_mem_addedNames hm)

/-- The pass instruments a function as it is to exactly if it covers all calls. -/
theorem instrumented_iff (F : LlvmFunction) :
    Instrumented F (instrumentMemAccesses F) ↔ ∀ I ∈ F.body, Covered F I := by
  constructor
  · intro h
    exact trace_eq_iff.mp h.trace
  · intro hcovered
    exact ⟨trace_eq_iff.mpr hcovered,
      fun J hJ i n hcallee hname => redirected_of_covered hcovered hJ hcallee hname⟩

/-- A function that calls `MPI_Win_fence`. -/
def exampleFence : LlvmFunction where
  symbols := ⟨["MPI_Win_fence"], List.nodup_singleton _⟩
  body := [⟨.call (.global 0) [.int 0, .register 1], none⟩]
  declared := by
    intro I hI i hi
    obtain rfl := List.mem_singleton.mp hI
    cases hi
    rfl

/-- The call is left as it is. -/
theorem not_instrumented_of_fence :
    ¬ ∀ F : LlvmFunction, Instrumented F (instrumentMemAccesses F) := by
  intro h
  have htrace := (h exampleFence).trace
  exact absurd htrace (by decide)

end Function

end ParcoachRma
