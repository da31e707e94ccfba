import ParcoachRma.Lib.SymbolTable

/-!
# The instrumentation pass

`ParcoachRMA::instrumentMemAccesses` walks over the instructions of a function.  Before each load
and store it puts a call of the hook; calls of MPI routines are turned into calls of the wrappers,
by renaming the declaration of the routine (in the whole module) or, where the wrapper also takes
the source position, by a new call.  Fortran calls are recognised at the cast of the routine.

`evolves_visitAll`: through the loop the names of the symbols follow `passRules`, and what is put
into the body calls the symbols that are added only (`mem_eraseMarked_visitAll`).
-/

namespace ParcoachRma

open SymbolTable

/-! ## Functions -/

/-- The source position of an instruction. -/
structure DebugLoc where
  line : Nat
  file : String
  deriving DecidableEq, Repr

/-- An operand.  `cast` is the result of a cast instruction. -/
inductive Value where
  | global (symbol : Nat)
  | register (id : Nat)
  | int (n : Nat)
  | string (s : String)
  | cast (v : Value)
  deriving DecidableEq, Repr

/-- The symbol behind the casts. -/
def Value.symbol? : Value → Option Nat
  | .global i => some i
  | .cast v => v.symbol?
  | .register _ | .int _ | .string _ => none

/-- The kinds of instructions the pass tells apart.  The size of an access is that of the type the
pointer refers to, in bits. -/
inductive Opcode where
  | bitCast (operand : Value)
  | call (callee : Value) (args : List Value)
  | store (pointer : Value) (bits : Nat)
  | load (pointer : Value) (bits : Nat)
  | other
  deriving DecidableEq, Repr

structure Instruction where
  opcode : Opcode
  debugLoc : Option DebugLoc
  deriving DecidableEq, Repr

namespace Instruction

/-- The source line, 0 if it is not known. -/
def line (I : Instruction) : Nat := (I.debugLoc.map (·.line)).getD 0

/-- The source file, empty if it is not known. -/
def file (I : Instruction) : String := (I.debugLoc.map (·.file)).getD ""

/-- The routine that is called. -/
def callee? (I : Instruction) : Option Nat :=
  match I.opcode with
  | .call callee _ => callee.symbol?
  | _ => none

theorem callee?_call {I : Instruction} {callee : Value} {args : List Value}
    (hop : I.opcode = .call callee args) : I.callee? = callee.symbol? := by
  simp only [callee?, hop]

end Instruction

/-- A function with the symbols of its module.  The routines it calls are declared there. -/
structure LlvmFunction where
  symbols : SymbolTable
  body : List Instruction
  declared : ∀ I ∈ body, ∀ i, I.callee? = some i → (symbols.name? i).isSome

/-! ## The tests on names -/

/-- Names are compared byte by byte. -/
def startsWith (s start : String) : Bool := (bytesOf start).isPrefixOf (bytesOf s)

/-- The first entry of a chain of tests that a name passes. -/
def firstMatch {α : Type} (chain : List (String × α)) (name : String) : Option α :=
  (chain.find? (·.1 = name)).map (·.2)

/-- What the pass does with the routine a call refers to, or with the call. -/
inductive CallAction where
  | rename (newName : String)
  | replace (newFuncName : String)
  | count
  deriving DecidableEq, Repr

def mpiBitCastChain : List (String × String) :=
  [("mpi_put_", "new_put_"),
    ("mpi_get_", "new_get_"),
    ("mpi_accumulate_", "new_accumulate_"),
    ("mpi_win_create_", "new_win_create_"),
    ("mpi_win_free_", "new_win_free_"),
    ("mpi_fence_", "new_fence_"),
    ("mpi_win_unlock_all_", "new_win_unlock_all_"),
    ("mpi_win_unlock_", "new_win_unlock_"),
    ("mpi_win_lock_", "new_win_lock_"),
    ("mpi_win_lock_all_", "new_win_lock_all_"),
    ("mpi_win_flush_", "new_win_flush_"),
    ("mpi_barrier_", "new_barrier_")]

def mpixBitCastChain : List (String × String) :=
  [("mpix_put_notify_", "new_put_notify_"),
    ("mpix_win_create_notify_", "new_win_create_notify_"),
    ("mpix_win_wait_notify_", "new_win_wait_notify_")]

def mpiCallChain : List (String × CallAction) :=
  [("MPI_Get", .replace "new_Get"),
    ("MPI_Put", .replace "new_Put"),
    ("MPI_Win_create", .rename "new_Win_create"),
    ("MPI_Accumulate", .rename "new_Accumulate"),
    ("MPI_Win_fence", .count),
    ("MPI_Win_lock", .rename "new_Win_lock"),
    ("MPI_Win_unlock", .rename "new_Win_unlock"),
    ("MPI_Win_unlock_all", .rename "new_Win_unlock_all"),
    ("MPI_Win_lock_all", .rename "new_Win_lock_all"),
    ("MPI_Win_free", .rename "new_Win_free"),
    ("MPI_Barrier", .rename "new_Barrier")]

def mpixCallChain : List (String × CallAction) :=
  [("MPIX_Put_notify", .replace "new_Put_notify"),
    ("MPIX_Get_notify", .replace "new_Get_notify"),
    ("MPIX_Win_create_notify", .rename "new_Win_create_notify"),
    ("MPIX_Win_wait_notify", .rename "new_Win_wait_notify"),
    ("MPIX_Win_test_notify", .rename "new_Win_test_notify")]

/-- The operand of a cast in a Fortran program. -/
def mpiBitCast (name : String) : Option String := firstMatch mpiBitCastChain name

/-- The test for the start of the name comes first in the chain, not before it. -/
def mpixBitCast (name : String) : Option String :=
  if startsWith name "mpix_" then none else firstMatch mpixBitCastChain name

/-- The routine of a direct call. -/
def mpiCall (name : String) : Option CallAction :=
  if startsWith name "MPI_" then firstMatch mpiCallChain name else none

def mpixCall (name : String) : Option CallAction :=
  if startsWith name "MPIX_" then firstMatch mpixCallChain name else none

/-! ## The pass -/

/-- The arguments of a hook. -/
def hookArgs (addr : Value) (size : Nat) (I : Instruction) : List Value :=
  [.cast addr, .int size, .int I.line, .cast (.string I.file)]

/-- What is put before an instruction for a load or a store. -/
def createAndInsertFunction (I : Instruction) (addr : Value) (handler : Nat) (size : Nat) :
    List Instruction :=
  [⟨.bitCast addr, none⟩, ⟨.bitCast (.string I.file), none⟩,
    ⟨.call (.global handler) (hookArgs addr size I), none⟩]

/-- The source position, as the last arguments of a wrapper. -/
def positionArgs (I : Instruction) : List Value := [.cast (.string I.file), .int I.line]

/-- The new call, which is put before the old one. -/
def replaceCallInst (I : Instruction) (args : List Value) (newFunc : Nat) : List Instruction :=
  [⟨.bitCast (.string I.file), none⟩,
    ⟨.call (.global newFunc) (args ++ positionArgs I), none⟩]

/-- What one instruction leads to: the symbols, the instructions before it, and whether it is to be
deleted. -/
structure Visit where
  symbols : SymbolTable
  inserted : List Instruction
  toDelete : Bool

/-- A chain of tests on the routine of a direct call. -/
def visitCall (chain : String → Option CallAction) (I : Instruction) (i : Nat) (args : List Value)
    (t : SymbolTable) : Visit :=
  match (t.name? i).bind chain with
  | some (.rename newName) => ⟨t.setName i newName, [], false⟩
  | some (.replace newFuncName) =>
      let (t, newFunc) := t.getOrInsert newFuncName
      ⟨t, replaceCallInst I args newFunc, true⟩
  | some .count | none => ⟨t, [], false⟩

def visit (I : Instruction) (t : SymbolTable) : Visit :=
  match I.opcode with
  | .bitCast (.global i) => ⟨(t.rename mpiBitCast i).rename mpixBitCast i, [], false⟩
  | .call (.global i) args =>
      let mpi := visitCall mpiCall I i args t
      let mpix := visitCall mpixCall I i args mpi.symbols
      ⟨mpix.symbols, mpi.inserted ++ mpix.inserted, mpi.toDelete || mpix.toDelete⟩
  | .store pointer bits =>
      let (t, handler) := t.getOrInsert "STORE"
      ⟨t, createAndInsertFunction I pointer handler bits, false⟩
  | .load pointer bits =>
      let (t, handler) := t.getOrInsert "LOAD"
      ⟨t, createAndInsertFunction I pointer handler bits, false⟩
  -- Of other values only the names inside the function change; a call through a pointer has no
  -- called function.
  | .bitCast _ | .call _ _ | .other => ⟨t, [], false⟩

/-- The loop over the instructions.  What is put before an instruction is not visited; the calls to
be deleted are marked. -/
def visitAll : List Instruction → SymbolTable → SymbolTable × List (Instruction × Bool)
  | [], t => (t, [])
  | I :: rest, t =>
      let v := visit I t
      let (t, out) := visitAll rest v.symbols
      (t, v.inserted.map (·, false) ++ (I, v.toDelete) :: out)

/-- The instructions that are not marked. -/
def eraseMarked (out : List (Instruction × Bool)) : List Instruction :=
  (out.filter (!·.2)).map (·.1)

/-! ## The renaming rules of the pass -/

def CallAction.newName : CallAction → Option String
  | .rename newName => some newName
  | .replace _ | .count => none

def CallAction.newFuncName : CallAction → Option String
  | .replace newFuncName => some newFuncName
  | .rename _ | .count => none

/-- The name the pass gives to a routine, at a call or at a cast. -/
def newNameOf (name : String) : Option String :=
  ((mpiCall name).bind CallAction.newName).or
    (((mpixCall name).bind CallAction.newName).or (mpiBitCast name))

/-- All names with the new ones. -/
def newNames : List (String × String) :=
  (mpiCallChain ++ mpixCallChain).filterMap (fun p => p.2.newName.map (p.1, ·)) ++ mpiBitCastChain

theorem mem_of_firstMatch {α : Type} {chain : List (String × α)} {name : String} {x : α}
    (h : firstMatch chain name = some x) : (name, x) ∈ chain := by
  obtain ⟨p, hp, rfl⟩ := Option.map_eq_some_iff.mp h
  have hname : p.1 = name := by simpa using List.find?_some hp
  rw [← hname]
  exact List.mem_of_find?_eq_some hp

/-- No name passes the tests of the Fortran chain for notified operations: all of them are for names
that end the chain at its first test. -/
theorem mpixBitCast_eq_none (name : String) : mpixBitCast name = none := by
  unfold mpixBitCast
  split_ifs with hstart
  · rfl
  · by_contra hne
    obtain ⟨x, hx⟩ := Option.ne_none_iff_exists'.mp hne
    have hall : ∀ p ∈ mpixBitCastChain, startsWith p.1 "mpix_" = true := by decide
    exact hstart (hall _ (mem_of_firstMatch hx))

theorem mem_of_mpiCall {name : String} {action : CallAction} (h : mpiCall name = some action) :
    (name, action) ∈ mpiCallChain := by
  unfold mpiCall at h
  split_ifs at h
  exact mem_of_firstMatch h

theorem mem_of_mpixCall {name : String} {action : CallAction} (h : mpixCall name = some action) :
    (name, action) ∈ mpixCallChain := by
  unfold mpixCall at h
  split_ifs at h
  exact mem_of_firstMatch h

theorem mem_newNames {name w : String} (h : newNameOf name = some w) : (name, w) ∈ newNames := by
  have hcall {action : CallAction} (hmem : (name, action) ∈ mpiCallChain ++ mpixCallChain)
      (hnew : action.newName = some w) : (name, w) ∈ newNames := by
    apply List.mem_append_left
    exact List.mem_filterMap.mpr ⟨_, hmem, by rw [hnew]; rfl⟩
  unfold newNameOf at h
  rcases Option.or_eq_some_iff.mp h with hmpi | ⟨-, h⟩
  · obtain ⟨action, haction, hnew⟩ := Option.bind_eq_some_iff.mp hmpi
    exact hcall (List.mem_append_left _ (mem_of_mpiCall haction)) hnew
  rcases Option.or_eq_some_iff.mp h with hmpix | ⟨-, h⟩
  · obtain ⟨action, haction, hnew⟩ := Option.bind_eq_some_iff.mp hmpix
    exact hcall (List.mem_append_right _ (mem_of_mpixCall haction)) hnew
  · exact List.mem_append_right _ (mem_of_firstMatch h)

/-- The hooks and the wrappers that new calls are made of. -/
def addedNames : List String :=
  ["LOAD", "STORE", "new_Get", "new_Put", "new_Put_notify", "new_Get_notify"]

/-- The name starts like those of MPI routines, in C or in Fortran. -/
def MpiNamed (name : String) : Prop :=
  (bytesOf name).head? = some 77 ∨ (bytesOf name).head? = some 109

instance (name : String) : Decidable (MpiNamed name) :=
  inferInstanceAs (Decidable ((bytesOf name).head? = some 77 ∨ (bytesOf name).head? = some 109))

/-- The pass renames routines, and not to names of routines. -/
theorem mpiNamed_of_newNameOf {name w : String} (h : newNameOf name = some w) :
    MpiNamed name ∧ ¬ MpiNamed w := by
  have hall : ∀ p ∈ newNames, MpiNamed p.1 ∧ ¬ MpiNamed p.2 := by decide
  exact hall _ (mem_newNames h)

theorem newNameOf_eq_none {name : String} (h : ¬ MpiNamed name) : newNameOf name = none := by
  by_contra hne
  obtain ⟨w, hw⟩ := Option.ne_none_iff_exists'.mp hne
  exact h (mpiNamed_of_newNameOf hw).1

theorem not_mpiNamed_of_mem_addedNames {name : String} (h : name ∈ addedNames) :
    ¬ MpiNamed name := by
  have hall : ∀ n ∈ addedNames, ¬ MpiNamed n := by decide
  exact hall name h

/-- The pass renames by rules. -/
def passRules : RenameRules where
  target := newNameOf
  added := addedNames
  inj := by
    intro m n w hm hn
    have hnodup : (newNames.map (·.2)).Nodup := by decide
    have heq := List.inj_on_of_nodup_map hnodup (mem_newNames hm) (mem_newNames hn) rfl
    exact congrArg Prod.fst heq
  final := by
    intro n w h
    exact newNameOf_eq_none (mpiNamed_of_newNameOf h).2
  noDot := by
    intro n w h
    have hall : ∀ p ∈ newNames, ¬ Dotted p.2 := by decide
    exact hall _ (mem_newNames h)
  dot := by
    intro n hdot
    by_contra hne
    obtain ⟨w, hw⟩ := Option.ne_none_iff_exists'.mp hne
    have hall : ∀ p ∈ newNames, ¬ Dotted p.1 := by decide
    exact hall _ (mem_newNames hw) hdot
  target_added n h := newNameOf_eq_none (not_mpiNamed_of_mem_addedNames h)
  notMem_added := by
    intro n w h
    have hall : ∀ p ∈ newNames, p.2 ∉ addedNames := by decide
    exact hall _ (mem_newNames h)

/-! ## What one instruction does to the names -/

section Visit

variable {t₀ t t' : SymbolTable} {done : Set Nat} {I : Instruction} {i : Nat} {args : List Value}
  {name : String} {chain : String → Option CallAction}

/-- A chain that renames by the rules and makes calls of the added wrappers. -/
structure PassChain (chain : String → Option CallAction) : Prop where
  rename : ∀ {n w}, (chain n).bind CallAction.newName = some w → newNameOf n = some w
  replace : ∀ {n w}, chain n = some (.replace w) → w ∈ addedNames

theorem passChain_mpiCall : PassChain mpiCall where
  rename h := by rw [newNameOf, h, Option.some_or]
  replace h := by
    have hall : ∀ p ∈ mpiCallChain, ∀ w ∈ p.2.newFuncName, w ∈ addedNames := by decide
    exact hall _ (mem_of_mpiCall h) _ rfl

/-- A name that passes a test of the first chain passes none of the second. -/
theorem mpixCall_eq_none {action : CallAction} (h : mpiCall name = some action) :
    mpixCall name = none := by
  have hall : ∀ p ∈ mpiCallChain, mpixCall p.1 = none := by decide
  exact hall _ (mem_of_mpiCall h)

theorem passChain_mpixCall : PassChain mpixCall where
  rename {n w} h := by
    have hnone : mpiCall n = none := by
      by_contra hne
      obtain ⟨action, haction⟩ := Option.ne_none_iff_exists'.mp hne
      rw [mpixCall_eq_none haction] at h
      cases h
    rw [newNameOf, hnone, Option.bind_none, Option.none_or, h, Option.some_or]
  replace h := by
    have hall : ∀ p ∈ mpixCallChain, ∀ w ∈ p.2.newFuncName, w ∈ addedNames := by decide
    exact hall _ (mem_of_mpixCall h) _ rfl

/-- After a chain, the symbol has been renamed if a test says so. -/
theorem evolves_visitCall (hchain : PassChain chain) (h : Evolves passRules t₀ t done) :
    Evolves passRules t₀ (visitCall chain I i args t).symbols
      {j | j ∈ done ∨ j = i ∧ ∃ n w, t₀.name? i = some n ∧
        (chain n).bind CallAction.newName = some w} := by
  have hrename := h.rename hchain.rename i
  unfold SymbolTable.rename at hrename
  rw [← Option.bind_assoc] at hrename
  unfold visitCall
  rcases haction : (t.name? i).bind chain with - | action
  · rwa [haction] at hrename
  · rw [haction] at hrename
    obtain ⟨n, -, hn⟩ := Option.bind_eq_some_iff.mp haction
    cases action with
    | rename newName => exact hrename
    | replace newFuncName => exact hrename.insert (hchain.replace hn)
    | count => exact hrename

theorem keeps_visitCall (hchain : PassChain chain) :
    Keeps passRules t (visitCall chain I i args t).symbols := by
  have hrename : Keeps passRules t (t.rename _ i) := Keeps.rename hchain.rename i
  unfold SymbolTable.rename at hrename
  rw [← Option.bind_assoc] at hrename
  unfold visitCall
  rcases haction : (t.name? i).bind chain with - | action
  · exact Keeps.refl
  · rw [haction] at hrename
    cases action with
    | rename newName => exact hrename
    | replace newFuncName => exact Keeps.getOrInsert newFuncName
    | count => exact Keeps.refl

/-- The instruction makes the pass rename the symbol `j`, of the name `n`. -/
def RenamesAt (I : Instruction) (j : Nat) (n : String) : Prop :=
  (∃ args, I.opcode = .call (.global j) args) ∧
      (((mpiCall n).bind CallAction.newName).isSome ∨
        ((mpixCall n).bind CallAction.newName).isSome) ∨
    I.opcode = .bitCast (.global j) ∧ (mpiBitCast n).isSome

/-- The symbols that the instruction makes the pass rename. -/
def renamedBy (t₀ : SymbolTable) (I : Instruction) : Set Nat :=
  {j | ∃ n, t₀.name? j = some n ∧ RenamesAt I j n}

theorem mem_renamedBy_call {j : Nat} (hop : I.opcode = .call (.global i) args) :
    j ∈ renamedBy t₀ I ↔ j = i ∧ ∃ n, t₀.name? i = some n ∧
      (((mpiCall n).bind CallAction.newName).isSome ∨
        ((mpixCall n).bind CallAction.newName).isSome) := by
  unfold renamedBy RenamesAt
  rw [hop]
  constructor
  · intro hparts
    rcases hparts with ⟨n, hn, ⟨⟨args', heq⟩, hnew⟩ | ⟨heq, -⟩⟩
    · cases heq
      exact ⟨rfl, n, hn, hnew⟩
    · cases heq
  · intro hparts
    rcases hparts with ⟨rfl, n, hn, hnew⟩
    exact ⟨n, hn, .inl ⟨⟨args, rfl⟩, hnew⟩⟩

theorem mem_renamedBy_bitCast {j : Nat} (hop : I.opcode = .bitCast (.global i)) :
    j ∈ renamedBy t₀ I ↔ j = i ∧ ∃ n, t₀.name? i = some n ∧ (mpiBitCast n).isSome := by
  unfold renamedBy RenamesAt
  rw [hop]
  constructor
  · intro hparts
    rcases hparts with ⟨n, hn, ⟨⟨args', heq⟩, -⟩ | ⟨heq, hnew⟩⟩
    · cases heq
    · cases heq
      exact ⟨rfl, n, hn, hnew⟩
  · intro hparts
    rcases hparts with ⟨rfl, n, hn, hnew⟩
    exact ⟨n, hn, .inr ⟨rfl, hnew⟩⟩

/-- Only direct calls and casts of symbols rename. -/
theorem renamedBy_eq_empty (hcall : ∀ i args, I.opcode ≠ .call (.global i) args)
    (hcast : ∀ i, I.opcode ≠ .bitCast (.global i)) : renamedBy t₀ I = ∅ := by
  apply Set.eq_empty_of_forall_notMem
  intro j hparts
  rcases hparts with ⟨n, -, ⟨⟨args, hop⟩, -⟩ | ⟨hop, -⟩⟩
  · exact hcall j args hop
  · exact hcast j hop

theorem newNameOf_of_mpiBitCast {n w : String} (h : mpiBitCast n = some w) :
    newNameOf n = some w := by
  have hall : ∀ p ∈ mpiBitCastChain, newNameOf p.1 = some p.2 := by decide
  exact hall _ (mem_of_firstMatch h)

theorem newNameOf_of_mpixBitCast {n w : String} (h : mpixBitCast n = some w) :
    newNameOf n = some w := by
  rw [mpixBitCast_eq_none] at h
  cases h

theorem evolves_visit (h : Evolves passRules t₀ t done) :
    Evolves passRules t₀ (visit I t).symbols (done ∪ renamedBy t₀ I) := by
  have hother (hcall : ∀ i args, I.opcode ≠ .call (.global i) args)
      (hcast : ∀ i, I.opcode ≠ .bitCast (.global i)) : done ∪ renamedBy t₀ I = done := by
    rw [renamedBy_eq_empty hcall hcast, Set.union_empty]
  unfold visit
  split
  · rename_i i hop
    convert (h.rename newNameOf_of_mpiBitCast i).rename newNameOf_of_mpixBitCast i using 1
    ext j
    rw [Set.mem_union, mem_renamedBy_bitCast hop]
    simp [mpixBitCast_eq_none, Option.isSome_iff_exists]
  · rename_i i args hop
    convert evolves_visitCall passChain_mpixCall (evolves_visitCall passChain_mpiCall h) using 1
    ext j
    rw [Set.mem_union, mem_renamedBy_call hop]
    simp [Option.isSome_iff_exists, and_or_left, exists_or, or_assoc]
  · rename_i pointer bits hop
    rw [hother (by simp [hop]) (by simp [hop])]
    exact h.insert (by decide)
  · rename_i pointer bits hop
    rw [hother (by simp [hop]) (by simp [hop])]
    exact h.insert (by decide)
  · rename_i operand hcast hop
    rwa [hother (by simp [hop]) (by simpa [hop] using hcast)]
  · rename_i callee args hcall hop
    rwa [hother (by simpa [hop] using hcall) (by simp [hop])]
  · rename_i hop
    rwa [hother (by simp [hop]) (by simp [hop])]

theorem keeps_visit : Keeps passRules t (visit I t).symbols := by
  unfold visit
  split
  · rename_i i hop
    exact (Keeps.rename newNameOf_of_mpiBitCast i).trans (Keeps.rename newNameOf_of_mpixBitCast i)
  · exact (keeps_visitCall passChain_mpiCall).trans (keeps_visitCall passChain_mpixCall)
  · exact Keeps.getOrInsert "STORE"
  · exact Keeps.getOrInsert "LOAD"
  · exact Keeps.refl
  · exact Keeps.refl
  · exact Keeps.refl

/-! ## What a whole body does to the names -/

variable {body : List Instruction}

theorem evolves_visitAll (h : Evolves passRules t₀ t done) :
    Evolves passRules t₀ (visitAll body t).1 (done ∪ {j | ∃ I ∈ body, j ∈ renamedBy t₀ I}) := by
  induction body generalizing t done with
  | nil => simpa [visitAll] using h
  | cons I body ih =>
      have heq : done ∪ {j | ∃ J ∈ I :: body, j ∈ renamedBy t₀ J} =
          done ∪ renamedBy t₀ I ∪ {j | ∃ J ∈ body, j ∈ renamedBy t₀ J} := by
        ext j
        simp [or_assoc]
      rw [heq]
      exact ih (evolves_visit h)

theorem keeps_visitAll : Keeps passRules t (visitAll body t).1 := by
  induction body generalizing t with
  | nil => exact Keeps.refl
  | cons I body ih => exact keeps_visit.trans ih

/-- An instruction that is put before another one, if it is a call, calls an added symbol. -/
def CallsAdded (t : SymbolTable) (J : Instruction) : Prop :=
  ∀ i, J.callee? = some i → ∃ n ∈ addedNames, t.name? i = some n

theorem CallsAdded.keeps {J : Instruction} (h : CallsAdded t J) (hkeeps : Keeps passRules t t') :
    CallsAdded t' J := by
  intro i hi
  obtain ⟨n, hn, hname⟩ := h i hi
  exact ⟨n, hn, hkeeps i n hname (passRules.target_added n hn)⟩

theorem callsAdded_createAndInsertFunction {name : String} (hname : name ∈ addedNames)
    {addr : Value} {size : Nat} {J : Instruction}
    (hJ : J ∈ createAndInsertFunction I addr (t.getOrInsert name).2 size) :
    CallsAdded (t.getOrInsert name).1 J := by
  simp only [createAndInsertFunction, List.mem_cons, List.not_mem_nil, or_false] at hJ
  rcases hJ with rfl | rfl | rfl
  · intro i hi
    cases hi
  · intro i hi
    cases hi
  · intro i hi
    cases hi
    exact ⟨name, hname, name?_getOrInsert_self t name⟩

theorem callsAdded_visitCall (hchain : PassChain chain) {J : Instruction}
    (hJ : J ∈ (visitCall chain I i args t).inserted) :
    CallsAdded (visitCall chain I i args t).symbols J := by
  unfold visitCall at hJ ⊢
  rcases haction : (t.name? i).bind chain with - | action
  · rw [haction] at hJ
    cases hJ
  · rw [haction] at hJ
    obtain ⟨n, -, hn⟩ := Option.bind_eq_some_iff.mp haction
    cases action with
    | rename newName => cases hJ
    | count => cases hJ
    | replace newFuncName =>
        change J ∈ replaceCallInst I args _ at hJ
        simp only [replaceCallInst, List.mem_cons, List.not_mem_nil, or_false] at hJ
        rcases hJ with rfl | rfl
        · intro i hi
          cases hi
        · intro i hi
          cases hi
          exact ⟨newFuncName, hchain.replace hn, name?_getOrInsert_self t newFuncName⟩

theorem callsAdded_visit {J : Instruction} (hJ : J ∈ (visit I t).inserted) :
    CallsAdded (visit I t).symbols J := by
  unfold visit at hJ ⊢
  split at hJ
  · cases hJ
  · rcases List.mem_append.mp hJ with hmpi | hmpix
    · exact (callsAdded_visitCall passChain_mpiCall hmpi).keeps (keeps_visitCall passChain_mpixCall)
    · exact callsAdded_visitCall passChain_mpixCall hmpix
  · exact callsAdded_createAndInsertFunction (by decide) hJ
  · exact callsAdded_createAndInsertFunction (by decide) hJ
  · cases hJ
  · cases hJ
  · cases hJ

theorem eraseMarked_visitAll_cons :
    eraseMarked (visitAll (I :: body) t).2 = (visit I t).inserted ++
      ((if (visit I t).toDelete then [] else [I]) ++
        eraseMarked (visitAll body (visit I t).symbols).2) := by
  cases hdelete : (visit I t).toDelete <;>
    simp [visitAll, eraseMarked, List.filter_map, Function.comp_def, hdelete]

/-- The instructions left are old ones that were not marked when they were visited, and such
calls. -/
theorem mem_eraseMarked_visitAll {J : Instruction} (h : Evolves passRules t₀ t done)
    (hJ : J ∈ eraseMarked (visitAll body t).2) :
    (J ∈ body ∧ ∃ t' done', Evolves passRules t₀ t' done' ∧ (visit J t').toDelete = false) ∨
      CallsAdded (visitAll body t).1 J := by
  induction body generalizing t done with
  | nil => cases hJ
  | cons I body ih =>
      rw [eraseMarked_visitAll_cons, List.mem_append, List.mem_append] at hJ
      rcases hJ with hinserted | hI | hrest
      · exact .inr ((callsAdded_visit hinserted).keeps keeps_visitAll)
      · left
        split_ifs at hI with hdelete
        · cases hI
        · obtain rfl := List.mem_singleton.mp hI
          exact ⟨List.mem_cons_self, t, done, h, Bool.eq_false_iff.mpr hdelete⟩
      · exact (ih (evolves_visit h) hrest).imp_left
          fun hold => ⟨List.mem_cons_of_mem I hold.1, hold.2⟩

end Visit

/-- A symbol with a name has one afterwards. -/
theorem isSome_of_evolves {t₀ t : SymbolTable} {done : Set Nat} {i : Nat}
    (h : Evolves passRules t₀ t done) (hi : (t₀.name? i).isSome) : (t.name? i).isSome := by
  obtain ⟨n, hn⟩ := Option.isSome_iff_exists.mp hi
  by_cases hdone : i ∈ done
  · obtain ⟨w, -, n', hn', -⟩ := h.renamed hn hdone
    exact Option.isSome_iff_exists.mpr ⟨n', hn'⟩
  · exact Option.isSome_iff_exists.mpr ⟨n, h.kept hn hdone⟩

/-- Instrument the accesses and calls of a function.  The statistics are left out. -/
def instrumentMemAccesses (F : LlvmFunction) : LlvmFunction where
  symbols := (visitAll F.body F.symbols).1
  body := eraseMarked (visitAll F.body F.symbols).2
  declared := by
    intro J hJ i hi
    rcases mem_eraseMarked_visitAll Evolves.refl hJ with ⟨hold, -⟩ | hadded
    · exact isSome_of_evolves (evolves_visitAll Evolves.refl) (F.declared J hold i hi)
    · obtain ⟨n, -, hn⟩ := hadded i hi
      exact Option.isSome_iff_exists.mpr ⟨n, hn⟩

end ParcoachRma
