import ParcoachRma.Transfer
import Mathlib.Data.Int.ModEq

/-!
# The Fortran wrappers

The entry points for Fortran get all their arguments by reference.  Where the C entry point has a
count, a displacement or a size, some of them cast the reference to a number instead of reading what
it refers to (`rma_analyzer_mpi_fort_overload.c`).

`fortran_agrees_iff`: a Fortran entry point records what the C entry point records for the values
exactly if these references happen to be worth as much as the values.
-/

namespace ParcoachRma

/-! ## Memory -/

/-- The integers in memory, by their address: what the wrappers read through an `int *`. -/
abbrev IntMemory := UInt64 → Int32

/-- An integer, converted to 64 bits. -/
def toUInt64 (v : Int32) : UInt64 := UInt64.ofInt v.toInt

/-- The addresses a one-sided operation is called with.  The first is the one of the data. -/
structure FortArgs where
  originAddr : UInt64
  originCount : UInt64
  originDatatype : UInt64
  targetRank : UInt64
  targetDisp : UInt64
  targetCount : UInt64
  targetDatatype : UInt64
  win : UInt64
  notificationId : UInt64

section Wrappers

-- `MPI_Type_size`, and the conversions of Fortran handles.
variable (mpiTypeSize : MpiDatatype → Nat) (typeF2c : Int32 → MpiDatatype)
  (winF2c : Int32 → MpiWin) (mem : IntMemory)

/-- The values stored at the addresses. -/
def FortArgs.values (args : FortArgs) : RmaArgs where
  originAddr := args.originAddr
  originCount := (toUInt64 (mem args.originCount)).toNat
  originDatatype := typeF2c (mem args.originDatatype)
  targetRank := (mem args.targetRank).toNatClampNeg
  targetDisp := toUInt64 (mem args.targetDisp)
  targetCount := (toUInt64 (mem args.targetCount)).toNat
  targetDatatype := typeF2c (mem args.targetDatatype)

/-! ## Wrappers -/

/-- The call of `rma_analyzer_update_on_comm_send` a wrapper makes, for what it takes for the counts
and the displacement. -/
def FortArgs.commSend (args : FortArgs) (originCount targetDisp targetCount : UInt64)
    (localAccessType targetAccessType : AccessType) (notifId : Int) : CommSend where
  localAddress := args.originAddr
  localSize := UInt64.ofNat (mpiTypeSize (typeF2c (mem args.originDatatype))) * originCount
  targetDisp := targetDisp
  targetSize := UInt64.ofNat (mpiTypeSize (typeF2c (mem args.targetDatatype))) * targetCount
  targetRank := (mem args.targetRank).toNatClampNeg
  localAccessType := localAccessType
  targetAccessType := targetAccessType
  notifId := notifId
  fileline := 0
  filename := none

namespace Fort

def newPut (args : FortArgs) (a : Analyzer) : Except Fault (ShadowMessage × Analyzer) :=
  rmaAnalyzerUpdateOnCommSend
    (args.commSend mpiTypeSize typeF2c mem args.originCount (toUInt64 (mem args.targetDisp))
      (toUInt64 (mem args.targetCount)) .rmaRead .rmaWrite (-1)) (winF2c (mem args.win)) a

def newGet (args : FortArgs) (a : Analyzer) : Except Fault (ShadowMessage × Analyzer) :=
  rmaAnalyzerUpdateOnCommSend
    (args.commSend mpiTypeSize typeF2c mem args.originCount args.targetDisp args.targetCount
      .rmaWrite .rmaRead (-1)) (winF2c (mem args.win)) a

def newAccumulate (args : FortArgs) (a : Analyzer) : Except Fault (ShadowMessage × Analyzer) :=
  rmaAnalyzerUpdateOnCommSend
    (args.commSend mpiTypeSize typeF2c mem args.originCount args.targetDisp args.targetCount
      .rmaRead .rmaWrite (-1)) (winF2c (mem args.win)) a

/-- The weak symbol of the library is linked, as the C wrapper is only built where it is. -/
def newPutNotify (args : FortArgs) (a : Analyzer) : Except Fault (ShadowMessage × Analyzer) :=
  rmaAnalyzerUpdateOnCommSend
    (args.commSend mpiTypeSize typeF2c mem args.originCount (toUInt64 (mem args.targetDisp))
      (toUInt64 (mem args.targetCount)) .rmaRead .rmaWrite (mem args.notificationId).toInt)
    (winF2c (mem args.win)) a

def newGetNotify (args : FortArgs) (a : Analyzer) : Except Fault (ShadowMessage × Analyzer) :=
  rmaAnalyzerUpdateOnCommSend
    (args.commSend mpiTypeSize typeF2c mem args.originCount args.targetDisp args.targetCount
      .rmaWrite .rmaRead (mem args.notificationId).toInt) (winF2c (mem args.win)) a

/-- The size and the communicator are handed over as the references they are. -/
def newWinCreate (base size comm : UInt64) (sizeComm : Nat) (win : MpiWin)
    (filterWindow : Option Int) (a : Analyzer) : Except Fault Analyzer :=
  rmaAnalyzerStart base size comm.toNat sizeComm win .fort filterWindow a

end Fort

/-! ## Operations -/

/-- The operations that both languages have a wrapper for. -/
inductive FortCall where
  | put
  | get
  | accumulate
  | putNotify
  | getNotify
  deriving DecidableEq, Repr

namespace FortCall

/-- The Fortran wrapper that replaces the operation. -/
def issue (call : FortCall) (args : FortArgs) (a : Analyzer) :
    Except Fault (ShadowMessage × Analyzer) :=
  match call with
  | put => Fort.newPut mpiTypeSize typeF2c winF2c mem args a
  | get => Fort.newGet mpiTypeSize typeF2c winF2c mem args a
  | accumulate => Fort.newAccumulate mpiTypeSize typeF2c winF2c mem args a
  | putNotify => Fort.newPutNotify mpiTypeSize typeF2c winF2c mem args a
  | getNotify => Fort.newGetNotify mpiTypeSize typeF2c winF2c mem args a

/-- The same operation of a C program, at a source position. -/
def inC (call : FortCall) (args : FortArgs) (filename : Option String) (line : Int) : RmaCall :=
  match call with
  | put => .put filename line
  | get => .get filename line
  | accumulate => .accumulate
  | putNotify => .putNotify (mem args.notificationId).toInt filename line
  | getNotify => .getNotify (mem args.notificationId).toInt filename line

/-- The wrapper casts the references to the displacement and to the count at the target. -/
def castsTarget : FortCall → Bool
  | put | putNotify => false
  | get | accumulate | getNotify => true

def localAccessType : FortCall → AccessType
  | put | accumulate | putNotify => .rmaRead
  | get | getNotify => .rmaWrite

def targetAccessType : FortCall → AccessType
  | put | accumulate | putNotify => .rmaWrite
  | get | getNotify => .rmaRead

def notifId (call : FortCall) (args : FortArgs) : Int :=
  match call with
  | put | get | accumulate => -1
  | putNotify | getNotify => (mem args.notificationId).toInt

/-- The call the Fortran wrapper makes. -/
def send (call : FortCall) (args : FortArgs) : CommSend :=
  args.commSend mpiTypeSize typeF2c mem args.originCount
    (if call.castsTarget then args.targetDisp else toUInt64 (mem args.targetDisp))
    (if call.castsTarget then args.targetCount else toUInt64 (mem args.targetCount))
    call.localAccessType call.targetAccessType (call.notifId mem args)

/-- The call the C wrapper makes for the values. -/
def sendInC (call : FortCall) (args : FortArgs) (filename : Option String) (line : Int) :
    CommSend :=
  let position := if call = accumulate then (0, none) else (line, filename)
  (args.values typeF2c mem).commSend mpiTypeSize call.localAccessType call.targetAccessType
    (call.notifId mem args) position.1 position.2

end FortCall

end Wrappers

/-! ## What is recorded -/

/-- The wrapper records the intervals of the call `c`. -/
def Records (wrapper : Analyzer → Except Fault (ShadowMessage × Analyzer)) (win : MpiWin)
    (c : CommSend) : Prop :=
  ∀ a, wrapper a = rmaAnalyzerUpdateOnCommSend c win a

/-- Two intervals are the same up to the source position. -/
structure SameAccess (x y : Interval) : Prop where
  lowBound : x.lowBound = y.lowBound
  upBound : x.upBound = y.upBound
  accessType : x.accessType = y.accessType
  notificationId : x.notificationId = y.notificationId

/-- The calls save and send the same intervals up to the source position. -/
def SameRecord (c d : CommSend) : Prop :=
  SameAccess c.localItv d.localItv ∧ SameAccess c.targetItv d.targetItv

/-- A process with one window, no interval and no filter. -/
def emptyWindow (win : MpiWin) : Analyzer :=
  { Analyzer.init with
    filterWindow := 0
    stateHtbl := [RmaAnalyzerState.new win 0 0 0 0 0] }

/-- There the interval of the origin becomes the only one of the tree. -/
theorem updateOnCommSend_emptyWindow (c : CommSend) (win : MpiWin) :
    ∃ msg a state, rmaAnalyzerUpdateOnCommSend c win (emptyWindow win) = .ok (msg, a) ∧
      msg.itv = c.targetItv ∧ rmaAnalyzerGetState win a = .ok state ∧
      state.localTree.toList = [⟨0, c.localItv⟩] := by
  have hget : rmaAnalyzerGetState win (emptyWindow win) =
      .ok (RmaAnalyzerState.new win 0 0 0 0 0) := by
    simp [rmaAnalyzerGetState, emptyWindow, RmaAnalyzerState.new]
  -- The interval has no notification, so that only the local tree changes.
  let state : RmaAnalyzerState :=
    { RmaAnalyzerState.new win 0 0 0 0 0 with
      localTree := insertIntervalTree .nil ⟨0, c.localItv⟩ }
  have hrun : rmaAnalyzerUpdateOnCommSend c win (emptyWindow win) =
      .ok (state.shadowMessage c,
        ((emptyWindow win).malloc c.localItv).2.setState (state.countSent c.targetRank)) := by
    unfold rmaAnalyzerUpdateOnCommSend
    rw [hget]
    rfl
  exact ⟨_, _, _, hrun, rfl, getState_setState hget rfl, rfl⟩

/-- What a wrapper records is determined by what it does. -/
theorem Records.unique {wrapper : Analyzer → Except Fault (ShadowMessage × Analyzer)} {win : MpiWin}
    {c d : CommSend} (hc : Records wrapper win c) (hd : Records wrapper win d) :
    c.localItv = d.localItv ∧ c.targetItv = d.targetItv := by
  rcases updateOnCommSend_emptyWindow c win with ⟨msg, a, s, hsend, hitv, hstate, htree⟩
  rcases updateOnCommSend_emptyWindow d win with ⟨msg', a', s', hsend', hitv', hstate', htree'⟩
  have heq := hsend.symm.trans ((hc _).symm.trans ((hd _).trans hsend'))
  obtain ⟨rfl, rfl⟩ := Prod.ext_iff.mp (Except.ok.inj heq)
  obtain rfl := Except.ok.inj (hstate.symm.trans hstate')
  refine ⟨?_, hitv.symm.trans hitv'⟩
  exact congrArg IntervalPtr.itv (List.singleton_inj.mp (htree.symm.trans htree'))

/-! ## References taken for numbers -/

/-- Taken for a number, the reference makes as many bytes of elements of the size as the number it
refers to. -/
def CastAgrees (mem : IntMemory) (elementSize : Nat) (ref : UInt64) : Prop :=
  (2 ^ 64 : Int) ∣ elementSize * (ref.toNat - (mem ref).toInt)

instance (mem : IntMemory) (elementSize : Nat) (ref : UInt64) :
    Decidable (CastAgrees mem elementSize ref) :=
  inferInstanceAs (Decidable ((2 ^ 64 : Int) ∣ elementSize * (ref.toNat - (mem ref).toInt)))

theorem toNat_ofNat_mul_ofInt (s : Nat) (v : Int) :
    ((UInt64.ofNat s * UInt64.ofInt v).toNat : Int) = s * v % 2 ^ 64 := by
  have hv : ((v % 2 ^ 64).toNat : Int) = v % 2 ^ 64 :=
    Int.toNat_of_nonneg (Int.emod_nonneg v (by decide))
  rw [UInt64.ofInt, ← UInt64.ofNat_mul, UInt64.toNat_ofNat', Int.natCast_emod, Int.natCast_mul, hv]
  exact (Int.ModEq.refl _).mul (Int.mod_modEq v (2 ^ 64))

theorem ofInt_toNat (x : UInt64) : UInt64.ofInt x.toNat = x := by
  have hx : (x.toNat : Int) % 2 ^ 64 = x.toNat :=
    Int.emod_eq_of_lt (Int.natCast_nonneg _) (Int.ofNat_lt.mpr x.toNat_lt)
  rw [UInt64.ofInt, hx]
  exact UInt64.ofNat_toNat

/-- The two sizes in 64-bit arithmetic. -/
theorem mul_ref_eq_iff {mem : IntMemory} {elementSize : Nat} {ref : UInt64} :
    UInt64.ofNat elementSize * ref = UInt64.ofNat elementSize * toUInt64 (mem ref) ↔
      CastAgrees mem elementSize ref := by
  unfold toUInt64 CastAgrees
  nth_rewrite 1 [← ofInt_toNat ref]
  rw [← UInt64.toNat_inj, ← Int.natCast_inj, toNat_ofNat_mul_ofInt, toNat_ofNat_mul_ofInt, mul_sub]
  exact eq_comm.trans Int.modEq_iff_dvd

/-- A reference that is no factor of a size. -/
theorem ref_eq_iff {mem : IntMemory} {ref : UInt64} :
    ref = toUInt64 (mem ref) ↔ CastAgrees mem 1 ref := by
  rw [← mul_ref_eq_iff]
  simp

/-- The integer of kind `MPI_ADDRESS_KIND` at the address: 64 bits, the lower word first. -/
def addressKind (mem : IntMemory) (addr : UInt64) : Int :=
  (mem addr).toInt % 2 ^ 32 + (mem (addr + 4)).toInt * 2 ^ 32

/-- `new_put_` reads the lower word of a displacement of kind `MPI_ADDRESS_KIND`, which is the
displacement exactly if it is worth an `int`. -/
theorem targetDisp_put_eq_addressKind_iff {mpiTypeSize : MpiDatatype → Nat}
    {typeF2c : Int32 → MpiDatatype} {mem : IntMemory} {args : FortArgs} :
    (FortCall.put.send mpiTypeSize typeF2c mem args).targetDisp =
        UInt64.ofInt (addressKind mem args.targetDisp) ↔
      -2 ^ 31 ≤ addressKind mem args.targetDisp ∧ addressKind mem args.targetDisp < 2 ^ 31 := by
  have hlow := (mem args.targetDisp).toInt_lt
  have hlow' := (mem args.targetDisp).le_toInt
  have hhigh := (mem (args.targetDisp + 4)).toInt_lt
  have hhigh' := (mem (args.targetDisp + 4)).le_toInt
  change UInt64.ofInt (mem args.targetDisp).toInt = _ ↔ _
  rw [addressKind, UInt64.ofInt, UInt64.ofInt, ← UInt64.toNat_inj, UInt64.toNat_ofNat',
    UInt64.toNat_ofNat']
  omega

/-! ## Agreement -/

section Agreement

variable (mpiTypeSize : MpiDatatype → Nat) (typeF2c : Int32 → MpiDatatype)
  (winF2c : Int32 → MpiWin) (mem : IntMemory)

/-- The Fortran wrapper, called with the references, and the C wrapper, called with the values at
any source position, record the same intervals. -/
def AgreesWithC (call : FortCall) (args : FortArgs) : Prop :=
  ∀ filename line, ∃ c d,
    Records (call.issue mpiTypeSize typeF2c winF2c mem args) (winF2c (mem args.win)) c ∧
    Records ((call.inC mem args filename line).issue mpiTypeSize (args.values typeF2c mem)
      (winF2c (mem args.win))) (winF2c (mem args.win)) d ∧
    SameRecord c d

/-- A Fortran and a C program that make a window of the memory register the same base and size. -/
def WinCreateAgreesWithC (base size : UInt64) : Prop :=
  ∀ (comm : UInt64) (commInC : MpiComm) (sizeComm : Nat) (win : MpiWin)
    (filterWindow : Option Int) (a b a' b' : Analyzer) (s t : RmaAnalyzerState),
    win ∉ a.windows → win ∉ b.windows →
    Fort.newWinCreate base size comm sizeComm win filterWindow a = .ok a' →
    newWinCreate base (toUInt64 (mem size)) commInC sizeComm win filterWindow b = .ok b' →
    rmaAnalyzerGetState win a' = .ok s → rmaAnalyzerGetState win b' = .ok t →
    s.winBase = t.winBase ∧ s.winSize = t.winSize

variable {mpiTypeSize typeF2c winF2c mem} {call : FortCall} {args : FortArgs}

theorem records_send :
    Records (call.issue mpiTypeSize typeF2c winF2c mem args) (winF2c (mem args.win))
      (call.send mpiTypeSize typeF2c mem args) := by
  intro a
  cases call <;> rfl

theorem records_sendInC {filename : Option String} {line : Int} :
    Records ((call.inC mem args filename line).issue mpiTypeSize (args.values typeF2c mem)
      (winF2c (mem args.win))) (winF2c (mem args.win))
      (call.sendInC mpiTypeSize typeF2c mem args filename line) := by
  intro a
  cases call <;> rfl

/-- Calls that differ in the sizes and the displacement only record the same if these are equal. -/
theorem sameRecord_iff {c d : CommSend} (haddr : c.localAddress = d.localAddress)
    (hlocal : c.localAccessType = d.localAccessType)
    (htarget : c.targetAccessType = d.targetAccessType) (hid : c.notifId = d.notifId) :
    SameRecord c d ↔
      c.localSize = d.localSize ∧ c.targetDisp = d.targetDisp ∧ c.targetSize = d.targetSize := by
  constructor
  · intro hparts
    rcases hparts with ⟨horigin, hremote⟩
    have hdisp : c.targetDisp = d.targetDisp := hremote.lowBound
    have hlocalUp : c.localAddress + c.localSize - 1 = d.localAddress + d.localSize - 1 :=
      horigin.upBound
    have htargetUp : c.targetDisp + c.targetSize - 1 = d.targetDisp + d.targetSize - 1 :=
      hremote.upBound
    rw [haddr, UInt64.sub_left_inj, UInt64.add_right_inj] at hlocalUp
    rw [hdisp, UInt64.sub_left_inj, UInt64.add_right_inj] at htargetUp
    exact ⟨hlocalUp, hdisp, htargetUp⟩
  · intro hparts
    rcases hparts with ⟨hsize, hdisp, htargetSize⟩
    refine ⟨⟨haddr, ?_, hlocal, rfl⟩, ⟨hdisp, ?_, htarget, hid⟩⟩
    · change c.localAddress + c.localSize - 1 = d.localAddress + d.localSize - 1
      rw [haddr, hsize]
    · change c.targetDisp + c.targetSize - 1 = d.targetDisp + d.targetSize - 1
      rw [hdisp, htargetSize]

/-- The two calls are such. -/
theorem sameRecord_send_iff {filename : Option String} {line : Int} :
    SameRecord (call.send mpiTypeSize typeF2c mem args)
        (call.sendInC mpiTypeSize typeF2c mem args filename line) ↔
      CastAgrees mem (mpiTypeSize (typeF2c (mem args.originDatatype))) args.originCount ∧
      (call.castsTarget → CastAgrees mem 1 args.targetDisp ∧
        CastAgrees mem (mpiTypeSize (typeF2c (mem args.targetDatatype))) args.targetCount) := by
  have hrecord := sameRecord_iff (c := call.send mpiTypeSize typeF2c mem args)
    (d := call.sendInC mpiTypeSize typeF2c mem args filename line) rfl rfl rfl rfl
  rw [hrecord, ← ref_eq_iff, ← mul_ref_eq_iff, ← mul_ref_eq_iff]
  simp only [FortCall.send, FortCall.sendInC, FortArgs.commSend, RmaArgs.commSend, FortArgs.values,
    UInt64.ofNat_toNat]
  cases call.castsTarget <;> simp

theorem agreesWithC_iff :
    AgreesWithC mpiTypeSize typeF2c winF2c mem call args ↔
      SameRecord (call.send mpiTypeSize typeF2c mem args)
        (call.sendInC mpiTypeSize typeF2c mem args none 0) := by
  constructor
  · intro h
    rcases h none 0 with ⟨c, d, hc, hd, hsame⟩
    have hsend := hc.unique records_send
    have hsendInC := hd.unique records_sendInC
    unfold SameRecord at hsame ⊢
    rwa [hsend.1, hsend.2, hsendInC.1, hsendInC.2] at hsame
  · intro h filename line
    refine ⟨_, _, records_send, records_sendInC, ?_⟩
    rwa [sameRecord_send_iff] at h ⊢

/-- The base is handed over by both wrappers as it is. -/
theorem winCreateAgreesWithC_iff {base size : UInt64} :
    WinCreateAgreesWithC mem base size ↔ size = toUInt64 (mem size) := by
  constructor
  · intro h
    have hsame := h 0 0 0 0 none .init .init _ _ _ _ List.not_mem_nil List.not_mem_nil rfl rfl rfl
      rfl
    exact hsame.2
  · intro hsize comm commInC sizeComm win filterWindow a b a' b' s t ha hb hfort hc hs ht
    obtain rfl := Except.ok.inj ((rmaAnalyzerStart_spec ha hfort).1.symm.trans hs)
    obtain rfl := Except.ok.inj ((rmaAnalyzerStart_spec hb hc).1.symm.trans ht)
    exact ⟨rfl, hsize⟩

/-- A Fortran wrapper records what the C wrapper records for the values exactly if the references it
casts make the sizes and the displacement that the values make; and it registers the same window
exactly if the reference to the size is worth the size. -/
theorem fortran_agrees_iff (mpiTypeSize : MpiDatatype → Nat) (typeF2c : Int32 → MpiDatatype)
    (winF2c : Int32 → MpiWin) (mem : IntMemory) :
    (∀ (call : FortCall) (args : FortArgs),
      AgreesWithC mpiTypeSize typeF2c winF2c mem call args ↔
        CastAgrees mem (mpiTypeSize (typeF2c (mem args.originDatatype))) args.originCount ∧
        (call.castsTarget → CastAgrees mem 1 args.targetDisp ∧
          CastAgrees mem (mpiTypeSize (typeF2c (mem args.targetDatatype))) args.targetCount)) ∧
    ∀ base size : UInt64, WinCreateAgreesWithC mem base size ↔ CastAgrees mem 1 size := by
  constructor
  · intro call args
    exact agreesWithC_iff.trans sameRecord_send_iff
  · intro base size
    exact winCreateAgreesWithC_iff.trans ref_eq_iff

/-- An integer 1 stored at address 8192, where the count of a put of an `int` lies. -/
theorem not_agreesWithC_of_put :
    ¬ ∀ (mem : IntMemory) (call : FortCall) (args : FortArgs),
      AgreesWithC (fun _ => 4) (fun _ => 0) (fun _ => 7) mem call args := by
  intro h
  have hput := h (fun _ => 1) .put ⟨4096, 8192, 8196, 8200, 8204, 8208, 8212, 8216, 8220⟩
  rw [agreesWithC_iff, sameRecord_send_iff] at hput
  exact absurd hput.1 (by decide)

end Agreement

end ParcoachRma
