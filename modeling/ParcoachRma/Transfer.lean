import ParcoachRma.SaveInterval
import ParcoachRma.Start
import Mathlib.Order.Interval.Set.LinearOrder

/-!
# The shadow of a one-sided operation

A one-sided operation is recorded twice: at the origin by `rma_analyzer_update_on_comm_send`, at the
target by the checking thread, which adds the base of its window to the interval it receives.  The
displacement unit of the window goes to the MPI library only.

`saved_exact_iff`: the interval saved at the target covers the bytes the operation works on exactly
if the displacement unit is 1 or the displacement is 0, and then a local access shares an address
with it exactly if the two touch a common byte, unless the only common byte is one the access
covers in part.
-/

namespace ParcoachRma

open Run

/-! ## Sending the interval -/

/-- The arguments of `rma_analyzer_update_on_comm_send` besides the window. -/
structure CommSend where
  localAddress : UInt64
  localSize : UInt64
  targetDisp : UInt64
  targetSize : UInt64
  targetRank : Nat
  localAccessType : AccessType
  targetAccessType : AccessType
  notifId : Int
  fileline : Int
  filename : Option String

/-- The interval saved at the origin. -/
def CommSend.localItv (c : CommSend) : Interval :=
  createInterval c.localAddress (c.localAddress + c.localSize - 1) c.localAccessType (-1)
    c.fileline c.filename

/-- The interval sent to the target, which knows the displacement only. -/
def CommSend.targetItv (c : CommSend) : Interval :=
  createInterval c.targetDisp (c.targetDisp + c.targetSize - 1) c.targetAccessType c.notifId
    c.fileline c.filename

/-- A message that carries an interval. -/
structure ShadowMessage where
  targetRank : Nat
  tag : Int
  comm : MpiComm
  itv : Interval
  deriving DecidableEq, Repr

/-- The message sent for an operation in the current epoch. -/
def RmaAnalyzerState.shadowMessage (state : RmaAnalyzerState) (c : CommSend) : ShadowMessage where
  targetRank := c.targetRank
  tag := state.currentTag
  comm := state.winComm
  itv := c.targetItv

/-- Increment the number of communications sent to the target. -/
def RmaAnalyzerState.countSent (targetRank : Nat) (state : RmaAnalyzerState) :
    RmaAnalyzerState :=
  { state with
    array := fun i => if i = targetRank then state.array i + 1 else state.array i }

/-- Save the interval at the origin and send the one for the target. -/
def rmaAnalyzerUpdateOnCommSend (c : CommSend) (win : MpiWin) (a : Analyzer) :
    Except Fault (ShadowMessage × Analyzer) := do
  let state ← rmaAnalyzerGetState win a
  let (localItv, a) := a.malloc c.localItv
  let (_, state) ← rmaAnalyzerSaveInterval a.filterWindow state localItv
  return (state.shadowMessage c, a.setState (state.countSent c.targetRank))

/-- The interval the checking thread makes of a received one.  The base of the window is added, to
match the addresses of local pointers. -/
def Interval.rebase (winBase : UInt64) (received : Interval) : Interval :=
  createInterval (received.lowBound + winBase) (received.upBound + winBase) received.accessType
    received.notificationId received.line (some received.filename)

/-- What the checking thread does with a received interval. -/
def rmaAnalyzerSaveReceived (received : Interval) (win : MpiWin) (a : Analyzer) :
    Except Fault Analyzer := do
  let state ← rmaAnalyzerGetState win a
  let (savedInterval, a) := a.malloc (received.rebase state.winBase)
  let (_, state) ← rmaAnalyzerSaveInterval a.filterWindow state savedInterval
  return a.setState state

/-- The interval has gone into the tree of the record, unless the filter refuses it. -/
def SavedInto (filterWindow : Int) (itv : Interval) (state state' : RmaAnalyzerState) : Prop :=
  ∃ addr, state'.localTree = if admits filterWindow state itv then
    insertIntervalTree state.localTree ⟨addr, itv⟩ else state.localTree

/-- The interval that the checking thread saves is the received one with the base of the window
added. -/
theorem savedInto_saveReceived {received : Interval} {win : MpiWin} {a a' : Analyzer}
    {state : RmaAnalyzerState} (hstate : rmaAnalyzerGetState win a = .ok state)
    (h : rmaAnalyzerSaveReceived received win a = .ok a') :
    ∃ state', rmaAnalyzerGetState win a' = .ok state' ∧
      SavedInto a.filterWindow (received.rebase state.winBase) state state' := by
  obtain ⟨_, hstate', h⟩ := bind_ok.mp h
  obtain rfl := Except.ok.inj (hstate.symm.trans hstate')
  obtain ⟨⟨saved, state'⟩, hsave, h⟩ := bind_ok.mp h
  obtain rfl := Except.ok.inj h
  have hwin : state'.stateWin = win := by
    obtain ⟨lt, nt, rfl⟩ := rmaAnalyzerSaveInterval_eq hsave
    exact (mem_of_getState hstate).2
  have hmalloc : rmaAnalyzerGetState win (a.malloc (received.rebase state.winBase)).2 =
    .ok state := hstate
  exact ⟨state', getState_setState hmalloc hwin, _, localTree_saveInterval hsave⟩

/-- The message carries the interval made from the displacement. -/
theorem updateOnCommSend_itv {c : CommSend} {win : MpiWin} {a a' : Analyzer} {msg : ShadowMessage}
    (h : rmaAnalyzerUpdateOnCommSend c win a = .ok (msg, a')) : msg.itv = c.targetItv := by
  obtain ⟨state, -, h⟩ := bind_ok.mp h
  obtain ⟨⟨saved, state'⟩, -, h⟩ := bind_ok.mp h
  obtain rfl := congrArg Prod.fst (Except.ok.inj h)
  rfl

/-! ## The wrappers -/

/-- A datatype handle of the MPI library. -/
abbrev MpiDatatype := Nat

/-- The arguments the one-sided operations share. -/
structure RmaArgs where
  originAddr : UInt64
  originCount : Nat
  originDatatype : MpiDatatype
  targetRank : Nat
  targetDisp : UInt64
  targetCount : Nat
  targetDatatype : MpiDatatype

section Wrappers

-- `MPI_Type_size`: the number of bytes of a datatype.
variable (mpiTypeSize : MpiDatatype → Nat)

/-- The number of bytes the operation works on at the target. -/
def RmaArgs.targetBytes (args : RmaArgs) : Nat :=
  mpiTypeSize args.targetDatatype * args.targetCount

/-- The call of `rma_analyzer_update_on_comm_send` a wrapper makes. -/
def RmaArgs.commSend (args : RmaArgs) (localAccessType targetAccessType : AccessType)
    (notifId line : Int) (filename : Option String) : CommSend where
  localAddress := args.originAddr
  localSize := UInt64.ofNat (mpiTypeSize args.originDatatype) * UInt64.ofNat args.originCount
  targetDisp := args.targetDisp
  targetSize := UInt64.ofNat (mpiTypeSize args.targetDatatype) * UInt64.ofNat args.targetCount
  targetRank := args.targetRank
  localAccessType := localAccessType
  targetAccessType := targetAccessType
  notifId := notifId
  fileline := line
  filename := filename

def newPut (args : RmaArgs) (win : MpiWin) (filename : Option String) (line : Int)
    (a : Analyzer) : Except Fault (ShadowMessage × Analyzer) :=
  rmaAnalyzerUpdateOnCommSend
    (args.commSend mpiTypeSize .rmaRead .rmaWrite (-1) line filename) win a

def newGet (args : RmaArgs) (win : MpiWin) (filename : Option String) (line : Int)
    (a : Analyzer) : Except Fault (ShadowMessage × Analyzer) :=
  rmaAnalyzerUpdateOnCommSend
    (args.commSend mpiTypeSize .rmaWrite .rmaRead (-1) line filename) win a

/-- The wrapper of the accumulation is not told the source position. -/
def newAccumulate (args : RmaArgs) (win : MpiWin) (a : Analyzer) :
    Except Fault (ShadowMessage × Analyzer) :=
  rmaAnalyzerUpdateOnCommSend (args.commSend mpiTypeSize .rmaRead .rmaWrite (-1) 0 none) win a

def newPutNotify (args : RmaArgs) (win : MpiWin) (notificationId : Int)
    (filename : Option String) (line : Int) (a : Analyzer) :
    Except Fault (ShadowMessage × Analyzer) :=
  rmaAnalyzerUpdateOnCommSend
    (args.commSend mpiTypeSize .rmaRead .rmaWrite notificationId line filename) win a

def newGetNotify (args : RmaArgs) (win : MpiWin) (notificationId : Int)
    (filename : Option String) (line : Int) (a : Analyzer) :
    Except Fault (ShadowMessage × Analyzer) :=
  rmaAnalyzerUpdateOnCommSend
    (args.commSend mpiTypeSize .rmaWrite .rmaRead notificationId line filename) win a

/-- A one-sided operation of the program. -/
inductive RmaCall where
  | put (filename : Option String) (line : Int)
  | get (filename : Option String) (line : Int)
  | accumulate
  | putNotify (notificationId : Int) (filename : Option String) (line : Int)
  | getNotify (notificationId : Int) (filename : Option String) (line : Int)

/-- The wrapper that replaces the operation. -/
def RmaCall.issue (call : RmaCall) (args : RmaArgs) (win : MpiWin) (a : Analyzer) :
    Except Fault (ShadowMessage × Analyzer) :=
  match call with
  | .put filename line => newPut mpiTypeSize args win filename line a
  | .get filename line => newGet mpiTypeSize args win filename line a
  | .accumulate => newAccumulate mpiTypeSize args win a
  | .putNotify id filename line => newPutNotify mpiTypeSize args win id filename line a
  | .getNotify id filename line => newGetNotify mpiTypeSize args win id filename line a

end Wrappers

variable {mpiTypeSize : MpiDatatype → Nat} {call : RmaCall} {args : RmaArgs} {win : MpiWin}
  {a a' : Analyzer} {msg : ShadowMessage}

/-- All wrappers send the displacement and the number of bytes at the target. -/
theorem issue_bounds (h : call.issue mpiTypeSize args win a = .ok (msg, a')) :
    msg.itv.lowBound = args.targetDisp ∧
    msg.itv.upBound = args.targetDisp + UInt64.ofNat (args.targetBytes mpiTypeSize) - 1 := by
  have hsize : UInt64.ofNat (args.targetBytes mpiTypeSize) =
      UInt64.ofNat (mpiTypeSize args.targetDatatype) * UInt64.ofNat args.targetCount :=
    UInt64.ofNat_mul ..
  rw [hsize]
  cases call <;>
  · have hitv := updateOnCommSend_itv h
    rw [hitv]
    exact ⟨rfl, rfl⟩

/-! ## Addresses and bytes -/

/-- The addresses of a recorded interval. -/
def Interval.addresses (itv : Interval) : Set Nat :=
  Set.Icc itv.lowBound.toNat itv.upBound.toNat

/-- `n` bytes of memory from an address on. -/
def bytesFrom (start n : Nat) : Set Nat := Set.Ico start (start + n)

/-- Two sets of addresses have one in common. -/
def Meet (s t : Set Nat) : Prop := (s ∩ t).Nonempty

theorem meet_bytesFrom_iff {a m b n : Nat} :
    Meet (bytesFrom a m) (bytesFrom b n) ↔ max a b < min (a + m) (b + n) := by
  rw [Meet, bytesFrom, bytesFrom, Set.Ico_inter_Ico, Set.nonempty_Ico]

/-- For two intervals that are not empty, the conflict test compares addresses and rights. -/
theorem ifIntersects_iff_meet {x y : Interval} (hx : x.lowBound ≤ x.upBound)
    (hy : y.lowBound ≤ y.upBound) :
    ifIntersects x y = true ↔ Meet x.addresses y.addresses ∧ checkAccessRights x y = true := by
  rw [ifIntersects_iff, Meet, Interval.addresses, Interval.addresses, Set.Icc_inter_Icc,
    Set.nonempty_Icc]
  simp only [UInt64.le_iff_toNat_le, ← and_assoc] at *
  apply and_congr_left
  intro _
  omega

/-- An interval whose bounds are the first and the last of `n` addresses. -/
theorem addresses_eq_bytesFrom {itv : Interval} {start n : Nat} (hn : 1 ≤ n)
    (hlow : itv.lowBound.toNat = start) (hup : itv.upBound.toNat = start + n - 1) :
    itv.addresses = bytesFrom start n := by
  ext x
  simp only [Interval.addresses, bytesFrom, hlow, hup, Set.mem_Icc, Set.mem_Ico]
  omega

/-! ## Local accesses -/

/-- An instrumented load or store.  The compiler pass hands the size over in bits; the bytes of the
object lie in the address space and not at the null pointer. -/
structure LocalAccess where
  isStore : Bool
  addr : UInt64
  bits : UInt64
  line : Int
  filename : Option String
  addr_pos : 0 < addr.toNat
  fits : addr.toNat + (bits.toNat + 7) / 8 ≤ 2 ^ 64

namespace LocalAccess

/-- The hook before the access. -/
def hook (x : LocalAccess) (a : Analyzer) : Except Fault Analyzer :=
  if x.isStore then store x.addr x.bits x.line x.filename a
  else load x.addr x.bits x.line x.filename a

/-- The interval the hook records. -/
def recorded (x : LocalAccess) : Interval :=
  accessInterval x.addr (x.bits / 8 - 1) (if x.isStore then .localWrite else .localRead) x.line
    x.filename

/-- The hook saves this interval in all active windows. -/
theorem hook_eq (x : LocalAccess) (a : Analyzer) :
    x.hook a = a.windows.foldlM (saveIntervalInWin x.recorded) a := by
  unfold hook recorded
  split_ifs <;> rfl

/-- The bytes the access touches: a byte is touched as a whole. -/
def bytes (x : LocalAccess) : Set Nat := bytesFrom x.addr.toNat ((x.bits.toNat + 7) / 8)

/-- The hook records the bytes that are covered in full. -/
theorem recorded_addresses (x : LocalAccess) :
    x.recorded.addresses = bytesFrom x.addr.toNat (x.bits.toNat / 8) := by
  have hpos := x.addr_pos
  have hfits := x.fits
  have hup : x.recorded.upBound.toNat =
      (x.addr.toNat + (x.bits.toNat / 8 + 2 ^ 64 - 1)) % 2 ^ 64 := by
    change (x.addr + (x.bits / 8 - 1)).toNat = _
    rw [UInt64.toNat_add, UInt64.toNat_sub, UInt64.toNat_div]
    simp only [UInt64.reduceToNat]
    omega
  by_cases hsmall : x.bits.toNat / 8 = 0
  · have hlow : x.recorded.lowBound.toNat = x.addr.toNat := rfl
    ext y
    simp only [Interval.addresses, bytesFrom, Set.mem_Icc, Set.mem_Ico, hup, hlow]
    omega
  · refine addresses_eq_bytesFrom (by omega) rfl ?_
    rw [hup]
    omega

end LocalAccess

/-! ## The interval saved at the target -/

/-- A window as the MPI library knows it. -/
structure WinMemory where
  base : UInt64
  dispUnit : Nat
  dispUnit_pos : 1 ≤ dispUnit

/-- `new_Win_create` keeps the base of the window, and nothing of its displacement unit. -/
theorem winBase_newWinCreate {base size : UInt64} {comm : MpiComm} {sizeComm : Nat}
    {filterWindow : Option Int} (fresh : win ∉ a.windows)
    (h : newWinCreate base size comm sizeComm win filterWindow a = .ok a') :
    ∃ state, rmaAnalyzerGetState win a' = .ok state ∧ state.winBase = base := by
  exact ⟨_, (rmaAnalyzerStart_spec fresh h).1, rfl⟩

/-- The bytes a one-sided operation works on at the target. -/
def WinMemory.bytes (mem : WinMemory) (disp : UInt64) (n : Nat) : Set Nat :=
  bytesFrom (mem.base.toNat + mem.dispUnit * disp.toNat) n

/-- The bounds of the interval are the first and the last byte the operation works on. -/
def WinMemory.IsShadow (mem : WinMemory) (disp : UInt64) (n : Nat) (itv : Interval) : Prop :=
  itv.lowBound.toNat = mem.base.toNat + mem.dispUnit * disp.toNat ∧
  itv.upBound.toNat = mem.base.toNat + mem.dispUnit * disp.toNat + n - 1

/-- The size of the access is no multiple of 8 bits, and of the bytes it touches only the last one,
which it covers in part, lies in the set. -/
def LocalAccess.PartByteOnly (x : LocalAccess) (s : Set Nat) : Prop :=
  ¬ 8 ∣ x.bits.toNat ∧ x.addr.toNat + x.bits.toNat / 8 ∈ s ∧
  ∀ y ∈ s, y ∉ bytesFrom x.addr.toNat (x.bits.toNat / 8)

/-- The interval saved at the target starts at the displacement itself, whatever its unit. -/
theorem rebase_bounds {base disp : UInt64} {n : Nat} {itv : Interval} (hn : 1 ≤ n)
    (hfit : base.toNat + disp.toNat + n ≤ 2 ^ 64) (hlow : itv.lowBound = disp)
    (hup : itv.upBound = disp + UInt64.ofNat n - 1) :
    (itv.rebase base).lowBound.toNat = base.toNat + disp.toNat ∧
    (itv.rebase base).upBound.toNat = base.toNat + disp.toNat + n - 1 := by
  change (itv.lowBound + base).toNat = _ ∧ (itv.upBound + base).toNat = _
  rw [hlow, hup, UInt64.toNat_add, UInt64.toNat_add, UInt64.toNat_sub, UInt64.toNat_add,
    UInt64.toNat_ofNat']
  simp only [UInt64.reduceToNat]
  omega

/-- With the right interval at the target, the recorded intervals meet as the bytes do, up to a byte
that is covered in part. -/
theorem meet_recorded_iff {start n : Nat} {itv : Interval}
    (hitv : itv.addresses = bytesFrom start n) (x : LocalAccess) :
    (Meet itv.addresses x.recorded.addresses ↔ Meet (bytesFrom start n) x.bytes) ↔
      ¬ x.PartByteOnly (bytesFrom start n) := by
  rw [hitv, x.recorded_addresses, LocalAccess.bytes, meet_bytesFrom_iff, meet_bytesFrom_iff]
  have hpart : x.PartByteOnly (bytesFrom start n) ↔ ¬ 8 ∣ x.bits.toNat ∧
      (start ≤ x.addr.toNat + x.bits.toNat / 8 ∧ x.addr.toNat + x.bits.toNat / 8 < start + n) ∧
      ¬ max start x.addr.toNat < min (start + n) (x.addr.toNat + x.bits.toNat / 8) := by
    rw [← meet_bytesFrom_iff, Meet, Set.not_nonempty_iff_eq_empty, Set.eq_empty_iff_forall_notMem]
    simp only [LocalAccess.PartByteOnly, bytesFrom, Set.mem_inter_iff, Set.mem_Ico, not_and]
  rw [hpart]
  omega

/-- What the checking thread of the target saves is the interval of the message with the base of the
window added.  It has the bounds of the bytes the operation works on, and meets what a local access
records exactly if the bytes meet, exactly if the displacement unit is 1 or the displacement 0, and
the access does not meet the operation in a byte it covers in part only. -/
theorem saved_exact_iff {mem : WinMemory} {state : RmaAnalyzerState}
    (h : call.issue mpiTypeSize args win a = .ok (msg, a')) (hbase : state.winBase = mem.base)
    (hn : 1 ≤ args.targetBytes mpiTypeSize)
    (hfit : mem.base.toNat + mem.dispUnit * args.targetDisp.toNat +
      args.targetBytes mpiTypeSize ≤ 2 ^ 64) (x : LocalAccess) :
    (∀ target target', rmaAnalyzerGetState win target = .ok state →
      rmaAnalyzerSaveReceived msg.itv win target = .ok target' →
      ∃ state', rmaAnalyzerGetState win target' = .ok state' ∧
        SavedInto target.filterWindow (msg.itv.rebase state.winBase) state state') ∧
    ((mem.IsShadow args.targetDisp (args.targetBytes mpiTypeSize)
        (msg.itv.rebase state.winBase) ∧
      (Meet (msg.itv.rebase state.winBase).addresses x.recorded.addresses ↔
        Meet (mem.bytes args.targetDisp (args.targetBytes mpiTypeSize)) x.bytes)) ↔
    (mem.dispUnit = 1 ∨ args.targetDisp = 0) ∧
      ¬ x.PartByteOnly (mem.bytes args.targetDisp (args.targetBytes mpiTypeSize))) := by
  refine ⟨fun target target' hstate hsave => savedInto_saveReceived hstate hsave, ?_⟩
  obtain ⟨hlow, hup⟩ := issue_bounds h
  have hle : args.targetDisp.toNat ≤ mem.dispUnit * args.targetDisp.toNat :=
    Nat.le_mul_of_pos_left _ mem.dispUnit_pos
  have hsum : mem.base.toNat + args.targetDisp.toNat + args.targetBytes mpiTypeSize ≤ 2 ^ 64 := by
    omega
  have hbounds := rebase_bounds hn hsum hlow hup
  rw [hbase]
  have hshadow : mem.IsShadow args.targetDisp (args.targetBytes mpiTypeSize)
      (msg.itv.rebase mem.base) ↔ mem.dispUnit = 1 ∨ args.targetDisp = 0 := by
    have hzero : args.targetDisp = 0 ↔ args.targetDisp.toNat = 0 := UInt64.toNat_inj.symm
    rw [WinMemory.IsShadow, hbounds.1, hbounds.2, hzero, ← mul_left_eq_self₀]
    omega
  rw [← hshadow]
  refine and_congr_right fun hs => meet_recorded_iff ?_ x
  exact addresses_eq_bytesFrom hn hs.1 hs.2

/-! ## A window of integers -/

/-- The datatype of the example has 4 bytes. -/
def exampleTypeSize (_ : MpiDatatype) : Nat := 4

/-- The record of a window of 400 bytes at address 4096, in its first epoch. -/
def exampleRecord : RmaAnalyzerState :=
  { RmaAnalyzerState.new 0 4096 400 0 2 65535 with countEpoch := 1, activeEpoch := 1 }

def exampleOrigin : Analyzer := { Analyzer.init with stateHtbl := [exampleRecord] }

/-- One integer goes to displacement 20 of process 1. -/
def exampleArgs : RmaArgs := ⟨65536, 1, 0, 1, 20, 1, 0⟩

/-- The message for it carries the interval [20, 23]. -/
def exampleMessage : ShadowMessage :=
  ⟨1, 65536, 0, createInterval 20 23 .rmaWrite (-1) 30 (some "main.c")⟩

/-- A store of an integer at an offset of 80 bytes, the displacement 20 in units of 4 bytes. -/
def exampleStore : LocalAccess where
  isStore := true
  addr := 4176
  bits := 32
  line := 10
  filename := none
  addr_pos := by decide
  fits := by decide

/-- The window with displacements in bytes. -/
def exampleBytes : WinMemory := ⟨4096, 1, le_rfl⟩

/-- The window with displacements in integers. -/
def exampleIntegers : WinMemory := ⟨4096, 4, by decide⟩

/-- With displacements in bytes, the put is recorded as it touches memory. -/
theorem saved_exact_bytes :
    ∃ a', (RmaCall.put (some "main.c") 30).issue exampleTypeSize exampleArgs 0 exampleOrigin =
        .ok (exampleMessage, a') ∧
      exampleBytes.IsShadow 20 4 (exampleMessage.itv.rebase 4096) ∧
      (Meet (exampleMessage.itv.rebase 4096).addresses exampleStore.recorded.addresses ↔
        Meet (exampleBytes.bytes 20 4) exampleStore.bytes) := by
  refine ⟨_, rfl, ?_⟩
  have hput : (RmaCall.put (some "main.c") 30).issue exampleTypeSize exampleArgs 0 exampleOrigin =
      .ok (exampleMessage, _) := rfl
  have hbase : exampleRecord.winBase = exampleBytes.base := rfl
  exact (saved_exact_iff hput hbase (by decide) (by decide) exampleStore).2.mpr
    ⟨.inl rfl, fun part => part.1 (by decide)⟩

/-- With displacements in integers, the put works on the bytes of the store, but the interval saved
for it starts 60 bytes before. -/
theorem not_saved_exact_integers :
    ∃ a', (RmaCall.put (some "main.c") 30).issue exampleTypeSize exampleArgs 0 exampleOrigin =
        .ok (exampleMessage, a') ∧
      ¬ exampleIntegers.IsShadow 20 4 (exampleMessage.itv.rebase 4096) ∧
      Meet (exampleIntegers.bytes 20 4) exampleStore.bytes ∧
      ¬ Meet (exampleMessage.itv.rebase 4096).addresses exampleStore.recorded.addresses := by
  refine ⟨_, rfl, fun exact => absurd exact.1 (by decide), ?_, ?_⟩
  · exact ⟨4176, ⟨le_rfl, by decide⟩, ⟨le_rfl, by decide⟩⟩
  · intro hparts
    rcases hparts with ⟨y, hput, hstore⟩
    have hlast : y ≤ 4119 := hput.2
    have hfirst : 4176 ≤ y := hstore.1
    omega

end ParcoachRma
