import Mathlib.Data.Nat.Bitwise
import Mathlib.Order.Basic

/-!
# Intervals and conflicts

The memory intervals the analyzer records (`interval.c`) and the test for a conflict between two
of them.  An `Interval *` is modelled as the address of the object with its contents: the contents
are never written again once the object is created, and the address tells two objects with equal
contents apart.
-/

namespace ParcoachRma

/-- What a call of the analyzer can end in besides returning. -/
inductive Fault where
  /-- `MPI_Abort`, with the report printed before it. -/
  | mpiAbort (report : String)
  /-- `exit(EXIT_FAILURE)`: no state for the window. -/
  | exitFailure
  /-- A read through a null pointer. -/
  | nullDereference
  /-- A write outside a static table. -/
  | outOfBounds
  /-- A failed `assert`. -/
  | assertion
  /-- `pthread_join` on a thread that is not there to be joined. -/
  | undefinedJoin
  /-- A loop that does not end. -/
  | doesNotReturn
  /-- A call that cannot return yet, or that the thread does not make here. -/
  | notEnabled
  deriving DecidableEq, Repr

/-- Access types; the conflict test is a bitwise OR of their values. -/
inductive AccessType where
  | localRead
  | localWrite
  | rmaRead
  | rmaWrite
  deriving DecidableEq, Repr

/-- The value of an access type in the enumeration of the source. -/
def AccessType.toNat : AccessType → Nat
  | localRead => 0
  | localWrite => 1
  | rmaRead => 2
  | rmaWrite => 3

/-- Convert an access type to a string. -/
def accessTypeToStr (access : AccessType) : String :=
  if access = .localRead then "LOCAL_READ"
  else if access = .localWrite then "LOCAL_WRITE"
  else if access = .rmaRead then "RMA_READ"
  else "RMA_WRITE"

def filenameMaxLength : Nat := 128

/-- An access type and two inclusive bounds, with the notification id and the source position. -/
structure Interval where
  accessType : AccessType
  lowBound : UInt64
  upBound : UInt64
  notificationId : Int
  line : Int
  filename : String
  deriving DecidableEq, Repr

/-- A pointer to an interval: the address of the object and its contents. -/
structure IntervalPtr where
  addr : Nat
  itv : Interval
  deriving DecidableEq, Repr

/-- An interval with the given fields.  A file name that leaves no room for the final null byte
is reset to the empty string. -/
def createInterval (lowBound upBound : UInt64) (accessType : AccessType) (notifId line : Int)
    (filename : Option String) : Interval where
  lowBound := lowBound
  upBound := upBound
  accessType := accessType
  notificationId := notifId
  line := line
  filename := match filename with
    | none => ""
    | some name => if name.utf8ByteSize < filenameMaxLength then name else ""

/-- Check if the access rights are in conflict: at least a local write combined with a remote
access, or a remote write. -/
def checkAccessRights (itvA itvB : Interval) : Bool :=
  itvA.accessType.toNat ||| itvB.accessType.toNat == AccessType.rmaWrite.toNat

/-- The two intervals have an address in common and their access rights are in conflict. -/
def ifIntersects (itvA itvB : Interval) : Bool :=
  if itvA.lowBound > itvB.upBound ∨ itvA.upBound < itvB.lowBound then false
  else checkAccessRights itvA itvB

theorem checkAccessRights_comm (a b : Interval) :
    checkAccessRights a b = checkAccessRights b a := by
  simp only [checkAccessRights, Nat.lor_comm]

theorem ifIntersects_iff {a b : Interval} :
    ifIntersects a b = true ↔
      a.lowBound ≤ b.upBound ∧ b.lowBound ≤ a.upBound ∧ checkAccessRights a b = true := by
  simp only [ifIntersects, gt_iff_lt]
  split_ifs with h
  · simp only [false_iff, not_and]
    intro hab hba
    rcases h with h | h
    · exact absurd h (UInt64.not_lt.mpr hab)
    · exact absurd h (UInt64.not_lt.mpr hba)
  · simp only [not_or, UInt64.not_lt] at h
    exact ⟨fun hc => ⟨h.1, h.2, hc⟩, fun hc => hc.2.2⟩

/-- The order of the two intervals does not matter. -/
theorem ifIntersects_comm (a b : Interval) : ifIntersects a b = ifIntersects b a := by
  rw [Bool.eq_iff_iff, ifIntersects_iff, ifIntersects_iff, checkAccessRights_comm]
  exact ⟨fun h => ⟨h.2.1, h.1, h.2.2⟩, fun h => ⟨h.2.1, h.1, h.2.2⟩⟩

end ParcoachRma
