import Mathlib.Data.Finset.Card
import Mathlib.Logic.Function.Basic
import ParcoachRma.Lib.Run

/-!
# The hash table in memory

The macros of `uthash.h` that keep the table of windows, on pointers: the elements are linked in the
order they have been added, and those of a bucket in a chain; a chain that gets too long doubles
the number of buckets.

Elements are at their addresses, and each field of their handles is a map from addresses.  An
element is identified with its handle, which lies at a fixed offset.  The handles of a table all
have the same pointer `tbl`; it is kept once.

The counters are `unsigned`, and their arithmetic wraps around: a table of `2 ^ 31` buckets would
be expanded to none, and C does not define the shift by 32 that the expansion does then.
-/

namespace ParcoachRma

/-- What `HASH_OOPS` prints: the check that fails, what the field says and what is the case. -/
inductive HashOops where
  /-- `invalid hh_prev %p, actual %p` -/
  | hhPrev (field actual : Option Nat)
  /-- `invalid bucket count %d, actual %d` -/
  | bucketCount (field actual : UInt32)
  /-- `invalid hh item count %d, actual %d` -/
  | hhItemCount (field actual : UInt32)
  /-- `invalid prev %p, actual %p` -/
  | prev (field actual : Option Nat)
  /-- `invalid app item count %d, actual %d` -/
  | appItemCount (field actual : UInt32)
  deriving DecidableEq, Repr

/-- What may happen instead of going on. -/
inductive UtHashFault where
  /-- `uthash_fatal`: there is no memory for the table or the buckets. -/
  | outOfMemory
  /-- An access through a null pointer. -/
  | nullDereference
  /-- An access to an element that is not there, or to a table that has been freed. -/
  | danglingPointer
  /-- An access outside the buckets. -/
  | outOfBounds
  | divisionByZero
  /-- A loop that does not end. -/
  | doesNotReturn
  /-- `HASH_OOPS`, which exits. -/
  | oops (msg : HashOops)
  deriving DecidableEq, Repr

/-- Initial number of buckets. -/
def hashInitialNumBuckets : UInt32 := 32

/-- Binary logarithm of the initial number of buckets. -/
def hashInitialNumBucketsLog2 : UInt32 := 5

/-- Expand when the count of a bucket reaches this. -/
def hashBktCapacityThresh : UInt32 := 10

/-- `UT_hash_bucket`. -/
structure UtHashBucket where
  hhHead : Option Nat
  count : UInt32
  expandMult : UInt32

/-- The bytes of a `UT_hash_bucket`. -/
def sizeofBucket : Nat := 16

/-- A bucket that has been set to zero. -/
def UtHashBucket.zero : UtHashBucket := ⟨none, 0, 0⟩

/-- `UT_hash_table`. -/
structure UtHashTable where
  buckets : List UtHashBucket
  numBuckets : UInt32
  log2NumBuckets : UInt32
  numItems : UInt32
  tail : Nat
  idealChainMaxlen : UInt32
  nonidealItems : UInt32
  ineffExpands : UInt32
  noexpand : UInt32

/-- The bytes of a `UT_hash_table`. -/
def sizeofTable : Nat := 64

/-- The elements in memory with the fields of their handles, the pointer to the first element of
the table, and the table. -/
structure UtHash (ε : Type) where
  live : Finset Nat
  elmt : Nat → ε
  prev : Nat → Option Nat
  next : Nat → Option Nat
  hhPrev : Nat → Option Nat
  hhNext : Nat → Option Nat
  hashv : Nat → UInt32
  head : Option Nat
  tbl : Option UtHashTable

variable {ε κ φ : Type} [DecidableEq κ]

/-! ## Access -/

namespace UtHash

/-- The element at a pointer. -/
def deref (s : UtHash ε) : Option Nat → Except UtHashFault Nat
  | none => .error .nullDereference
  | some a => if a ∈ s.live then .ok a else .error .danglingPointer

/-- A write to the element at a pointer, unless the pointer is null. -/
def storeAt (s : UtHash ε) (p : Option Nat) (store : Nat → UtHash ε) :
    Except UtHashFault (UtHash ε) :=
  match p with
  | none => .ok s
  | some a => if a ∈ s.live then .ok (store a) else .error .danglingPointer

/-- `(head)->hh.tbl`. -/
def table (s : UtHash ε) : Except UtHashFault UtHashTable := do
  let _ ← s.deref s.head
  match s.tbl with
  | none => .error .danglingPointer
  | some tbl => .ok tbl

end UtHash

/-- A bucket of an array of buckets. -/
def bucketAt (buckets : List UtHashBucket) (bkt : Nat) : Except UtHashFault UtHashBucket :=
  match buckets[bkt]? with
  | none => .error .outOfBounds
  | some head => .ok head

/-! ## The hash function -/

/-- `HASH_JEN_MIX`. -/
def hashJenMix (a b c : UInt32) : UInt32 × UInt32 × UInt32 :=
  let a := (a - b - c) ^^^ (c >>> 13)
  let b := (b - c - a) ^^^ (a <<< 8)
  let c := (c - a - b) ^^^ (b >>> 13)
  let a := (a - b - c) ^^^ (c >>> 12)
  let b := (b - c - a) ^^^ (a <<< 16)
  let c := (c - a - b) ^^^ (b >>> 5)
  let a := (a - b - c) ^^^ (c >>> 3)
  let b := (b - c - a) ^^^ (a <<< 10)
  let c := (c - a - b) ^^^ (b >>> 15)
  (a, b, c)

/-- A signed `char` of the key, as an `unsigned`. -/
def keyChar (key : List Int8) (i : Nat) : UInt32 := (key.getD i 0).toInt32.toUInt32

/-- Four bytes of the key. -/
def keyWord (key : List Int8) (i : Nat) : UInt32 :=
  keyChar key i + (keyChar key (i + 1) <<< 8) + (keyChar key (i + 2) <<< 16) +
    (keyChar key (i + 3) <<< 24)

/-- The blocks of 12 bytes, of which there are `blocks`, and the rest of the key after them. -/
def hashJenFrom (i j hashv keylen : UInt32) : Nat → List Int8 → UInt32
  | 0, key =>
      -- The lowest byte of the third word stands for the length.
      let (_, _, hashv) := hashJenMix (i + keyWord key 0) (j + keyWord key 4)
        (hashv + keylen + (keyWord (0 :: key.drop 8) 0))
      hashv
  | blocks + 1, key =>
      let (i, j, hashv) := hashJenMix (i + keyWord key 0) (j + keyWord key 4)
        (hashv + keyWord key 8)
      hashJenFrom i j hashv keylen blocks (key.drop 12)

/-- `HASH_JEN`, the default of `HASH_FCN`. -/
def hashJen (key : List Int8) : UInt32 :=
  hashJenFrom 0x9e3779b9 0x9e3779b9 0xfeedbeef (UInt32.ofNat key.length) (key.length / 12) key

/-! ## Looking up -/

/-- `HASH_TO_BKT`. -/
def hashToBkt (hashv numBkts : UInt32) : Nat := (hashv &&& (numBkts - 1)).toNat

/-- `HASH_FIND_IN_BKT`, from an element of the chain on. -/
def hashFindInBkt (keyOf : ε → κ) (s : UtHash ε) (key : κ) (fuel : Nat) (out : Option Nat) :
    Except UtHashFault (Option Nat) :=
  match out with
  | none => .ok none
  | some _ => do
      let a ← s.deref out
      if keyOf (s.elmt a) = key then .ok (some a)
      else
        match fuel with
        | 0 => .error .doesNotReturn
        | fuel + 1 => hashFindInBkt keyOf s key fuel (s.hhNext a)

/-- `HASH_FIND`. -/
def hashFind (keyOf : ε → κ) (hashFcn : κ → UInt32) (key : κ) (s : UtHash ε) :
    Except UtHashFault (Option Nat) :=
  match s.head with
  | none => .ok none
  | some _ => do
      let tbl ← s.table
      let bkt ← bucketAt tbl.buckets (hashToBkt (hashFcn key) tbl.numBuckets)
      hashFindInBkt keyOf s key s.live.card bkt.hhHead

/-! ## Expanding -/

/-- An element becomes the first one of a chain. -/
def hashLink (thh : Nat) (hhHead : Option Nat) (s : UtHash ε) : Except UtHashFault (UtHash ε) :=
  let s := { s with
    hhPrev := Function.update s.hhPrev thh none
    hhNext := Function.update s.hhNext thh hhHead }
  s.storeAt hhHead fun head => { s with hhPrev := Function.update s.hhPrev head (some thh) }

/-- The memory, the new buckets and the number of items in a nonideal position. -/
structure Expansion (ε : Type) where
  memory : UtHash ε
  newBuckets : List UtHashBucket
  nonidealItems : UInt32

/-- The multiplier of a new bucket with `count` elements, and the number of items in a nonideal
position. -/
def markNonideal (idealChainMaxlen count expandMult nonidealItems : UInt32) :
    Except UtHashFault (UInt32 × UInt32) :=
  if count > idealChainMaxlen then
    if idealChainMaxlen = 0 then .error .divisionByZero
    else .ok (count / idealChainMaxlen, nonidealItems + 1)
  else .ok (expandMult, nonidealItems)

/-- The element `thh` goes to its new bucket. -/
def expandItem (idealChainMaxlen numBkts : UInt32) (thh : Nat) (x : Expansion ε) :
    Except UtHashFault (Expansion ε) := do
  let bkt := hashToBkt (x.memory.hashv thh) numBkts
  let newbkt ← bucketAt x.newBuckets bkt
  let count := newbkt.count + 1
  let (expandMult, nonidealItems) ←
    markNonideal idealChainMaxlen count newbkt.expandMult x.nonidealItems
  let memory ← hashLink thh newbkt.hhHead x.memory
  .ok ⟨memory, x.newBuckets.set bkt ⟨some thh, count, expandMult⟩, nonidealItems⟩

/-- The elements of an old chain, from one on. -/
def expandChain (idealChainMaxlen numBkts : UInt32) (fuel : Nat) (thh : Option Nat)
    (x : Expansion ε) : Except UtHashFault (Expansion ε) :=
  match thh with
  | none => .ok x
  | some _ => do
      let a ← x.memory.deref thh
      let hhNxt := x.memory.hhNext a
      let x ← expandItem idealChainMaxlen numBkts a x
      match fuel with
      | 0 => .error .doesNotReturn
      | fuel + 1 => expandChain idealChainMaxlen numBkts fuel hhNxt x

/-- The greatest length of a chain after the expansion, if the items were evenly distributed. -/
def idealChain (tbl : UtHashTable) : UInt32 :=
  (tbl.numItems >>> (tbl.log2NumBuckets + 1)) +
    if tbl.numItems &&& (tbl.numBuckets * 2 - 1) ≠ 0 then 1 else 0

/-- `HASH_EXPAND_BUCKETS`. -/
def hashExpandBuckets (granted : Nat → Bool) (s : UtHash ε) : Except UtHashFault (UtHash ε) := do
  let tbl ← s.table
  if granted ((2 * tbl.numBuckets).toNat * sizeofBucket) then do
    let idealChainMaxlen := idealChain tbl
    let x ← (List.range tbl.numBuckets.toNat).foldlM
      (fun x i => do
        let bkt ← bucketAt tbl.buckets i
        expandChain idealChainMaxlen (tbl.numBuckets * 2) s.live.card bkt.hhHead x)
      ⟨s, List.replicate (2 * tbl.numBuckets).toNat .zero, 0⟩
    let ineffExpands := if x.nonidealItems > tbl.numItems >>> 1 then tbl.ineffExpands + 1 else 0
    .ok { x.memory with
      tbl := some { tbl with
        buckets := x.newBuckets
        numBuckets := tbl.numBuckets * 2
        log2NumBuckets := tbl.log2NumBuckets + 1
        idealChainMaxlen := idealChainMaxlen
        nonidealItems := x.nonidealItems
        ineffExpands := ineffExpands
        noexpand := if ineffExpands > 1 then 1 else tbl.noexpand } }
  else .error .outOfMemory

/-! ## Adding -/

/-- `HASH_MAKE_TABLE`, for the first element. -/
def hashMakeTable (granted : Nat → Bool) (head : Nat) (s : UtHash ε) :
    Except UtHashFault (UtHash ε) :=
  if granted sizeofTable ∧ granted (hashInitialNumBuckets.toNat * sizeofBucket) then
    .ok { s with
      tbl := some
        { buckets := List.replicate hashInitialNumBuckets.toNat .zero
          numBuckets := hashInitialNumBuckets
          log2NumBuckets := hashInitialNumBucketsLog2
          numItems := 0
          tail := head
          idealChainMaxlen := 0
          nonidealItems := 0
          ineffExpands := 0
          noexpand := 0 } }
  else .error .outOfMemory

/-- The test for an expansion. -/
def overfull (head : UtHashBucket) (tbl : UtHashTable) : Bool :=
  decide ((head.expandMult + 1) * hashBktCapacityThresh ≤ head.count) && tbl.noexpand != 1

/-- `HASH_ADD_TO_BKT`. -/
def hashAddToBkt (granted : Nat → Bool) (bkt addhh : Nat) (s : UtHash ε) :
    Except UtHashFault (UtHash ε) := do
  let tbl ← s.table
  let head ← bucketAt tbl.buckets bkt
  let s ← hashLink addhh head.hhHead s
  let head := { head with hhHead := some addhh, count := head.count + 1 }
  let s := { s with tbl := some { tbl with buckets := tbl.buckets.set bkt head } }
  if overfull head tbl then hashExpandBuckets granted s else .ok s

/-- The element is the last one in the order of the application. -/
def appendElmt (granted : Nat → Bool) (add : Nat) (s : UtHash ε) :
    Except UtHashFault (UtHash ε) :=
  match s.head with
  | none => hashMakeTable granted add
      { s with head := some add, prev := Function.update s.prev add none }
  | some _ => do
      let tbl ← s.table
      let tail ← s.deref (some tbl.tail)
      .ok { s with
        next := Function.update s.next tail (some add)
        prev := Function.update s.prev add (some tail)
        tbl := some { tbl with tail := add } }

/-- `HASH_ADD_KEYPTR`, for the key in the element. -/
def hashAddKeyptr (keyOf : ε → κ) (hashFcn : κ → UInt32) (granted : Nat → Bool) (add : Nat)
    (s : UtHash ε) : Except UtHashFault (UtHash ε) := do
  let add ← s.deref (some add)
  let s := { s with next := Function.update s.next add none }
  let s ← appendElmt granted add s
  let tbl ← s.table
  let hashv := hashFcn (keyOf (s.elmt add))
  let s := { s with
    hashv := Function.update s.hashv add hashv
    tbl := some { tbl with numItems := tbl.numItems + 1 } }
  hashAddToBkt granted (hashToBkt hashv tbl.numBuckets) add s

/-! ## Deleting -/

/-- `HASH_DEL_IN_BKT`. -/
def hashDelInBkt (bkt hhDel : Nat) (s : UtHash ε) : Except UtHashFault (UtHash ε) := do
  let tbl ← s.table
  let head ← bucketAt tbl.buckets bkt
  let hhHead := if head.hhHead = some hhDel then s.hhNext hhDel else head.hhHead
  let s := { s with
    tbl := some { tbl with
      buckets := tbl.buckets.set bkt { head with hhHead := hhHead, count := head.count - 1 } } }
  let s ← s.storeAt (s.hhPrev hhDel) fun prev =>
    { s with hhNext := Function.update s.hhNext prev (s.hhNext hhDel) }
  s.storeAt (s.hhNext hhDel) fun next =>
    { s with hhPrev := Function.update s.hhPrev next (s.hhPrev hhDel) }

/-- The table's last element, where it is the one to delete. -/
def moveTail (delptr : Nat) (s : UtHash ε) : Except UtHashFault (UtHash ε) := do
  let tbl ← s.table
  if delptr = tbl.tail then do
    let prev ← s.deref (s.prev delptr)
    .ok { s with tbl := some { tbl with tail := prev } }
  else .ok s

/-- The element before, or the pointer to the first one, goes on with the next. -/
def skipElmt (delptr : Nat) (s : UtHash ε) : Except UtHashFault (UtHash ε) :=
  if (s.prev delptr).isSome then
    s.storeAt (s.prev delptr) fun prev =>
      { s with next := Function.update s.next prev (s.next delptr) }
  else .ok { s with head := s.next delptr }

/-- The element is taken out of the order of the application. -/
def unlinkElmt (delptr : Nat) (s : UtHash ε) : Except UtHashFault (UtHash ε) := do
  let s ← moveTail delptr s
  let s ← skipElmt delptr s
  s.storeAt (s.next delptr) fun next =>
    { s with prev := Function.update s.prev next (s.prev delptr) }

/-- `HASH_DELETE`.  With the last element the table is freed. -/
def hashDelete (delptr : Nat) (s : UtHash ε) : Except UtHashFault (UtHash ε) := do
  let delptr ← s.deref (some delptr)
  if s.prev delptr = none ∧ s.next delptr = none then do
    let _ ← s.table
    .ok { s with head := none, tbl := none }
  else do
    let s ← unlinkElmt delptr s
    let tbl ← s.table
    let s ← hashDelInBkt (hashToBkt (s.hashv delptr) tbl.numBuckets) delptr s
    let tbl ← s.table
    .ok { s with tbl := some { tbl with numItems := tbl.numItems - 1 } }

/-! ## Iterating -/

section Iter

-- The memory of the body of the loop has the table and more.
variable {σ : Type} (htbl : σ → UtHash ε) (fault : UtHashFault → φ)
  (body : Nat → σ → Except φ σ)

/-- `HASH_ITER` from the element `el` on.  The next one is read before the body runs. -/
def hashIterFrom (fuel : Nat) (el tmp : Option Nat) (m : σ) : Except φ σ :=
  match el with
  | none => .ok m
  | some a => do
      let m ← body a m
      match fuel with
      | 0 => .error (fault .doesNotReturn)
      | fuel + 1 =>
          match tmp with
          | none => hashIterFrom fuel tmp none m
          | some _ => do
              let b ← ((htbl m).deref tmp).mapError fault
              hashIterFrom fuel tmp ((htbl m).next b) m

/-- `HASH_ITER`. -/
def hashIter (m : σ) : Except φ σ :=
  match (htbl m).head with
  | none => .ok m
  | some a => do
      let head ← ((htbl m).deref (some a)).mapError fault
      hashIterFrom htbl fault body (htbl m).live.card (some a) ((htbl m).next head) m

end Iter

/-! ## Checking -/

/-- The elements of a list, from one on: their number, if each points back to the one before. -/
def fsckList (next prev : Nat → Option Nat) (oops : Option Nat → Option Nat → HashOops)
    (s : UtHash ε) (fuel : Nat) (before thh : Option Nat) (count : UInt32) :
    Except UtHashFault UInt32 :=
  match thh with
  | none => .ok count
  | some _ => do
      let a ← s.deref thh
      if before ≠ prev a then .error (.oops (oops (prev a) before))
      else
        match fuel with
        | 0 => .error .doesNotReturn
        | fuel + 1 => fsckList next prev oops s fuel (some a) (next a) (count + 1)

/-- The chain of a bucket. -/
def fsckChain (s : UtHash ε) (hhHead : Option Nat) : Except UtHashFault UInt32 :=
  fsckList s.hhNext s.hhPrev .hhPrev s s.live.card none hhHead 0

/-- The elements in the order of the application. -/
def fsckApp (s : UtHash ε) : Except UtHashFault UInt32 :=
  fsckList s.next s.prev .prev s s.live.card none s.head 0

/-- A bucket, after others with `count` elements. -/
def fsckBucket (s : UtHash ε) (tbl : UtHashTable) (count : UInt32) (i : Nat) :
    Except UtHashFault UInt32 := do
  let bkt ← bucketAt tbl.buckets i
  let bktCount ← fsckChain s bkt.hhHead
  if bkt.count ≠ bktCount then .error (.oops (.bucketCount bkt.count bktCount))
  else .ok (count + bktCount)

/-- `HASH_FSCK`, which checks the integrity of the table. -/
def hashFsck (s : UtHash ε) : Except UtHashFault Unit :=
  match s.head with
  | none => .ok ()
  | some _ => do
      let tbl ← s.table
      let count ← (List.range tbl.numBuckets.toNat).foldlM (fsckBucket s tbl) 0
      if count ≠ tbl.numItems then .error (.oops (.hhItemCount tbl.numItems count))
      else do
        let count ← fsckApp s
        if count ≠ tbl.numItems then .error (.oops (.appItemCount tbl.numItems count))
        else .ok ()

end ParcoachRma
