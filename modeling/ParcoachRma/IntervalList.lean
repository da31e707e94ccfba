import ParcoachRma.IntervalStores
import ParcoachRma.Lib.LinkedHeap
import ParcoachRma.Lib.Run

/-!
# The interval list in memory

`interval_list.c` keeps the list as nodes linked by pointers, with a pointer of the caller to the
head.  Here the calls act on such a list; the windows of the other modules have the sequence it
stands for.

* `refinesSequence_iff`: along any calls, the list at the caller's pointer is the sequence that the
  calls lead to, and its size is the length of the sequence, exactly if `remove_interval_tail` is
  never called on a list of one element, where the pointer of the caller is left on the freed node,
  and the size fits an `int`.
* `StandsFor.ifIntersects`: a list that stands for a sequence finds the conflicts of the sequence.
-/

namespace ParcoachRma

namespace IntervalList

open Run

/-- What may happen instead of returning. -/
inductive ListFault where
  /-- `exit(EXIT_FAILURE)`: there is no memory for a node. -/
  | exitFailure
  /-- An access through a null pointer. -/
  | nullDereference
  /-- An access to a node that is not live, or a second `free` of it. -/
  | danglingPointer
  /-- An `int` incremented over its greatest value. -/
  | intOverflow
  /-- A failed `assert`. -/
  | assertion
  /-- A loop that does not end. -/
  | doesNotReturn
  /-- What the C library does not do: `malloc` gives out an address in use. -/
  | notEnabled
  deriving DecidableEq, Repr

abbrev NodeHeap := LinkedHeap Interval

/-- The live nodes and the pointer of the caller. -/
structure ListState where
  heap : NodeHeap
  liInter : Option Nat

/-! ## Access to nodes -/

/-- Read the node at a pointer. -/
def load (heap : NodeHeap) : Option Nat → Except ListFault (LinkNode Interval)
  | none => .error .nullDereference
  | some addr =>
      match heap.lookup addr with
      | none => .error .danglingPointer
      | some node => .ok node

/-- Write the link of the node at a pointer. -/
def storeNext (heap : NodeHeap) (next : Option Nat) : Option Nat → Except ListFault NodeHeap
  | none => .error .nullDereference
  | some addr =>
      match heap.lookup addr with
      | none => .error .danglingPointer
      | some node => .ok (heap.insert addr { node with next })

/-- Free the node at a pointer. -/
def free (heap : NodeHeap) : Option Nat → Except ListFault NodeHeap
  | none => .ok heap
  | some addr => if addr ∈ heap then .ok (heap.erase addr) else .error .danglingPointer

section Access

variable {heap : NodeHeap} {addr : Nat} {node : LinkNode Interval}

theorem load_of_lookup (h : heap.lookup addr = some node) : load heap (some addr) = .ok node := by
  simp [load, h]

theorem storeNext_of_lookup {next : Option Nat} (h : heap.lookup addr = some node) :
    storeNext heap next (some addr) = .ok (heap.insert addr { node with next }) := by
  simp [storeNext, h]

theorem free_of_lookup (h : heap.lookup addr = some node) :
    free heap (some addr) = .ok (heap.erase addr) := by
  simp [free, Finmap.mem_of_lookup_eq_some h]

end Access

/-! ## The operations -/

/-- An empty list. -/
def createIntervalList : Option Nat := none

def isEmptyList (liInter : Option Nat) : Bool := liInter.isNone

/-- Add an interval at the head of the list, in the node that `malloc` has returned, and let the
caller keep the new head. -/
def insertIntervalHead (newHead : Option Nat) (itv : Interval) (s : ListState) :
    Except ListFault ListState :=
  match newHead with
  | none => .error .exitFailure
  | some addr =>
      if addr ∈ s.heap then .error .notEnabled
      else
        let nextItv := if isEmptyList s.liInter then none else s.liInter
        .ok ⟨s.heap.insert addr ⟨itv, nextItv⟩, some addr⟩

/-- Remove the interval at the head, and move the pointer of the caller to the next one. -/
def removeIntervalHead (s : ListState) : Except ListFault ListState :=
  if isEmptyList s.liInter then .ok s
  else do
    let node ← load s.heap s.liInter
    let heap ← free s.heap s.liInter
    .ok ⟨heap, node.next⟩

/-- The loop that finds the last link and the second last one.  Its body runs at most as often as
`fuel` says. -/
def lastLinks (heap : NodeHeap) (fuel : Nat) (secondLastLink lastLink : Option Nat) :
    Except ListFault (Option Nat × Option Nat) := do
  let node ← load heap lastLink
  if isEmptyList node.next then .ok (secondLastLink, lastLink)
  else
    match fuel with
    | 0 => .error .doesNotReturn
    | fuel + 1 => lastLinks heap fuel lastLink node.next

/-- Remove the interval at the tail.  The pointer of the caller is not written. -/
def removeIntervalTail (s : ListState) : Except ListFault ListState :=
  if isEmptyList s.liInter then .ok s
  else do
    let node ← load s.heap s.liInter
    if isEmptyList node.next then
      let heap ← free s.heap s.liInter
      .ok { s with heap }
    else
      let (secondLastLink, lastLink) ← lastLinks s.heap s.heap.keys.card s.liInter s.liInter
      let heap ← storeNext s.heap none secondLastLink
      let heap ← free heap lastLink
      .ok { s with heap }

/-- The loop that removes the head until the pointer of the caller is null. -/
def freeLoop (fuel : Nat) (s : ListState) : Except ListFault ListState :=
  if isEmptyList s.liInter then .ok s
  else
    match fuel with
    | 0 => .error .doesNotReturn
    | fuel + 1 => do
        let s ← removeIntervalHead s
        freeLoop fuel s

/-- Free the list from its head. -/
def freeIntervalList (s : ListState) : Except ListFault ListState :=
  if isEmptyList s.liInter then .ok s
  else do
    let s ← freeLoop s.heap.keys.card s
    if isEmptyList s.liInter then .ok s else .error .assertion

/-- The greatest value of an `int`. -/
def intMax : Int := 2 ^ 31 - 1

/-- The loop that counts the links. -/
def sizeLoop (heap : NodeHeap) (fuel : Nat) (liInter : Option Nat) (size : Int) :
    Except ListFault Int :=
  if isEmptyList liInter then .ok size
  else
    match fuel with
    | 0 => .error .doesNotReturn
    | fuel + 1 =>
        if size = intMax then .error .intOverflow
        else do
          let node ← load heap liInter
          sizeLoop heap fuel node.next (size + 1)

def intervalListSize (heap : NodeHeap) (liInter : Option Nat) : Except ListFault Int :=
  if isEmptyList liInter then .ok 0 else sizeLoop heap heap.keys.card liInter 0

/-- The loop that checks the links after the given one. -/
def intersectsLoop (heap : NodeHeap) (itv : Interval) (fuel : Nat) (tmpLink : Option Nat) :
    Except ListFault Bool := do
  let node ← load heap tmpLink
  if isEmptyList node.next then .ok false
  else
    match fuel with
    | 0 => .error .doesNotReturn
    | fuel + 1 => do
        let next ← load heap node.next
        if ifIntersects itv next.val then .ok true
        else intersectsLoop heap itv fuel node.next

/-- Check the links of the list one by one. -/
def ifIntersectsIntervalList (heap : NodeHeap) (itv : Interval) (liInter : Option Nat) :
    Except ListFault Bool :=
  if isEmptyList liInter then .ok false
  else do
    let node ← load heap liInter
    if ifIntersects itv node.val then .ok true
    else intersectsLoop heap itv heap.keys.card liInter

/-! ## What they do to a list -/

section Linked

variable {s : ListState} {cells : List (Nat × Interval)} {c : Nat × Interval}

theorem isEmptyList_of_linked {heap : NodeHeap} {p : Option Nat} (h : Linked heap p cells) :
    isEmptyList p = cells.isEmpty := by
  cases cells with
  | nil =>
      obtain rfl : p = none := h
      rfl
  | cons c cells =>
      obtain rfl : p = some c.1 := h.1
      rfl

theorem insertIntervalHead_of_linked (h : Linked s.heap s.liInter cells) {addr : Nat}
    {itv : Interval} (haddr : addr ∉ s.heap) :
    ∃ s', insertIntervalHead (some addr) itv s = .ok s' ∧
      Linked s'.heap s'.liInter ((addr, itv) :: cells) := by
  have hnext : (if isEmptyList s.liInter then none else s.liInter) = s.liInter := by
    cases s.liInter <;> rfl
  refine ⟨⟨s.heap.insert addr ⟨itv, s.liInter⟩, some addr⟩, ?_, rfl, s.liInter,
    Finmap.lookup_insert _, h.frame fun addr' haddr' => ?_⟩
  · simp only [insertIntervalHead, if_neg haddr, hnext]
  · obtain ⟨c, hc, rfl⟩ := List.mem_map.mp haddr'
    rcases h.lookup_of_mem hc with ⟨next, hnode⟩
    apply Finmap.lookup_insert_of_ne
    intro heq
    exact haddr (heq ▸ Finmap.mem_of_lookup_eq_some hnode)

theorem removeIntervalHead_of_linked (h : Linked s.heap s.liInter cells) :
    ∃ s', removeIntervalHead s = .ok s' ∧ Linked s'.heap s'.liInter cells.tail := by
  have hempty := isEmptyList_of_linked h
  cases cells with
  | nil => exact ⟨s, by simp [removeIntervalHead, hempty], h⟩
  | cons c cells =>
      have hnodup := h.nodup
      rcases h with ⟨hp, next, hnode, hrest⟩
      refine ⟨⟨s.heap.erase c.1, next⟩, ?_, hrest.frame fun addr haddr => ?_⟩
      · rw [hp] at hempty
        simp [removeIntervalHead, hp, hempty, load_of_lookup hnode, free_of_lookup hnode, bind,
          Except.bind]
      · apply Finmap.lookup_erase_ne
        intro heq
        exact (List.nodup_cons.mp hnodup).1 (heq ▸ haddr)

/-- On a list of one element the node is freed, and the pointer of the caller still points to
it. -/
theorem removeIntervalTail_of_singleton (h : Linked s.heap s.liInter [c]) :
    ∃ s', removeIntervalTail s = .ok s' ∧ s'.liInter = some c.1 := by
  rcases h with ⟨hp, next, hnode, hnext⟩
  obtain rfl : next = none := hnext
  refine ⟨⟨s.heap.erase c.1, s.liInter⟩, ?_, hp⟩
  simp [removeIntervalTail, hp, load_of_lookup hnode, free_of_lookup hnode, isEmptyList, bind,
    Except.bind]

/-- The loop ends at the last two cells. -/
theorem lastLinks_of_linked {heap : NodeHeap} {p secondLast : Option Nat}
    {front : List (Nat × Interval)} {c d : Nat × Interval}
    (h : Linked heap p (front ++ [c, d])) {fuel : Nat} (hfuel : front.length + 1 ≤ fuel) :
    lastLinks heap fuel secondLast p = .ok (some c.1, some d.1) := by
  induction front generalizing p secondLast fuel with
  | nil =>
      obtain ⟨rfl, _, hc, rfl, next, hd, hnext⟩ := h
      obtain rfl : next = none := hnext
      obtain ⟨fuel, rfl⟩ := Nat.exists_eq_add_of_le' hfuel
      rw [lastLinks, load_of_lookup hc]
      change lastLinks heap fuel (some c.1) (some d.1) = _
      rw [lastLinks, load_of_lookup hd]
      rfl
  | cons e front ih =>
      rcases h with ⟨rfl, next, he, hrest⟩
      obtain ⟨fuel, rfl⟩ := Nat.exists_eq_add_of_le' ((Nat.le_add_left 1 _).trans hfuel)
      have hnext : isEmptyList next = false := by
        rw [isEmptyList_of_linked hrest]
        simp
      rw [lastLinks, load_of_lookup he]
      simp only [bind, Except.bind, hnext]
      exact ih hrest (by simpa using hfuel)

/-- A list of more than one element has a link at its head. -/
theorem load_of_linked_cons {heap : NodeHeap} {p : Option Nat} {c : Nat × Interval}
    (h : Linked heap p (c :: cells)) (hne : cells ≠ []) :
    ∃ node, load heap p = .ok node ∧ isEmptyList node.next = false := by
  rcases h with ⟨rfl, next, hnode, hrest⟩
  refine ⟨⟨c.2, next⟩, load_of_lookup hnode, ?_⟩
  rw [isEmptyList_of_linked hrest]
  simp [hne]

theorem removeIntervalTail_of_pair {front : List (Nat × Interval)} {c d : Nat × Interval}
    (h : Linked s.heap s.liInter (front ++ [c, d])) :
    ∃ s', removeIntervalTail s = .ok s' ∧ Linked s'.heap s'.liInter (front ++ [c]) := by
  have hempty : isEmptyList s.liInter = false := by
    rw [isEmptyList_of_linked h]
    simp
  obtain ⟨node, hload, hnext⟩ :
      ∃ node, load s.heap s.liInter = .ok node ∧ isEmptyList node.next = false := by
    cases front with
    | nil => exact load_of_linked_cons h (by simp)
    | cons e front => exact load_of_linked_cons h (by simp)
  have hlinks : lastLinks s.heap s.heap.keys.card s.liInter s.liInter =
      .ok (some c.1, some d.1) := by
    have hcard := h.length_le
    rw [List.length_append, List.length_cons, List.length_singleton] at hcard
    exact lastLinks_of_linked h (by omega)
  -- The addresses differ, so that the two writes touch the last two nodes alone.
  have hnodup := h.nodup
  rw [List.map_append, List.nodup_append] at hnodup
  rcases hnodup with ⟨-, hpair, hfront⟩
  have hcd : c.1 ≠ d.1 := by simpa using hpair
  obtain ⟨_, hc⟩ := h.lookup_of_mem (c := c) (by simp)
  obtain ⟨_, hd⟩ := h.lookup_of_mem (c := d) (by simp)
  have hstore : storeNext s.heap none (some c.1) = .ok (s.heap.insert c.1 ⟨c.2, none⟩) :=
    storeNext_of_lookup hc
  have hlast : (s.heap.insert c.1 ⟨c.2, none⟩).lookup d.1 = s.heap.lookup d.1 :=
    Finmap.lookup_insert_of_ne _ hcd.symm
  have hfree := free_of_lookup (hlast.trans hd)
  refine ⟨{ s with heap := (s.heap.insert c.1 ⟨c.2, none⟩).erase d.1 }, ?_, h.cut ?_ ?_⟩
  · simp only [removeIntervalTail, hempty, hload, hnext, hlinks, hstore, hfree, bind, Except.bind]
    rfl
  · intro addr haddr
    have hne : addr ≠ c.1 ∧ addr ≠ d.1 := by
      constructor
      · exact hfront addr haddr c.1 (by simp)
      · exact hfront addr haddr d.1 (by simp)
    rw [Finmap.lookup_erase_ne hne.2, Finmap.lookup_insert_of_ne _ hne.1]
  · rw [Finmap.lookup_erase_ne hcd, Finmap.lookup_insert]

theorem removeIntervalTail_of_linked (h : Linked s.heap s.liInter cells)
    (hone : cells.length ≠ 1) :
    ∃ s', removeIntervalTail s = .ok s' ∧ Linked s'.heap s'.liInter cells.dropLast := by
  rcases List.eq_nil_or_concat cells with rfl | ⟨init, d, rfl⟩
  · exact ⟨s, by simp [removeIntervalTail, isEmptyList_of_linked h], h⟩
  rcases List.eq_nil_or_concat init with rfl | ⟨front, c, rfl⟩
  · exact absurd rfl hone
  have hcells : (front.concat c).concat d = front ++ [c, d] := by simp
  rw [hcells] at h ⊢
  rcases removeIntervalTail_of_pair h with ⟨s', hs', hlinked⟩
  refine ⟨s', hs', ?_⟩
  have hlast : (front ++ [c, d]).dropLast = front ++ [c] := by
    rw [List.dropLast_append_of_ne_nil (List.cons_ne_nil _ _)]
    rfl
  rw [hlast]
  exact hlinked

theorem freeLoop_of_linked (h : Linked s.heap s.liInter cells) {fuel : Nat}
    (hfuel : cells.length ≤ fuel) :
    ∃ s', freeLoop fuel s = .ok s' ∧ s'.liInter = none := by
  induction cells generalizing s fuel with
  | nil => exact ⟨s, by unfold freeLoop; simp [isEmptyList_of_linked h], h⟩
  | cons c cells ih =>
      obtain ⟨fuel, rfl⟩ := Nat.exists_eq_add_of_le' ((Nat.le_add_left 1 _).trans hfuel)
      rcases removeIntervalHead_of_linked h with ⟨t, ht, hrest⟩
      rcases ih hrest (by simpa using hfuel) with ⟨s', hs', hnone⟩
      refine ⟨s', ?_, hnone⟩
      rw [freeLoop, isEmptyList_of_linked h]
      simp [ht, hs', bind, Except.bind]

theorem freeIntervalList_of_linked (h : Linked s.heap s.liInter cells) :
    ∃ s', freeIntervalList s = .ok s' ∧ s'.liInter = none := by
  by_cases hempty : isEmptyList s.liInter = true
  · exact ⟨s, by simp [freeIntervalList, hempty], Option.isNone_iff_eq_none.mp hempty⟩
  · rcases freeLoop_of_linked h h.length_le with ⟨s', hs', hnone⟩
    refine ⟨s', ?_, hnone⟩
    rw [freeIntervalList, if_neg hempty, hs']
    simp only [bind, Except.bind, hnone]
    rfl

/-- The loop adds the number of links, unless the sum is over the greatest value. -/
theorem sizeLoop_of_linked {heap : NodeHeap} {p : Option Nat} (h : Linked heap p cells)
    {fuel : Nat} (hfuel : cells.length ≤ fuel) {size : Int} (hsize : size ≤ intMax) :
    sizeLoop heap fuel p size =
      if size + cells.length ≤ intMax then .ok (size + cells.length)
      else .error .intOverflow := by
  induction cells generalizing p fuel size with
  | nil =>
      unfold sizeLoop
      simp [isEmptyList_of_linked h, hsize]
  | cons c cells ih =>
      obtain ⟨fuel, rfl⟩ := Nat.exists_eq_add_of_le' ((Nat.le_add_left 1 _).trans hfuel)
      have hempty : isEmptyList p = false := isEmptyList_of_linked h
      rcases h with ⟨rfl, next, hnode, hrest⟩
      have hlength : ((c :: cells).length : Int) = cells.length + 1 := by simp
      simp only [sizeLoop, hempty, Bool.false_eq_true, if_false]
      by_cases hmax : size = intMax
      · rw [if_pos hmax, if_neg (by omega)]
      · rw [if_neg hmax, load_of_lookup hnode, hlength,
          show size + (cells.length + 1 : Int) = size + 1 + cells.length by omega]
        exact ih hrest (by simpa using hfuel) (by omega)

theorem intervalListSize_of_linked {heap : NodeHeap} {p : Option Nat} (h : Linked heap p cells) :
    intervalListSize heap p =
      if (cells.length : Int) ≤ intMax then .ok (cells.length : Int)
      else .error .intOverflow := by
  have hloop := sizeLoop_of_linked h h.length_le (show (0 : Int) ≤ intMax by decide)
  rw [Int.zero_add] at hloop
  by_cases hempty : isEmptyList p = true
  · have hnil : cells = [] := by
      rw [isEmptyList_of_linked h] at hempty
      exact List.isEmpty_iff.mp hempty
    subst hnil
    rw [intervalListSize, if_pos hempty]
    rfl
  · rw [intervalListSize, if_neg hempty, hloop]

theorem intersectsLoop_of_linked {heap : NodeHeap} {p : Option Nat} {c : Nat × Interval}
    (h : Linked heap p (c :: cells)) (itv : Interval) {fuel : Nat} (hfuel : cells.length ≤ fuel) :
    intersectsLoop heap itv fuel p =
      .ok (ParcoachRma.ifIntersectsIntervalList itv (cells.map Prod.snd)) := by
  induction cells generalizing p c fuel with
  | nil =>
      obtain ⟨rfl, next, hnode, hnext⟩ := h
      obtain rfl : next = none := hnext
      rw [intersectsLoop, load_of_lookup hnode]
      rfl
  | cons d cells ih =>
      obtain ⟨fuel, rfl⟩ := Nat.exists_eq_add_of_le' ((Nat.le_add_left 1 _).trans hfuel)
      rcases h with ⟨rfl, next, hnode, hrest⟩
      have hloop := ih hrest (by simpa using hfuel)
      obtain ⟨rfl, next', hnode', -⟩ := hrest
      rw [intersectsLoop, load_of_lookup hnode]
      simp only [bind, Except.bind, isEmptyList, Option.isNone_some, Bool.false_eq_true, if_false,
        load_of_lookup hnode', List.map_cons, ParcoachRma.ifIntersectsIntervalList, hloop]
      split_ifs <;> rfl

/-- The check of the list in memory is that of the sequence it stands for. -/
theorem ifIntersectsIntervalList_of_linked {heap : NodeHeap} {p : Option Nat}
    (h : Linked heap p cells) (itv : Interval) :
    ifIntersectsIntervalList heap itv p =
      .ok (ParcoachRma.ifIntersectsIntervalList itv (cells.map Prod.snd)) := by
  cases cells with
  | nil =>
      obtain rfl : p = none := h
      rfl
  | cons c cells =>
      have hcard := h.length_le
      rw [List.length_cons] at hcard
      have hloop := intersectsLoop_of_linked h itv (Nat.le_of_succ_le hcard)
      obtain ⟨rfl, next, hnode, -⟩ := h
      rw [ifIntersectsIntervalList, load_of_lookup hnode]
      simp only [bind, Except.bind, isEmptyList, Option.isNone_some, Bool.false_eq_true, if_false,
        List.map_cons, ParcoachRma.ifIntersectsIntervalList, hloop]
      split_ifs <;> rfl

end Linked

/-! ## Histories of calls -/

/-- A call of the caller, with what `malloc` answers. -/
inductive ListOp where
  | insertIntervalHead (newHead : Option Nat) (itv : Interval)
  | removeIntervalHead
  | removeIntervalTail
  | freeIntervalList

def listStep (s : ListState) : ListOp → Except ListFault ListState
  | .insertIntervalHead newHead itv => insertIntervalHead newHead itv s
  | .removeIntervalHead => removeIntervalHead s
  | .removeIntervalTail => removeIntervalTail s
  | .freeIntervalList => freeIntervalList s

/-- No live nodes, and an empty list. -/
def ListState.init : ListState := ⟨∅, createIntervalList⟩

/-- What a call does to a sequence. -/
def ListOp.onSequence (itvs : List Interval) : ListOp → List Interval
  | .insertIntervalHead _ itv => ParcoachRma.insertIntervalHead itvs itv
  | .removeIntervalHead => itvs.tail
  | .removeIntervalTail => itvs.dropLast
  | .freeIntervalList => []

/-- The sequence that the calls lead to. -/
def contents (ops : List ListOp) : List Interval := ops.foldl ListOp.onSequence []

theorem contents_snoc (ops : List ListOp) (op : ListOp) :
    contents (ops ++ [op]) = op.onSequence (contents ops) := by
  simp [contents]

/-- The list at the pointer of the caller runs over live nodes and has these intervals. -/
def StandsFor (s : ListState) (itvs : List Interval) : Prop :=
  ∃ cells, Linked s.heap s.liInter cells ∧ cells.map Prod.snd = itvs

/-- In every state that the calls lead to, the list is the sequence and the size its length, and the
next call returns, unless there is no memory for a node. -/
def RefinesSequence (ops : List ListOp) : Prop :=
  ∀ pre s, pre <+: ops → run listStep ListState.init pre = .ok s →
    StandsFor s (contents pre) ∧
    intervalListSize s.heap s.liInter = .ok ((contents pre).length : Int) ∧
    ∀ op f, pre ++ [op] <+: ops → listStep s op = .error f → f = .exitFailure ∨ f = .notEnabled

/-- The tail is never removed from a sequence of one element, and the lengths fit an `int`. -/
def SparesSingletons (ops : List ListOp) : Prop :=
  ∀ pre s, pre <+: ops → run listStep ListState.init pre = .ok s →
    ((contents pre).length : Int) ≤ intMax ∧
    (pre ++ [.removeIntervalTail] <+: ops → (contents pre).length ≠ 1)

namespace StandsFor

variable {s : ListState} {itvs : List Interval}

theorem init : StandsFor ListState.init [] := ⟨[], rfl, rfl⟩

theorem size (h : StandsFor s itvs) :
    intervalListSize s.heap s.liInter =
      if (itvs.length : Int) ≤ intMax then .ok (itvs.length : Int) else .error .intOverflow := by
  obtain ⟨cells, hlinked, rfl⟩ := h
  rw [List.length_map]
  exact intervalListSize_of_linked hlinked

/-- The list answers like the sequence of the windows. -/
theorem ifIntersects (h : StandsFor s itvs) (itv : Interval) :
    ifIntersectsIntervalList s.heap itv s.liInter =
      .ok (ParcoachRma.ifIntersectsIntervalList itv itvs) := by
  obtain ⟨cells, hlinked, rfl⟩ := h
  exact ifIntersectsIntervalList_of_linked hlinked itv

/-- A call returns with the list of the sequence, or there is no memory for a node, as long as it
does not take the tail of one element. -/
theorem step (h : StandsFor s itvs) {op : ListOp}
    (hone : op = .removeIntervalTail → itvs.length ≠ 1) :
    (∃ s', listStep s op = .ok s' ∧ StandsFor s' (op.onSequence itvs)) ∨
      listStep s op = .error .exitFailure ∨ listStep s op = .error .notEnabled := by
  obtain ⟨cells, hlinked, rfl⟩ := h
  cases op with
  | insertIntervalHead newHead itv =>
      cases newHead with
      | none => exact .inr (.inl rfl)
      | some addr =>
          by_cases haddr : addr ∈ s.heap
          · right
            right
            simp [listStep, insertIntervalHead, haddr]
          · rcases insertIntervalHead_of_linked hlinked haddr with ⟨s', hs', hcells⟩
            exact .inl ⟨s', hs', _, hcells, rfl⟩
  | removeIntervalHead =>
      rcases removeIntervalHead_of_linked hlinked with ⟨s', hs', hcells⟩
      exact .inl ⟨s', hs', _, hcells, List.map_tail⟩
  | removeIntervalTail =>
      rw [List.length_map] at hone
      rcases removeIntervalTail_of_linked hlinked (hone rfl) with ⟨s', hs', hcells⟩
      exact .inl ⟨s', hs', _, hcells, List.map_dropLast⟩
  | freeIntervalList =>
      rcases freeIntervalList_of_linked hlinked with ⟨s', hs', hnone⟩
      exact .inl ⟨s', hs', [], hnone, rfl⟩

/-- The tail of one element leaves the pointer of the caller where it was. -/
theorem removeIntervalTail_ne (h : StandsFor s itvs) (hone : itvs.length = 1) :
    ∃ s', removeIntervalTail s = .ok s' ∧ ¬ StandsFor s' [] := by
  obtain ⟨cells, hlinked, rfl⟩ := h
  rw [List.length_map, List.length_eq_one_iff] at hone
  obtain ⟨c, rfl⟩ := hone
  rcases removeIntervalTail_of_singleton hlinked with ⟨s', hs', hhead⟩
  refine ⟨s', hs', fun hempty => ?_⟩
  obtain ⟨cells, hcells, hnil⟩ := hempty
  obtain rfl : cells = [] := List.map_eq_nil_iff.mp hnil
  have hnone : s'.liInter = none := hcells
  rw [hhead] at hnone
  cases hnone

/-- Calls that spare singletons lead to the list of their sequence. -/
theorem of_run {ops pre : List ListOp} (hspares : SparesSingletons ops) (hpre : pre <+: ops)
    (hrun : run listStep ListState.init pre = .ok s) : StandsFor s (contents pre) := by
  induction pre using List.reverseRecOn generalizing s with
  | nil =>
      cases hrun
      exact init
  | append_singleton pre op ih =>
      obtain ⟨t, ht, hstep⟩ := run_snoc_ok.mp hrun
      have hshort := (List.prefix_append _ _).trans hpre
      have hone : op = .removeIntervalTail → (contents pre).length ≠ 1 := by
        rintro rfl
        exact (hspares pre t hshort ht).2 hpre
      rw [contents_snoc]
      rcases (ih hshort ht).step hone with ⟨s', hs', hstands⟩ | hexit | hfresh
      · obtain rfl := Except.ok.inj (hstep.symm.trans hs')
        exact hstands
      · rw [hexit] at hstep
        cases hstep
      · rw [hfresh] at hstep
        cases hstep

end StandsFor

/-- Along any calls, the list is the sequence and its size the length exactly if the calls never
take the tail of one element and the lengths fit an `int`. -/
theorem refinesSequence_iff (ops : List ListOp) :
    RefinesSequence ops ↔ SparesSingletons ops := by
  constructor
  · intro hrefines pre s hpre hrun
    rcases hrefines pre s hpre hrun with ⟨hstands, hsize, -⟩
    refine ⟨?_, fun htail hone => ?_⟩
    · by_contra hgt
      rw [hstands.size, if_neg hgt] at hsize
      cases hsize
    · rcases hstands.removeIntervalTail_ne hone with ⟨s', hs', hne⟩
      have hlater := (hrefines _ s' htail (run_snoc_ok.mpr ⟨s, hrun, hs'⟩)).1
      obtain ⟨itv, hitv⟩ := List.length_eq_one_iff.mp hone
      rw [contents_snoc, hitv] at hlater
      exact hne hlater
  · intro hspares pre s hpre hrun
    have hstands := StandsFor.of_run hspares hpre hrun
    rcases hspares pre s hpre hrun with ⟨hmax, hone⟩
    refine ⟨hstands, ?_, fun op f hop hfault => ?_⟩
    · rw [hstands.size, if_pos hmax]
    · have hlonger : op = .removeIntervalTail → (contents pre).length ≠ 1 := by
        rintro rfl
        exact hone hop
      rcases hstands.step hlonger with ⟨s', hs', -⟩ | hexit | hfresh
      · rw [hs'] at hfault
        cases hfault
      · exact .inl (Except.error.inj (hfault.symm.trans hexit))
      · exact .inr (Except.error.inj (hfault.symm.trans hfresh))

/-- A get of four bytes is inserted and removed at the tail again. -/
def insertThenRemoveTail : List ListOp :=
  [.insertIntervalHead (some 8) (createInterval 4096 4099 .rmaRead (-1) 10 none),
    .removeIntervalTail]

/-- The node is freed, but the pointer of the caller still points to it, and the next call reads
it. -/
theorem not_refinesSequence_of_removeTail :
    (∃ s, run listStep ListState.init insertThenRemoveTail = .ok s ∧
      s.liInter = some 8 ∧ s.heap.lookup 8 = none ∧
      listStep s .removeIntervalHead = .error .danglingPointer) ∧
    ¬ RefinesSequence insertThenRemoveTail := by
  obtain ⟨s, hrun, hhead, hfreed, hnext⟩ : ∃ s,
      run listStep ListState.init insertThenRemoveTail = .ok s ∧
      s.liInter = some 8 ∧ s.heap.lookup 8 = none ∧
      listStep s .removeIntervalHead = .error .danglingPointer :=
    ⟨_, rfl, rfl, rfl, rfl⟩
  refine ⟨⟨s, hrun, hhead, hfreed, hnext⟩, fun hrefines => ?_⟩
  obtain ⟨cells, hcells, hnil⟩ := (hrefines _ s List.prefix_rfl hrun).1
  obtain rfl : cells = [] := List.map_eq_nil_iff.mp hnil
  have hnone : s.liInter = none := hcells
  rw [hhead] at hnone
  cases hnone

end IntervalList

end ParcoachRma
