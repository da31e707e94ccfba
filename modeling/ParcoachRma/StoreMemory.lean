import ParcoachRma.NotifCoupling
import ParcoachRma.NotifOperations
import ParcoachRma.Transfer
import ParcoachRma.Lib.TreeHeapSpec
import ParcoachRma.Lib.Simulation

/-!
# The stores of all windows in memory

The trees of the windows are nodes linked by pointers in one memory, and the intervals they hold are
objects of their own.  Here the calls that work on the stores do so through pointers: a node is
allocated by an insertion and freed by a deletion, a rotation rewrites links, and the record of a
window keeps the pointers to its two roots.  The other modules have trees as values; `StandsFor`
says which trees the pointers lead to.

`StandsFor.refines_step`: a call in memory is the call on the records, unless the allocator fails
it.
-/

namespace ParcoachRma

open Run AvlTree

/-- What may happen instead of returning: what the analyzer does, or a fault of the memory. -/
inductive MemoryFault where
  | analyzer (f : Fault)
  | memory (f : TreeFault)
  deriving DecidableEq, Repr

/-- The allocator has no memory left; or it gives out an address in use, which it does not do. -/
def AllocatorFails (f : MemoryFault) : Prop := f = .memory .outOfMemory ∨ f = .memory .notEnabled

/-- The live interval objects, the live nodes of interval trees and of notification trees, and the
roots that the records of the windows point to. -/
structure StoreMemory where
  objects : Finmap fun _ : Nat => Interval
  treeNodes : TreeHeap IntervalPtr
  notifNodes : TreeHeap NotifEntry
  localTree : MpiWin → Option Nat
  notifTree : MpiWin → Option Nat

/-- Before anything is saved. -/
def StoreMemory.empty : StoreMemory := ⟨∅, ∅, ∅, fun _ => none, fun _ => none⟩

namespace StoreMemory

/-! ## The operations on the trees -/

/-- A fault of a tree operation is one of the memory. -/
def access {α : Type} (call : Except TreeFault α) : Except MemoryFault α :=
  call.mapError .memory

/-- The object for a new interval, at the address that the allocator has returned. -/
def createInterval (itv : Interval) (object : Option Nat) (m : StoreMemory) :
    Except MemoryFault (IntervalPtr × StoreMemory) :=
  match object with
  | none => .error (.memory .outOfMemory)
  | some addr =>
      if addr ∈ m.objects then .error (.memory .notEnabled)
      else .ok (⟨addr, itv⟩, { m with objects := m.objects.insert addr itv })

/-- `state->local_tree = call`. -/
def assignLocalTree (win : MpiWin) (m : StoreMemory)
    (call : Except TreeFault (TreeHeap IntervalPtr × Option Nat)) :
    Except MemoryFault StoreMemory := do
  let (treeNodes, root) ← access call
  return { m with treeNodes, localTree := Function.update m.localTree win root }

/-- `state->notif_tree = call`. -/
def assignNotifTree (win : MpiWin) (m : StoreMemory)
    (call : Except TreeFault (TreeHeap NotifEntry × Option Nat)) :
    Except MemoryFault StoreMemory := do
  let (notifNodes, root) ← access call
  return { m with notifNodes, notifTree := Function.update m.notifTree win root }

def insertIntervalTree (itv : IntervalPtr) (treeNode : Option Nat) (win : MpiWin)
    (m : StoreMemory) : Except MemoryFault StoreMemory :=
  m.assignLocalTree win (HeapTree.insert lowKey (itv.itv.lowBound + 1).toNat
    (itv.itv.lowBound - 1).toNat treeNode itv m.treeNodes.keys.card m.treeNodes (m.localTree win))

def insertNotifTree (itv : IntervalPtr) (notifNode : Option Nat) (win : MpiWin)
    (m : StoreMemory) : Except MemoryFault StoreMemory :=
  m.assignNotifTree win (HeapTree.insert NotifEntry.notifId (itv.itv.notificationId + 1)
    (itv.itv.notificationId - 1) notifNode (newNotifEntry itv) m.notifNodes.keys.card m.notifNodes
    (m.notifTree win))

/-- The pointer to the interval is only read if the tree is not empty. -/
def deleteIntervalTree (itv : Option IntervalPtr) (win : MpiWin) (m : StoreMemory) :
    Except MemoryFault StoreMemory :=
  match m.localTree win, itv with
  | none, _ => .ok m
  | some _, none => .error (.analyzer .nullDereference)
  | some root, some p =>
      m.assignLocalTree win
        (HeapTree.delete lowKey id m.treeNodes.keys.card (lowKey p) m.treeNodes (some root))

def deleteNotifTree (notifId : Int) (win : MpiWin) (m : StoreMemory) :
    Except MemoryFault StoreMemory :=
  m.assignNotifTree win (HeapTree.delete NotifEntry.notifId (· - 1) m.notifNodes.keys.card notifId
    m.notifNodes (m.notifTree win))

def freeIntervalTree (win : MpiWin) (m : StoreMemory) : Except MemoryFault StoreMemory :=
  m.assignLocalTree win
    (HeapTree.freeLoop lowKey id m.treeNodes.keys.card m.treeNodes (m.localTree win))

def freeNotifTree (win : MpiWin) (m : StoreMemory) : Except MemoryFault StoreMemory :=
  m.assignNotifTree win (HeapTree.freeLoop NotifEntry.notifId (· - 1) m.notifNodes.keys.card
    m.notifNodes (m.notifTree win))

/-- Check if the given interval overlaps with an interval of the tree, and return that one.  The
recursion goes down `fuel` links at most. -/
def overlapSearch (nodes : TreeHeap IntervalPtr) (i : IntervalPtr) :
    Nat → Option Nat → Except TreeFault (Option IntervalPtr)
  | _, none => .ok none
  | 0, some _ => .error .doesNotReturn
  | fuel + 1, some root => do
      let cell ← HeapTree.load nodes (some root)
      if ifIntersects cell.val.itv i.itv then return some cell.val
      else if lowKey i < lowKey cell.val then overlapSearch nodes i fuel cell.left
      else if lowKey i > lowKey cell.val then overlapSearch nodes i fuel cell.right
      else return none

def findIntervalFromNotif (notifId : Int) (win : MpiWin) (m : StoreMemory) :
    Except MemoryFault (Option IntervalPtr) := do
  let entry ← access
    (HeapTree.lookup NotifEntry.notifId notifId m.notifNodes.keys.card m.notifNodes
      (m.notifTree win))
  return entry.map NotifEntry.itv

/-! ## The calls on the stores of a window -/

def rmaAnalyzerSaveNotif (itv : IntervalPtr) (notifNode : Option Nat) (win : MpiWin)
    (m : StoreMemory) : Except MemoryFault StoreMemory :=
  if itv.itv.notificationId < 0 then .ok m else m.insertNotifTree itv notifNode win

/-- Save the interval in the trees of the window, which has the bounds of the record `w`. -/
def rmaAnalyzerSaveInterval (filterWindow : Int) (w : RmaAnalyzerState) (itv : IntervalPtr)
    (treeNode notifNode : Option Nat) (win : MpiWin) (m : StoreMemory) :
    Except MemoryFault (Nat × StoreMemory) :=
  if admits filterWindow w itv.itv then do
    match ← access (overlapSearch m.treeNodes itv m.treeNodes.keys.card (m.localTree win)) with
    | some overlapItv =>
        .error (.analyzer (.mpiAbort (conflictReport itv.itv overlapItv.itv)))
    | none =>
        let m ← m.insertIntervalTree itv treeNode win
        let m ← m.rmaAnalyzerSaveNotif itv notifNode win
        return (1, m)
  else .ok (0, m)

/-- Create the object for an interval and save it.  Where the caller looks at what the save
returns, an object that has been filtered out is freed. -/
def saveObject (filterWindow : Int) (w : RmaAnalyzerState) (itv : Interval)
    (object treeNode notifNode : Option Nat) (looks : Bool) (win : MpiWin) (m : StoreMemory) :
    Except MemoryFault StoreMemory := do
  let (savedItv, m) ← m.createInterval itv object
  let (ret, m) ← m.rmaAnalyzerSaveInterval filterWindow w savedItv treeNode notifNode win
  if looks ∧ ret = 0 then return { m with objects := m.objects.erase savedItv.addr }
  else return m

/-- The caller does not look at what the save returns, and the object for the interval that is sent
is not freed. -/
def rmaAnalyzerUpdateOnCommSend (filterWindow : Int) (w : RmaAnalyzerState) (c : CommSend)
    (localItv treeNode targetItv : Option Nat) (win : MpiWin) (m : StoreMemory) :
    Except MemoryFault StoreMemory := do
  let m ← m.saveObject filterWindow w c.localItv localItv treeNode none false win
  let (_, m) ← m.createInterval c.targetItv targetItv
  return m

/-- The start of a checking thread, whose buffer for what it receives has whatever is in memory
there. -/
def rmaAnalyzerCommCheckThread (received : Interval) (object : Option Nat) (m : StoreMemory) :
    Except MemoryFault StoreMemory := do
  let (_, m) ← m.createInterval received object
  return m

def rmaAnalyzerClearFromNotifId (notifId : Int) (win : MpiWin) (m : StoreMemory) :
    Except MemoryFault StoreMemory :=
  if notifId < 0 then .ok m
  else do
    let itv ← m.findIntervalFromNotif notifId win
    let m ← m.deleteIntervalTree itv win
    m.deleteNotifTree notifId win

/-- The end of an epoch: both trees are freed. -/
def freeTrees (win : MpiWin) (m : StoreMemory) : Except MemoryFault StoreMemory := do
  let m ← m.freeIntervalTree win
  m.freeNotifTree win

end StoreMemory

/-- A call on the stores of a window, with what the allocator returns for its objects and for the
nodes of the two trees: the save of a load, of a store or of a received interval, the origin of a
transfer, the start of a checking thread, a notification, the end of an epoch. -/
inductive MemoryOp where
  | save (itv : Interval) (object treeNode notifNode : Option Nat)
  | send (c : CommSend) (localItv treeNode targetItv : Option Nat)
  | initThread (received : Interval) (object : Option Nat)
  | clear (notifId : Int)
  | clearThread (tmp : Nat)

/-- One call on one of the windows, whose bounds are those of the records `w`. -/
def memoryStep (filterWindow : Int) (w : MpiWin → RmaAnalyzerState) (m : StoreMemory) :
    MpiWin × MemoryOp → Except MemoryFault StoreMemory
  | (win, .save itv object treeNode notifNode) =>
      m.saveObject filterWindow (w win) itv object treeNode notifNode true win
  | (win, .send c localItv treeNode targetItv) =>
      m.rmaAnalyzerUpdateOnCommSend filterWindow (w win) c localItv treeNode targetItv win
  | (_, .initThread received object) => m.rmaAnalyzerCommCheckThread received object
  | (win, .clear notifId) => m.rmaAnalyzerClearFromNotifId notifId win
  | (win, .clearThread _) => m.freeTrees win

/-- The same call on trees, if it is one on them. -/
def MemoryOp.onTrees : MemoryOp → Option WinOp
  | .save itv object _ _ => some (.save ⟨object.getD 0, itv⟩)
  | .send c localItv _ _ => some (.save ⟨localItv.getD 0, c.localItv⟩)
  | .initThread _ _ => none
  | .clear notifId => some (.clear notifId)
  | .clearThread tmp => some (.clearThread tmp)

/-- One call on the record of one of the windows. -/
def windowsStep (filterWindow : Int) (states : MpiWin → RmaAnalyzerState) :
    MpiWin × Option WinOp → Except Fault (MpiWin → RmaAnalyzerState)
  | (_, none) => .ok states
  | (win, some op) => do
      let state ← winStep filterWindow (states win) op
      return Function.update states win state

/-! ## The trees that the pointers lead to -/

/-- The record has the bounds of `w`, its trees are in order, and the intervals they hold are live
objects. -/
structure Keeps (w : RmaAnalyzerState) (objects : Finmap fun _ : Nat => Interval)
    (state : RmaAnalyzerState) : Prop where
  winBase : state.winBase = w.winBase
  winSize : state.winSize = w.winSize
  sorted : Sorted lowKey state.localTree
  indexed : Indexed state.notifTree
  stored : ∀ p ∈ state.localTree.toList, objects.lookup p.addr = some p.itv
  registered : ∀ e ∈ state.notifTree.toList, objects.lookup e.itv.addr = some e.itv.itv

/-- The roots of the windows lead to the trees of the records, no two of which have a node in
common, and no live node is outside of them. -/
structure StandsFor (w : MpiWin → RmaAnalyzerState) (m : StoreMemory)
    (states : MpiWin → RmaAnalyzerState) : Prop where
  keeps : ∀ win, Keeps (w win) m.objects (states win)
  trees : ForestAt m.treeNodes m.localTree fun win => (states win).localTree
  notifs : ForestAt m.notifNodes m.notifTree fun win => (states win).notifTree

/-- What a call in memory does to a window is what a call on its record does. -/
def Mirrors (w states : MpiWin → RmaAnalyzerState) (win : MpiWin)
    (x : Except MemoryFault StoreMemory) (y : Except Fault RmaAnalyzerState) : Prop :=
  Refines (fun m state => StandsFor w m (Function.update states win state))
    (fun f g => f = .analyzer g) AllocatorFails x y

section Mirror

variable {fw : Int} {w states : MpiWin → RmaAnalyzerState} {m : StoreMemory} {win : MpiWin}
  {state : RmaAnalyzerState} {p : IntervalPtr} {notifId : Int}

/-- An insertion has a new node, or the allocator has failed it. -/
theorem exists_insert {α κ ι : Type} [LinearOrder κ] [DecidableEq ι] {heap : TreeHeap α}
    {root : ι → Option Nat} {trees : ι → AvlTree α} (hf : ForestAt heap root trees)
    (key : α → κ) (above below : κ) (fresh : Option Nat) (v : α) (i : ι) :
    (∃ f, AllocatorFails (.memory f) ∧
      HeapTree.insert key above below fresh v heap.keys.card heap (root i) = .error f) ∨
    ∃ heap' p, HeapTree.insert key above below fresh v heap.keys.card heap (root i) =
        .ok (heap', p) ∧
      ForestAt heap' (Function.update root i p)
        (Function.update trees i ((trees i).insert key above below v)) := by
  obtain ⟨A, ht⟩ := hf.exists_treeAt i
  cases fresh with
  | none => exact .inl ⟨.outOfMemory, .inl rfl, insert_eq_error ht rfl ht.numNodes_le⟩
  | some addr =>
      by_cases haddr : addr ∈ heap
      · have hnew : HeapTree.newNode heap v (some addr) = .error .notEnabled := if_pos haddr
        exact .inl ⟨.notEnabled, .inr rfl, insert_eq_error ht hnew ht.numNodes_le⟩
      · exact .inr (hf.update fun A ht => ⟨_, ht.makes_insert haddr ht.numNodes_le⟩)

/-- The search meets the nodes of the tree, one after the other. -/
theorem overlapSearch_of_treeAt {nodes : TreeHeap IntervalPtr} {root : Option Nat}
    {t : IntervalTree} {A : Finset Nat} (ht : TreeAt nodes root t A) {i : IntervalPtr} {fuel : Nat}
    (hfuel : t.numNodes ≤ fuel) :
    StoreMemory.overlapSearch nodes i fuel root = .ok (overlapSearch t i) := by
  induction ht generalizing fuel with
  | nil => rw [StoreMemory.overlapSearch, overlapSearch]
  | node hcell _ _ _ _ _ ihl ihr =>
      rw [numNodes] at hfuel
      obtain ⟨fuel, rfl⟩ : ∃ n, fuel = n + 1 := ⟨fuel - 1, by omega⟩
      simp only [StoreMemory.overlapSearch, HeapTree.load_of_lookup hcell, ok_bind, overlapSearch]
      split_ifs
      · rfl
      · exact ihl (by omega)
      · exact ihr (by omega)
      · rfl

theorem standsFor_empty (hw : ∀ win, EmptyStores (w win)) : StandsFor w .empty w where
  keeps win := by
    obtain ⟨hlocal, hnotif, -⟩ := hw win
    refine ⟨rfl, rfl, ?_, ?_, ?_, ?_⟩
    · rw [hlocal]
      exact sorted_nil
    · rw [hnotif]
      exact indexed_nil
    · simp [hlocal]
    · simp [hnotif]
  trees := by
    simp only [(hw _).1]
    exact ForestAt.empty
  notifs := by
    simp only [(hw _).2.1]
    exact ForestAt.empty

/-- The rest of two calls whose first parts mirror each other. -/
theorem Mirrors.bind {x : Except MemoryFault StoreMemory} {y : Except Fault RmaAnalyzerState}
    {f : StoreMemory → Except MemoryFault StoreMemory}
    {g : RmaAnalyzerState → Except Fault RmaAnalyzerState} (hx : Mirrors w states win x y)
    (hf : ∀ m' state, y = .ok state → StandsFor w m' (Function.update states win state) →
      Mirrors w (Function.update states win state) win (f m') (g state)) :
    Mirrors w states win (x >>= f) (y >>= g) := by
  cases hx with
  | ok h =>
      refine (hf _ _ rfl h).mono fun _ _ h' => ?_
      rwa [Function.update_idem] at h'
  | error hfault => exact .error hfault
  | stuck hfault => exact .stuck hfault

namespace StandsFor

/-- The record of one window and the nodes of its trees are replaced. -/
theorem update (h : StandsFor w m states) {state : RmaAnalyzerState}
    {treeNodes : TreeHeap IntervalPtr} {notifNodes : TreeHeap NotifEntry}
    {localTree notifTree : MpiWin → Option Nat} (hkeeps : Keeps (w win) m.objects state)
    (htrees : ForestAt treeNodes localTree
      (Function.update (fun j => (states j).localTree) win state.localTree))
    (hnotifs : ForestAt notifNodes notifTree
      (Function.update (fun j => (states j).notifTree) win state.notifTree)) :
    StandsFor w ⟨m.objects, treeNodes, notifNodes, localTree, notifTree⟩
      (Function.update states win state) where
  keeps := (Function.forall_update_iff states fun j s => Keeps (w j) m.objects s).mpr
    ⟨hkeeps, fun j _ => h.keeps j⟩
  trees := by
    simpa only [Function.apply_update (fun _ s => RmaAnalyzerState.localTree s)] using htrees
  notifs := by
    simpa only [Function.apply_update (fun _ s => RmaAnalyzerState.notifTree s)] using hnotifs

/-- The interval tree of one window is replaced. -/
theorem setTree (h : StandsFor w m states) {nodes : TreeHeap IntervalPtr} {root : Option Nat}
    {t : IntervalTree}
    (hforest : ForestAt nodes (Function.update m.localTree win root)
      (Function.update (fun j => (states j).localTree) win t))
    (hsorted : Sorted lowKey t)
    (hstored : ∀ p ∈ t.toList, m.objects.lookup p.addr = some p.itv) :
    StandsFor w { m with treeNodes := nodes, localTree := Function.update m.localTree win root }
      (Function.update states win { states win with localTree := t }) := by
  refine h.update { h.keeps win with sorted := hsorted, stored := hstored } hforest ?_
  rw [Function.update_eq_self win fun j => (states j).notifTree]
  exact h.notifs

/-- The notification tree of one window is replaced. -/
theorem setNotif (h : StandsFor w m states) {nodes : TreeHeap NotifEntry} {root : Option Nat}
    {t : NotifTree}
    (hforest : ForestAt nodes (Function.update m.notifTree win root)
      (Function.update (fun j => (states j).notifTree) win t))
    (hindexed : Indexed t)
    (hregistered : ∀ e ∈ t.toList, m.objects.lookup e.itv.addr = some e.itv.itv) :
    StandsFor w { m with notifNodes := nodes, notifTree := Function.update m.notifTree win root }
      (Function.update states win { states win with notifTree := t }) := by
  refine h.update { h.keeps win with indexed := hindexed, registered := hregistered } ?_ hforest
  rw [Function.update_eq_self win fun j => (states j).localTree]
  exact h.trees

/-- Fields of a record that say nothing of its stores do not matter. -/
theorem setRecord {s s' : RmaAnalyzerState} (h : StandsFor w m (Function.update states win s))
    (hbase : s'.winBase = s.winBase) (hsize : s'.winSize = s.winSize)
    (hlocal : s'.localTree = s.localTree) (hnotif : s'.notifTree = s.notifTree) :
    StandsFor w m (Function.update states win s') where
  keeps := by
    have hkeeps := (Function.forall_update_iff states fun j s => Keeps (w j) m.objects s).mp h.keeps
    refine (Function.forall_update_iff states fun j s => Keeps (w j) m.objects s).mpr
      ⟨⟨?_, ?_, ?_, ?_, ?_, ?_⟩, hkeeps.2⟩
    · rw [hbase, hkeeps.1.winBase]
    · rw [hsize, hkeeps.1.winSize]
    · rw [hlocal]
      exact hkeeps.1.sorted
    · rw [hnotif]
      exact hkeeps.1.indexed
    · rw [hlocal]
      exact hkeeps.1.stored
    · rw [hnotif]
      exact hkeeps.1.registered
  trees := by
    simpa only [Function.apply_update (fun _ s => RmaAnalyzerState.localTree s), hlocal]
      using h.trees
  notifs := by
    simpa only [Function.apply_update (fun _ s => RmaAnalyzerState.notifTree s), hnotif]
      using h.notifs

/-- Objects that no tree holds do not matter. -/
theorem setObjects (h : StandsFor w m states) {objects : Finmap fun _ : Nat => Interval}
    (hsame : ∀ addr ∈ m.objects, objects.lookup addr = m.objects.lookup addr) :
    StandsFor w { m with objects := objects } states where
  keeps j := by
    have hlive : ∀ {addr itv}, m.objects.lookup addr = some itv →
        objects.lookup addr = some itv := fun hl => by
      rw [hsame _ (Finmap.mem_of_lookup_eq_some hl), hl]
    exact { h.keeps j with
      stored := fun p hp => hlive ((h.keeps j).stored p hp)
      registered := fun e he => hlive ((h.keeps j).registered e he) }
  trees := h.trees
  notifs := h.notifs

/-! ## Each operation -/

theorem mirrors_insertIntervalTree (h : StandsFor w m states)
    (hp : m.objects.lookup p.addr = some p.itv) (treeNode : Option Nat) :
    Mirrors w states win (m.insertIntervalTree p treeNode win) (.ok { states win with
      localTree := insertIntervalTree (states win).localTree p }) := by
  rcases exists_insert h.trees lowKey (p.itv.lowBound + 1).toNat (p.itv.lowBound - 1).toNat
    treeNode p win with ⟨f, hf, hrun⟩ | ⟨nodes, root, hrun, hforest⟩
  · rw [StoreMemory.insertIntervalTree, StoreMemory.assignLocalTree, hrun]
    exact .stuck hf
  · rw [StoreMemory.insertIntervalTree, StoreMemory.assignLocalTree, hrun]
    refine .ok (h.setTree hforest ((h.keeps win).sorted.insert p) fun q hq => ?_)
    rcases mem_insert.mp hq with rfl | hq
    · exact hp
    · exact (h.keeps win).stored q hq

theorem mirrors_insertNotifTree (h : StandsFor w m states)
    (hp : m.objects.lookup p.addr = some p.itv) (notifNode : Option Nat) :
    Mirrors w states win (m.insertNotifTree p notifNode win) (.ok { states win with
      notifTree := insertNotifTree (states win).notifTree p }) := by
  rcases exists_insert h.notifs NotifEntry.notifId (p.itv.notificationId + 1)
    (p.itv.notificationId - 1) notifNode (newNotifEntry p) win
    with ⟨f, hf, hrun⟩ | ⟨nodes, root, hrun, hforest⟩
  · rw [StoreMemory.insertNotifTree, StoreMemory.assignNotifTree, hrun]
    exact .stuck hf
  · rw [StoreMemory.insertNotifTree, StoreMemory.assignNotifTree, hrun]
    refine .ok (h.setNotif hforest ((h.keeps win).indexed.insert p) fun e he => ?_)
    rcases mem_insert.mp he with rfl | he
    · exact hp
    · exact (h.keeps win).registered e he

theorem mirrors_deleteIntervalTree (h : StandsFor w m states) (itv : Option IntervalPtr) :
    Mirrors w states win (m.deleteIntervalTree itv win)
      (rmaAnalyzerDeleteInterval itv (states win)) := by
  obtain ⟨A, ht⟩ := h.trees.exists_treeAt win
  have hnone := ht.isNone_eq
  cases hroot : m.localTree win with
  | none =>
      rw [hroot] at hnone
      have hnil : (states win).localTree = .nil := isNil_iff.mp hnone.symm
      have hsame : ({ states win with localTree := .nil } : RmaAnalyzerState) = states win := by
        rw [← hnil]
      have hrun : m.deleteIntervalTree itv win = .ok m := by
        simp only [StoreMemory.deleteIntervalTree, hroot]
      have hcall : rmaAnalyzerDeleteInterval itv (states win) = .ok (states win) := by
        rw [rmaAnalyzerDeleteInterval, hnil, deleteIntervalTree, ok_bind, hsame]
        rfl
      rw [hrun, hcall]
      refine .ok ?_
      rwa [Function.update_eq_self]
  | some root =>
      cases itv with
      | none =>
          have hrun : m.deleteIntervalTree none win = .error (.analyzer .nullDereference) := by
            simp only [StoreMemory.deleteIntervalTree, hroot]
          have hcall : rmaAnalyzerDeleteInterval none (states win) = .error .nullDereference := by
            rw [hroot] at hnone
            rw [rmaAnalyzerDeleteInterval]
            cases hlocal : (states win).localTree with
            | nil =>
                rw [hlocal] at hnone
                cases hnone
            | node => rfl
          rw [hrun, hcall]
          exact .error rfl
      | some p =>
          obtain ⟨nodes, root', hrun, hforest⟩ := h.trees.update fun A ht =>
            (ht.makes_delete lowKey id (lowKey p)
              ht.numNodes_le).imp fun _ hA => hA.2
          rw [hroot] at hrun
          simp only [StoreMemory.deleteIntervalTree, hroot]
          simp only [hrun, rmaAnalyzerDeleteInterval, deleteIntervalTree_some]
          exact .ok (h.setTree hforest ((h.keeps win).sorted.delete _) fun q hq =>
            (h.keeps win).stored q (mem_of_mem_delete hq))

theorem mirrors_deleteNotifTree (h : StandsFor w m states) (win : MpiWin) (notifId : Int) :
    Mirrors w states win (m.deleteNotifTree notifId win) (.ok { states win with
      notifTree := deleteNotifTree (states win).notifTree notifId }) := by
  obtain ⟨nodes, root, hrun, hforest⟩ := h.notifs.update fun A ht =>
    (ht.makes_delete NotifEntry.notifId (· - 1) notifId
      ht.numNodes_le).imp fun _ hA => hA.2
  rw [StoreMemory.deleteNotifTree, StoreMemory.assignNotifTree, hrun]
  exact .ok (h.setNotif hforest ((h.keeps win).indexed.delete notifId) fun e he =>
    (h.keeps win).registered e (mem_of_mem_delete he))

theorem mirrors_freeIntervalTree (h : StandsFor w m states) :
    Mirrors w states win (m.freeIntervalTree win)
      (.ok { states win with localTree := .nil }) := by
  obtain ⟨nodes, root, hrun, hforest⟩ := h.trees.update (i := win) (t := .nil) fun A ht =>
    (ht.makes_freeLoop ((h.keeps win).sorted.freeLoop_eq_some_iff.mpr
      ⟨rfl, ht.numNodes_le⟩)).imp fun _ hA => hA.2
  rw [StoreMemory.freeIntervalTree, StoreMemory.assignLocalTree, hrun]
  exact .ok (h.setTree hforest sorted_nil (by simp))

theorem mirrors_freeNotifTree (h : StandsFor w m states) (win : MpiWin) :
    Mirrors w states win (m.freeNotifTree win)
      (.ok { states win with notifTree := .nil }) := by
  obtain ⟨nodes, root, hrun, hforest⟩ := h.notifs.update (i := win) (t := .nil) fun A ht =>
    (ht.makes_freeLoop ((h.keeps win).indexed.sorted.freeLoop_eq_some_iff.mpr
      ⟨rfl, ht.numNodes_le⟩)).imp fun _ hA => hA.2
  rw [StoreMemory.freeNotifTree, StoreMemory.assignNotifTree, hrun]
  exact .ok (h.setNotif hforest indexed_nil (by simp))

theorem findIntervalFromNotif_eq (h : StandsFor w m states) (notifId : Int) :
    m.findIntervalFromNotif notifId win =
      .ok (findIntervalFromNotif (states win).notifTree notifId) := by
  obtain ⟨A, ht⟩ := h.notifs.exists_treeAt win
  rw [StoreMemory.findIntervalFromNotif, ht.lookup_eq ht.numNodes_le]
  rfl

theorem overlapSearch_eq (h : StandsFor w m states) (i : IntervalPtr) :
    StoreMemory.overlapSearch m.treeNodes i m.treeNodes.keys.card (m.localTree win) =
      .ok (overlapSearch (states win).localTree i) := by
  obtain ⟨A, ht⟩ := h.trees.exists_treeAt win
  exact overlapSearch_of_treeAt ht ht.numNodes_le

/-! ## Each call -/

theorem mirrors_saveNotif (h : StandsFor w m states) (win : MpiWin)
    (hp : m.objects.lookup p.addr = some p.itv) (notifNode : Option Nat) :
    Mirrors w states win (m.rmaAnalyzerSaveNotif p notifNode win)
      (.ok (rmaAnalyzerSaveNotif p (states win))) := by
  rw [StoreMemory.rmaAnalyzerSaveNotif, rmaAnalyzerSaveNotif]
  split_ifs
  · refine .ok ?_
    rwa [Function.update_eq_self]
  · exact h.mirrors_insertNotifTree hp notifNode

/-- Save and, where the caller looks at what is returned, free. -/
theorem mirrors_saveObject (h : StandsFor w m states) (itv : Interval)
    (object treeNode notifNode : Option Nat) (looks : Bool) :
    Mirrors w states win (m.saveObject fw (w win) itv object treeNode notifNode looks win)
      (treeSave fw (states win) ⟨object.getD 0, itv⟩) := by
  rw [StoreMemory.saveObject]
  cases object with
  | none => exact .stuck (.inl rfl)
  | some addr =>
      by_cases hlive : addr ∈ m.objects
      · rw [StoreMemory.createInterval, if_pos hlive]
        exact .stuck (.inr rfl)
      · have hfresh : ∀ b ∈ m.objects, b ≠ addr := fun b hb heq => hlive (heq ▸ hb)
        simp only [StoreMemory.createInterval, if_neg hlive, ok_bind, Option.getD_some]
        set m₁ : StoreMemory := { m with objects := m.objects.insert addr itv } with hm₁
        have h₁ : StandsFor w m₁ states :=
          h.setObjects fun b hb => Finmap.lookup_insert_of_ne _ (hfresh b hb)
        have hbounds : admits fw (states win) itv = admits fw (w win) itv :=
          admits_congr (h.keeps win).winBase (h.keeps win).winSize itv
        rw [treeSave, rmaAnalyzerSaveInterval, StoreMemory.rmaAnalyzerSaveInterval,
          hbounds]
        cases hadm : admits fw (w win) itv with
        | true =>
            simp only [if_true, h₁.overlapSearch_eq, StoreMemory.access, Except.mapError, ok_bind]
            cases hover : overlapSearch (states win).localTree ⟨addr, itv⟩ with
            | some q => exact .error rfl
            | none =>
                have hp : m₁.objects.lookup addr = some itv := Finmap.lookup_insert _
                simp only [bind_assoc, pure_bind, one_ne_zero, and_false, if_false, bind_pure]
                refine Mirrors.bind (g := fun s => .ok (rmaAnalyzerSaveNotif ⟨addr, itv⟩ s))
                  (h₁.mirrors_insertIntervalTree (p := ⟨addr, itv⟩) hp treeNode)
                  fun m₂ s hs h₂ => ?_
                have hkeeps : Keeps (w win) m₂.objects s := by
                  simpa only [Function.update_self] using h₂.keeps win
                have hp₂ : m₂.objects.lookup addr = some itv := by
                  obtain rfl := Except.ok.inj hs
                  exact hkeeps.stored ⟨addr, itv⟩ (mem_insert.mpr (.inl rfl))
                have hnotif := h₂.mirrors_saveNotif win (p := ⟨addr, itv⟩) hp₂ notifNode
                rwa [Function.update_self] at hnotif
        | false =>
            simp only [Bool.false_eq_true, if_false, ok_bind]
            have hsame : Function.update states win (states win) = states :=
              Function.update_eq_self win states
            split_ifs
            · refine .ok ?_
              rw [hsame]
              exact h.setObjects fun b hb => by
                rw [Finmap.lookup_erase_ne (hfresh b hb),
                  Finmap.lookup_insert_of_ne _ (hfresh b hb)]
            · refine .ok ?_
              rwa [hsame]

/-- An object that no tree holds is made, or the allocator has failed it. -/
theorem refines_createInterval (h : StandsFor w m states) (itv : Interval)
    (object : Option Nat) :
    Refines (fun x => StandsFor w x.2) (fun f g => f = .analyzer g) AllocatorFails
      (m.createInterval itv object) (.ok states) := by
  cases object with
  | none => exact .stuck (.inl rfl)
  | some addr =>
      by_cases hlive : addr ∈ m.objects
      · rw [StoreMemory.createInterval, if_pos hlive]
        exact .stuck (.inr rfl)
      · rw [StoreMemory.createInterval, if_neg hlive]
        have hfresh : ∀ b ∈ m.objects, b ≠ addr := fun b hb heq => hlive (heq ▸ hb)
        exact .ok (h.setObjects fun b hb => Finmap.lookup_insert_of_ne _ (hfresh b hb))

theorem mirrors_updateOnCommSend (h : StandsFor w m states) (c : CommSend)
    (localItv treeNode targetItv : Option Nat) :
    Mirrors w states win
      (m.rmaAnalyzerUpdateOnCommSend fw (w win) c localItv treeNode targetItv win)
      (treeSave fw (states win) ⟨localItv.getD 0, c.localItv⟩) := by
  have hsave : Mirrors w states win
      (m.saveObject fw (w win) c.localItv localItv treeNode none false win)
      (treeSave fw (states win) ⟨localItv.getD 0, c.localItv⟩) :=
    h.mirrors_saveObject c.localItv localItv treeNode none false
  rw [← bind_pure (treeSave ..)]
  refine Mirrors.bind hsave fun m' state _ h' => ?_
  have hsent := h'.refines_createInterval c.targetItv targetItv
  refine Refines.bind_of_ok hsent fun x hx => .ok ?_
  rwa [Function.update_idem]

theorem refines_commCheckThread (h : StandsFor w m states) (received : Interval)
    (object : Option Nat) :
    Refines (StandsFor w) (fun f g => f = .analyzer g) AllocatorFails
      (m.rmaAnalyzerCommCheckThread received object) (.ok states) :=
  Refines.bind_of_ok (h.refines_createInterval received object) fun _ hx => .ok hx

theorem mirrors_clearFromNotifId (h : StandsFor w m states) (notifId : Int) :
    Mirrors w states win (m.rmaAnalyzerClearFromNotifId notifId win)
      (rmaAnalyzerClearFromNotifId (states win) notifId) := by
  rw [StoreMemory.rmaAnalyzerClearFromNotifId, rmaAnalyzerClearFromNotifId,
    h.findIntervalFromNotif_eq, ok_bind]
  split_ifs
  · refine .ok ?_
    rwa [Function.update_eq_self]
  · refine Mirrors.bind (h.mirrors_deleteIntervalTree _) fun m' s _ h' => ?_
    have hnotif := h'.mirrors_deleteNotifTree win notifId
    rw [Function.update_self] at hnotif
    exact hnotif

/-- The end of an epoch frees the nodes of both trees. -/
theorem mirrors_freeTrees (h : StandsFor w m states) (tmp : Nat) :
    Mirrors w states win (m.freeTrees win)
      (winStep fw (states win) (.clearThread tmp)) := by
  have hfree : winStep fw (states win) (.clearThread tmp) =
      .ok { ((states win).requestEnd tmp).leaveEpoch with
        localTree := .nil
        notifTree := .nil } := by
    have hlocal : freeIntervalTree (states win).localTree = some .nil :=
      (h.keeps win).sorted.freeLoop_numNodes
    have hnotif : freeNotifTree (states win).notifTree = some .nil :=
      (h.keeps win).indexed.sorted.freeLoop_numNodes
    simp only [winStep, RmaAnalyzerState.freeTrees, RmaAnalyzerState.leaveEpoch,
      RmaAnalyzerState.requestEnd, hlocal, hnotif]
  rw [hfree]
  refine Mirrors.bind (g := fun _ => .ok _) h.mirrors_freeIntervalTree fun m' s hs h' => ?_
  obtain rfl := Except.ok.inj hs
  have hnotif := h'.mirrors_freeNotifTree win
  rw [Function.update_self] at hnotif
  exact hnotif.mono_ok fun _ h'' => h''.setRecord rfl rfl rfl rfl

/-- The record of the window is replaced by what the call on it returns. -/
theorem refines_windowsStep {x : Except MemoryFault StoreMemory} {op : WinOp}
    (hmirror : Mirrors w states win x (winStep fw (states win) op)) :
    Refines (StandsFor w) (fun f g => f = .analyzer g) AllocatorFails x
      (windowsStep fw states (win, some op)) := by
  have hstep := Refines.bind (f := pure)
    (g := fun state => .ok (Function.update states win state)) hmirror fun _ _ h' => .ok h'
  rwa [bind_pure] at hstep

/-- One call in memory is the call on the records. -/
theorem refines_step (h : StandsFor w m states) (call : MpiWin × MemoryOp) :
    Refines (StandsFor w) (fun f g => f = .analyzer g) AllocatorFails (memoryStep fw w m call)
      (windowsStep fw states (call.1, call.2.onTrees)) := by
  obtain ⟨win, op⟩ := call
  cases op with
  | save itv object treeNode notifNode =>
      exact refines_windowsStep (h.mirrors_saveObject itv object treeNode notifNode true)
  | send c localItv treeNode targetItv =>
      exact refines_windowsStep (h.mirrors_updateOnCommSend c localItv treeNode targetItv)
  | initThread received object => exact h.refines_commCheckThread received object
  | clear notifId => exact refines_windowsStep (h.mirrors_clearFromNotifId notifId)
  | clearThread tmp => exact refines_windowsStep (h.mirrors_freeTrees tmp)

end StandsFor

end Mirror

end ParcoachRma
