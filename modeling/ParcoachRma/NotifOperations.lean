import ParcoachRma.IntervalStores
import ParcoachRma.Lib.Run

/-!
# The operations on the notification tree

What `insert_notif_tree`, `delete_notif_tree` and `find_interval_from_notif` keep, whatever ids
repeat.  Rotations put equal ids on either side of a node, but every node caches the id of its own
interval and the ids do not decrease from left to right, so a search for an id ends at a
registration with that id if there is one.

* `find_exact`: the search finds an interval exactly if its id has been inserted more often than it
  has been effectively deleted, and the interval carries the id.
* `removesFound_iff_meetsSuccessor`: along a run every deletion takes out the registration that the
  search finds, and no other, exactly if none of them copies a node that another one with its id
  hides.
-/

namespace ParcoachRma

open Run AvlTree

/-- A call that changes the notification tree. -/
inductive NotifTreeOp where
  | insert (itv : IntervalPtr)
  | delete (notifId : Int)

/-- One call, on the tree that the last one has returned. -/
def notifTreeStep (root : NotifTree) : NotifTreeOp → Except Fault NotifTree
  | .insert itv => .ok (insertNotifTree root itv)
  | .delete notifId => .ok (deleteNotifTree root notifId)

/-! ## What every call keeps -/

/-- The ids do not decrease from left to right, and every node caches the id of its interval. -/
structure Indexed (root : NotifTree) : Prop where
  sorted : Sorted NotifEntry.notifId root
  entries : ∀ e ∈ root.toList, e = newNotifEntry e.itv

theorem indexed_nil : Indexed .nil := ⟨sorted_nil, by simp⟩

namespace Indexed

variable {root root' : NotifTree} {notifId : Int}

theorem insert (h : Indexed root) (itv : IntervalPtr) : Indexed (insertNotifTree root itv) := by
  refine ⟨h.sorted.insert (newNotifEntry itv), fun e he => ?_⟩
  rcases mem_insert.mp he with rfl | he
  · rfl
  · exact h.entries e he

theorem delete (h : Indexed root) (notifId : Int) : Indexed (deleteNotifTree root notifId) :=
  ⟨h.sorted.delete notifId, fun e he => h.entries e (mem_of_mem_delete he)⟩

theorem step (h : Indexed root) {op : NotifTreeOp} (hstep : notifTreeStep root op = .ok root') :
    Indexed root' := by
  cases op with
  | insert itv =>
      obtain rfl := Except.ok.inj hstep
      exact h.insert itv
  | delete notifId =>
      obtain rfl := Except.ok.inj hstep
      exact h.delete notifId

/-- Every call returns, so every sequence of calls leads to a tree. -/
theorem exists_run (h : Indexed root) (ops : List NotifTreeOp) :
    ∃ root', run notifTreeStep root ops = .ok root' ∧ Indexed root' := by
  induction ops generalizing root with
  | nil => exact ⟨root, rfl, h⟩
  | cons op ops ih =>
      obtain ⟨t, hstep⟩ : ∃ t, notifTreeStep root op = .ok t := by
        cases op with
        | insert itv => exact ⟨_, rfl⟩
        | delete notifId => exact ⟨_, rfl⟩
      rcases ih (h.step hstep) with ⟨root', hrun, h'⟩
      exact ⟨root', run_cons_ok.mpr ⟨t, hstep, hrun⟩, h'⟩

/-- The interval that is found carries the id and is registered. -/
theorem of_find (h : Indexed root) {p : IntervalPtr}
    (hfind : findIntervalFromNotif root notifId = some p) :
    newNotifEntry p ∈ root.toList ∧ p.itv.notificationId = notifId := by
  obtain ⟨e, hlookup, rfl⟩ := Option.map_eq_some_iff.mp hfind
  obtain ⟨hmem, hid⟩ := mem_of_lookup hlookup
  have hentry : e = newNotifEntry e.itv := h.entries e hmem
  rw [hentry] at hid hmem
  exact ⟨hmem, hid⟩

/-- The search finds an interval exactly if some node has the id. -/
theorem find_isSome_iff (h : Indexed root) :
    (findIntervalFromNotif root notifId).isSome = true ↔
      notifId ∈ keys NotifEntry.notifId root := by
  constructor
  · intro hsome
    obtain ⟨p, hp⟩ := Option.isSome_iff_exists.mp hsome
    obtain ⟨hmem, rfl⟩ := h.of_find hp
    exact mem_keys.mpr ⟨newNotifEntry p, hmem, rfl⟩
  · intro hkey
    obtain ⟨e, he, rfl⟩ := mem_keys.mp hkey
    obtain ⟨v, hv⟩ := h.sorted.exists_lookup he
    rw [findIntervalFromNotif, hv]
    rfl

end Indexed

/-! ## Counting registrations -/

/-- The number of insertions of the id. -/
def insertions (notifId : Int) : List NotifTreeOp → Nat
  | [] => 0
  | .insert itv :: ops =>
      (if notifId = itv.itv.notificationId then 1 else 0) + insertions notifId ops
  | .delete _ :: ops => insertions notifId ops

/-- The number of effective deletions of the id, where `live` insertions of it have not been deleted
yet: a deletion is effective if there is one, and takes it away. -/
def effectiveDeletions (notifId : Int) (live : Nat) : List NotifTreeOp → Nat
  | [] => 0
  | .insert itv :: ops =>
      effectiveDeletions notifId (live + if notifId = itv.itv.notificationId then 1 else 0) ops
  | .delete k :: ops =>
      let effective := if k = notifId ∧ 0 < live then 1 else 0
      effective + effectiveDeletions notifId (live - effective) ops

/-- The deletion of `k` is one of the id, and leaves fewer nodes than there were. -/
def DeletesId (notifId : Int) (root : NotifTree) (k : Int) : Prop :=
  k = notifId ∧ (deleteNotifTree root k).numNodes < root.numNodes

instance (notifId : Int) (root : NotifTree) (k : Int) : Decidable (DeletesId notifId root k) :=
  inferInstanceAs (Decidable (_ ∧ _))

/-- A deletion leaves one node less exactly if the id is there. -/
theorem Indexed.deletesId_iff {root : NotifTree} (h : Indexed root) {notifId k : Int} :
    DeletesId notifId root k ↔ k = notifId ∧ k ∈ keys NotifEntry.notifId root := by
  apply and_congr_right
  intro _
  constructor
  · intro hlt
    by_contra hkey
    have hlist : (deleteNotifTree root k).toList = root.toList :=
      toList_delete_of_lookup_eq_none (lookup_eq_none_of_notMem hkey)
    rw [← length_toList, ← length_toList, hlist] at hlt
    exact lt_irrefl _ hlt
  · intro hkey
    obtain ⟨e, he, rfl⟩ := mem_keys.mp hkey
    have hnum : root.numNodes = (deleteNotifTree root e.notifId).numNodes + 1 :=
      h.sorted.numNodes_delete he
    omega

/-- The deletions that leave fewer nodes are the effective ones. -/
theorem Indexed.deletesId_iff_count_pos {root : NotifTree} (h : Indexed root) {notifId k : Int} :
    DeletesId notifId root k ↔
      k = notifId ∧ 0 < (keys NotifEntry.notifId root).count notifId := by
  rw [h.deletesId_iff, Multiset.count_pos]
  exact and_congr_right fun hk => by rw [hk]

/-- What a deletion that leaves fewer nodes counts is what the registrations with the id lose. -/
theorem Indexed.count_delete {root : NotifTree} (h : Indexed root) (notifId k : Int) :
    (keys NotifEntry.notifId (deleteNotifTree root k)).count notifId +
        (if DeletesId notifId root k then 1 else 0) =
      (keys NotifEntry.notifId root).count notifId := by
  have hkeys : keys NotifEntry.notifId (deleteNotifTree root k) =
      (keys NotifEntry.notifId root).erase k := h.sorted.keys_delete k
  rw [hkeys]
  simp only [h.deletesId_iff]
  by_cases hk : k = notifId
  · subst hk
    rw [Multiset.count_erase_self]
    by_cases hmem : k ∈ keys NotifEntry.notifId root
    · have hpos : 0 < (keys NotifEntry.notifId root).count k := Multiset.count_pos.mpr hmem
      rw [if_pos ⟨rfl, hmem⟩]
      omega
    · rw [if_neg fun hc => hmem hc.2, Multiset.count_eq_zero_of_notMem hmem]
  · rw [Multiset.count_erase_of_ne (Ne.symm hk), if_neg fun hc => hk hc.1]
    rfl

/-- By induction on the calls: an insertion adds one registration of its id, an effective deletion
takes one away. -/
theorem Indexed.count_run {root root' : NotifTree} (h : Indexed root) {ops : List NotifTreeOp}
    (hrun : run notifTreeStep root ops = .ok root') (notifId : Int) :
    (keys NotifEntry.notifId root').count notifId +
        effectiveDeletions notifId ((keys NotifEntry.notifId root).count notifId) ops =
      (keys NotifEntry.notifId root).count notifId + insertions notifId ops := by
  induction ops generalizing root with
  | nil =>
      obtain rfl := Except.ok.inj hrun
      rfl
  | cons op ops ih =>
      rcases run_cons_ok.mp hrun with ⟨t, hstep, hrest⟩
      have hih := ih (h.step hstep) hrest
      cases op with
      | insert itv =>
          obtain rfl := Except.ok.inj hstep
          have hkeys : keys NotifEntry.notifId (insertNotifTree root itv) =
              itv.itv.notificationId ::ₘ keys NotifEntry.notifId root := keys_insert _ _
          rw [hkeys, Multiset.count_cons] at hih
          simp only [effectiveDeletions, insertions]
          omega
      | delete k =>
          obtain rfl := Except.ok.inj hstep
          have hdel := h.count_delete notifId k
          simp only [h.deletesId_iff_count_pos] at hdel
          have hleft : (keys NotifEntry.notifId root).count notifId -
              (if k = notifId ∧ 0 < (keys NotifEntry.notifId root).count notifId then 1 else 0) =
              (keys NotifEntry.notifId (deleteNotifTree root k)).count notifId := by omega
          simp only [effectiveDeletions, insertions, hleft]
          omega

/-- After any calls from the empty tree, the search for an id finds an interval exactly if the id
has been inserted more often than it has been effectively deleted, and what it finds carries the
id. -/
theorem find_exact (ops : List NotifTreeOp) :
    ∃ root, run notifTreeStep .nil ops = .ok root ∧ ∀ notifId,
      ((findIntervalFromNotif root notifId).isSome = true ↔
        effectiveDeletions notifId 0 ops < insertions notifId ops) ∧
      ∀ p, findIntervalFromNotif root notifId = some p → p.itv.notificationId = notifId := by
  rcases indexed_nil.exists_run ops with ⟨root, hrun, h⟩
  refine ⟨root, hrun, fun notifId => ⟨?_, fun p hp => (h.of_find hp).2⟩⟩
  have hcount := indexed_nil.count_run hrun notifId
  have hzero : (keys NotifEntry.notifId .nil).count notifId = 0 := rfl
  rw [hzero] at hcount
  rw [h.find_isSome_iff, ← Multiset.count_pos]
  omega

/-! ## Deleting one registration -/

/-- The registered intervals. -/
def registered (root : NotifTree) : List IntervalPtr := root.toList.map NotifEntry.itv

/-- The step is no deletion of a registered id, or it takes out the registration that the search
finds and leaves every other one in place once. -/
def RemovesFound (root : NotifTree) (op : NotifTreeOp) (root' : NotifTree) : Prop :=
  ∀ notifId, op = .delete notifId → notifId ∈ keys NotifEntry.notifId root →
    ∃ p, findIntervalFromNotif root notifId = some p ∧
      (registered root).Perm (p :: registered root')

/-- The step is no deletion, or the node copied over the one with the id is the first with its own
id. -/
def MeetsSuccessor (root : NotifTree) (op : NotifTreeOp) : Prop :=
  ∀ notifId, op = .delete notifId → SuccessorFirst NotifEntry.notifId notifId root

namespace Indexed

variable {root root' : NotifTree}

/-- The entries are those of the registered intervals. -/
theorem map_registered (h : Indexed root) : (registered root).map newNotifEntry = root.toList := by
  rw [registered, List.map_map]
  calc root.toList.map (newNotifEntry ∘ NotifEntry.itv) = root.toList.map id :=
        List.map_congr_left fun e he => (h.entries e he).symm
    _ = root.toList := List.map_id _

/-- One interval less among the registered ones is one entry less. -/
theorem registered_perm_iff (h : Indexed root) (h' : Indexed root') {p : IntervalPtr} :
    (registered root).Perm (p :: registered root') ↔
      root.toList.Perm (newNotifEntry p :: root'.toList) := by
  constructor
  · intro hp
    have hmap := hp.map newNotifEntry
    rw [List.map_cons, h.map_registered, h'.map_registered] at hmap
    exact hmap
  · intro hp
    exact hp.map NotifEntry.itv

/-- Where the registered intervals are distinct, a deletion takes out what the search finds exactly
if the node it copies is the first with its id. -/
theorem removesFound_iff (h : Indexed root) (nodup : (registered root).Nodup) {op : NotifTreeOp}
    (hstep : notifTreeStep root op = .ok root') :
    RemovesFound root op root' ↔ MeetsSuccessor root op := by
  cases op with
  | insert itv =>
      apply iff_of_true
      · intro notifId hop
        cases hop
      · intro notifId hop
        cases hop
  | delete k =>
      obtain rfl := Except.ok.inj hstep
      have hdel : ∀ p, findIntervalFromNotif root k = some p →
          ((registered root).Perm (p :: registered (deleteNotifTree root k)) ↔
            SuccessorFirst NotifEntry.notifId k root) := by
        intro p hp
        obtain ⟨e, hlookup, rfl⟩ := Option.map_eq_some_iff.mp hp
        obtain ⟨hmem, rfl⟩ := mem_of_lookup hlookup
        rw [h.registered_perm_iff (h.delete _), ← h.entries e hmem,
          ← deletesOnly_iff_successorFirst hlookup]
        exact perm_delete_iff (nodup.of_map NotifEntry.itv)
      constructor
      · intro hrem notifId hop
        cases hop
        by_cases hkey : k ∈ keys NotifEntry.notifId root
        · rcases hrem k rfl hkey with ⟨p, hp, hperm⟩
          exact (hdel p hp).mp hperm
        · exact successorFirst_of_lookup_eq_none (lookup_eq_none_of_notMem hkey)
      · intro hfirst notifId hop hkey
        cases hop
        obtain ⟨p, hp⟩ := Option.isSome_iff_exists.mp (h.find_isSome_iff.mpr hkey)
        exact ⟨p, hp, (hdel p hp).mpr (hfirst k rfl)⟩

end Indexed

/-- Inserting an interval that is not registered, and deleting what the search finds, keep the
registered intervals distinct. -/
theorem nodup_registered_step {root root' : NotifTree} {op : NotifTreeOp}
    (nodup : (registered root).Nodup)
    (fresh : ∀ itv, op = .insert itv → itv ∉ registered root)
    (hstep : notifTreeStep root op = .ok root') (hrem : RemovesFound root op root') :
    (registered root').Nodup := by
  cases op with
  | insert itv =>
      obtain rfl := Except.ok.inj hstep
      have hperm : (registered (insertNotifTree root itv)).Perm (itv :: registered root) :=
        (toList_insert_perm (newNotifEntry itv) root).map NotifEntry.itv
      rw [hperm.nodup_iff]
      exact List.nodup_cons.mpr ⟨fresh itv rfl, nodup⟩
  | delete k =>
      obtain rfl := Except.ok.inj hstep
      by_cases hkey : k ∈ keys NotifEntry.notifId root
      · rcases hrem k rfl hkey with ⟨p, -, hperm⟩
        exact (List.nodup_cons.mp (hperm.nodup_iff.mp nodup)).2
      · have hlist : (deleteNotifTree root k).toList = root.toList :=
          toList_delete_of_lookup_eq_none (lookup_eq_none_of_notMem hkey)
        rw [registered, hlist]
        exact nodup

/-- Along calls that register intervals which are not registered yet, every deletion of a live id
takes out exactly the registration that the search finds if and only if no deletion copies a node
that another one with its id hides. -/
theorem removesFound_iff_meetsSuccessor {ops : List NotifTreeOp}
    (fresh : EachStep notifTreeStep
      (fun _ root op _ => ∀ itv, op = .insert itv → itv ∉ registered root) .nil ops) :
    EachStep notifTreeStep (fun _ root op root' => RemovesFound root op root') .nil ops ↔
      EachStep notifTreeStep (fun _ root op _ => MeetsSuccessor root op) .nil ops := by
  apply forall_step_iff_of_each (I := fun _ root => Indexed root ∧ (registered root).Nodup) fresh
  · exact ⟨indexed_nil, List.nodup_nil⟩
  · intro pre op root root' hpre hI hfresh hstep
    exact hI.1.removesFound_iff hI.2 hstep
  · intro pre op root root' hpre hI hfresh hstep hrem
    exact ⟨hI.1.step hstep, nodup_registered_step hI.2 hfresh hstep hrem⟩

/-- The `n`th registration, under the id. -/
def registration (n : Nat) (notifId : Int) : IntervalPtr :=
  ⟨n, createInterval 4096 4099 .rmaRead notifId 10 none⟩

/-- Of two registrations of one id, a deletion takes out the first, which the search finds. -/
theorem removesFound_of_two_registrations :
    EachStep notifTreeStep (fun _ root op root' => RemovesFound root op root') .nil
      [.insert (registration 0 5), .insert (registration 1 5), .delete 5] := by
  apply (removesFound_iff_meetsSuccessor ?_).mpr
  · refine eachStep_three rfl rfl rfl ?_ ?_ ?_ <;> intro notifId hop <;> cases hop
    decide
  · refine eachStep_three rfl rfl rfl ?_ ?_ ?_ <;> intro itv hop <;> cases hop <;> decide

/-- Two registrations of the id 5 end up as parent and left child below the registration of 3. -/
def hiddenSuccessor : List NotifTreeOp :=
  [.insert (registration 0 3), .insert (registration 1 1), .insert (registration 2 5),
    .insert (registration 3 5), .insert (registration 4 7)]

/-- The deletion of 3 copies the lower registration of 5 and takes out the upper one. -/
theorem not_removesFound_of_hiddenSuccessor :
    ¬ ∀ (ops : List NotifTreeOp) (root root' : NotifTree) (notifId : Int),
      run notifTreeStep .nil ops = .ok root → (registered root).Nodup →
        notifId ∈ keys NotifEntry.notifId root →
        notifTreeStep root (.delete notifId) = .ok root' →
          ∃ p, findIntervalFromNotif root notifId = some p ∧
            (registered root).Perm (p :: registered root') := by
  intro h
  rcases h hiddenSuccessor _ _ 3 rfl (by decide) (by decide) rfl with ⟨p, hp, hperm⟩
  cases hp
  revert hperm
  decide

end ParcoachRma
