import Mathlib.Data.Set.Insert
import Mathlib.Data.Nat.Bitwise
import ParcoachRma.Lib.DoubleList
import ParcoachRma.Lib.Simulation
import ParcoachRma.UtHash

/-!
# What the hash table holds

`Holds keyOf hashFcn s items`: the table in the memory `s` consists of the elements at the addresses
`items`.  They are linked in this order, each is in the chain of the bucket that its key is hashed
to, and the counts of the buckets and of the table are right.

* `hashExpandBuckets_spec`: an expansion leaves each element in the chain of its new bucket.
* `hashFind_spec`, `hashAddKeyptr_spec`, `hashDelete_spec`: an element with the key is found if
  there is one, an element is added at the end, and taken out of the order.  Every pointer on the
  way leads to an element, no division is by zero and every loop ends; only the allocator can fail.
* `refines_hashIter`: a loop over the table is one over the elements in their order.
* `hashFsck_spec`: there is nothing wrong with the table.
-/

namespace ParcoachRma

open Run DoublyLinked

variable {ε κ φ : Type} {s s' : UtHash ε} {tbl : UtHashTable} {buckets : List UtHashBucket}
  {bkt : UtHashBucket} {numBkts : UInt32} {A : Set Nat} {items chain : List Nat} {a b j k : Nat}
  {granted : Nat → Bool}

/-! ## Access -/

theorem deref_of_mem (ha : a ∈ s.live) : s.deref (some a) = .ok a := if_pos ha

/-- The table is there, and an element from which it can be reached. -/
theorem table_ok : s.table = .ok tbl ↔ ∃ a, s.head = some a ∧ a ∈ s.live ∧ s.tbl = some tbl := by
  constructor
  · intro h
    obtain ⟨a, ha, h⟩ := bind_ok.mp h
    unfold UtHash.deref at ha
    split at ha
    · cases ha
    · split_ifs at ha with hlive
      split at h
      · cases h
      · obtain rfl := Except.ok.inj h
        exact ⟨_, ‹_›, hlive, ‹_›⟩
  · rintro ⟨a, hhead, ha, htbl⟩
    rw [UtHash.table, hhead, deref_of_mem ha, htbl]
    rfl

theorem bucketAt_of_some (h : buckets[j]? = some bkt) : bucketAt buckets j = .ok bkt := by
  rw [bucketAt, h]

theorem storeAt_eq {p : Option Nat} {store : Nat → UtHash ε} (hnull : p = none → s = s')
    (hstore : ∀ a, p = some a → a ∈ s.live ∧ store a = s') : s.storeAt p store = .ok s' := by
  cases p with
  | none => exact congrArg Except.ok (hnull rfl)
  | some a =>
      obtain ⟨ha, rfl⟩ := hstore a rfl
      exact if_pos ha

/-! ## Buckets -/

/-- The mask of a power of two leaves the remainder. -/
theorem toNat_and_mask (a : UInt32) (hn : numBkts.toNat = 2 ^ k) :
    (a &&& (numBkts - 1)).toNat = a.toNat % 2 ^ k := by
  have hle : (1 : UInt32) ≤ numBkts := by
    rw [UInt32.le_iff_toNat_le, hn]
    exact Nat.one_le_two_pow
  rw [UInt32.toNat_and, UInt32.toNat_sub_of_le _ _ hle, hn]
  exact Nat.and_two_pow_sub_one_eq_mod ..

theorem hashToBkt_lt (hashv : UInt32) (hn : numBkts.toNat = 2 ^ k) :
    hashToBkt hashv numBkts < numBkts.toNat := by
  rw [hashToBkt, toNat_and_mask hashv hn, hn]
  exact Nat.mod_lt _ (Nat.two_pow_pos k)

/-- The chain of a bucket. -/
structure BucketHolds (s : UtHash ε) (bkt : UtHashBucket) (chain : List Nat) : Prop where
  head : bkt.hhHead = chain.head?
  count : bkt.count = UInt32.ofNat chain.length
  nodup : chain.Nodup
  links : DoublyLinked s.hhNext s.hhPrev chain

/-- The elements are in the chains of their buckets. -/
def InBuckets (s : UtHash ε) (numBkts : UInt32) (buckets : List UtHashBucket) (A : Set Nat) :
    Prop :=
  ∀ j bkt, buckets[j]? = some bkt → ∃ chain, BucketHolds s bkt chain ∧
    ∀ a, a ∈ chain ↔ a ∈ A ∧ hashToBkt (s.hashv a) numBkts = j

theorem inBuckets_zero (s : UtHash ε) (numBkts : UInt32) (n : Nat) :
    InBuckets s numBkts (List.replicate n .zero) ∅ := by
  intro j bkt hbkt
  rw [List.getElem?_replicate] at hbkt
  split_ifs at hbkt
  obtain rfl := Option.some.inj hbkt
  exact ⟨[], ⟨rfl, rfl, List.nodup_nil, .nil⟩, by simp⟩

theorem InBuckets.congr (h : InBuckets s numBkts buckets A)
    (hhashv : ∀ b ∈ A, s'.hashv b = s.hashv b) (hnext : s'.hhNext = s.hhNext)
    (hprev : s'.hhPrev = s.hhPrev) : InBuckets s' numBkts buckets A := by
  intro j bkt hbkt
  obtain ⟨chain, hchain, hmem⟩ := h j bkt hbkt
  refine ⟨chain, ⟨hchain.head, hchain.count, hchain.nodup, ?_⟩, fun b => (hmem b).trans ?_⟩
  · rw [hnext, hprev]
    exact hchain.links
  · exact and_congr_right fun hb => by rw [hhashv b hb]

/-- The head of a chain is one of the elements. -/
theorem InBuckets.head_mem (h : InBuckets s numBkts buckets A) (hbkt : buckets[j]? = some bkt)
    (hhead : bkt.hhHead = some b) : b ∈ A ∧ hashToBkt (s.hashv b) numBkts = j := by
  obtain ⟨chain, hchain, hmem⟩ := h j bkt hbkt
  rw [hchain.head] at hhead
  exact (hmem b).mp (List.mem_of_mem_head? hhead)

/-! ## Linking in -/

/-- The memory where `a` has become the first one of the chain of `hhHead`. -/
def UtHash.linked (s : UtHash ε) (a : Nat) (hhHead : Option Nat) : UtHash ε :=
  { s with
    hhPrev := backFrom s.hhPrev a hhHead
    hhNext := Function.update s.hhNext a hhHead }

theorem hashLink_eq {hhHead : Option Nat} (h : ∀ b, hhHead = some b → b ∈ s.live) :
    hashLink a hhHead s = .ok (s.linked a hhHead) := by
  cases hhHead with
  | none => rfl
  | some b => exact if_pos (h b rfl)

/-- The elements of the other chains keep their links. -/
theorem backFrom_of_ne {prev : Nat → Option Nat} {first : Option Nat} {x : Nat} (hxa : x ≠ a)
    (hfirst : first ≠ some x) : backFrom prev a first x = prev x := by
  cases first with
  | none => exact Function.update_of_ne hxa ..
  | some b =>
      have hxb : x ≠ b := fun hxb => hfirst (congrArg some hxb.symm)
      rw [backFrom, Function.update_of_ne hxb, Function.update_of_ne hxa]

theorem InBuckets.link (h : InBuckets s numBkts buckets A) (ha : a ∉ A)
    (hbkt : buckets[j]? = some bkt) (hj : hashToBkt (s.hashv a) numBkts = j) (expandMult : UInt32) :
    InBuckets (s.linked a bkt.hhHead) numBkts (buckets.set j ⟨some a, bkt.count + 1, expandMult⟩)
      (insert a A) := by
  intro k bkt' hk
  by_cases hkj : k = j
  · subst hkj
    obtain ⟨chain, hchain, hmem⟩ := h k bkt hbkt
    have hnot : a ∉ chain := fun hac => ha ((hmem a).mp hac).1
    rw [List.getElem?_set_self (List.getElem?_eq_some_iff.mp hbkt).1] at hk
    obtain rfl := Option.some.inj hk
    refine ⟨a :: chain, ⟨rfl, ?_, List.nodup_cons.mpr ⟨hnot, hchain.nodup⟩, ?_⟩, fun x => ?_⟩
    · rw [hchain.count, List.length_cons, UInt32.ofNat_add]
      rfl
    · rw [hchain.head]
      exact hchain.links.push hchain.nodup hnot
    · rw [List.mem_cons, hmem, Set.mem_insert_iff]
      change _ ↔ _ ∧ hashToBkt (s.hashv x) _ = _
      constructor
      · rintro (rfl | ⟨hx, hxk⟩)
        · exact ⟨.inl rfl, hj⟩
        · exact ⟨.inr hx, hxk⟩
      · rintro ⟨rfl | hx, hxk⟩
        · exact .inl rfl
        · exact .inr ⟨hx, hxk⟩
  · rw [List.getElem?_set_ne (Ne.symm hkj)] at hk
    obtain ⟨chain, hchain, hmem⟩ := h k bkt' hk
    have hne : ∀ x ∈ chain, x ≠ a := fun x hx hxa => ha (hxa ▸ ((hmem x).mp hx).1)
    refine ⟨chain, ⟨hchain.head, hchain.count, hchain.nodup, ?_⟩, fun x => ?_⟩
    · refine hchain.links.congr (fun x hx => Function.update_of_ne (hne x hx) ..) fun x hx => ?_
      refine backFrom_of_ne (hne x hx) fun hfirst => hkj ?_
      rw [← ((hmem x).mp hx).2, (h.head_mem hbkt hfirst).2]
    · rw [hmem, Set.mem_insert_iff]
      change _ ↔ _ ∧ hashToBkt (s.hashv x) _ = _
      constructor
      · exact fun hx => ⟨.inr hx.1, hx.2⟩
      · rintro ⟨rfl | hx, hxk⟩
        · exact absurd (hxk.symm.trans hj) hkj
        · exact ⟨hx, hxk⟩

/-! ## Expanding -/

/-- The memory after elements of `R` have been linked into other chains. -/
structure Relinked (s s' : UtHash ε) (R : Set Nat) : Prop where
  memory : s' = { s with hhPrev := s'.hhPrev, hhNext := s'.hhNext }
  same : ∀ b, b ∉ R → s'.hhNext b = s.hhNext b

theorem Relinked.refl (s : UtHash ε) : Relinked s s ∅ := ⟨rfl, fun _ _ => rfl⟩

theorem Relinked.trans {s'' : UtHash ε} {R R' : Set Nat} (h : Relinked s s' R)
    (h' : Relinked s' s'' R') : Relinked s s'' (R ∪ R') where
  memory := by
    rw [h'.memory, h.memory]
  same b hb := by
    rw [Set.mem_union, not_or] at hb
    rw [h'.same b hb.2, h.same b hb.1]

theorem Relinked.mono {R R' : Set Nat} (h : Relinked s s' R) (hR : R ⊆ R') : Relinked s s' R' :=
  ⟨h.memory, fun b hb => h.same b fun hbR => hb (hR hbR)⟩

theorem Relinked.live {R : Set Nat} (h : Relinked s s' R) : s'.live = s.live := by
  rw [h.memory]

theorem Relinked.hashv {R : Set Nat} (h : Relinked s s' R) : s'.hashv = s.hashv := by
  rw [h.memory]

theorem relinked_linked (s : UtHash ε) (a : Nat) (hhHead : Option Nat) :
    Relinked s (s.linked a hhHead) {a} :=
  ⟨rfl, fun _ hb => Function.update_of_ne hb ..⟩

/-- The new buckets are as many as the elements are distributed to. -/
structure Expands (x : Expansion ε) (numBkts : UInt32) (A : Set Nat) : Prop where
  length : x.newBuckets.length = numBkts.toNat
  inBuckets : InBuckets x.memory numBkts x.newBuckets A

theorem markNonideal_ok {ideal count expandMult nonidealItems : UInt32} (hideal : ideal ≠ 0) :
    ∃ m i, markNonideal ideal count expandMult nonidealItems = .ok (m, i) := by
  rw [markNonideal, if_neg hideal]
  split_ifs
  · exact ⟨_, _, rfl⟩
  · exact ⟨_, _, rfl⟩

theorem expandItem_spec {x : Expansion ε} {ideal : UInt32} (hn : numBkts.toNat = 2 ^ k)
    (h : Expands x numBkts A) (hA : ∀ b ∈ A, b ∈ x.memory.live) (ha : a ∉ A) (hideal : ideal ≠ 0) :
    ∃ x', expandItem ideal numBkts a x = .ok x' ∧ Expands x' numBkts (insert a A) ∧
      Relinked x.memory x'.memory {a} := by
  have hlt : hashToBkt (x.memory.hashv a) numBkts < x.newBuckets.length := by
    rw [h.length]
    exact hashToBkt_lt _ hn
  have hbkt := List.getElem?_eq_getElem hlt
  have hlink : hashLink a (x.newBuckets[hashToBkt (x.memory.hashv a) numBkts]).hhHead x.memory =
      .ok (x.memory.linked a _) :=
    hashLink_eq fun b hb => hA b (h.inBuckets.head_mem hbkt hb).1
  obtain ⟨expandMult, nonidealItems, hmark⟩ := markNonideal_ok hideal
  refine ⟨_, bind_ok.mpr ⟨_, bucketAt_of_some hbkt, bind_ok.mpr ⟨_, hmark,
    bind_ok.mpr ⟨_, hlink, rfl⟩⟩⟩, ⟨?_, ?_⟩, relinked_linked ..⟩
  · rw [List.length_set, h.length]
  · exact h.inBuckets.link ha hbkt rfl expandMult

/-- By induction on the old chain, whose rest is still linked as it was. -/
theorem expandChain_spec {x : Expansion ε} {ideal : UInt32} {fuel : Nat} {rest : List Nat}
    (hn : numBkts.toNat = 2 ^ k) (h : Expands x numBkts A) (hA : ∀ b ∈ A, b ∈ x.memory.live)
    (hrest : Forward x.memory.hhNext rest) (hnodup : rest.Nodup)
    (hnew : ∀ b ∈ rest, b ∉ A ∧ b ∈ x.memory.live) (hideal : ideal ≠ 0)
    (hfuel : rest.length ≤ fuel) :
    ∃ x', expandChain ideal numBkts fuel rest.head? x = .ok x' ∧
      Expands x' numBkts (A ∪ {b | b ∈ rest}) ∧ Relinked x.memory x'.memory {b | b ∈ rest} := by
  induction rest generalizing x A fuel with
  | nil =>
      refine ⟨x, by rw [expandChain.eq_def]; rfl, ?_, (Relinked.refl _).mono (Set.empty_subset _)⟩
      simpa using h
  | cons a rest ih =>
      obtain ⟨hnot, hrestNodup⟩ := List.nodup_cons.mp hnodup
      obtain ⟨haA, halive⟩ := hnew a List.mem_cons_self
      obtain ⟨x₁, hx₁, hexpands, hrelinked⟩ := expandItem_spec hn h hA haA hideal
      obtain ⟨fuel, rfl⟩ := Nat.exists_eq_succ_of_ne_zero (n := fuel) (by
        rw [List.length_cons] at hfuel
        omega)
      have hkept : Forward x₁.memory.hhNext rest :=
        hrest.2.congr fun b hb => hrelinked.same b fun hba => hnot (hba ▸ hb)
      have hlive := hrelinked.live
      obtain ⟨x', hx', hexpands', hrelinked'⟩ := ih hexpands
        (by
          rw [hlive]
          rintro b (rfl | hb)
          · exact halive
          · exact hA b hb)
        hkept hrestNodup
        (by
          intro b hb
          obtain ⟨hbA, hblive⟩ := hnew b (List.mem_cons_of_mem a hb)
          rw [hlive, Set.mem_insert_iff, not_or]
          exact ⟨⟨fun hba => hnot (hba ▸ hb), hbA⟩, hblive⟩)
        (Nat.le_of_succ_le_succ hfuel)
      refine ⟨x', ?_, ?_, ?_⟩
      · have hnext : x.memory.hhNext a = rest.head? := hrest.1
        rw [expandChain.eq_def]
        simp only [List.head?_cons]
        refine bind_ok.mpr ⟨a, deref_of_mem halive, bind_ok.mpr ⟨x₁, hx₁, ?_⟩⟩
        rw [hnext]
        exact hx'
      · convert hexpands' using 1
        ext b
        simp [or_assoc, or_left_comm]
      · refine (hrelinked.trans hrelinked').mono ?_
        rintro b (rfl | hb)
        · exact List.mem_cons_self
        · exact List.mem_cons_of_mem a hb

theorem length_le_card {l : List Nat} {live : Finset Nat} (hl : l.Nodup)
    (hlive : ∀ a ∈ l, a ∈ live) : l.length ≤ live.card := by
  rw [← List.toFinset_card_of_nodup hl]
  exact Finset.card_le_card fun a ha => hlive a (List.mem_toFinset.mp ha)

/-- The buckets of a table, whose number is below `2 ^ 31`. -/
structure Bucketed (s : UtHash ε) (tbl : UtHashTable) (A : Set Nat) : Prop where
  numBuckets : tbl.numBuckets.toNat = 2 ^ tbl.log2NumBuckets.toNat
  small : tbl.log2NumBuckets.toNat ≤ 30
  length : tbl.buckets.length = tbl.numBuckets.toNat
  inBuckets : InBuckets s tbl.numBuckets tbl.buckets A

theorem Bucketed.congr (h : Bucketed s tbl A) (hhashv : ∀ b ∈ A, s'.hashv b = s.hashv b)
    (hnext : s'.hhNext = s.hhNext) (hprev : s'.hhPrev = s.hhPrev) : Bucketed s' tbl A :=
  ⟨h.numBuckets, h.small, h.length, h.inBuckets.congr hhashv hnext hprev⟩

/-- The number of buckets does not wrap around when it is doubled. -/
theorem Bucketed.toNat_double (h : Bucketed s tbl A) :
    (tbl.numBuckets * 2).toNat = 2 ^ (tbl.log2NumBuckets.toNat + 1) := by
  have hle : 2 ^ (tbl.log2NumBuckets.toNat + 1) ≤ 2 ^ 31 :=
    Nat.pow_le_pow_right Nat.zero_lt_two (Nat.succ_le_succ h.small)
  rw [UInt32.toNat_mul, h.numBuckets, Nat.pow_succ]
  exact Nat.mod_eq_of_lt (show 2 ^ tbl.log2NumBuckets.toNat * 2 < 2 ^ 32 by omega)

theorem Bucketed.toNat_log2 (h : Bucketed s tbl A) :
    (tbl.log2NumBuckets + 1).toNat = tbl.log2NumBuckets.toNat + 1 := by
  have hsmall := h.small
  rw [UInt32.toNat_add]
  exact Nat.mod_eq_of_lt (show tbl.log2NumBuckets.toNat + 1 < 2 ^ 32 by omega)

/-- There are items, so that one of them is in a chain. -/
theorem Bucketed.idealChain_ne_zero (h : Bucketed s tbl A) (hitems : tbl.numItems ≠ 0) :
    idealChain tbl ≠ 0 := by
  have hsmall := h.small
  have hshift : (tbl.numItems >>> (tbl.log2NumBuckets + 1)).toNat =
      tbl.numItems.toNat / 2 ^ (tbl.log2NumBuckets.toNat + 1) := by
    rw [UInt32.toNat_shiftRight, h.toNat_log2, Nat.mod_eq_of_lt (by omega),
      Nat.shiftRight_eq_div_pow]
  have hmask := toNat_and_mask tbl.numItems h.toNat_double
  have hdiv := Nat.div_add_mod tbl.numItems.toNat (2 ^ (tbl.log2NumBuckets.toNat + 1))
  rw [idealChain, ne_eq, ← UInt32.toNat_inj, UInt32.toNat_add, hshift]
  split_ifs with hrest
  · -- The quotient is at most half of a word.
    have hhalf : tbl.numItems.toNat / 2 ^ (tbl.log2NumBuckets.toNat + 1) ≤
        tbl.numItems.toNat / 2 :=
      Nat.div_le_div_left (Nat.pow_succ' ▸ Nat.le_mul_of_pos_right 2 (Nat.two_pow_pos _))
        Nat.zero_lt_two
    have hword := tbl.numItems.toNat_lt
    have hone : (1 : UInt32).toNat = 1 := rfl
    rw [hone, Nat.mod_eq_of_lt (by omega)]
    exact Nat.succ_ne_zero _
  · have hzero : tbl.numItems &&& (tbl.numBuckets * 2 - 1) = 0 := not_not.mp hrest
    rw [hzero] at hmask
    have hne : tbl.numItems.toNat ≠ 0 := fun heq => hitems (UInt32.toNat_inj.mp heq)
    have hlt := (Nat.div_le_self tbl.numItems.toNat (2 ^ (tbl.log2NumBuckets.toNat + 1))).trans_lt
      tbl.numItems.toNat_lt
    rw [UInt32.toNat_zero, Nat.add_zero, Nat.mod_eq_of_lt hlt]
    rw [← hmask, UInt32.toNat_zero, Nat.add_zero] at hdiv
    intro hquot
    rw [hquot, Nat.mul_zero] at hdiv
    exact hne hdiv.symm

/-- By induction on the number of old buckets that have been emptied. -/
theorem expandLoop_spec (h : Bucketed s tbl A) (hA : ∀ b ∈ A, b ∈ s.live) {ideal : UInt32}
    (hideal : ideal ≠ 0) (hk : k ≤ tbl.numBuckets.toNat) :
    ∃ x, (List.range k).foldlM
        (fun x i => do
          let bkt ← bucketAt tbl.buckets i
          expandChain ideal (tbl.numBuckets * 2) s.live.card bkt.hhHead x)
        ⟨s, List.replicate (2 * tbl.numBuckets).toNat .zero, 0⟩ = .ok x ∧
      Expands x (tbl.numBuckets * 2)
        {b | b ∈ A ∧ hashToBkt (s.hashv b) tbl.numBuckets < k} ∧
      Relinked s x.memory {b | b ∈ A ∧ hashToBkt (s.hashv b) tbl.numBuckets < k} := by
  induction k with
  | zero =>
      refine ⟨_, rfl, ⟨?_, ?_⟩, (Relinked.refl s).mono (Set.empty_subset _)⟩
      · rw [List.length_replicate, UInt32.mul_comm]
      · simpa using inBuckets_zero s (tbl.numBuckets * 2) (2 * tbl.numBuckets).toNat
  | succ k ih =>
      obtain ⟨x, hx, hexpands, hrelinked⟩ := ih (Nat.le_of_succ_le hk)
      have hlt : k < tbl.buckets.length := by
        rw [h.length]
        exact hk
      have hbkt := List.getElem?_eq_getElem hlt
      obtain ⟨chain, hchain, hmem⟩ := h.inBuckets k _ hbkt
      have hlive := hrelinked.live
      have hnew : ∀ b ∈ chain, ¬ (b ∈ A ∧ hashToBkt (s.hashv b) tbl.numBuckets < k) := by
        rintro b hb ⟨-, hlt⟩
        rw [((hmem b).mp hb).2] at hlt
        exact Nat.lt_irrefl k hlt
      obtain ⟨x', hx', hexpands', hrelinked'⟩ := expandChain_spec h.toNat_double hexpands
        (fun b hb => hlive ▸ hA b hb.1)
        (hchain.links.forward.congr fun b hb => hrelinked.same b (hnew b hb)) hchain.nodup
        (fun b hb => ⟨hnew b hb, hlive ▸ hA b ((hmem b).mp hb).1⟩) hideal
        (length_le_card hchain.nodup fun b hb => hA b ((hmem b).mp hb).1)
      have hset : {b | b ∈ A ∧ hashToBkt (s.hashv b) tbl.numBuckets < k} ∪ {b | b ∈ chain} =
          {b | b ∈ A ∧ hashToBkt (s.hashv b) tbl.numBuckets < k + 1} := by
        ext b
        simp only [Set.mem_union, Set.mem_ofPred_eq, hmem, Nat.lt_succ_iff_lt_or_eq]
        rw [← and_or_left]
      rw [hset] at hexpands'
      refine ⟨x', ?_, hexpands', (hrelinked.trans hrelinked').mono hset.le⟩
      rw [List.range_succ, List.foldlM_append, hx]
      refine bind_ok.mpr ⟨x, rfl, ?_⟩
      simp only [List.foldlM_cons, List.foldlM_nil]
      refine bind_ok.mpr ⟨x', bind_ok.mpr ⟨_, bucketAt_of_some hbkt, ?_⟩, rfl⟩
      rw [hchain.head]
      exact hx'

/-- The outcome of a step on the buckets: there is no memory, or the elements are in the buckets of
a table that has the same items. -/
inductive BucketStep (s : UtHash ε) (tbl : UtHashTable) (A : Set Nat) :
    Except UtHashFault (UtHash ε) → Prop
  | outOfMemory : BucketStep s tbl A (.error .outOfMemory)
  | ok {hhNext hhPrev : Nat → Option Nat} {tbl' : UtHashTable} :
      tbl'.numItems = tbl.numItems → tbl'.tail = tbl.tail →
      Bucketed { s with hhNext := hhNext, hhPrev := hhPrev } tbl' A →
      BucketStep s tbl A
        (.ok { s with hhNext := hhNext, hhPrev := hhPrev, tbl := some tbl' })

/-- A step from a memory with other links and other buckets. -/
theorem BucketStep.of_links {tbl' : UtHashTable} {x : Except UtHashFault (UtHash ε)}
    (hs' : s' = { s with hhNext := s'.hhNext, hhPrev := s'.hhPrev, tbl := s'.tbl })
    (hitems : tbl'.numItems = tbl.numItems) (htail : tbl'.tail = tbl.tail)
    (h : BucketStep s' tbl' A x) : BucketStep s tbl A x := by
  cases h with
  | outOfMemory => exact .outOfMemory
  | ok hitems' htail' h =>
      rw [hs'] at h ⊢
      exact .ok (hitems'.trans hitems) (htail'.trans htail) (h.congr (fun _ _ => rfl) rfl rfl)

/-- The allocator grants no request of 32 GiB, which is what `2 ^ 31` buckets take. -/
def AllocatorBounded (granted : Nat → Bool) : Prop :=
  ∀ bytes, granted bytes = true → bytes < 2 ^ 35

/-- A number of buckets for which there is memory can be doubled once more. -/
theorem Bucketed.small_of_granted (h : Bucketed s tbl A) (hbounded : AllocatorBounded granted)
    (hgranted : granted ((2 * tbl.numBuckets).toNat * sizeofBucket) = true) :
    (tbl.log2NumBuckets + 1).toNat ≤ 30 := by
  have hbytes := hbounded _ hgranted
  rw [UInt32.mul_comm, h.toNat_double, sizeofBucket] at hbytes
  have hpow : 2 ^ (tbl.log2NumBuckets.toNat + 1) < 2 ^ 31 := by omega
  rw [h.toNat_log2]
  exact Nat.le_of_lt_succ ((Nat.pow_lt_pow_iff_right Nat.one_lt_two).mp hpow)

theorem hashExpandBuckets_spec (hbounded : AllocatorBounded granted) (htable : s.table = .ok tbl)
    (h : Bucketed s tbl A) (hA : ∀ b ∈ A, b ∈ s.live) (hitems : tbl.numItems ≠ 0) :
    BucketStep s tbl A (hashExpandBuckets granted s) := by
  simp only [hashExpandBuckets, htable]
  change BucketStep s tbl A (ite _ _ _)
  split_ifs with hgranted
  · obtain ⟨x, hx, hexpands, hrelinked⟩ := expandLoop_spec h hA (h.idealChain_ne_zero hitems) le_rfl
    have hall : {b | b ∈ A ∧ hashToBkt (s.hashv b) tbl.numBuckets < tbl.numBuckets.toNat} = A := by
      ext b
      simp only [Set.mem_ofPred_eq, and_iff_left_iff_imp]
      intro _
      exact hashToBkt_lt _ h.numBuckets
    rw [hall] at hexpands hrelinked
    rw [hx]
    change BucketStep s tbl A (.ok _)
    have hbuckets := hexpands.inBuckets
    rw [hrelinked.memory] at hbuckets ⊢
    refine .ok rfl rfl ⟨?_, h.small_of_granted hbounded hgranted, hexpands.length, hbuckets⟩
    rw [h.toNat_double, h.toNat_log2]
  · exact .outOfMemory

/-! ## Chains -/

theorem hashAddToBkt_spec (hbounded : AllocatorBounded granted) (htable : s.table = .ok tbl)
    (h : Bucketed s tbl A) (hA : ∀ b ∈ A, b ∈ s.live) (ha : a ∉ A) (halive : a ∈ s.live)
    (hitems : tbl.numItems ≠ 0) :
    BucketStep s tbl (insert a A)
      (hashAddToBkt granted (hashToBkt (s.hashv a) tbl.numBuckets) a s) := by
  obtain ⟨b, hhead, hb, htbl⟩ := table_ok.mp htable
  have hlt : hashToBkt (s.hashv a) tbl.numBuckets < tbl.buckets.length := by
    rw [h.length]
    exact hashToBkt_lt _ h.numBuckets
  have hbkt := List.getElem?_eq_getElem hlt
  generalize tbl.buckets[hashToBkt (s.hashv a) tbl.numBuckets] = bkt at hbkt
  have hlink : hashLink a bkt.hhHead s = .ok (s.linked a bkt.hhHead) :=
    hashLink_eq fun c hc => hA c (h.inBuckets.head_mem hbkt hc).1
  have hlinked := h.inBuckets.link ha hbkt rfl bkt.expandMult
  have hlive : ∀ c ∈ insert a A, c ∈ s.live := by
    rintro c (rfl | hc)
    · exact halive
    · exact hA c hc
  simp only [hashAddToBkt, htable, bucketAt_of_some hbkt, hlink, ok_bind]
  obtain ⟨tbl₁, htbl₁⟩ : ∃ t : UtHashTable, t = { tbl with
      buckets := tbl.buckets.set (hashToBkt (s.hashv a) tbl.numBuckets)
        ⟨some a, bkt.count + 1, bkt.expandMult⟩ } := ⟨_, rfl⟩
  have hbucketed : Bucketed (s.linked a bkt.hhHead) tbl₁ (insert a A) := by
    rw [htbl₁]
    exact ⟨h.numBuckets, h.small, by rw [List.length_set, h.length], hlinked⟩
  have hitems₁ : tbl₁.numItems = tbl.numItems := by rw [htbl₁]
  have htail₁ : tbl₁.tail = tbl.tail := by rw [htbl₁]
  rw [← htbl₁]
  split_ifs
  · have htable₁ : UtHash.table { s.linked a bkt.hhHead with tbl := some tbl₁ } = .ok tbl₁ :=
      table_ok.mpr ⟨b, hhead, hb, rfl⟩
    have hexpand : BucketStep _ tbl₁ _ (hashExpandBuckets granted _) :=
      hashExpandBuckets_spec hbounded htable₁ (hbucketed.congr (fun _ _ => rfl) rfl rfl) hlive
        (hitems₁ ▸ hitems)
    exact hexpand.of_links rfl hitems₁ htail₁
  · exact .ok hitems₁ htail₁ hbucketed

/-- The memory where `a` has been taken out of its chain. -/
def UtHash.unlinked (s : UtHash ε) (a : Nat) : UtHash ε :=
  { s with
    hhPrev := past s.hhPrev s.hhNext a
    hhNext := past s.hhNext s.hhPrev a }

theorem InBuckets.unlink (h : InBuckets s numBkts buckets A) (ha : a ∈ A)
    (hbkt : buckets[j]? = some bkt) (hj : hashToBkt (s.hashv a) numBkts = j) :
    InBuckets (s.unlinked a) numBkts (buckets.set j { bkt with
      hhHead := if bkt.hhHead = some a then s.hhNext a else bkt.hhHead
      count := bkt.count - 1 }) (A \ {a}) := by
  obtain ⟨chain, hchain, hmem⟩ := h j bkt hbkt
  have hlinks := hchain.links
  have hachain : a ∈ chain := (hmem a).mpr ⟨ha, hj⟩
  intro k bkt' hk
  by_cases hkj : k = j
  · subst hkj
    rw [List.getElem?_set_self (List.getElem?_eq_some_iff.mp hbkt).1] at hk
    obtain rfl := Option.some.inj hk
    obtain ⟨front, back, rfl⟩ := List.append_of_mem hachain
    have hcons : (a :: (front ++ back)).Nodup := List.perm_middle.nodup_iff.mp hchain.nodup
    obtain ⟨hnot, hnodup⟩ := List.nodup_cons.mp hcons
    refine ⟨front ++ back, ⟨?_, ?_, hnodup, hlinks.unlink hchain.nodup⟩, fun x => ?_⟩
    · dsimp only
      rw [hchain.head]
      cases front with
      | nil => exact (if_pos rfl).trans hlinks.next_eq
      | cons c front =>
          have hne : c ≠ a := fun hca => hnot (hca ▸ List.mem_cons_self)
          exact if_neg fun hca => hne (Option.some.inj hca)
    · dsimp only
      rw [hchain.count, List.perm_middle.length_eq, List.length_cons, UInt32.ofNat_add]
      exact UInt32.add_sub_cancel ..
    · change _ ↔ _ ∧ hashToBkt (s.hashv x) _ = _
      have hx := hmem x
      rw [List.perm_middle.mem_iff, List.mem_cons] at hx
      rw [Set.mem_sdiff, Set.mem_singleton_iff, and_right_comm, ← hx]
      constructor
      · exact fun hin => ⟨.inr hin, fun hxa => hnot (hxa ▸ hin)⟩
      · exact fun hin => hin.1.resolve_left hin.2
  · rw [List.getElem?_set_ne (Ne.symm hkj)] at hk
    obtain ⟨chain', hchain', hmem'⟩ := h k bkt' hk
    have hapart : ∀ x ∈ chain', ∀ y ∈ chain, x ≠ y := by
      rintro x hx y hy rfl
      exact hkj (((hmem' x).mp hx).2.symm.trans ((hmem x).mp hy).2)
    refine ⟨chain', ⟨hchain'.head, hchain'.count, hchain'.nodup, ?_⟩, fun x => ?_⟩
    · refine hchain'.links.congr (fun x hx => ?_) fun x hx => ?_
      · exact past_of_prev_ne fun p hp => hapart x hx p (hlinks.mem_of_prev hachain hp)
      · exact past_of_prev_ne fun q hq => hapart x hx q (hlinks.mem_of_next hachain hq)
    · change _ ↔ _ ∧ hashToBkt (s.hashv x) _ = _
      rw [hmem', Set.mem_sdiff, Set.mem_singleton_iff, and_right_comm]
      refine (and_iff_left_of_imp ?_).symm
      rintro ⟨-, hxk⟩ rfl
      exact hkj (hxk.symm.trans hj)

/-- An element is taken out of its chain, which leaves the others where they are. -/
theorem hashDelInBkt_spec (htable : s.table = .ok tbl) (h : Bucketed s tbl A)
    (hA : ∀ b ∈ A, b ∈ s.live) (ha : a ∈ A) :
    ∃ tbl', hashDelInBkt (hashToBkt (s.hashv a) tbl.numBuckets) a s =
        .ok { s.unlinked a with tbl := some tbl' } ∧
      tbl'.numItems = tbl.numItems ∧ tbl'.tail = tbl.tail ∧
      Bucketed (s.unlinked a) tbl' (A \ {a}) := by
  obtain ⟨b, hhead, hb, htbl⟩ := table_ok.mp htable
  have hlt : hashToBkt (s.hashv a) tbl.numBuckets < tbl.buckets.length := by
    rw [h.length]
    exact hashToBkt_lt _ h.numBuckets
  have hbkt := List.getElem?_eq_getElem hlt
  generalize tbl.buckets[hashToBkt (s.hashv a) tbl.numBuckets] = bkt at hbkt
  obtain ⟨chain, hchain, hmem⟩ := h.inBuckets _ bkt hbkt
  have hachain : a ∈ chain := (hmem a).mpr ⟨ha, rfl⟩
  have hlinks := hchain.links
  have hchainLive : ∀ c ∈ chain, c ∈ s.live := fun c hc => hA c ((hmem c).mp hc).1
  have hunlinked := h.inBuckets.unlink ha hbkt rfl
  obtain ⟨tbl', htbl'⟩ : ∃ t : UtHashTable, t = { tbl with
      buckets := tbl.buckets.set (hashToBkt (s.hashv a) tbl.numBuckets) { bkt with
        hhHead := if bkt.hhHead = some a then s.hhNext a else bkt.hhHead
        count := bkt.count - 1 } } := ⟨_, rfl⟩
  refine ⟨tbl', ?_, by rw [htbl'], by rw [htbl'], ?_⟩
  · simp only [hashDelInBkt, htable, bucketAt_of_some hbkt, ok_bind]
    rw [← htbl']
    have hsame : past s.hhNext s.hhPrev a a = s.hhNext a :=
      past_of_prev_ne fun p hp hap => hlinks.prev_ne_self hchain.nodup hachain (hap ▸ hp)
    refine bind_ok.mpr ⟨{ s with hhNext := past s.hhNext s.hhPrev a, tbl := some tbl' },
      storeAt_eq (fun hp => ?_) fun p hp => ⟨hchainLive p (hlinks.mem_of_prev hachain hp), ?_⟩,
      storeAt_eq (fun hq => ?_) fun q hq => ?_⟩
    · rw [past, hp]
    · rw [past, hp]
    · change past s.hhNext s.hhPrev a a = none at hq
      rw [hsame] at hq
      rw [UtHash.unlinked, past, past, hq]
    · change past s.hhNext s.hhPrev a a = some q at hq
      rw [hsame] at hq
      refine ⟨hchainLive q (hlinks.mem_of_next hachain hq), ?_⟩
      rw [UtHash.unlinked, past, past, hq]
  · rw [htbl']
    exact ⟨h.numBuckets, h.small, by rw [List.length_set, h.length], hunlinked⟩

/-! ## The elements of a table -/

/-- The table of elements in the order of the application. -/
structure TableHolds (s : UtHash ε) (tbl : UtHashTable) (items : List Nat) : Prop where
  numItems : tbl.numItems = UInt32.ofNat items.length
  tail : items.getLast? = some tbl.tail
  buckets : Bucketed s tbl {a | a ∈ items}

/-- The table consists of these elements, in this order. -/
structure Holds (keyOf : ε → κ) (hashFcn : κ → UInt32) (s : UtHash ε) (items : List Nat) :
    Prop where
  nodup : items.Nodup
  live : ∀ a ∈ items, a ∈ s.live
  head : s.head = items.head?
  links : DoublyLinked s.next s.prev items
  hashv : ∀ a ∈ items, s.hashv a = hashFcn (keyOf (s.elmt a))
  table : items ≠ [] → ∃ tbl, s.tbl = some tbl ∧ TableHolds s tbl items

section Specs

variable {keyOf : ε → κ} {hashFcn : κ → UInt32} {key : κ}

theorem Holds.table_ok (h : Holds keyOf hashFcn s items) (ha : a ∈ items) :
    ∃ tbl, s.table = .ok tbl ∧ TableHolds s tbl items := by
  cases items with
  | nil => cases ha
  | cons b items =>
      obtain ⟨tbl, htbl, hholds⟩ := h.table (List.cons_ne_nil b items)
      exact ⟨tbl, ParcoachRma.table_ok.mpr ⟨b, h.head, h.live b List.mem_cons_self, htbl⟩, hholds⟩

/-! ### Looking up -/

/-- The elements of the chain are compared one after the other. -/
theorem hashFindInBkt_eq [DecidableEq κ] {rest : List Nat} {fuel : Nat}
    (hrest : Forward s.hhNext rest) (hlive : ∀ b ∈ rest, b ∈ s.live) (hfuel : rest.length ≤ fuel) :
    hashFindInBkt keyOf s key fuel rest.head? =
      .ok (rest.find? fun b => keyOf (s.elmt b) = key) := by
  induction rest generalizing fuel with
  | nil => rw [hashFindInBkt.eq_def]; rfl
  | cons b rest ih =>
      obtain ⟨fuel, rfl⟩ := Nat.exists_eq_succ_of_ne_zero (n := fuel) (by
        rw [List.length_cons] at hfuel
        omega)
      have hnext : s.hhNext b = rest.head? := hrest.1
      rw [hashFindInBkt.eq_def]
      simp only [List.head?_cons, deref_of_mem (hlive b List.mem_cons_self), ok_bind, hnext]
      by_cases hkey : keyOf (s.elmt b) = key
      · rw [if_pos hkey, List.find?_cons_of_pos (by simpa using hkey)]
      · rw [if_neg hkey, List.find?_cons_of_neg (by simpa using hkey)]
        exact ih hrest.2 (fun c hc => hlive c (List.mem_cons_of_mem b hc))
          (Nat.le_of_succ_le_succ hfuel)

/-- What is found is an element with the key, and where none is found there is none. -/
theorem hashFind_spec [DecidableEq κ] (h : Holds keyOf hashFcn s items) (key : κ) :
    ∃ out, hashFind keyOf hashFcn key s = .ok out ∧
      (∀ a, out = some a → a ∈ items ∧ keyOf (s.elmt a) = key) ∧
      (out = none → ∀ a ∈ items, keyOf (s.elmt a) ≠ key) := by
  cases hitems : items with
  | nil =>
      rw [hashFind, h.head, hitems]
      exact ⟨none, rfl, fun _ => nofun, fun _ _ ha => absurd ha List.not_mem_nil⟩
  | cons b rest =>
      rw [← hitems]
      have hb : b ∈ items := hitems ▸ List.mem_cons_self
      obtain ⟨tbl, htable, hholds⟩ := h.table_ok hb
      have hbuckets := hholds.buckets
      have hlt : hashToBkt (hashFcn key) tbl.numBuckets < tbl.buckets.length := by
        rw [hbuckets.length]
        exact hashToBkt_lt _ hbuckets.numBuckets
      have hbkt := List.getElem?_eq_getElem hlt
      obtain ⟨chain, hchain, hmem⟩ := hbuckets.inBuckets _ _ hbkt
      have hlive : ∀ c ∈ chain, c ∈ s.live := fun c hc => h.live c ((hmem c).mp hc).1
      refine ⟨chain.find? fun c => keyOf (s.elmt c) = key, ?_, fun a ha => ?_, fun hnone a ha => ?_⟩
      · have hhead : s.head = some b := by rw [h.head, hitems]; rfl
        rw [hashFind, hhead]
        simp only [htable, ok_bind, bucketAt_of_some hbkt, hchain.head]
        exact hashFindInBkt_eq hchain.links.forward hlive (length_le_card hchain.nodup hlive)
      · refine ⟨((hmem a).mp (List.mem_of_find?_eq_some ha)).1, ?_⟩
        simpa using List.find?_some ha
      · intro hkey
        have hin : a ∈ chain := by
          rw [hmem, h.hashv a ha, hkey]
          exact ⟨ha, rfl⟩
        simpa [hkey] using List.find?_eq_none.mp hnone a hin

/-! ### Adding -/

/-- The element is the last one of the order of the application, and not yet in a bucket. -/
structure Appended (s s' : UtHash ε) (items : List Nat) (a : Nat) (tbl : UtHashTable) : Prop where
  memory : s' = { s with head := s'.head, next := s'.next, prev := s'.prev, tbl := some tbl }
  head : s'.head = (items ++ [a]).head?
  links : DoublyLinked s'.next s'.prev (items ++ [a])
  numItems : tbl.numItems = UInt32.ofNat items.length
  tail : tbl.tail = a
  buckets : Bucketed s tbl {b | b ∈ items}

theorem appendElmt_some (hhead : s.head = some b) (htable : s.table = .ok tbl)
    (htail : tbl.tail ∈ s.live) :
    appendElmt granted a s = .ok { s with
      next := Function.update s.next tbl.tail (some a)
      prev := Function.update s.prev a (some tbl.tail)
      tbl := some { tbl with tail := a } } := by
  rw [appendElmt, hhead]
  simp only [htable, deref_of_mem htail, ok_bind]

theorem appendElmt_spec (granted : Nat → Bool) (h : Holds keyOf hashFcn s items) (ha : a ∉ items) :
    appendElmt granted a { s with next := Function.update s.next a none } =
      .error .outOfMemory ∨
    ∃ s' tbl, appendElmt granted a { s with next := Function.update s.next a none } = .ok s' ∧
      Appended s s' items a tbl := by
  cases hlast : items.getLast? with
  | none =>
      obtain rfl := List.getLast?_eq_none_iff.mp hlast
      have hhead : s.head = none := h.head
      simp only [appendElmt, hhead, hashMakeTable]
      split_ifs
      · refine .inr ⟨_, _, rfl, rfl, rfl, DoublyLinked.nil.push List.nodup_nil ha, rfl, rfl, rfl,
          ?_, List.length_replicate, ?_⟩
        · exact Nat.le_of_ble_eq_true rfl
        · simpa using inBuckets_zero s hashInitialNumBuckets hashInitialNumBuckets.toNat
      · exact .inl rfl
  | some z =>
      have hz : z ∈ items := List.mem_of_getLast? hlast
      obtain ⟨tbl, htable, hholds⟩ := h.table_ok hz
      obtain ⟨b, hhead, hb, htbl⟩ := ParcoachRma.table_ok.mp htable
      obtain rfl : z = tbl.tail := Option.some.inj (hlast.symm.trans hholds.tail)
      have htable' : UtHash.table { s with next := Function.update s.next a none } = .ok tbl :=
        ParcoachRma.table_ok.mpr ⟨b, hhead, hb, htbl⟩
      refine .inr ⟨_, _, appendElmt_some hhead htable' (h.live _ hz), rfl, ?_,
        h.links.append h.nodup ha hlast, hholds.numItems, rfl, hholds.buckets.numBuckets,
        hholds.buckets.small, hholds.buckets.length, hholds.buckets.inBuckets⟩
      have hfirst : items.head? = some b := h.head.symm.trans hhead
      rw [List.head?_append, hfirst]
      exact hhead

/-- The last element of the order is linked into its bucket. -/
theorem holds_addToBkt (hbounded : AllocatorBounded granted)
    (hbound : items.length + 1 < 2 ^ 32) (htbl : s.tbl = some tbl)
    (hhead : s.head = (items ++ [a]).head?) (hlinks : DoublyLinked s.next s.prev (items ++ [a]))
    (hnodup : (items ++ [a]).Nodup) (hlive : ∀ b ∈ items ++ [a], b ∈ s.live)
    (hhashv : ∀ b ∈ items ++ [a], s.hashv b = hashFcn (keyOf (s.elmt b)))
    (hitems : tbl.numItems = UInt32.ofNat (items.length + 1)) (htail : tbl.tail = a)
    (hbuckets : Bucketed s tbl {b | b ∈ items}) :
    hashAddToBkt granted (hashToBkt (s.hashv a) tbl.numBuckets) a s = .error .outOfMemory ∨
    ∃ s', hashAddToBkt granted (hashToBkt (s.hashv a) tbl.numBuckets) a s = .ok s' ∧
      Holds keyOf hashFcn s' (items ++ [a]) ∧ s'.live = s.live ∧ s'.elmt = s.elmt := by
  have ha : a ∉ items := fun hmem =>
    (List.nodup_append.mp hnodup).2.2 a hmem a List.mem_cons_self rfl
  obtain ⟨first, hfirst⟩ : ∃ first, (items ++ [a]).head? = some first :=
    Option.isSome_iff_exists.mp (by simp)
  have htable : s.table = .ok tbl := ParcoachRma.table_ok.mpr
    ⟨first, hhead.trans hfirst, hlive first (List.mem_of_mem_head? hfirst), htbl⟩
  have hsome : tbl.numItems ≠ 0 := by
    rw [hitems, ne_eq, ← UInt32.toNat_inj, UInt32.toNat_ofNat_of_lt' hbound]
    exact Nat.succ_ne_zero _
  have hstep : BucketStep s tbl _ (hashAddToBkt granted _ a s) :=
    hashAddToBkt_spec hbounded htable hbuckets
      (fun b hb => hlive b (List.mem_append_left [a] hb)) ha
      (hlive a (List.mem_append_right items List.mem_cons_self)) hsome
  generalize hashAddToBkt granted (hashToBkt (s.hashv a) tbl.numBuckets) a s = x at hstep ⊢
  cases hstep with
  | outOfMemory => exact .inl rfl
  | @ok hhNext hhPrev tbl' hitems' htail' hbucketed =>
      have hset : insert a {b | b ∈ items} = {b | b ∈ items ++ [a]} := by
        ext b
        simp [or_comm]
      rw [hset] at hbucketed
      refine .inr ⟨_, rfl, ⟨hnodup, hlive, hhead, hlinks, hhashv, fun _ => ⟨tbl', rfl, ?_, ?_, ?_⟩⟩,
        rfl, rfl⟩
      · rw [hitems', hitems, List.length_append, List.length_singleton]
      · rw [List.getLast?_concat, htail', htail]
      · exact hbucketed.congr (fun _ _ => rfl) rfl rfl

/-- Unless there is no memory for it, the element is the last one of the table. -/
theorem hashAddKeyptr_spec (hbounded : AllocatorBounded granted)
    (h : Holds keyOf hashFcn s items) (halive : a ∈ s.live) (ha : a ∉ items)
    (hbound : items.length + 1 < 2 ^ 32) :
    hashAddKeyptr keyOf hashFcn granted a s = .error .outOfMemory ∨
    ∃ s', hashAddKeyptr keyOf hashFcn granted a s = .ok s' ∧
      Holds keyOf hashFcn s' (items ++ [a]) ∧ s'.live = s.live ∧ s'.elmt = s.elmt := by
  simp only [hashAddKeyptr, deref_of_mem halive, ok_bind]
  rcases appendElmt_spec granted h ha with hmemory | ⟨s₁, tbl, hs₁, happended⟩
  · rw [hmemory]
    exact .inl rfl
  · have hlive : ∀ b ∈ items ++ [a], b ∈ s.live := by
      intro b hb
      rcases List.mem_append.mp hb with hb | hb
      · exact h.live b hb
      · exact List.mem_singleton.mp hb ▸ halive
    have hnodup : (items ++ [a]).Nodup := by
      rw [List.nodup_append]
      refine ⟨h.nodup, List.nodup_singleton a, fun b hb c hc hbc => ha ?_⟩
      rwa [← List.mem_singleton.mp hc, ← hbc]
    obtain ⟨first, hfirst⟩ : ∃ first, (items ++ [a]).head? = some first :=
      Option.isSome_iff_exists.mp (by simp)
    have hfirstLive := hlive first (List.mem_of_mem_head? hfirst)
    have htable₁ : s₁.table = .ok tbl := by
      refine ParcoachRma.table_ok.mpr ⟨first, happended.head.trans hfirst, ?_, ?_⟩
      · rw [happended.memory]
        exact hfirstLive
      · rw [happended.memory]
    obtain ⟨tbl₁, htbl₁⟩ : ∃ t : UtHashTable, t = { tbl with numItems := tbl.numItems + 1 } :=
      ⟨_, rfl⟩
    obtain ⟨s₂, hs₂⟩ : ∃ t : UtHash ε, t = { s₁ with
        hashv := Function.update s₁.hashv a (hashFcn (keyOf (s₁.elmt a)))
        tbl := some tbl₁ } := ⟨_, rfl⟩
    have hmemory : s₂.live = s.live ∧ s₂.elmt = s.elmt ∧ s₂.hhNext = s.hhNext ∧
        s₂.hhPrev = s.hhPrev ∧
        s₂.hashv = Function.update s.hashv a (hashFcn (keyOf (s.elmt a))) := by
      rw [hs₂, happended.memory]
      exact ⟨rfl, rfl, rfl, rfl, rfl⟩
    obtain ⟨hlive₂, helmt₂, hnext₂, hprev₂, hhashv₂⟩ := hmemory
    have hself : s₂.hashv a = hashFcn (keyOf (s₁.elmt a)) := by
      rw [hs₂]
      exact Function.update_self ..
    have hsame : ∀ b ∈ items, s₂.hashv b = s.hashv b := by
      intro b hb
      rw [hhashv₂]
      exact Function.update_of_ne (fun hba : b = a => ha (hba ▸ hb)) ..
    have hnum : tbl₁.numBuckets = tbl.numBuckets := by rw [htbl₁]
    rw [hs₁]
    simp only [htable₁, ok_bind]
    rw [← htbl₁, ← hs₂, ← hself, ← hnum, ← hlive₂, ← helmt₂]
    refine holds_addToBkt hbounded hbound (by rw [hs₂]) (by rw [hs₂]; exact happended.head)
      (by rw [hs₂]; exact happended.links) hnodup (hlive₂ ▸ hlive) (fun b hb => ?_)
      (by rw [htbl₁, UInt32.ofNat_add, ← happended.numItems]; rfl)
      (by rw [htbl₁]; exact happended.tail) ?_
    · rw [helmt₂]
      rcases List.mem_append.mp hb with hb | hb
      · rw [hsame b hb, h.hashv b hb]
      · rw [List.mem_singleton.mp hb, hhashv₂, Function.update_self]
    · rw [htbl₁]
      have hbuckets := happended.buckets
      exact Bucketed.congr ⟨hbuckets.numBuckets, hbuckets.small, hbuckets.length,
        hbuckets.inBuckets⟩ hsame hnext₂ hprev₂

/-! ### Deleting -/

theorem Holds.not_mem_front {front back : List Nat}
    (h : Holds keyOf hashFcn s (front ++ a :: back)) : a ∉ front := by
  intro hmem
  exact (List.nodup_append.mp h.nodup).2.2 a hmem a List.mem_cons_self rfl

theorem Holds.erase_eq {front back : List Nat}
    (h : Holds keyOf hashFcn s (front ++ a :: back)) :
    (front ++ a :: back).erase a = front ++ back := by
  rw [List.erase_append_right _ h.not_mem_front, List.erase_cons_head]

/-- The last element after a deletion. -/
theorem moveTail_spec (h : Holds keyOf hashFcn s items) (ha : a ∈ items)
    (hothers : ¬ (s.prev a = none ∧ s.next a = none)) :
    ∃ tbl tail, s.table = .ok tbl ∧ TableHolds s tbl items ∧
      moveTail a s = .ok { s with tbl := some { tbl with tail := tail } } ∧
      (items.erase a).getLast? = some tail := by
  obtain ⟨tbl, htable, hholds⟩ := h.table_ok ha
  obtain ⟨-, -, -, htbl⟩ := ParcoachRma.table_ok.mp htable
  have htail := hholds.tail
  have hlast := h.links.next_eq_none_iff h.nodup ha
  rw [htail] at hlast
  simp only [moveTail, htable, ok_bind]
  obtain ⟨front, back, rfl⟩ := List.append_of_mem ha
  rw [h.erase_eq]
  split_ifs with hat
  · have hnext : s.next a = none := hlast.mpr (congrArg some hat.symm)
    have hback : back = [] := by
      rw [h.links.next_eq, List.head?_eq_none_iff] at hnext
      exact hnext
    obtain ⟨p, hp⟩ := Option.ne_none_iff_exists'.mp fun hprev => hothers ⟨hprev, hnext⟩
    have hplive := h.live p (h.links.mem_of_prev ha hp)
    refine ⟨tbl, p, rfl, hholds, by rw [hp, deref_of_mem hplive, ok_bind], ?_⟩
    rw [hback, List.append_nil, ← h.links.prev_eq, hp]
  · refine ⟨tbl, tbl.tail, rfl, hholds, by rw [← htbl], ?_⟩
    cases back with
    | nil => exact absurd (Option.some.inj (List.getLast?_concat.symm.trans htail)) hat
    | cons c back =>
        rw [List.getLast?_append_cons, List.getLast?_cons_cons] at htail
        rw [List.getLast?_append_cons, htail]

/-- The first element after a deletion. -/
theorem skipElmt_spec (h : Holds keyOf hashFcn s items) (ha : a ∈ items) (t : Option UtHashTable) :
    skipElmt a { s with tbl := t } = .ok { s with
      head := (items.erase a).head?
      next := past s.next s.prev a
      tbl := t } := by
  obtain ⟨front, back, rfl⟩ := List.append_of_mem ha
  have hhead := h.head
  have hprev := h.links.prev_eq
  have hnext := h.links.next_eq
  rw [h.erase_eq]
  cases front with
  | nil =>
      rw [skipElmt, past]
      simp only [hprev, List.getLast?_nil]
      rw [hnext]
      rfl
  | cons c front =>
      obtain ⟨p, hp⟩ : ∃ p, s.prev a = some p :=
        ⟨(c :: front).getLast (List.cons_ne_nil c front), by
          rw [hprev, List.getLast?_eq_some_getLast]⟩
      have hplive := h.live p (h.links.mem_of_prev ha hp)
      rw [skipElmt, past]
      simp only [hp]
      rw [hhead]
      exact if_pos hplive

/-- An element that is not the only one is taken out of the order of the application. -/
theorem unlinkElmt_spec (h : Holds keyOf hashFcn s items) (ha : a ∈ items)
    (hothers : ¬ (s.prev a = none ∧ s.next a = none)) :
    ∃ tbl tail, s.table = .ok tbl ∧ TableHolds s tbl items ∧
      unlinkElmt a s = .ok { s with
        head := (items.erase a).head?
        next := past s.next s.prev a
        prev := past s.prev s.next a
        tbl := some { tbl with tail := tail } } ∧ (items.erase a).getLast? = some tail := by
  obtain ⟨tbl, tail, htable, hholds, hmove, hlast⟩ := moveTail_spec h ha hothers
  refine ⟨tbl, tail, htable, hholds, ?_, hlast⟩
  have hlinks := h.links
  have hsame : past s.next s.prev a a = s.next a :=
    past_of_prev_ne fun p hp hap => hlinks.prev_ne_self h.nodup ha (hap ▸ hp)
  rw [unlinkElmt, hmove, ok_bind]
  refine bind_ok.mpr ⟨_, skipElmt_spec h ha _, storeAt_eq (fun hq => ?_) fun q hq => ?_⟩
  · change past s.next s.prev a a = none at hq
    rw [hsame] at hq
    rw [past, past, hq]
  · change past s.next s.prev a a = some q at hq
    rw [hsame] at hq
    refine ⟨h.live q (hlinks.mem_of_next ha hq), ?_⟩
    rw [past, past, hq]

theorem Holds.mem_erase (h : Holds keyOf hashFcn s items) (a : Nat) :
    {b | b ∈ items} \ {a} = {b | b ∈ items.erase a} := by
  ext b
  rw [Set.mem_sdiff, Set.mem_singleton_iff, Set.mem_ofPred_eq, Set.mem_ofPred_eq,
    h.nodup.mem_erase_iff, and_comm]

/-- The others remain in the order they have been added in. -/
theorem hashDelete_spec (h : Holds keyOf hashFcn s items) (ha : a ∈ items) :
    ∃ s', hashDelete a s = .ok s' ∧ Holds keyOf hashFcn s' (items.erase a) ∧
      s'.live = s.live ∧ s'.elmt = s.elmt := by
  rw [hashDelete, deref_of_mem (h.live a ha), ok_bind]
  split_ifs with halone
  · obtain rfl := h.links.eq_singleton ha halone.2 halone.1
    obtain ⟨tbl, htable, -⟩ := h.table_ok ha
    simp only [htable, ok_bind]
    refine ⟨_, rfl, ?_, rfl, rfl⟩
    rw [List.erase_cons_head]
    exact ⟨List.nodup_nil, fun _ hb => absurd hb List.not_mem_nil, rfl, .nil,
      fun _ hb => absurd hb List.not_mem_nil, fun hne => absurd rfl hne⟩
  · obtain ⟨tbl, tail, htable, hholds, hunlink, hlast⟩ := unlinkElmt_spec h ha halone
    have herase : ∀ b ∈ items.erase a, b ∈ items := fun b hb => List.mem_of_mem_erase hb
    obtain ⟨first, hfirst⟩ : ∃ first, (items.erase a).head? = some first := by
      rw [← Option.ne_none_iff_exists', ne_eq, List.head?_eq_none_iff]
      intro hnil
      rw [hnil] at hlast
      cases hlast
    have hfirstLive := h.live first (herase first (List.mem_of_mem_head? hfirst))
    obtain ⟨tbl₁, htbl₁⟩ : ∃ t : UtHashTable, t = { tbl with tail := tail } := ⟨_, rfl⟩
    rw [← htbl₁] at hunlink
    obtain ⟨s₁, hs₁⟩ : ∃ t : UtHash ε, t = { s with
        head := (items.erase a).head?
        next := past s.next s.prev a
        prev := past s.prev s.next a
        tbl := some tbl₁ } := ⟨_, rfl⟩
    rw [← hs₁] at hunlink
    have hbuckets := hholds.buckets
    have hbucketed : Bucketed s₁ tbl₁ {b | b ∈ items} := by
      rw [htbl₁, hs₁]
      exact Bucketed.congr
        ⟨hbuckets.numBuckets, hbuckets.small, hbuckets.length, hbuckets.inBuckets⟩ (fun _ _ => rfl)
        rfl rfl
    have htable₁ : s₁.table = .ok tbl₁ := by
      rw [hs₁]
      exact ParcoachRma.table_ok.mpr ⟨first, hfirst, hfirstLive, rfl⟩
    have hlive₁ : ∀ b ∈ items, b ∈ s₁.live := by
      rw [hs₁]
      exact h.live
    obtain ⟨tbl', hdel, hnum, htail, hrest⟩ := hashDelInBkt_spec htable₁ hbucketed hlive₁ ha
    rw [h.mem_erase] at hrest
    have htable' : UtHash.table { s₁.unlinked a with tbl := some tbl' } = .ok tbl' := by
      rw [hs₁]
      exact ParcoachRma.table_ok.mpr ⟨first, hfirst, hfirstLive, rfl⟩
    simp only [hunlink, htable₁, hdel, htable', ok_bind]
    have hlinks : DoublyLinked s₁.next s₁.prev (items.erase a) := by
      obtain ⟨front, back, rfl⟩ := List.append_of_mem ha
      rw [h.erase_eq, hs₁]
      exact h.links.unlink h.nodup
    refine ⟨_, rfl, ⟨h.nodup.erase a, ?_, ?_, hlinks, ?_, fun _ => ⟨_, rfl, ?_, ?_, ?_⟩⟩, ?_, ?_⟩
    · exact fun b hb => hlive₁ b (herase b hb)
    · exact congrArg UtHash.head hs₁
    · rw [hs₁]
      exact fun b hb => h.hashv b (herase b hb)
    · change tbl'.numItems - 1 = _
      rw [hnum, htbl₁, hholds.numItems, ← List.length_erase_add_one ha, UInt32.ofNat_add]
      exact UInt32.add_sub_cancel ..
    · change _ = some tbl'.tail
      rw [hlast, htail, htbl₁]
    · exact Bucketed.congr ⟨hrest.numBuckets, hrest.small, hrest.length, hrest.inBuckets⟩
        (fun _ _ => rfl) rfl rfl
    · rw [hs₁]; rfl
    · rw [hs₁]; rfl

/-! ### Iterating -/

section Iter

variable {σ τ ψ : Type} {htbl : σ → UtHash ε}
  {body : Nat → σ → Except φ σ} {visit : τ → Nat → Except ψ τ} {R : σ → τ → Prop}
  {F : φ → ψ → Prop} {stuck : φ → Prop}

/-- By induction on the elements that are left: the next one is read before the body runs, and is
still there after it. -/
theorem refines_hashIterFrom (fault : UtHashFault → φ)
    (hR : ∀ m t, R m t → Holds keyOf hashFcn (htbl m) items)
    (hbody : ∀ p ∈ items, ∀ m t, R m t → Refines R F stuck (body p m) (visit t p))
    {front rest : List Nat} (hitems : items = front ++ rest) {fuel : Nat}
    (hfuel : rest.length ≤ fuel) {m : σ} {t : τ} (h : R m t) :
    Refines R F stuck
      (hashIterFrom htbl fault body fuel rest.head? (rest.head?.bind (htbl m).next) m)
      (rest.foldlM visit t) := by
  induction rest generalizing front fuel m t with
  | nil =>
      rw [hashIterFrom.eq_def]
      exact .ok h
  | cons a rest ih =>
      obtain ⟨fuel, rfl⟩ := Nat.exists_eq_succ_of_ne_zero (n := fuel) (by
        rw [List.length_cons] at hfuel
        omega)
      have hholds := hR m t h
      rw [hitems] at hholds
      rw [hashIterFrom.eq_def]
      simp only [List.head?_cons, Option.bind_some, hholds.links.next_eq, List.foldlM_cons]
      have ha : a ∈ items := hitems ▸ List.mem_append_right front List.mem_cons_self
      refine (hbody a ha m t h).bind fun m' t' h' => ?_
      have hsplit : items = (front ++ [a]) ++ rest := by rw [hitems]; simp
      have hrest := ih hsplit (Nat.le_of_succ_le_succ hfuel) h'
      cases rest with
      | nil => exact hrest
      | cons b rest =>
          have hb : b ∈ (htbl m').live := by
            refine (hR m' t' h').live b ?_
            rw [hitems]
            exact List.mem_append_right front (List.mem_cons_of_mem a List.mem_cons_self)
          simp only [List.head?_cons, deref_of_mem hb]
          exact hrest

/-- The loop visits the elements in the order they have been added in, as long as the body keeps the
table. -/
theorem refines_hashIter (fault : UtHashFault → φ)
    (hR : ∀ m t, R m t → Holds keyOf hashFcn (htbl m) items)
    (hbody : ∀ p ∈ items, ∀ m t, R m t → Refines R F stuck (body p m) (visit t p)) {m : σ} {t : τ}
    (h : R m t) :
    Refines R F stuck (hashIter htbl fault body m) (items.foldlM visit t) := by
  have hholds := hR m t h
  have hloop : Refines R F stuck _ _ := refines_hashIterFrom fault hR hbody
    (List.nil_append items).symm (length_le_card hholds.nodup hholds.live) h
  rw [hashIter, hholds.head]
  cases items with
  | nil => exact .ok h
  | cons a rest =>
      simp only [List.head?_cons, deref_of_mem (hholds.live a List.mem_cons_self)]
      exact hloop

end Iter

/-! ### Checking -/

/-- By induction on the elements that are left. -/
theorem fsckList_eq {next prev : Nat → Option Nat} (oops : Option Nat → Option Nat → HashOops)
    (front : List Nat) {rest : List Nat} {fuel : Nat} (h : DoublyLinked next prev (front ++ rest))
    (hlive : ∀ b ∈ rest, b ∈ s.live) (hfuel : rest.length ≤ fuel) (count : UInt32) :
    fsckList next prev oops s fuel front.getLast? rest.head? count =
      .ok (count + UInt32.ofNat rest.length) := by
  induction rest generalizing front fuel count with
  | nil =>
      rw [fsckList.eq_def]
      exact congrArg Except.ok (UInt32.add_zero count).symm
  | cons a rest ih =>
      obtain ⟨fuel, rfl⟩ := Nat.exists_eq_succ_of_ne_zero (n := fuel) (by
        rw [List.length_cons] at hfuel
        omega)
      have hsplit : front ++ a :: rest = (front ++ [a]) ++ rest := by simp
      have hrest := ih (front ++ [a]) (hsplit ▸ h)
        (fun b hb => hlive b (List.mem_cons_of_mem a hb)) (Nat.le_of_succ_le_succ hfuel) (count + 1)
      rw [List.getLast?_concat] at hrest
      rw [fsckList.eq_def]
      simp only [List.head?_cons, deref_of_mem (hlive a List.mem_cons_self), ok_bind, h.next_eq,
        h.prev_eq, ne_eq, not_true_eq_false, if_false]
      rw [hrest, List.length_cons, UInt32.ofNat_add, UInt32.add_assoc,
        UInt32.add_comm (UInt32.ofNat rest.length)]
      rfl

theorem countP_lt_succ {α : Type} (f : α → Nat) (k : Nat) (l : List α) :
    (l.countP fun a => decide (f a < k)) + (l.countP fun a => decide (f a = k)) =
      l.countP fun a => decide (f a < k + 1) := by
  induction l with
  | nil => rfl
  | cons a l ih =>
      simp only [List.countP_cons, decide_eq_true_iff]
      split_ifs <;> omega

/-- By induction on the number of buckets that have been checked, whose chains have the elements
that are hashed to them. -/
theorem fsckBuckets_eq (h : Bucketed s tbl {a | a ∈ items}) (hlive : ∀ a ∈ items, a ∈ s.live)
    (hnodup : items.Nodup) (hk : k ≤ tbl.numBuckets.toNat) :
    (List.range k).foldlM (fsckBucket s tbl) 0 =
      .ok (UInt32.ofNat
        (items.countP fun a => decide (hashToBkt (s.hashv a) tbl.numBuckets < k))) := by
  induction k with
  | zero => exact congrArg Except.ok (by simp)
  | succ k ih =>
      have hlt : k < tbl.buckets.length := by
        rw [h.length]
        exact hk
      have hbkt := List.getElem?_eq_getElem hlt
      obtain ⟨chain, hchain, hmem⟩ := h.inBuckets k _ hbkt
      have hchainLive : ∀ b ∈ chain, b ∈ s.live := fun b hb => hlive b ((hmem b).mp hb).1
      have hcount : chain.length =
          items.countP fun a => decide (hashToBkt (s.hashv a) tbl.numBuckets = k) := by
        rw [List.countP_eq_length_filter]
        refine (List.Perm.length_eq ?_)
        rw [List.perm_ext_iff_of_nodup hchain.nodup (hnodup.filter _)]
        intro a
        rw [hmem, List.mem_filter, decide_eq_true_iff]
        rfl
      have hfsck : fsckChain s tbl.buckets[k].hhHead = .ok (UInt32.ofNat chain.length) := by
        rw [hchain.head]
        have hlist := fsckList_eq .hhPrev [] hchain.links hchainLive
          (length_le_card hchain.nodup hchainLive) 0
        rwa [UInt32.zero_add] at hlist
      rw [List.range_succ, List.foldlM_append, ih (Nat.le_of_succ_le hk)]
      simp only [ok_bind, List.foldlM_cons, List.foldlM_nil, fsckBucket, bucketAt_of_some hbkt,
        hfsck, hchain.count, ne_eq, not_true_eq_false, if_false]
      rw [hcount, ← UInt32.ofNat_add, countP_lt_succ]
      rfl

/-- Nothing is wrong with the table. -/
theorem hashFsck_spec (h : Holds keyOf hashFcn s items) : hashFsck s = .ok () := by
  rw [hashFsck, h.head]
  cases hitems : items with
  | nil => rfl
  | cons a rest =>
      have ha : a ∈ items := hitems ▸ List.mem_cons_self
      obtain ⟨tbl, htable, hholds⟩ := h.table_ok ha
      have hloop := fsckBuckets_eq hholds.buckets h.live h.nodup le_rfl
      have happ : fsckApp s = .ok (UInt32.ofNat items.length) := by
        have hlist := fsckList_eq .prev [] h.links h.live
          (length_le_card h.nodup h.live) 0
        rw [fsckApp, h.head]
        rwa [UInt32.zero_add] at hlist
      have hall : (items.countP fun a => decide (hashToBkt (s.hashv a) tbl.numBuckets <
          tbl.numBuckets.toNat)) = items.length := by
        rw [List.countP_eq_length]
        intro b _
        exact decide_eq_true (hashToBkt_lt _ hholds.buckets.numBuckets)
      simp only [List.head?_cons, htable, ok_bind, hloop, hall, happ, hholds.numItems, ne_eq,
        not_true_eq_false, if_false]

end Specs

end ParcoachRma
