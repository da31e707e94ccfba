import Mathlib

/-!
# Symbol tables with unique names

A table gives each symbol a name, and no two symbols the same.  A symbol that is to take a name
which is in use gets that name with a number behind it, and so misses the one it was to have.

`Evolves.rename` and `Evolves.insert`: while symbols are renamed by rules and others are added, each
old symbol has its first name, or the one the rules give it, or a variant of that if the name was
taken from the start.
-/

/-- The names of the symbols, by number. -/
structure SymbolTable where
  names : List String
  unique : names.Nodup

namespace SymbolTable

variable {t : SymbolTable} {i j : Nat} {m n : String}

def name? (t : SymbolTable) (i : Nat) : Option String := t.names[i]?

theorem mem_names_iff : n ∈ t.names ↔ ∃ i, t.name? i = some n := List.mem_iff_getElem?

/-- A name belongs to one symbol. -/
theorem name?_inj (hi : t.name? i = some n) (hj : t.name? j = some n) : i = j := by
  obtain ⟨hilt, hival⟩ := List.getElem?_eq_some_iff.mp hi
  obtain ⟨hjlt, hjval⟩ := List.getElem?_eq_some_iff.mp hj
  exact (t.unique.getElem_inj_iff).mp (hival.trans hjval.symm)

/-! ## Variants of a name -/

/-- The bytes of a name. -/
def bytesOf (s : String) : List UInt8 := s.toByteArray.data.toList

theorem bytesOf_append (s s' : String) : bytesOf (s ++ s') = bytesOf s ++ bytesOf s' := by
  simp [bytesOf]

/-- The name has a dot. -/
def Dotted (n : String) : Prop := 46 ∈ bytesOf n

instance (n : String) : Decidable (Dotted n) := inferInstanceAs (Decidable (46 ∈ bytesOf n))

/-- The name with a number behind it. -/
def variant (base : String) (k : Nat) : String := base ++ "." ++ k.repr

theorem variant_injective (base : String) : Function.Injective (variant base) := by
  intro k l h
  exact Nat.repr_injective ((String.append_right_inj (base ++ ".")).mp h)

theorem exists_variant_notMem (t : SymbolTable) (base : String) :
    ∃ k, variant base k ∉ t.names := by
  obtain ⟨k, hk⟩ := Infinite.exists_notMem_finset
    (t.names.toFinset.preimage (variant base) (variant_injective base).injOn)
  refine ⟨k, fun hmem => hk ?_⟩
  exact Finset.mem_preimage.mpr (List.mem_toFinset.mpr hmem)

/-- The first variant that is not in use. -/
def uniqueName (t : SymbolTable) (base : String) : String :=
  variant base (Nat.find (t.exists_variant_notMem base))

theorem uniqueName_notMem (t : SymbolTable) (base : String) : t.uniqueName base ∉ t.names :=
  Nat.find_spec (t.exists_variant_notMem base)

/-- A variant has a dot. -/
theorem dotted_variant (base : String) (k : Nat) : Dotted (variant base k) := by
  have hdot : (46 : UInt8) ∈ bytesOf "." := by decide
  rw [Dotted, variant, bytesOf_append, bytesOf_append]
  simp [hdot]

/-! ## Renaming and adding -/

/-- Give the symbol the name, or a variant of it if another symbol has the name. -/
def setName (t : SymbolTable) (i : Nat) (name : String) : SymbolTable :=
  if t.name? i = some name then t
  else if hname : name ∈ t.names then
    ⟨t.names.set i (t.uniqueName name), t.unique.set (t.uniqueName_notMem name)⟩
  else ⟨t.names.set i name, t.unique.set hname⟩

theorem name?_setName_ne (h : i ≠ j) : (t.setName i n).name? j = t.name? j := by
  unfold setName
  split_ifs
  · rfl
  · exact List.getElem?_set_ne h
  · exact List.getElem?_set_ne h

theorem name?_setName_self (hi : t.name? i = some m) (hne : m ≠ n) :
    (t.setName i n).name? i = some (if n ∈ t.names then t.uniqueName n else n) := by
  obtain ⟨hlt, -⟩ := List.getElem?_eq_some_iff.mp hi
  have hown : t.name? i ≠ some n := fun h => hne (Option.some.inj (hi.symm.trans h))
  unfold setName
  rw [if_neg hown]
  split_ifs
  · exact List.getElem?_set_self hlt
  · exact List.getElem?_set_self hlt

/-- The symbol of a name, which is added to the table if there is none. -/
def getOrInsert (t : SymbolTable) (name : String) : SymbolTable × Nat :=
  if hname : name ∈ t.names then (t, t.names.idxOf name)
  else
    (⟨t.names ++ [name], List.nodup_append.mpr ⟨t.unique, List.nodup_singleton name,
      fun _ hm _ hn => by rw [List.mem_singleton.mp hn]; exact ne_of_mem_of_not_mem hm hname⟩⟩,
      t.names.length)

theorem name?_getOrInsert_self (t : SymbolTable) (name : String) :
    (t.getOrInsert name).1.name? (t.getOrInsert name).2 = some name := by
  unfold getOrInsert name?
  split_ifs with hname
  · exact List.getElem?_eq_some_iff.mpr ⟨List.idxOf_lt_length_iff.mpr hname, List.getElem_idxOf _⟩
  · simp

theorem name?_getOrInsert (hi : t.name? i = some m) (name : String) :
    (t.getOrInsert name).1.name? i = some m := by
  unfold getOrInsert
  split_ifs with hname
  · exact hi
  · obtain ⟨hlt, -⟩ := List.getElem?_eq_some_iff.mp hi
    exact (List.getElem?_append_left hlt).trans hi

/-- The only symbol that is added is the one of the name. -/
theorem eq_of_name?_getOrInsert {name : String} (hnone : t.name? i = none)
    (hi : (t.getOrInsert name).1.name? i = some m) : m = name := by
  unfold getOrInsert at hi
  split_ifs at hi with hname
  · rw [hnone] at hi
    cases hi
  · have hle : t.names.length ≤ i := List.getElem?_eq_none_iff.mp hnone
    have hmem : m ∈ [name] :=
      List.mem_of_getElem? ((List.getElem?_append_right hle).symm.trans hi)
    exact List.mem_singleton.mp hmem

end SymbolTable

/-! ## Renaming rules -/

/-- Rules that rename some names, none of them to one that is renamed in turn, and the names of the
symbols that are added meanwhile. -/
structure RenameRules where
  target : String → Option String
  added : List String
  inj : ∀ {m n w}, target m = some w → target n = some w → m = n
  final : ∀ {n w}, target n = some w → target w = none
  noDot : ∀ {n w}, target n = some w → ¬ SymbolTable.Dotted w
  dot : ∀ {n}, SymbolTable.Dotted n → target n = none
  target_added : ∀ n ∈ added, target n = none
  notMem_added : ∀ {n w}, target n = some w → w ∉ added

namespace SymbolTable

/-- A name that a symbol has after it was to be renamed to `w`. -/
def RenamedTo (t₀ : SymbolTable) (w n : String) : Prop :=
  if w ∈ t₀.names then Dotted n else n = w

theorem RenamedTo.dotted_or_eq {t₀ : SymbolTable} {w n : String} (h : t₀.RenamedTo w n) :
    Dotted n ∨ n = w := by
  unfold RenamedTo at h
  split_ifs at h
  · exact .inl h
  · exact .inr h

/-- The table comes from `t₀` by renaming the symbols in `done` and adding symbols. -/
structure Evolves (rules : RenameRules) (t₀ t : SymbolTable) (done : Set Nat) : Prop where
  kept : ∀ {i n}, t₀.name? i = some n → i ∉ done → t.name? i = some n
  renamed : ∀ {i n}, t₀.name? i = some n → i ∈ done → ∃ w, rules.target n = some w ∧
    ∃ n', t.name? i = some n' ∧ t₀.RenamedTo w n'
  new : ∀ {i n}, t.name? i = some n → t₀.name? i = none → n ∈ rules.added

/-- Rename a symbol by a part of the rules. -/
def rename (rule : String → Option String) (i : Nat) (t : SymbolTable) : SymbolTable :=
  match (t.name? i).bind rule with
  | some w => t.setName i w
  | none => t

/-- Symbols whose names the rules leave alone keep them. -/
def Keeps (rules : RenameRules) (t t' : SymbolTable) : Prop :=
  ∀ i n, t.name? i = some n → rules.target n = none → t'.name? i = some n

namespace Keeps

variable {rules : RenameRules} {t t' t'' : SymbolTable}

theorem refl : Keeps rules t t := fun _ _ hi _ => hi

theorem trans (h : Keeps rules t t') (h' : Keeps rules t' t'') : Keeps rules t t'' :=
  fun i n hi hn => h' i n (h i n hi hn) hn

theorem rename {rule : String → Option String}
    (hrule : ∀ {n w}, rule n = some w → rules.target n = some w) (i : Nat) :
    Keeps rules t (t.rename rule i) := by
  intro j n hj hn
  unfold SymbolTable.rename
  rcases hname : (t.name? i).bind rule with - | w
  · exact hj
  · obtain ⟨m, hm, hw⟩ := Option.bind_eq_some_iff.mp hname
    have hij : i ≠ j := by
      rintro rfl
      obtain rfl := Option.some.inj (hm.symm.trans hj)
      rw [hrule hw] at hn
      cases hn
    exact (name?_setName_ne hij).trans hj

theorem getOrInsert (name : String) : Keeps rules t (t.getOrInsert name).1 :=
  fun _ _ hi _ => name?_getOrInsert hi name

end Keeps

namespace Evolves

variable {rules : RenameRules} {t₀ t : SymbolTable} {done : Set Nat}
  {i : Nat} {n w : String}

theorem refl : Evolves rules t₀ t₀ ∅ where
  kept h _ := h
  renamed _ h := absurd h (Set.notMem_empty _)
  new h hnone := by rw [h] at hnone; cases hnone

theorem target_of_renamedTo {n' : String} (htarget : rules.target n = some w)
    (h : t₀.RenamedTo w n') : rules.target n' = none := by
  rcases h.dotted_or_eq with hdot | rfl
  · exact rules.dot hdot
  · exact rules.final htarget

/-- While a symbol has not been renamed, its new name is in use only if it was from the start. -/
theorem mem_names_iff (h : Evolves rules t₀ t done)
    (hi : t₀.name? i = some n) (hdone : i ∉ done) (htarget : rules.target n = some w) :
    w ∈ t.names ↔ w ∈ t₀.names := by
  rw [SymbolTable.mem_names_iff, SymbolTable.mem_names_iff]
  constructor
  · intro hparts
    rcases hparts with ⟨j, hj⟩
    rcases hj₀ : t₀.name? j with - | m
    · exact absurd (h.new hj hj₀) (rules.notMem_added htarget)
    · by_cases hjdone : j ∈ done
      · obtain ⟨v, hv, n', hn', hren⟩ := h.renamed hj₀ hjdone
        obtain rfl : n' = w := Option.some.inj (hn'.symm.trans hj)
        rcases hren.dotted_or_eq with hdot | rfl
        · exact absurd hdot (rules.noDot htarget)
        · -- Only one name is renamed to it.
          obtain rfl := rules.inj hv htarget
          exact absurd (t₀.name?_inj hj₀ hi ▸ hjdone) hdone
      · exact ⟨j, (h.kept hj₀ hjdone).symm.trans hj ▸ hj₀⟩
  · intro hparts
    rcases hparts with ⟨j, hj⟩
    refine ⟨j, h.kept hj fun hjdone => ?_⟩
    obtain ⟨v, hv, -⟩ := h.renamed hj hjdone
    rw [rules.final htarget] at hv
    cases hv

/-- The name that `setName` gives. -/
theorem renamedTo_setName (hmem : w ∈ t.names ↔ w ∈ t₀.names) :
    t₀.RenamedTo w (if w ∈ t.names then t.uniqueName w else w) := by
  simp only [RenamedTo, hmem]
  split_ifs with hw
  · exact dotted_variant w _
  · rfl

/-- A symbol is renamed. -/
theorem rename (h : Evolves rules t₀ t done) {rule : String → Option String}
    (hrule : ∀ {n w}, rule n = some w → rules.target n = some w) (i : Nat) :
    Evolves rules t₀ (t.rename rule i)
      {j | j ∈ done ∨ j = i ∧ ∃ n w, t₀.name? i = some n ∧ rule n = some w} := by
  unfold SymbolTable.rename
  rcases hname : (t.name? i).bind rule with - | w
  · -- The rule does not apply to the name the symbol has.
    have hsame : {j | j ∈ done ∨ j = i ∧ ∃ n w, t₀.name? i = some n ∧ rule n = some w} = done := by
      ext j
      refine ⟨?_, .inl⟩
      intro hcase
      rcases hcase with hj | ⟨rfl, n, w, hn, hw⟩
      · exact hj
      · by_contra hdone
        rw [h.kept hn hdone] at hname
        exact absurd (hname.symm.trans hw) (by simp)
    rwa [hsame]
  · obtain ⟨n, hn, hw⟩ := Option.bind_eq_some_iff.mp hname
    have htarget := hrule hw
    rcases hi : t₀.name? i with - | m
    · rw [rules.target_added n (h.new hn hi)] at htarget
      cases htarget
    · by_cases hdone : i ∈ done
      · obtain ⟨v, hv, n', hn', hren⟩ := h.renamed hi hdone
        obtain rfl := Option.some.inj (hn'.symm.trans hn)
        rw [target_of_renamedTo hv hren] at htarget
        cases htarget
      · obtain rfl : n = m := Option.some.inj (hn.symm.trans (h.kept hi hdone))
        have hne : n ≠ w := by
          rintro rfl
          rw [rules.final htarget] at htarget
          cases htarget
        have hself := name?_setName_self hn hne
        refine ⟨fun {j k} hj hjdone => ?_, fun {j k} hj hjdone => ?_, fun {j k} hj hnone => ?_⟩
        · have hji : i ≠ j := fun heq => hjdone (.inr ⟨heq.symm, n, w, rfl, hw⟩)
          rw [name?_setName_ne hji]
          exact h.kept hj fun hmem => hjdone (.inl hmem)
        · by_cases hji : i = j
          · subst hji
            obtain rfl := Option.some.inj (hi.symm.trans hj)
            exact ⟨w, htarget, _, hself, renamedTo_setName (h.mem_names_iff hi hdone htarget)⟩
          · obtain ⟨v, hv, n', hn', hren⟩ :=
              h.renamed hj (hjdone.resolve_right fun hr => hji hr.1.symm)
            exact ⟨v, hv, n', (name?_setName_ne hji).trans hn', hren⟩
        · by_cases hji : i = j
          · subst hji
            rw [hnone] at hi
            cases hi
          · exact h.new ((name?_setName_ne hji).symm.trans hj) hnone

/-- A symbol is added. -/
theorem insert (h : Evolves rules t₀ t done) {name : String} (hname : name ∈ rules.added) :
    Evolves rules t₀ (t.getOrInsert name).1 done where
  kept hi hdone := name?_getOrInsert (h.kept hi hdone) name
  renamed hi hdone := by
    obtain ⟨w, hw, n', hn', hren⟩ := h.renamed hi hdone
    exact ⟨w, hw, n', name?_getOrInsert hn' name, hren⟩
  new {i n} hi hnone := by
    rcases ht : t.name? i with - | m
    · rw [eq_of_name?_getOrInsert ht hi]
      exact hname
    · rw [name?_getOrInsert ht name] at hi
      rw [← Option.some.inj hi]
      exact h.new ht hnone

/-- A test that no name of the rules passes, nor one with a dot, has the result it had at first. -/
theorem bind_name? {α : Type} (h : Evolves rules t₀ t done) {test : String → Option α}
    (hrules : ∀ {n w}, rules.target n = some w → test n = none ∧ test w = none)
    (hdot : ∀ {n}, Dotted n → test n = none) (hi : t₀.name? i = some n) :
    (t.name? i).bind test = test n := by
  by_cases hdone : i ∈ done
  · obtain ⟨w, hw, n', hn', hren⟩ := h.renamed hi hdone
    rw [hn', Option.bind_some, (hrules hw).1]
    rcases hren.dotted_or_eq with hdotted | rfl
    · exact hdot hdotted
    · exact (hrules hw).2
  · rw [h.kept hi hdone, Option.bind_some]

end Evolves

end SymbolTable
