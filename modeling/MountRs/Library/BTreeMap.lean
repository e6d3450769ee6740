import Mathlib.Data.List.Lemmas
import Mathlib.Data.List.Count
import Mathlib.Data.Finset.Dedup
import Mathlib.Order.Lattice
import Mathlib.Tactic

/-! # Ordered maps and sets

An ordered map is the list of its bindings in strictly increasing key order, so
two maps with the same lookups are equal, iteration visits the keys in order,
and closed terms evaluate. An ordered set is a map to `Unit`. -/

/-- A finite map, stored as its bindings in strictly increasing key order. -/
structure BTreeMap (κ : Type*) [LinearOrder κ] (β : Type*) where
  entries : List (κ × β)
  sorted : entries.Pairwise (fun a b => a.1 < b.1)

open List

namespace BTreeMap

variable {κ : Type*} [LinearOrder κ] {β γ : Type*}

instance [DecidableEq β] : DecidableEq (BTreeMap κ β) := fun m n =>
  decidable_of_iff (m.entries = n.entries) (by
    cases m
    cases n
    simp)

def empty : BTreeMap κ β := ⟨[], List.Pairwise.nil⟩

instance : EmptyCollection (BTreeMap κ β) := ⟨empty⟩

instance : Inhabited (BTreeMap κ β) := ⟨empty⟩

variable (m : BTreeMap κ β)

def get? (k : κ) : Option β :=
  (m.entries.find? (fun e => decide (e.1 = k))).map Prod.snd

def contains (k : κ) : Bool := (m.get? k).isSome

def keys : List κ := m.entries.map Prod.fst

def values : List β := m.entries.map Prod.snd

def size : ℕ := m.entries.length

/-- Put a binding at its place in an ordered list, replacing one of the same key. -/
def insertEntry (k : κ) (v : β) : List (κ × β) → List (κ × β)
  | [] => [(k, v)]
  | e :: rest =>
    if k < e.1 then (k, v) :: e :: rest
    else if k = e.1 then (k, v) :: rest
    else e :: insertEntry k v rest

variable {m} {k : κ} {v : β}

theorem mem_insertEntry_fst {l : List (κ × β)} {e : κ × β}
    (h : e ∈ insertEntry k v l) : e.1 = k ∨ e ∈ l := by
  induction l with
  | nil =>
    simp only [insertEntry, mem_singleton] at h
    exact .inl (by rw [h])
  | cons f rest ih =>
    simp only [insertEntry] at h
    split_ifs at h
    · rcases mem_cons.mp h with rfl | h
      · exact .inl rfl
      · exact .inr h
    · rcases mem_cons.mp h with rfl | h
      · exact .inl rfl
      · exact .inr (mem_cons_of_mem _ h)
    · rcases mem_cons.mp h with rfl | h
      · exact .inr mem_cons_self
      · exact (ih h).imp_right (mem_cons_of_mem _)

theorem insertEntry_sorted (k : κ) (v : β) {l : List (κ × β)}
    (h : l.Pairwise (fun a b => a.1 < b.1)) :
    (insertEntry k v l).Pairwise (fun a b => a.1 < b.1) := by
  induction l with
  | nil => simp [insertEntry]
  | cons f rest ih =>
    obtain ⟨hf, hrest⟩ := pairwise_cons.mp h
    simp only [insertEntry]
    split_ifs with hlt heq
    · refine pairwise_cons.mpr ⟨?_, h⟩
      intro e he
      rcases mem_cons.mp he with rfl | he
      · exact hlt
      · exact hlt.trans (hf e he)
    · refine pairwise_cons.mpr ⟨?_, hrest⟩
      intro e he
      simpa [heq] using hf e he
    · refine pairwise_cons.mpr ⟨?_, ih hrest⟩
      intro e he
      rcases mem_insertEntry_fst he with hk | he
      · rw [hk]
        exact lt_of_le_of_ne (le_of_not_gt hlt) (.symm heq)
      · exact hf e he

variable (m)

def insert (k : κ) (v : β) : BTreeMap κ β :=
  ⟨insertEntry k v m.entries, insertEntry_sorted k v m.sorted⟩

def erase (k : κ) : BTreeMap κ β :=
  ⟨m.entries.filter (fun e => decide (e.1 ≠ k)), m.sorted.filter _⟩

/-- Replace the value of a present key; absent keys stay absent. -/
def modify (k : κ) (f : β → β) : BTreeMap κ β :=
  ⟨m.entries.map (fun e => if e.1 = k then (e.1, f e.2) else e), by
    refine List.pairwise_map.mpr (m.sorted.imp ?_)
    intro a b hab
    split_ifs <;> exact hab⟩

/-- Replace every value. -/
def mapValues (f : β → β) : BTreeMap κ β :=
  ⟨m.entries.map (fun e => (e.1, f e.2)), List.pairwise_map.mpr m.sorted⟩

/-- Keep the bindings that satisfy a predicate. -/
def retain (p : κ → β → Bool) : BTreeMap κ β :=
  ⟨m.entries.filter (fun e => p e.1 e.2), m.sorted.filter _⟩

variable {m}

/-- Build a map from bindings in any order; a later binding of a key wins. -/
def ofList (l : List (κ × β)) : BTreeMap κ β :=
  l.foldl (fun m e => m.insert e.1 e.2) empty

/-! ## Lookup -/

theorem get?_eq_some_iff : m.get? k = some v ↔ (k, v) ∈ m.entries := by
  obtain ⟨l, hl⟩ := m
  simp only [get?]
  induction l with
  | nil => simp
  | cons e rest ih =>
    obtain ⟨he, hrest⟩ := pairwise_cons.mp hl
    by_cases hk : e.1 = k
    · have hnot : (k, v) ∉ rest := by
        intro hm
        exact absurd (he _ hm) (by simp [hk])
      simp only [find?_cons, hk, decide_true, Option.map_some, Option.some.injEq,
        mem_cons, hnot, or_false]
      constructor
      · rintro rfl
        exact Prod.ext hk.symm rfl
      · intro h
        rw [← h]
    · have hne : (k, v) ≠ e := by
        rintro rfl
        exact hk rfl
      simp only [find?_cons, hk, decide_false, mem_cons, hne, false_or]
      exact ih hrest

theorem get?_eq_none_iff : m.get? k = none ↔ k ∉ m.keys := by
  rw [Option.eq_none_iff_forall_ne_some]
  simp only [ne_eq, get?_eq_some_iff, keys, mem_map, Prod.exists, exists_and_right,
    exists_eq_right, not_exists]

theorem mem_keys_iff : k ∈ m.keys ↔ ∃ v, m.get? k = some v := by
  simp only [get?_eq_some_iff, keys, mem_map, Prod.exists, exists_and_right, exists_eq_right]

theorem contains_iff : m.contains k = true ↔ k ∈ m.keys := by
  rw [contains, Option.isSome_iff_exists, mem_keys_iff]

theorem mem_values_iff : v ∈ m.values ↔ ∃ k, m.get? k = some v := by
  simp only [get?_eq_some_iff, values, mem_map, Prod.exists, exists_eq_right]

variable (m)

theorem keys_sorted : m.keys.Pairwise (· < ·) :=
  pairwise_map.mpr m.sorted

theorem keys_nodup : m.keys.Nodup :=
  m.keys_sorted.imp fun h => h.ne

theorem entries_nodup : m.entries.Nodup :=
  m.keys_nodup.of_map

variable {m}

/-- Lookups determine the map. -/
theorem ext_get? {m n : BTreeMap κ β} (h : ∀ k, m.get? k = n.get? k) : m = n := by
  have hperm : m.entries.Perm n.entries := by
    refine (perm_ext_iff_of_nodup m.entries_nodup n.entries_nodup).mpr ?_
    rintro ⟨k, v⟩
    rw [← get?_eq_some_iff, ← get?_eq_some_iff, h k]
  have heq : m.entries = n.entries :=
    hperm.eq_of_pairwise (fun a b _ _ hab hba => absurd (hab.trans hba) (lt_irrefl _))
      m.sorted n.sorted
  cases m
  cases n
  simpa using heq

@[simp] theorem get?_empty (k : κ) : (∅ : BTreeMap κ β).get? k = none := rfl

@[simp] theorem entries_empty : (∅ : BTreeMap κ β).entries = [] := rfl

@[simp] theorem keys_empty : (∅ : BTreeMap κ β).keys = [] := rfl

@[simp] theorem values_empty : (∅ : BTreeMap κ β).values = [] := rfl

@[simp] theorem size_empty : (∅ : BTreeMap κ β).size = 0 := rfl

/-! ## Updates -/

theorem find?_insertEntry (k : κ) (v : β) (l : List (κ × β)) (j : κ) :
    ((insertEntry k v l).find? (fun e => decide (e.1 = j))).map Prod.snd =
      if j = k then some v else (l.find? (fun e => decide (e.1 = j))).map Prod.snd := by
  induction l with
  | nil =>
    by_cases h : j = k
    · simp [insertEntry, h]
    · simp [insertEntry, h, Ne.symm h]
  | cons e rest ih =>
    by_cases hj : j = k
    · subst hj
      rw [if_pos rfl] at ih ⊢
      simp only [insertEntry]
      split_ifs with hlt heq
      · simp
      · simp
      · have hne : ¬ e.1 = j := fun h => heq h.symm
        simpa only [find?_cons, hne, decide_false] using ih
    · have hkj : ¬ k = j := fun h => hj h.symm
      rw [if_neg hj] at ih ⊢
      simp only [insertEntry]
      split_ifs with hlt heq
      · simp [find?_cons, hkj]
      · have hej : ¬ e.1 = j := by
          rw [← heq]
          exact hkj
        simp [hkj, hej]
      · by_cases hej : e.1 = j
        · simp [hej]
        · simpa [find?_cons, hej] using ih

variable (m)

theorem get?_insert (k j : κ) (v : β) :
    (m.insert k v).get? j = if j = k then some v else m.get? j :=
  find?_insertEntry k v m.entries j

@[simp] theorem get?_insert_self (k : κ) (v : β) : (m.insert k v).get? k = some v := by
  simp [get?_insert]

variable {k j : κ}

theorem get?_insert_of_ne (v : β) (h : j ≠ k) : (m.insert k v).get? j = m.get? j := by
  simp [get?_insert, h]

variable {m} in
theorem get?_insert_eq_some {v w : β}
    (h : (m.insert k v).get? j = some w) : j = k ∧ w = v ∨ j ≠ k ∧ m.get? j = some w := by
  rw [get?_insert] at h
  split_ifs at h with hjk
  · exact .inl ⟨hjk, (Option.some.inj h).symm⟩
  · exact .inr ⟨hjk, h⟩

theorem get?_erase (k j : κ) : (m.erase k).get? j = if j = k then none else m.get? j := by
  by_cases h : j = k
  · subst h
    rw [if_pos rfl, get?_eq_none_iff]
    simp [keys, erase]
  · rw [if_neg h]
    apply Option.ext
    intro v
    simp [get?_eq_some_iff, erase, h]

@[simp] theorem get?_erase_self (k : κ) : (m.erase k).get? k = none := by
  simp [get?_erase]

theorem get?_erase_of_ne (h : j ≠ k) : (m.erase k).get? j = m.get? j := by
  simp [get?_erase, h]

variable {m}

theorem get?_retain_eq_some {p : κ → β → Bool} :
    (m.retain p).get? k = some v ↔ m.get? k = some v ∧ p k v = true := by
  simp only [get?_eq_some_iff, retain, List.mem_filter]

theorem get?_mapValues (m : BTreeMap κ β) (f : β → β) (k : κ) :
    (m.mapValues f).get? k = (m.get? k).map f := by
  simp only [get?, mapValues, find?_map, Function.comp_def, Option.map_map]

theorem get?_modify (m : BTreeMap κ β) (k j : κ) (f : β → β) :
    (m.modify k f).get? j = if j = k then (m.get? j).map f else m.get? j := by
  obtain ⟨l, hl⟩ := m
  simp only [get?, modify]
  clear hl
  induction l with
  | nil => simp
  | cons e rest ih =>
    simp only [map_cons, find?_cons]
    by_cases hek : e.1 = k
    · by_cases hjk : j = k
      · simp [hek, hjk]
      · have hkj : ¬ k = j := fun h => hjk h.symm
        simpa [hek, hjk, hkj] using ih
    · by_cases hej : e.1 = j
      · have hjk : ¬ j = k := by
          rw [← hej]
          exact hek
        simp [hej, hjk]
      · simpa [hek, hej] using ih

theorem mem_keys_insert : j ∈ (m.insert k v).keys ↔ j = k ∨ j ∈ m.keys := by
  rw [mem_keys_iff, mem_keys_iff]
  by_cases h : j = k
  · simp [h]
  · simp [get?_insert_of_ne, h]

theorem mem_keys_erase : j ∈ (m.erase k).keys ↔ j ≠ k ∧ j ∈ m.keys := by
  rw [mem_keys_iff, mem_keys_iff]
  by_cases h : j = k
  · simp [h]
  · simp [get?_erase_of_ne, h]

/-- Inserting an absent key adds one binding to the multiset of bindings. -/
theorem entries_insert_perm (h : m.get? k = none) (v : β) :
    (m.insert k v).entries.Perm ((k, v) :: m.entries) := by
  have hnodup : ((k, v) :: m.entries).Nodup := by
    refine nodup_cons.mpr ⟨?_, m.entries_nodup⟩
    rw [← get?_eq_some_iff, h]
    simp
  refine (perm_ext_iff_of_nodup (m.insert k v).entries_nodup hnodup).mpr ?_
  rintro ⟨j, w⟩
  rw [← get?_eq_some_iff, get?_insert, mem_cons, ← get?_eq_some_iff]
  by_cases hj : j = k
  · subst hj
    simp [h, eq_comm]
  · simp [hj]

/-- Erasing a present key removes exactly its binding. -/
theorem entries_erase_perm (h : m.get? k = some v) :
    m.entries.Perm ((k, v) :: (m.erase k).entries) := by
  have hnodup : ((k, v) :: (m.erase k).entries).Nodup := by
    refine nodup_cons.mpr ⟨?_, (m.erase k).entries_nodup⟩
    rw [← get?_eq_some_iff]
    simp
  refine (perm_ext_iff_of_nodup m.entries_nodup hnodup).mpr ?_
  rintro ⟨j, w⟩
  rw [← get?_eq_some_iff, mem_cons, ← get?_eq_some_iff, get?_erase]
  by_cases hj : j = k
  · subst hj
    simp [h, eq_comm]
  · simp [hj]

theorem size_insert (h : m.get? k = none) (v : β) : (m.insert k v).size = m.size + 1 := by
  simpa [size] using (entries_insert_perm h v).length_eq

/-- A map has as many bindings as keys. -/
theorem size_eq_card_keys (m : BTreeMap κ β) : m.size = m.keys.toFinset.card := by
  rw [toFinset_card_of_nodup m.keys_nodup]
  simp [size, keys]

end BTreeMap

/-- An ordered set of keys. -/
abbrev BTreeSet (κ : Type*) [LinearOrder κ] := BTreeMap κ Unit

namespace BTreeSet

variable {κ : Type*} [LinearOrder κ]

instance : Membership κ (BTreeSet κ) := ⟨fun s k => k ∈ s.keys⟩

instance (k : κ) (s : BTreeSet κ) : Decidable (k ∈ s) :=
  inferInstanceAs (Decidable (k ∈ s.keys))

variable {s : BTreeSet κ}

theorem mem_def : k ∈ s ↔ k ∈ s.keys := .rfl

def add (s : BTreeSet κ) (k : κ) : BTreeSet κ := BTreeMap.insert s k ()

def addAll (s : BTreeSet κ) (l : List κ) : BTreeSet κ := l.foldl add s

def ofKeys (l : List κ) : BTreeSet κ := addAll ∅ l

/-- The elements that satisfy a predicate, as `filter` followed by `collect`. -/
def filter (s : BTreeSet κ) (p : κ → Bool) : BTreeSet κ :=
  ⟨s.entries.filter (fun e => p e.1), s.sorted.filter _⟩

@[simp] theorem not_mem_empty (k : κ) : k ∉ (∅ : BTreeSet κ) := by
  simp [mem_def]

@[simp] theorem mem_add {k j : κ} : j ∈ s.add k ↔ j = k ∨ j ∈ s :=
  BTreeMap.mem_keys_insert

@[simp] theorem mem_addAll {l : List κ} {j : κ} :
    j ∈ s.addAll l ↔ j ∈ l ∨ j ∈ s := by
  induction l generalizing s with
  | nil => simp [addAll]
  | cons k l ih =>
    have := ih (s := s.add k)
    simp only [addAll, foldl_cons] at this ⊢
    rw [this, mem_add, mem_cons]
    tauto

@[simp] theorem mem_ofKeys {l : List κ} {j : κ} : j ∈ ofKeys l ↔ j ∈ l := by
  simp [ofKeys]

@[simp] theorem mem_filter {p : κ → Bool} {j : κ} :
    j ∈ s.filter p ↔ j ∈ s ∧ p j = true := by
  simp only [mem_def, BTreeMap.keys, filter, mem_map, List.mem_filter]
  constructor
  · rintro ⟨e, ⟨he, hp⟩, rfl⟩
    exact ⟨⟨e, he, rfl⟩, hp⟩
  · rintro ⟨⟨e, he, rfl⟩, hp⟩
    exact ⟨e, ⟨he, hp⟩, rfl⟩

/-- Sets with the same elements are equal. -/
theorem ext {s t : BTreeSet κ} (h : ∀ k, k ∈ s ↔ k ∈ t) : s = t := by
  apply BTreeMap.ext_get?
  intro k
  have hk := h k
  simp only [mem_def, BTreeMap.mem_keys_iff] at hk
  cases hs : s.get? k with
  | some u =>
    obtain ⟨v, hv⟩ := hk.mp ⟨u, hs⟩
    rw [hv]
  | none =>
    cases ht : t.get? k with
    | none => rfl
    | some v =>
      obtain ⟨u, hu⟩ := hk.mpr ⟨v, ht⟩
      rw [hs] at hu
      cases hu

end BTreeSet
