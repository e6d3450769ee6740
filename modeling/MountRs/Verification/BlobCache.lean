import MountRs.Model.BlobCache

/-! # Insertion of blobs into memory -/

namespace MountRs.BlobCache.State

open BTreeMap

variable {κ : Type} [LinearOrder κ] {config : LocalCacheConfig} {state : State κ} {key : κ}
  {bytes : List UInt8} {entry : Entry}

theorem getMemorySharedHashed_fst :
    (state.getMemorySharedHashed key).1 = (state.entries.get? key).bind Entry.bytes := by
  unfold getMemorySharedHashed
  dsimp only
  cases state.entries.get? key <;> rfl

theorem get?_of_mem_byTick {candidate : Entry → Bool} {old : κ × Entry}
    (h : old ∈ state.byTick candidate) :
    state.entries.get? old.1 = some old.2 ∧ candidate old.2 = true := by
  rw [byTick, List.mem_insertionSort, List.mem_filter] at h
  exact ⟨get?_eq_some_iff.2 h.1, h.2⟩

/-- The loop leaves the entries alone that are not among the candidates. -/
theorem get?_evictWhile (full : State κ → Bool) {olds : List (κ × Entry)}
    (h : ∀ old ∈ olds, old.1 ≠ key) (state : State κ) :
    (evictWhile full dropBytes olds state).entries.get? key = state.entries.get? key := by
  induction olds generalizing state with
  | nil => rfl
  | cons old olds ih =>
    rw [evictWhile]
    split_ifs
    · rw [ih fun other hother => h other (.tail _ hother)]
      have hne : key ≠ old.1 := (h old List.mem_cons_self).symm
      unfold dropBytes
      dsimp only
      split_ifs
      · exact get?_insert_of_ne _ _ hne
      · exact get?_erase_of_ne _ hne
    · rfl

theorem admitShared_absent (hsize : bytes.length ≤ config.memoryBytes)
    (hget : state.entries.get? key = some entry) (hentry : entry.bytes = none) :
    ((state.admitShared config key bytes).getMemorySharedHashed key).1 = some bytes := by
  have hkept := fun full => get?_evictWhile full (fun old hold hkey => by
    obtain ⟨hold, hresident⟩ := get?_of_mem_byTick hold
    rw [hkey, hget] at hold
    cases hold
    simp [hentry] at hresident : ∀ old ∈ state.byTick fun entry => entry.bytes.isSome, _) state
  rw [getMemorySharedHashed_fst, admitShared, if_neg (not_lt.2 hsize)]
  dsimp only
  rw [hkept, hget]
  dsimp only
  rw [if_pos hentry, get?_insert_self]
  rfl

/-! ### The blobs that leave memory -/

/-- The candidates that an eviction loop drops. -/
def dropped (full : State κ → Bool) (drop : State κ → κ × Entry → State κ) :
    List (κ × Entry) → State κ → List (κ × Entry)
  | [], _ => []
  | old :: rest, state => if full state then old :: dropped full drop rest (drop state old) else []

/-- The blobs that the admission of `bytes` drops from memory. -/
def evictedBlobs (config : LocalCacheConfig) (state : State κ) (bytes : List UInt8) :
    List (κ × Entry) :=
  dropped (fun state => config.memoryBytes - state.memory < bytes.length) dropBytes
    (state.byTick fun entry => entry.bytes.isSome) state

theorem evictWhile_of_dropped {full : State κ → Bool} {drop : State κ → κ × Entry → State κ}
    {olds : List (κ × Entry)} (h : dropped full drop olds state = []) :
    evictWhile full drop olds state = state := by
  cases olds with
  | nil => rfl
  | cons old rest =>
    rw [dropped] at h
    rw [evictWhile]
    split_ifs at h ⊢
    rfl

theorem evictedBlobs_eq_nil_iff (hget : state.entries.get? key = some entry)
    (hentry : entry.bytes ≠ none) :
    state.evictedBlobs config bytes = [] ↔ bytes.length ≤ config.memoryBytes - state.memory := by
  -- The blob itself is a candidate, so the loop looks at the budget at least once.
  have hmem : (key, entry) ∈ state.byTick fun entry => entry.bytes.isSome := by
    rw [byTick, List.mem_insertionSort, List.mem_filter]
    exact ⟨get?_eq_some_iff.1 hget, Option.isSome_iff_ne_none.2 hentry⟩
  unfold evictedBlobs
  cases h : state.byTick fun entry => entry.bytes.isSome with
  | nil => simp [h] at hmem
  | cons old rest => simp [dropped]

theorem admitShared_resident (hnone : state.evictedBlobs config bytes = [])
    (hget : state.entries.get? key = some entry) (hentry : entry.bytes ≠ none) :
    state.admitShared config key bytes = state := by
  unfold admitShared
  split_ifs
  · rfl
  · rw [evictWhile_of_dropped hnone]
    simp [hget, hentry]

/-! ### The slots of the index -/

/-- The loop that removes entries stops below the limit if it may remove enough of them. -/
theorem evictWhile_not_full {spare : ℕ} (olds : List (κ × Entry)) :
    ∀ state : State κ, (∀ old ∈ olds, state.entries.get? old.1 = some old.2) →
      (olds.map Prod.fst).Nodup → state.entries.size ≤ olds.length + spare →
      spare + state.quarantined < config.maxEntries →
      (evictWhile (full config) removeIndex olds state).full config = false := by
  induction olds with
  | nil =>
    intro state _ _ hsize hspare
    simp only [List.length_nil] at hsize
    refine decide_eq_false (p := _ ≤ _) ?_
    simp only [evictWhile]
    omega
  | cons old olds ih =>
    intro state hmem hnodup hsize hspare
    rw [evictWhile]
    split_ifs with hfull
    · rw [List.map_cons, List.nodup_cons] at hnodup
      have hperm := (entries_erase_perm (hmem old List.mem_cons_self)).length_eq
      refine ih _ (fun other hother => ?_) hnodup.2 ?_ hspare
      · have hne : other.1 ≠ old.1 := fun h => hnodup.1 (h ▸ List.mem_map_of_mem hother)
        exact (get?_erase_of_ne _ hne).trans (hmem other (.tail _ hother))
      · simp only [removeIndex, size, List.length_cons] at hperm hsize ⊢
        omega
    · simpa using hfull

/-- How many entries are on disk. -/
def diskEntries (state : State κ) : ℕ :=
  (state.entries.entries.filter fun e => e.2.disk).length

theorem makeRoom_not_full (h : state.diskEntries + state.quarantined < config.maxEntries) :
    (state.makeRoom config).full config = false := by
  have hperm : (state.byTick fun entry => !entry.disk).Perm
      (state.entries.entries.filter fun e => !e.2.disk) := List.perm_insertionSort _ _
  refine evictWhile_not_full _ _ (fun old hold => (get?_of_mem_byTick hold).1) ?_ ?_ h
  · refine ((hperm.map Prod.fst).nodup_iff).2 (List.Nodup.sublist ?_ state.entries.keys_nodup)
    exact List.filter_sublist.map _
  · rw [hperm.length_eq, size, diskEntries, Nat.add_comm]
    exact (List.length_eq_length_filter_add _).le

/-! ### Insertion -/

def tight : LocalCacheConfig := { memoryBytes := 2, maxEntries := 2, maxBlobBytes := 2 }

def noBlobs : State ℕ := ⟨∅, 0, 0, 0, 0, 0⟩

/-- A blob on disk, and one in memory only that has to leave for a new key. -/
def twoBlobs : State ℕ :=
  ⟨BTreeMap.ofList [(1, ⟨none, 2, true, 1, 1⟩), (2, ⟨some [3, 4], 2, false, 2, 2⟩)], 2, 34, 2, 2, 0⟩

end MountRs.BlobCache.State
