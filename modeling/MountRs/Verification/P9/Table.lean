import MountRs.Verification.P9.Locks

/-! # Lock lists over calls, renames and removals

A request checks the limit of a path before it cuts the ranges of its owner, and a rename moves
the lists of the source over those of the destination. -/

namespace MountRs.P9

open List LockTable

/-- How many locks of the owner reach beyond both ends of the range. -/
def cuts (locks : List Lock) (owner : String) (start finish : ℕ) : ℕ :=
  locks.countP fun lock => lock.owner = owner ∧ lock.start < start ∧ finish < lock.finish

theorem length_subtract_le (locks : List Lock) (owner : String) (start finish : ℕ) :
    (subtract locks owner start finish).length ≤ locks.length + cuts locks owner start finish := by
  induction locks with
  | nil => simp [subtract]
  | cons lock locks ih =>
    simp only [subtract, cuts, flatMap_cons, length_append, length_cons,
      countP_cons] at ih ⊢
    have hone : (subtractOne owner start finish lock).length ≤ 1 + if decide (lock.owner = owner ∧
        lock.start < start ∧ finish < lock.finish) = true then 1 else 0 := by
      unfold subtractOne
      split_ifs <;> simp_all
    omega

theorem length_coalesce_le (locks : List Lock) : (coalesce locks).length ≤ locks.length := by
  have hfold : ∀ (locks merged : List Lock),
      (locks.foldl coalesceStep merged).length ≤ merged.length + locks.length := by
    intro locks
    induction locks with
    | nil => simp
    | cons lock locks ih =>
      intro merged
      refine (ih (coalesceStep merged lock)).trans ?_
      unfold coalesceStep
      split <;> grind
  have h := hfold (locks.insertionSort fun a b => a.start ≤ b.start) []
  simpa [coalesce, length_insertionSort] using h

namespace LockTable

variable {table : LockTable} {limit : ℕ}

/-- The limit of the table, which no path exceeds. -/
structure Bounded (table : LockTable) (limit : ℕ) : Prop where
  max_eq : table.maxLocksPerFile = limit
  length : ∀ path, (table.locksAt path).length ≤ limit

/-- A request that cuts ranges of its owner in two finds room for the new pieces. -/
def Roomy (table : LockTable) : Event → Prop
  | .call (.lock _ request) =>
    let cut := cuts (table.locksAt request.path) request.owner.key request.start.toNat request.finish
    0 < cut → (table.locksAt request.path).length + cut +
      (if request.type = lockTypeUnlck then 0 else 1) ≤ table.maxLocksPerFile
  | _ => True

section

variable (h : table.Bounded limit)
include h

theorem Bounded.setFile {path : String} (locks : Option (List Lock))
    (hlocks : (locks.getD []).length ≤ limit) : (table.setFile path locks).Bounded limit := by
  refine ⟨h.max_eq, fun other => ?_⟩
  rw [locksAt_setFile]
  split_ifs
  · exact hlocks
  · exact h.length other

theorem Bounded.lock {holder : UInt64} {request : LockRequest}
    (hroom : table.Roomy (.call (.lock holder request))) :
    (table.lock holder request).1.Bounded limit := by
  have hlength := h.length request.path
  unfold LockTable.lock
  split
  · exact h
  · rename_i start finish hrange
    cases range_eq_ok hrange
    have hkept : (table.setFile request.path
        (some ((table.files request.path).getD []))).Bounded limit := h.setFile _ hlength
    have hsubtract := length_subtract_le (table.locksAt request.path) request.owner.key
      request.start.toNat request.finish
    have hmax := h.max_eq
    dsimp only [Roomy] at hroom
    dsimp only
    split_ifs with htype hempty hinvalid hrefused hfull
    · exact hkept.setFile none (Nat.zero_le _)
    · refine hkept.setFile (some _) ?_
      rw [if_pos htype] at hroom
      show (table.unlocked request).length ≤ limit
      unfold unlocked
      omega
    · exact hkept
    · exact hkept
    · exact hkept
    · refine hkept.setFile (some _) ((length_coalesce_le _).trans ?_)
      rw [if_neg htype] at hroom
      rw [length_append, length_singleton]
      show (table.unlocked request).length + 1 ≤ limit
      have hless : (table.locksAt request.path).length < table.maxLocksPerFile := not_le.1 hfull
      unfold unlocked
      omega

theorem Bounded.remapOne (source destination old : String) :
    (remapOne source destination table old).Bounded limit := by
  unfold LockTable.remapOne
  cases hold : table.files old with
  | none => exact h
  | some locks =>
    have hlength := h.length old
    rw [locksAt, hold] at hlength
    exact ((h.setFile none (Nat.zero_le _)).setFile none (Nat.zero_le _)).setFile (some _) hlength

theorem Bounded.event {event : Event} (hroom : table.Roomy event) :
    (table.event event).Bounded limit := by
  cases event with
  | call call =>
    cases call with
    | lock holder request => exact h.lock hroom
    | getlock request => exact h
    | releaseFid | releaseAll =>
      refine ⟨h.max_eq, fun path => ?_⟩
      exact (congrArg List.length (locksAt_dropWhere ..)).trans_le
        ((length_filter_le _ _).trans (h.length path))
  | remap source destination order =>
    simp only [LockTable.event, LockTable.remap]
    split_ifs
    · exact h
    · generalize order.filter (inside source) = paths
      induction paths generalizing table with
      | nil => exact h
      | cons old paths ih => exact ih (h.remapOne source destination old) trivial
  | release path => exact h.setFile none (Nat.zero_le _)

end

/-- No path exceeds the limit as long as every request that cuts ranges in two finds room. -/
theorem lock_lists_bounded (maxLocksPerFile : ℕ) (events : List Event)
    (hroom : ∀ before event after, events = before ++ event :: after →
      ((LockTable.new maxLocksPerFile).runEvents before).Roomy event) (path : String) :
    (((LockTable.new maxLocksPerFile).runEvents events).locksAt path).length ≤
      max maxLocksPerFile 1 := by
  have hrun : ((LockTable.new maxLocksPerFile).runEvents events).Bounded (max maxLocksPerFile 1) := by
    induction events using List.reverseRecOn with
    | nil => exact ⟨rfl, fun _ => Nat.zero_le _⟩
    | append_singleton events event ih =>
      simp only [runEvents, List.foldl_append, List.foldl_cons, List.foldl_nil]
      refine (ih fun before event' after h => ?_).event (hroom events event [] rfl)
      exact hroom before event' (after ++ [event]) (by rw [h]; simp)
  exact hrun.length path

def wholeThenMiddle : List Event :=
  let request : LockRequest :=
    { path := "/f", fid := 1, type := lockTypeWrlck, start := 0, length := 10, procId := 1,
      clientId := "c" }
  [.call (.lock 1 request),
    .call (.lock 1 { request with type := lockTypeUnlck, start := 4, length := 2 })]

theorem lock_lists_bounded_two :
    (((LockTable.new 2).runEvents wholeThenMiddle).locksAt "/f").length ≤ 2 := by
  refine lock_lists_bounded 2 wholeThenMiddle (fun before event after h => ?_) "/f"
  rcases before with _ | ⟨first, _ | ⟨second, before⟩⟩
  · cases h
    simp [Roomy, LockTable.new, runEvents, locksAt, cuts]
  · cases h
    unfold Roomy
    decide +kernel
  · simp [wholeThenMiddle] at h

theorem unlock_exceeds_limit : (LockTable.new 1).maxLocksPerFile = 1 ∧
    (((LockTable.new 1).runEvents wholeThenMiddle).locksAt "/f").length = 2 := by
  decide +kernel

/-! ## Locks follow renames -/

/-- What follows the path of a file in the path of something inside it. -/
def Suffix (s : String) : Prop := s = "" ∨ ∃ rest, s.toList = '/' :: rest

def Inside (base path : String) : Prop := base = "/" ∨ ∃ s, Suffix s ∧ path = base ++ s

theorem inside_iff {source path : String} (hroot : source ≠ "/") :
    inside source path = true ↔ ∃ s, Suffix s ∧ path = source ++ s := by
  simp only [inside, Bool.or_eq_true, Bool.and_eq_true, beq_iff_eq, hroot, false_and, or_false,
    isPrefixOf_iff_prefix, String.toList_append]
  constructor
  · rintro (rfl | ⟨rest, hrest⟩)
    · exact ⟨"", .inl rfl, by simp⟩
    · refine ⟨.ofList ('/' :: rest), .inr ⟨rest, by simp⟩, ?_⟩
      rw [← String.toList_inj]
      simpa using hrest.symm
  · rintro ⟨s, rfl | ⟨rest, hrest⟩, rfl⟩
    · exact .inl (by simp)
    · refine .inr ⟨rest, ?_⟩
      rw [String.toList_append, hrest]
      simp

theorem moved_append (source destination s : String) :
    moved source destination (source ++ s) = destination ++ s := by
  simp [moved, String.toList_append, ← String.length_toList]

theorem Inside.of_append {base path s : String} {rest : List Char} (hs : Suffix s)
    (hpath : path.toList = base.toList ++ rest) (hrest : ∃ t, s.toList = rest ++ t) :
    Inside base path := by
  refine .inr ⟨.ofList rest, ?_, by rw [← String.toList_inj]; simpa using hpath⟩
  obtain ⟨t, ht⟩ := hrest
  rcases rest with _ | ⟨c, rest⟩
  · exact .inl rfl
  · obtain rfl | ⟨tail, htail⟩ := hs
    · simp at ht
    · rw [htail, cons_append, List.cons.injEq] at ht
      exact .inr ⟨rest, by simp [← ht.1]⟩

section

variable {source destination s t : String} {order : List String}

theorem append_ne_append (hsource : ¬ Inside source destination)
    (hdestination : ¬ Inside destination source) (hs : Suffix s) (ht : Suffix t) :
    source ++ s ≠ destination ++ t := by
  intro h
  rw [← String.toList_inj, String.toList_append, String.toList_append] at h
  obtain ⟨rest, hrest, hst⟩ | ⟨rest, hrest, hts⟩ := append_eq_append_iff.1 h
  · exact hsource (.of_append hs hrest ⟨_, hst⟩)
  · exact hdestination (.of_append ht hrest ⟨_, hts⟩)

theorem remapOne_files (source destination s path : String) :
    (remapOne source destination table (source ++ s)).files path =
      if path = destination ++ s then (table.files (source ++ s)).or (table.files path)
      else if path = source ++ s then none else table.files path := by
  unfold remapOne
  cases hfile : table.files (source ++ s) with
  | none =>
    split_ifs with h h'
    · rfl
    · rw [h', hfile]
    · rfl
  | some locks =>
    simp only [moved_append, setFile, Function.update_apply]
    split_ifs <;> rfl

/-- A rename moves every entry over that of the same name inside the destination. -/
theorem remap_files (hsource : ¬ Inside source destination)
    (hdestination : ¬ Inside destination source)
    (horder : ∀ path, table.files path ≠ none → path ∈ order) :
    (∀ s, Suffix s → (table.remap source destination order).files (source ++ s) = none ∧
      (table.remap source destination order).files (destination ++ s) =
        (table.files (source ++ s)).or (table.files (destination ++ s))) ∧
    ∀ path, ¬ Inside source path → ¬ Inside destination path →
      (table.remap source destination order).files path = table.files path := by
  have hroot : source ≠ "/" := fun h => hsource (.inl h)
  have hne : source ≠ destination := fun h =>
    hsource (.inr ⟨"", .inl rfl, by simp [h]⟩)
  simp only [remap, if_neg hne]
  have hpaths : ∀ s, Suffix s → table.files (source ++ s) ≠ none →
      source ++ s ∈ order.filter (inside source) := fun s hs hfile =>
    mem_filter.2 ⟨horder _ hfile, (inside_iff hroot).2 ⟨s, hs, rfl⟩⟩
  have hinside : ∀ path ∈ order.filter (inside source), ∃ s, Suffix s ∧ path = source ++ s :=
    fun path hpath => (inside_iff hroot).1 (mem_filter.1 hpath).2
  clear horder
  generalize order.filter (inside source) = paths at hpaths hinside ⊢
  -- The entries that are still to be moved are among the paths that remain.
  induction paths generalizing table with
  | nil =>
    refine ⟨fun s hs => ?_, fun _ _ _ => rfl⟩
    have hnone : table.files (source ++ s) = none := by
      by_contra h
      exact absurd (hpaths s hs h) not_mem_nil
    simp [hnone]
  | cons path paths ih =>
    obtain ⟨r, hr, rfl⟩ := hinside path mem_cons_self
    have hcross : ∀ {s t}, Suffix s → Suffix t → source ++ s ≠ destination ++ t :=
      append_ne_append hsource hdestination
    have hrest : ∀ s, Suffix s → (remapOne source destination table (source ++ r)).files
        (source ++ s) ≠ none → source ++ s ∈ paths := by
      intro s hs hfile
      rw [remapOne_files, if_neg (hcross hs hr)] at hfile
      split_ifs at hfile with h
      · exact absurd rfl hfile
      · exact (mem_cons.1 (hpaths s hs hfile)).resolve_left h
    obtain ⟨hmoved, hother⟩ := ih hrest fun path hpath =>
      hinside path (mem_cons_of_mem _ hpath)
    rw [foldl_cons]
    refine ⟨fun s hs => ⟨(hmoved s hs).1, ?_⟩, fun path hout hout' => ?_⟩
    · rw [(hmoved s hs).2, remapOne_files, remapOne_files, if_neg (hcross hs hr),
        if_neg (hcross hr hs).symm]
      by_cases h : s = r
      · simp [h]
      · simp [h, String.append_right_inj]
    · rw [hother path hout hout', remapOne_files,
        if_neg fun h => hout' (.inr ⟨r, hr, h⟩), if_neg fun h => hout (.inr ⟨r, hr, h⟩)]

theorem or_getD_eq_iff {locks locks' : Option (List Lock)} :
    (locks.or locks').getD [] = locks.getD [] ↔ (locks = none → locks'.getD [] = []) := by
  cases locks <;> simp

/-- After a rename the locks inside the source are those inside the destination exactly when no
locked file there is without a lock list of the same name inside the source. -/
theorem locks_follow_rename (table : LockTable) (source destination : String)
    (order : List String) (horder : ∀ path, path ∈ order ↔ table.files path ≠ none)
    (hsource : ¬ Inside source destination) (hdestination : ¬ Inside destination source) :
    (∀ path, Inside source path → (table.remap source destination order).locksAt path = []) ∧
    (∀ path, ¬ Inside source path → ¬ Inside destination path →
      (table.remap source destination order).locksAt path = table.locksAt path) ∧
    ((∀ s, Suffix s → (table.remap source destination order).locksAt (destination ++ s) =
        table.locksAt (source ++ s)) ↔
      ∀ s, Suffix s → table.files (source ++ s) = none → table.locksAt (destination ++ s) = []) := by
  obtain ⟨hmoved, hother⟩ := remap_files hsource hdestination fun path => (horder path).2
  refine ⟨fun path hpath => ?_, fun path hout hout' => ?_, forall₂_congr fun s hs => ?_⟩
  · obtain ⟨s, hs, rfl⟩ := hpath.resolve_left fun h => hsource (.inl h)
    rw [locksAt, (hmoved s hs).1, Option.getD_none]
  · rw [locksAt, hother path hout hout', locksAt]
  · rw [locksAt, (hmoved s hs).2]
    exact or_getD_eq_iff

end

/-- A table with the same lock at each of the paths. -/
def lockedAt (paths : List String) : LockTable :=
  { LockTable.new 4 with
    files := fun path =>
      if path ∈ paths then some [⟨0, 1, lockTypeWrlck, ownerKey 1 "c", 1, "c", 1, 1⟩] else none }

theorem locks_follow_rename_replaced : ¬ Inside "/b" "/a" ∧ ∀ s, Suffix s →
    ((lockedAt ["/a", "/b"]).remap "/a" "/b" ["/a", "/b"]).locksAt ("/b" ++ s) =
      (lockedAt ["/a", "/b"]).locksAt ("/a" ++ s) := by
  have hother : ∀ {a b : String}, a ≠ "/" → a.length = b.length → a ≠ b → ¬ Inside a b := by
    rintro a b hroot hlength hne (h | ⟨s, -, rfl⟩)
    · exact hroot h
    · simp_all
  have hb : ¬ Inside "/b" "/a" := hother (by decide) rfl (by decide)
  refine ⟨hb, (locks_follow_rename (lockedAt ["/a", "/b"]) "/a" "/b" ["/a", "/b"] ?_
    (hother (by decide) rfl (by decide)) hb).2.2.2 ?_⟩
  · simp [lockedAt, or_iff_not_imp_left]
  · intro s hs hfile
    have hne : "/b" ++ s ≠ "/a" := fun h => hb (.inr ⟨s, hs, h.symm⟩)
    simp_all [lockedAt, locksAt]

theorem replaced_lock_remains :
    ((lockedAt ["/b"]).remap "/a" "/b" ["/b"]).locksAt "/b" ≠ (lockedAt ["/b"]).locksAt "/a" := by
  decide +kernel

/-! ## Writers exclude every other owner -/

structure Exclusive (table : LockTable) : Prop where
  sound : table.Sound
  reads : ∀ {path owner other byte hold hold'}, owner ≠ other → table.Holds path owner byte hold →
    table.Holds path other byte hold' → hold.type ≠ lockTypeWrlck

section

variable (h : table.Exclusive)
include h

/-- Locks that are dropped, or moved to another path with their list, exclude as they did. -/
theorem Exclusive.of_sublist {next : LockTable}
    (hnext : ∀ path, ∃ old, next.locksAt path <+ table.locksAt old) : next.Exclusive := by
  constructor
  · intro path
    obtain ⟨old, hkept⟩ := hnext path
    exact ⟨fun lock hlock => (h.sound old).valid lock (hkept.subset hlock),
      (h.sound old).apart.sublist hkept⟩
  · rintro path owner other byte hold hold' hne ⟨lock, hlock, hleft⟩ ⟨lock', hlock', hright⟩
    obtain ⟨old, hkept⟩ := hnext path
    exact h.reads hne ⟨lock, hkept.subset hlock, hleft⟩ ⟨lock', hkept.subset hlock', hright⟩

theorem Exclusive.remapOne (source destination old : String) :
    (remapOne source destination table old).Exclusive := by
  unfold LockTable.remapOne
  cases hold : table.files old with
  | none => exact h
  | some locks =>
    refine h.of_sublist fun path => ?_
    simp only [locksAt_setFile]
    split_ifs
    · exact ⟨old, by rw [locksAt, hold]⟩
    · exact ⟨path, nil_sublist _⟩
    · exact ⟨path, .refl _⟩

theorem Exclusive.lock (holder : UInt64) (request : LockRequest) :
    (table.lock holder request).1.Exclusive := by
  refine ⟨sound_lock h.sound, ?_⟩
  have hlocked := table.lock_locked holder request
  generalize table.lock holder request = result at hlocked
  obtain ⟨next, _⟩ := result
  intro path owner other byte hold hold' hne
  unfold Holds
  cases hlocked with
  | failed _ _ hsame | blocked _ _ hsame | full _ _ hsame =>
    rw [hsame]
    exact h.reads hne
  | unlocked _ hnext =>
    rw [hnext]
    split_ifs
    · simp only [(unlocked_spec request h.sound).2]
      exact fun hleft hright => h.reads hne hleft.1 hright.1
    · exact h.reads hne
  | granted _ hfree hnext =>
    rw [hnext]
    split_ifs with hpath
    · have hnone := mt (refuses_iff h.sound).2 (Bool.eq_false_iff.1 hfree)
      simp only [(granted_spec holder request h.sound).2]
      -- The granted bytes of one owner meet those that the others held before.
      split_ifs with hleft hright hright
      · exact absurd (hleft.1.trans hright.1.symm) hne
      · rintro rfl hheld htype
        exact hnone ⟨other, fun heq => hne (hleft.1.trans heq.symm), byte, hold', hleft.2, hheld,
          .inr htype⟩
      · intro hheld _ htype
        exact hnone ⟨owner, fun heq => hne (heq.trans hright.1.symm), byte, hold, hright.2, hheld,
          .inl htype⟩
      · exact h.reads hne
    · exact h.reads hne

theorem Exclusive.event (event : Event) : (table.event event).Exclusive := by
  cases event with
  | call call =>
    cases call with
    | lock holder request => exact h.lock holder request
    | getlock request => exact h
    | releaseFid | releaseAll =>
      refine h.of_sublist fun path => ⟨path, ?_⟩
      exact locksAt_dropWhere table _ path ▸ filter_sublist
  | remap source destination order =>
    simp only [LockTable.event, remap]
    split_ifs
    · exact h
    · exact foldlRecOn _ _ h fun _ h path _ => h.remapOne source destination path
  | release path =>
    refine h.of_sublist fun other => ⟨other, ?_⟩
    rw [LockTable.event, release, locksAt_setFile]
    split_ifs <;> simp

end

/-- Whatever is locked, released, renamed and removed, no byte of a path is held by two owners
unless both hold it for reading. -/
theorem writers_exclude_owners (maxLocksPerFile : ℕ) (events : List Event) :
    ((new maxLocksPerFile).runEvents events).Exclusive := by
  have hnew : (new maxLocksPerFile).Exclusive :=
    ⟨sound_new maxLocksPerFile, fun _ hheld => absurd hheld not_holds_nil⟩
  exact foldlRecOn _ _ hnew fun _ h event _ => h.event event

end LockTable

end MountRs.P9
