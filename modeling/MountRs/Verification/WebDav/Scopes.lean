import MountRs.Model.WebDav.Locks
import Mathlib.Data.List.Infix

/-! # Lock scopes

A canonical path closed by a slash is a string of which the closed forms of its
ancestors are the prefixes, so two scopes that share a path are nested. -/

namespace MountRs.WebDav

open List

/-! ### Containment as a prefix relation -/

/-- A path closed by one slash. -/
def closed (path : String) : List Char :=
  if path = "/" then ['/'] else path.toList ++ ['/']

theorem append_singleton_prefix_iff {α : Type*} {l m : List α} {c : α} :
    l ++ [c] <+: m ↔ l <+: m ∧ m[l.length]? = some c := by
  constructor
  · rintro ⟨rest, rfl⟩
    exact ⟨⟨c :: rest, by simp⟩, by simp⟩
  · rintro ⟨⟨rest, rfl⟩, hc⟩
    cases rest with
    | nil => simp at hc
    | cons d rest =>
      simp only [getElem?_append_right le_rfl, Nat.sub_self, getElem?_cons_zero,
        Option.some.injEq] at hc
      exact ⟨rest, by simp [hc]⟩

variable {path : String}

theorem Canonical.head (h : Canonical path) : path.toList.head? = some '/' := by
  rw [← h]
  unfold normalizePath
  split
  · rfl
  · simp [String.toList_append]

theorem Canonical.ne_nil (h : Canonical path) : path.toList ≠ [] := by
  intro hnil
  have hhead := h.head
  simp [hnil] at hhead

theorem canonicalPathInside_iff {parent : String} (hpath : Canonical path)
    (hparent : Canonical parent) :
    canonicalPathInside path parent = true ↔ closed parent <+: closed path := by
  have hslash : "/".toList = ['/'] := rfl
  have hmatch : (parent.toList.isPrefixOf path.toList &&
      path.toList[parent.toList.length]? == some '/') = true ↔
        parent.toList ++ ['/'] <+: path.toList := by
    simp [append_singleton_prefix_iff]
  simp only [canonicalPathInside, Bool.or_eq_true, hmatch, beq_iff_eq, Bool.and_eq_true,
    hpath.head, and_true, closed]
  by_cases hroot : parent = "/"
  · have hle : ['/'] <+: path.toList := by
      cases hlist : path.toList with
      | nil => exact absurd hlist hpath.ne_nil
      | cons c rest =>
        have hhead := hpath.head
        simp only [hlist, head?_cons, Option.some.injEq] at hhead
        exact ⟨rest, by simp [hhead]⟩
    simp only [hroot, or_true, true_or, if_true, true_iff]
    split
    · exact prefix_rfl
    · exact hle.trans (prefix_append _ _)
  · simp only [hroot, or_false, if_false]
    by_cases htop : path = "/"
    · have hne : parent.toList ++ ['/'] ≠ ['/'] := by
        simpa using hparent.ne_nil
      subst htop
      simp only [if_true, hslash]
      constructor
      · rintro (h | h)
        · exact absurd h.symm hroot
        · exact h
      · exact .inr
    · simp only [htop, if_false, prefix_concat_iff, append_cancel_right_eq,
        String.toList_inj]
      exact or_congr_left eq_comm

theorem inside_or_inside {a b : String} (hpath : Canonical path) (ha : Canonical a)
    (hb : Canonical b) (hpa : canonicalPathInside path a = true)
    (hpb : canonicalPathInside path b = true) :
    canonicalPathInside a b = true ∨ canonicalPathInside b a = true := by
  rw [canonicalPathInside_iff hpath ha] at hpa
  rw [canonicalPathInside_iff hpath hb] at hpb
  rw [canonicalPathInside_iff ha hb, canonicalPathInside_iff hb ha]
  exact prefix_or_prefix_of_prefix hpb hpa

/-! ### Overlapping scopes -/

variable {lockPath : String}

theorem lockCoversPath_eq (depth : LockDepth) (hlock : Canonical lockPath) (hpath : Canonical path) :
    lockCoversPath lockPath depth path = canonicalLockCovers lockPath depth path := by
  simp only [lockCoversPath, canonicalLockCovers, normalizedPathInside]
  rw [hlock, hpath]

theorem lockCoversPath_self (path : String) (depth : LockDepth) :
    lockCoversPath path depth path = true := by
  simp [lockCoversPath]

def Overlap (path : String) (depth : LockDepth) (other : String) (reach : LockDepth) : Prop :=
  ∃ shared, Canonical shared ∧ lockCoversPath path depth shared = true ∧
    lockCoversPath other reach shared = true

variable {depth : LockDepth}

theorem Overlap.symm {other : String} {reach : LockDepth} (h : Overlap path depth other reach) :
    Overlap other reach path depth := by
  obtain ⟨shared, hcanonical, hpath, hother⟩ := h
  exact ⟨shared, hcanonical, hother, hpath⟩

/-- Scopes overlap exactly when the lock covers the requested path or lies below it
and the request is infinite. -/
theorem overlap_iff {lockDepth : LockDepth} (hlock : Canonical lockPath) (hpath : Canonical path) :
    Overlap lockPath lockDepth path depth ↔ canonicalLockCovers lockPath lockDepth path = true ∨
        depth = .infinity ∧ canonicalPathInside lockPath path = true := by
  constructor
  · rintro ⟨_, hshared, hfirst, hsecond⟩
    rw [lockCoversPath_eq _ hlock hshared] at hfirst
    rw [lockCoversPath_eq _ hpath hshared] at hsecond
    simp only [canonicalLockCovers, Bool.or_eq_true, beq_iff_eq, Bool.and_eq_true]
      at hfirst hsecond ⊢
    rcases hfirst with rfl | ⟨hinfinite, hfirst⟩
    · rcases hsecond with rfl | ⟨hdepth, hsecond⟩
      · exact .inl (.inl rfl)
      · exact .inr ⟨hdepth, hsecond⟩
    · rcases hsecond with rfl | ⟨hdepth, hsecond⟩
      · exact .inl (.inr ⟨hinfinite, hfirst⟩)
      · rcases inside_or_inside hshared hlock hpath hfirst hsecond with h | h
        · exact .inr ⟨hdepth, h⟩
        · exact .inl (.inr ⟨hinfinite, h⟩)
  · rintro (h | ⟨hdepth, h⟩)
    · refine ⟨path, hpath, ?_, lockCoversPath_self _ _⟩
      rw [lockCoversPath_eq _ hlock hpath]
      exact h
    · refine ⟨lockPath, hlock, lockCoversPath_self _ _, ?_⟩
      rw [lockCoversPath_eq _ hpath hlock]
      simp [canonicalLockCovers, hdepth, h]

variable {lock : DavLock}

theorem conflictCandidate_eq (depth : LockDepth) (exclusive : Bool) (now : ℤ)
    (phase : ConflictPhase) (hlock : Canonical lock.path) (hpath : Canonical path) :
    conflictCandidate lock path depth exclusive now phase =
      canonicalConflictCandidate lock.path lock.depth lock.exclusive lock.expiresAt path depth
        exclusive now phase := by
  unfold conflictCandidate
  rw [hlock, hpath]
  split_ifs with hdead hsame hzero hshallow
  · rcases hdead with hdead | hdead
    · simp [canonicalConflictCandidate, hdead]
    · simp [canonicalConflictCandidate, hdead]
  · push Not at hdead
    simp [canonicalConflictCandidate, hdead.1, hdead.2, hsame.1, hsame.2, canonicalLockCovers]
  · have hne : lock.path ≠ path := fun h => hsame ⟨hzero.1, h⟩
    simp [canonicalConflictCandidate, hzero.1, hzero.2, canonicalLockCovers, hne]
  · simp [canonicalConflictCandidate, hshallow.1, hshallow.2]
  · rfl

/-- The two phases together find a lock in conflict exactly when it is unexpired, one
of the two is exclusive and the scopes overlap. -/
theorem conflictCandidate_iff {exclusive : Bool} {now : ℤ} (hlock : Canonical lock.path)
    (hpath : Canonical path) :
    (conflictCandidate lock path depth exclusive now .covering = true ∨
        depth = .infinity ∧ conflictCandidate lock path depth exclusive now .within = true) ↔
      now < lock.expiresAt ∧ (lock.exclusive = true ∨ exclusive = true) ∧
        Overlap lock.path lock.depth path depth := by
  rw [conflictCandidate_eq _ _ _ _ hlock hpath, conflictCandidate_eq _ _ _ _ hlock hpath,
    overlap_iff hlock hpath]
  simp only [canonicalConflictCandidate, Bool.and_eq_true, decide_eq_true_eq, Bool.or_eq_true,
    beq_iff_eq]
  tauto

end MountRs.WebDav
