import Mathlib.Data.List.Basic
import Mathlib.Data.List.Nodup

/-! # Fair locks

A lock with shared and exclusive holders that serves its requests in the order in which
they came. A mutex is a lock whose requests are all exclusive. -/

namespace MountRs

open List

inductive LockMode
  | shared
  | exclusive
deriving DecidableEq

structure FairLock where
  shared : List ℕ
  exclusive : Option ℕ
  queue : List (ℕ × LockMode)
deriving DecidableEq

namespace FairLock

def free : FairLock := ⟨[], none, []⟩

/-- Whether the holders leave room for a request. -/
def admits (lock : FairLock) : LockMode → Bool
  | .shared => lock.exclusive.isNone
  | .exclusive => lock.exclusive.isNone && lock.shared.isEmpty

def request (lock : FairLock) (i : ℕ) (mode : LockMode) : FairLock :=
  { lock with queue := lock.queue ++ [(i, mode)] }

/-- Only the first request can be granted. -/
def grantable (lock : FairLock) (i : ℕ) : Bool :=
  match lock.queue with
  | [] => false
  | (j, mode) :: _ => decide (j = i) && lock.admits mode

def grant (lock : FairLock) : FairLock :=
  match lock.queue with
  | [] => lock
  | (i, .shared) :: rest => { lock with shared := i :: lock.shared, queue := rest }
  | (i, .exclusive) :: rest => { lock with exclusive := some i, queue := rest }

def release (lock : FairLock) (i : ℕ) : FairLock :=
  if lock.exclusive = some i then { lock with exclusive := none }
  else { lock with shared := lock.shared.erase i }

def Holds (lock : FairLock) (i : ℕ) : Prop := lock.exclusive = some i ∨ i ∈ lock.shared

/-- Nobody shares a lock that is held exclusively or holds it twice. -/
structure Sound (lock : FairLock) : Prop where
  nodup : lock.shared.Nodup
  exclusive : lock.exclusive ≠ none → lock.shared = []

variable {lock : FairLock} {i j : ℕ} {mode : LockMode}

theorem free_sound : free.Sound := ⟨nodup_nil, fun _ => rfl⟩

@[simp] theorem holds_request : (lock.request i mode).Holds j ↔ lock.Holds j := .rfl

@[simp] theorem sound_request : (lock.request i mode).Sound ↔ lock.Sound :=
  ⟨fun h => ⟨h.nodup, h.exclusive⟩, fun h => ⟨h.nodup, h.exclusive⟩⟩

@[simp] theorem queue_release : (lock.release i).queue = lock.queue := by
  unfold release
  split_ifs <;> rfl

theorem grantable_iff : lock.grantable i = true ↔
    ∃ mode rest, lock.queue = (i, mode) :: rest ∧ lock.admits mode = true := by
  unfold grantable
  split
  · rename_i hqueue
    simp [hqueue]
  · rename_i j mode rest hqueue
    simp only [hqueue, Bool.and_eq_true, decide_eq_true_eq, cons.injEq, Prod.mk.injEq]
    constructor
    · rintro ⟨rfl, hadmits⟩
      exact ⟨mode, rest, ⟨⟨rfl, rfl⟩, rfl⟩, hadmits⟩
    · rintro ⟨_, _, ⟨⟨rfl, rfl⟩, rfl⟩, hadmits⟩
      exact ⟨rfl, hadmits⟩

variable {rest : List (ℕ × LockMode)}

theorem queue_grant (h : lock.queue = (i, mode) :: rest) : lock.grant.queue = rest := by
  unfold grant
  cases mode <;> simp [h]

theorem holds_grant (h : lock.queue = (i, mode) :: rest) (hj : lock.grant.Holds j) :
    j = i ∨ lock.Holds j := by
  unfold grant Holds at *
  cases mode <;> simp only [h] at hj
  · rcases hj with hj | hj
    · exact .inr (.inl hj)
    · rcases mem_cons.mp hj with rfl | hj
      · exact .inl rfl
      · exact .inr (.inr hj)
  · rcases hj with hj | hj
    · exact .inl (Option.some.inj hj).symm
    · exact .inr (.inr hj)

theorem sound_grant (hsound : lock.Sound) (h : lock.queue = (i, mode) :: rest)
    (hadmits : lock.admits mode = true) (hnew : ¬ lock.Holds i) : lock.grant.Sound := by
  unfold grant
  cases mode with
  | shared =>
    simp only [h]
    have hnone : lock.exclusive = none := Option.isNone_iff_eq_none.mp hadmits
    exact ⟨nodup_cons.mpr ⟨fun hmem => hnew (.inr hmem), hsound.nodup⟩,
      fun hsome => absurd hnone hsome⟩
  | exclusive =>
    simp only [h]
    have hempty : lock.shared = [] :=
      isEmpty_iff.mp (Bool.and_eq_true_iff.mp hadmits).2
    exact ⟨hsound.nodup, fun _ => hempty⟩

theorem holds_release (hsound : lock.Sound) (hj : (lock.release i).Holds j) :
    j ≠ i ∧ lock.Holds j := by
  unfold release at hj
  split_ifs at hj with hexclusive
  · have hempty := hsound.exclusive (by rw [hexclusive]; simp)
    rcases hj with hj | hj
    · cases hj
    · simp only [hempty] at hj
      cases hj
  · rcases hj with hj | hj
    · exact ⟨fun heq => hexclusive (heq ▸ hj), .inl hj⟩
    · exact ⟨fun heq => (hsound.nodup.mem_erase_iff.mp hj).1 heq, .inr (mem_of_mem_erase hj)⟩

theorem sound_release (hsound : lock.Sound) : (lock.release i).Sound := by
  unfold release
  split_ifs with hexclusive
  · exact ⟨hsound.nodup, fun hsome => absurd rfl hsome⟩
  · refine ⟨hsound.nodup.erase i, fun hsome => ?_⟩
    simp only [hsound.exclusive hsome, erase_nil]

/-- If somebody waits, the first request can be granted or somebody holds the lock. -/
theorem grantable_or_holds (h : lock.queue ≠ []) :
    (∃ i, lock.grantable i = true) ∨ ∃ j, lock.Holds j := by
  cases hqueue : lock.queue with
  | nil => exact absurd hqueue h
  | cons first rest =>
    obtain ⟨i, mode⟩ := first
    by_cases hadmits : lock.admits mode = true
    · exact .inl ⟨i, grantable_iff.mpr ⟨mode, rest, hqueue, hadmits⟩⟩
    · right
      cases hexclusive : lock.exclusive with
      | some j => exact ⟨j, .inl hexclusive⟩
      | none =>
        cases hshared : lock.shared with
        | nil => cases mode <;> simp [admits, hexclusive, hshared] at hadmits
        | cons j => exact ⟨j, .inr (hshared ▸ mem_cons_self)⟩

end FairLock

end MountRs
