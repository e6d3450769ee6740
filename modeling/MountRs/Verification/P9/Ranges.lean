import MountRs.Model.P9.Locks

/-! # Bytes of a list of locks

A path's locks are read as a relation that gives, for each owner and byte, the type of the
lock and the connection and fid it was last taken through. Subtracting a range and coalescing
are exact on this relation. -/

namespace MountRs.P9

open List

/-! ### Owners -/

/-- The pair that conflicts are judged by. -/
structure Owner where
  procId : UInt32
  clientId : String
  deriving DecidableEq

def LockRequest.owner (request : LockRequest) : Owner :=
  { procId := request.procId, clientId := request.clientId }

def Lock.ownedBy (lock : Lock) : Owner := { procId := lock.procId, clientId := lock.clientId }

def Owner.key (owner : Owner) : String := ownerKey owner.procId owner.clientId

theorem colon_not_mem_digits (n : ℕ) : ':' ∉ (toString n).toList := by
  intro hmem
  rw [Nat.toString_eq_repr, Nat.toList_repr] at hmem
  exact absurd (Nat.isDigit_of_mem_toDigits (by omega) (by omega) hmem) (by decide)

theorem append_cons_inj_of_not_mem {α : Type*} {a : α} {left left' right right' : List α}
    (h : left ++ a :: right = left' ++ a :: right') (hleft : a ∉ left) (hleft' : a ∉ left') :
    left = left' ∧ right = right' := by
  induction left generalizing left' with
  | nil =>
    cases left' with
    | nil => simpa using h
    | cons =>
      simp only [nil_append, cons_append, cons.injEq] at h
      exact absurd (by simp [h.1]) hleft'
  | cons b left ih =>
    cases left' with
    | nil =>
      simp only [nil_append, cons_append, cons.injEq] at h
      exact absurd (by simp [h.1]) hleft
    | cons =>
      simp only [cons_append, cons.injEq] at h
      obtain ⟨rfl, h⟩ := h
      obtain ⟨rfl, rfl⟩ := ih h (fun hmem => hleft (mem_cons_of_mem _ hmem))
        (fun hmem => hleft' (mem_cons_of_mem _ hmem))
      exact ⟨rfl, rfl⟩

/-- Two owners share a key only if they are the same pair, whatever the client id holds. -/
theorem Owner.key_injective {owner owner' : Owner} (h : owner.key = owner'.key) :
    owner = owner' := by
  have hlist := congrArg String.toList h
  simp only [Owner.key, ownerKey, String.toList_append] at hlist
  change (_ ++ [':']) ++ _ = (_ ++ [':']) ++ _ at hlist
  rw [append_assoc, append_assoc, singleton_append, singleton_append] at hlist
  obtain ⟨hproc, hclient⟩ := append_cons_inj_of_not_mem hlist (colon_not_mem_digits _)
    (colon_not_mem_digits _)
  have hnat : owner.procId.toNat = owner'.procId.toNat := by
    rw [Nat.toString_eq_repr, Nat.toString_eq_repr, Nat.toList_repr, Nat.toList_repr] at hproc
    have hread := congrArg (fun digits => Nat.ofDigitChars 10 digits 0) hproc
    rwa [Nat.ofDigitChars_toDigits (by omega) (by omega),
      Nat.ofDigitChars_toDigits (by omega) (by omega)] at hread
  cases owner
  cases owner'
  rw [UInt32.toNat_inj] at hnat
  rw [String.toList_inj] at hclient
  simp_all

/-! ### Bytes of a list of locks -/

/-- What is known of a locked byte: the type, and the connection and fid of the call that
locked it last. -/
structure Hold where
  type : UInt8
  holder : UInt64
  fid : UInt32
  deriving DecidableEq

def Lock.hold (lock : Lock) : Hold := { type := lock.type, holder := lock.holder, fid := lock.fid }

def Lock.Covers (lock : Lock) (byte : ℕ) : Prop := lock.start ≤ byte ∧ byte < lock.finish

def Holds (locks : List Lock) (owner : Owner) (byte : ℕ) (hold : Hold) : Prop :=
  ∃ lock ∈ locks, lock.ownedBy = owner ∧ lock.Covers byte ∧ lock.hold = hold

variable {locks merged rest : List Lock} {lock granted : Lock} {owner : Owner} {byte : ℕ}
  {hold hold' : Hold} {start finish : ℕ}

theorem not_holds_nil : ¬ Holds [] owner byte hold := by
  simp [Holds]

theorem holds_append : Holds (locks ++ rest) owner byte hold ↔
      Holds locks owner byte hold ∨ Holds rest owner byte hold := by
  simp only [Holds, mem_append, or_and_right, exists_or]

theorem holds_cons : Holds (lock :: locks) owner byte hold ↔
      (lock.ownedBy = owner ∧ lock.Covers byte ∧ lock.hold = hold) ∨
        Holds locks owner byte hold := by
  simp [Holds]

theorem holds_perm (h : locks.Perm rest) :
    Holds locks owner byte hold ↔ Holds rest owner byte hold := by
  simp only [Holds, h.mem_iff]

/-- Two locks of one owner have no byte in common. -/
def Apart (left right : Lock) : Prop :=
  left.owner = right.owner → left.finish ≤ right.start ∨ right.finish ≤ left.start

theorem Apart.symm {left right : Lock} (h : Apart left right) : Apart right left := by
  intro howner
  exact (h howner.symm).symm

instance : Std.Symm Apart := ⟨fun _ _ => Apart.symm⟩

/-- A lock covers a byte, and its key is that of its owner. -/
def Lock.Valid (lock : Lock) : Prop :=
  lock.start < lock.finish ∧ lock.owner = lock.ownedBy.key

structure Sound (locks : List Lock) : Prop where
  valid : ∀ lock ∈ locks, lock.Valid
  apart : locks.Pairwise Apart

theorem Sound.nil : Sound [] := ⟨by simp, .nil⟩

theorem Sound.holds_unique (h : Sound locks) (hleft : Holds locks owner byte hold)
    (hright : Holds locks owner byte hold') : hold = hold' := by
  obtain ⟨left, hmem, howner, hcovers, rfl⟩ := hleft
  obtain ⟨right, hmem', howner', hcovers', rfl⟩ := hright
  by_cases hsame : left = right
  · rw [hsame]
  · have hkey : left.owner = right.owner := by
      rw [(h.valid left hmem).2, (h.valid right hmem').2, howner, howner']
    have hapart := h.apart.forall hmem hmem' hsame hkey
    unfold Lock.Covers at hcovers hcovers'
    omega

theorem Sound.filter (h : Sound locks) (keep : Lock → Bool) : Sound (locks.filter keep) := by
  refine ⟨?_, h.apart.filter keep⟩
  intro lock hlock
  exact h.valid lock (mem_of_mem_filter hlock)

theorem overlaps_eq_true {leftStart leftEnd rightStart rightEnd : ℕ} :
    overlaps leftStart leftEnd rightStart rightEnd = true ↔
      leftStart < rightEnd ∧ rightStart < leftEnd := by
  simp [overlaps]

/-! ### Subtraction -/

variable {key : String}

/-- The subtracted range is the owner's and meets the lock. -/
def Lock.Hit (lock : Lock) (key : String) (start finish : ℕ) : Prop :=
  lock.owner = key ∧ lock.start < finish ∧ start < lock.finish

variable {piece : Lock}

theorem mem_subtractOne : piece ∈ subtractOne key start finish lock ↔
    (¬ lock.Hit key start finish ∧ piece = lock) ∨ (lock.Hit key start finish ∧
      ((lock.start < start ∧ piece = { lock with finish := start }) ∨
        (finish < lock.finish ∧ piece = { lock with start := finish }))) := by
  have hhit : (lock.owner ≠ key ∨ (!overlaps lock.start lock.finish start finish) = true) ↔
      ¬ lock.Hit key start finish := by
    rw [Bool.not_eq_true', ← Bool.not_eq_true, overlaps_eq_true, Lock.Hit]
    tauto
  unfold subtractOne
  split_ifs with hout <;> rw [hhit] at hout <;> simp_all

/-- A piece of a lock differs from it in its range only, and lies inside it and outside the
subtracted range when that is the owner's. -/
theorem of_mem_subtractOne (hvalid : lock.Valid)
    (h : piece ∈ subtractOne key start finish lock) :
    piece.Valid ∧ piece.owner = lock.owner ∧ lock.start ≤ piece.start ∧ piece.finish ≤ lock.finish ∧
      (lock.owner = key → piece.finish ≤ start ∨ finish ≤ piece.start) := by
  obtain ⟨hout, rfl⟩ | ⟨⟨-, hstart, hfinish⟩, ⟨hleft, rfl⟩ | ⟨hright, rfl⟩⟩ := mem_subtractOne.1 h
  · refine ⟨hvalid, rfl, le_rfl, le_rfl, fun howner => ?_⟩
    have hmiss : ¬ (_ ∧ _) := fun hmeets => hout ⟨howner, hmeets⟩
    omega
  · exact ⟨⟨hleft, hvalid.2⟩, rfl, le_rfl, hfinish.le, fun _ => .inl le_rfl⟩
  · exact ⟨⟨hright, hvalid.2⟩, rfl, hstart.le, le_rfl, fun _ => .inr le_rfl⟩

theorem holds_subtractOne : Holds (subtractOne key start finish lock) owner byte hold ↔
      (lock.ownedBy = owner ∧ lock.Covers byte ∧ lock.hold = hold) ∧
        ¬ (lock.owner = key ∧ start ≤ byte ∧ byte < finish) := by
  simp only [Holds, mem_subtractOne, Lock.Covers]
  by_cases hhit : lock.Hit key start finish
  · obtain ⟨howner, hstart, hfinish⟩ := hhit
    constructor
    · rintro ⟨_, ⟨hout, rfl⟩ | ⟨-, ⟨hleft, rfl⟩ | ⟨hright, rfl⟩⟩, howned, hbyte, hhold⟩
      · exact absurd ⟨howner, hstart, hfinish⟩ hout
      · exact ⟨⟨howned, by dsimp at hbyte; omega, hhold⟩, by dsimp at hbyte; omega⟩
      · exact ⟨⟨howned, by dsimp at hbyte; omega, hhold⟩, by dsimp at hbyte; omega⟩
    · rintro ⟨⟨howned, hbyte, hhold⟩, houtside⟩
      by_cases hbefore : byte < start
      · exact ⟨_, .inr ⟨⟨howner, hstart, hfinish⟩, .inl ⟨by omega, rfl⟩⟩, howned, ⟨hbyte.1, hbefore⟩,
          hhold⟩
      · have hafter : finish ≤ byte :=
          not_lt.1 fun hlt => houtside ⟨howner, not_lt.1 hbefore, hlt⟩
        exact ⟨_, .inr ⟨⟨howner, hstart, hfinish⟩, .inr ⟨by omega, rfl⟩⟩, howned, ⟨hafter, hbyte.2⟩,
          hhold⟩
  · constructor
    · rintro ⟨_, ⟨-, rfl⟩ | ⟨hit, -⟩, hholds⟩
      · refine ⟨hholds, fun ⟨howner, hbyte⟩ => hhit ⟨howner, ?_⟩⟩
        obtain ⟨-, hcovers, -⟩ := hholds
        omega
      · exact absurd hit hhit
    · exact fun ⟨hholds, _⟩ => ⟨lock, .inl ⟨hhit, rfl⟩, hholds⟩

theorem sound_subtract (hrange : start < finish) (h : Sound locks) :
    Sound (subtract locks key start finish) := by
  refine ⟨?_, ?_⟩
  · intro piece hpiece
    obtain ⟨lock, hlock, hpiece⟩ := mem_flatMap.mp hpiece
    exact (of_mem_subtractOne (h.valid lock hlock) hpiece).1
  · apply pairwise_flatMap.mpr
    constructor
    · intro lock _
      unfold subtractOne
      split
      · exact pairwise_singleton _ _
      · -- The two pieces lie on either side of the subtracted range.
        split <;> split <;> simp [Apart]
        omega
    · refine h.apart.imp_of_mem ?_
      intro left right hleft hright hapart piece hpiece piece' hpiece'
      obtain ⟨-, howner, hstart, hfinish, -⟩ := of_mem_subtractOne (h.valid left hleft) hpiece
      obtain ⟨-, howner', hstart', hfinish', -⟩ :=
        of_mem_subtractOne (h.valid right hright) hpiece'
      intro hsame
      have := hapart (by rw [← howner, ← howner', hsame])
      omega

theorem holds_subtract (h : Sound locks) {target : Owner} :
    Holds (subtract locks target.key start finish) owner byte hold ↔
      Holds locks owner byte hold ∧ ¬ (owner = target ∧ start ≤ byte ∧ byte < finish) := by
  have hkey : ∀ lock ∈ locks, lock.ownedBy = owner → (lock.owner = target.key ↔ owner = target) := by
    intro lock hlock howned
    rw [(h.valid lock hlock).2, howned]
    exact ⟨Owner.key_injective, fun hsame => by rw [hsame]⟩
  have hpieces : Holds (subtract locks target.key start finish) owner byte hold ↔
      ∃ lock ∈ locks, Holds (subtractOne target.key start finish lock) owner byte hold := by
    simp only [Holds, subtract, mem_flatMap]
    constructor
    · rintro ⟨piece, ⟨lock, hlock, hpiece⟩, hholds⟩
      exact ⟨lock, hlock, piece, hpiece, hholds⟩
    · rintro ⟨lock, hlock, piece, hpiece, hholds⟩
      exact ⟨piece, ⟨lock, hlock, hpiece⟩, hholds⟩
  rw [hpieces]
  constructor
  · rintro ⟨lock, hlock, hholds⟩
    rw [holds_subtractOne] at hholds
    obtain ⟨hholds, houtside⟩ := hholds
    refine ⟨⟨lock, hlock, hholds⟩, ?_⟩
    rwa [hkey lock hlock hholds.1] at houtside
  · rintro ⟨⟨lock, hlock, hholds⟩, houtside⟩
    refine ⟨lock, hlock, holds_subtractOne.mpr ⟨hholds, ?_⟩⟩
    rwa [hkey lock hlock hholds.1]

/-! ### Coalescing -/

/-- Two touching locks of one owner, type, connection and fid as one. -/
def joined (previous lock : Lock) : Lock :=
  { previous with finish := max previous.finish lock.finish }

variable {previous : Lock}

theorem coalesceStep_cons : coalesceStep (previous :: merged) lock =
      if lock.start ≤ previous.finish ∧ previous.type = lock.type ∧
          previous.owner = lock.owner ∧ previous.holder = lock.holder ∧ previous.fid = lock.fid
      then joined previous lock :: merged else lock :: previous :: merged := rfl

/-- What the merging loop keeps of the merged locks and those still to come. -/
structure Merging (merged rest : List Lock) : Prop where
  sound : Sound (merged ++ rest)
  sorted : rest.Pairwise fun a b => a.start ≤ b.start
  below : ∀ previous ∈ merged, ∀ lock ∈ rest, previous.start ≤ lock.start

theorem Merging.push (h : Merging merged (lock :: rest)) : Merging (lock :: merged) rest := by
  obtain ⟨hfirst, hsorted⟩ := pairwise_cons.mp h.sorted
  have hperm : (merged ++ lock :: rest).Perm (lock :: merged ++ rest) := perm_middle
  refine ⟨⟨?_, ?_⟩, hsorted, ?_⟩
  · intro other hother
    exact h.sound.valid other (hperm.mem_iff.mpr hother)
  · exact (hperm.pairwise_iff .symm).mp h.sound.apart
  · intro previous hprevious other hother
    rcases mem_cons.mp hprevious with rfl | hprevious
    · exact hfirst other hother
    · exact h.below previous hprevious other (mem_cons_of_mem _ hother)

theorem joined_finish (hprevious : previous.Valid) (hlock : lock.Valid)
    (hapart : Apart previous lock) (hbelow : previous.start ≤ lock.start)
    (htouch : lock.start ≤ previous.finish) (howner : previous.owner = lock.owner) :
    previous.finish = lock.start ∧ (joined previous lock).finish = lock.finish := by
  have := hapart howner
  obtain ⟨hnonempty, -⟩ := hprevious
  obtain ⟨hnonempty', -⟩ := hlock
  have hjoined : (joined previous lock).finish = max previous.finish lock.finish := rfl
  omega

theorem Merging.join (h : Merging (lock :: previous :: merged) rest)
    (hbelow : previous.start ≤ lock.start) (htouch : lock.start ≤ previous.finish)
    (howner : previous.owner = lock.owner) :
    Merging (joined previous lock :: merged) rest := by
  have hvalid := h.sound.valid lock (by simp)
  have hvalid' := h.sound.valid previous (by simp)
  obtain ⟨hapart, hapart'⟩ := pairwise_cons.mp h.sound.apart
  obtain ⟨hprevious, hothers⟩ := pairwise_cons.mp hapart'
  obtain ⟨hmeet, hfinish⟩ := joined_finish hvalid' hvalid (hapart previous (by simp)).symm hbelow
    htouch howner
  refine ⟨⟨?_, ?_⟩, h.sorted, ?_⟩
  · intro other hother
    rcases mem_cons.mp hother with rfl | hother
    · refine ⟨?_, hvalid'.2⟩
      rw [hfinish]
      exact lt_of_le_of_lt hbelow hvalid.1
    · exact h.sound.valid other (mem_cons_of_mem _ (mem_cons_of_mem _ hother))
  · apply pairwise_cons.mpr
    refine ⟨?_, hothers⟩
    intro other hother hsame
    have hleft := hprevious other hother hsame
    have hright := hapart other (mem_cons_of_mem _ hother) (howner.symm.trans hsame)
    have hnonempty := h.sound.valid other (mem_cons_of_mem _ (mem_cons_of_mem _ hother))
    rw [hfinish]
    change lock.finish ≤ other.start ∨ other.finish ≤ previous.start
    have := hvalid.1
    have := hvalid'.1
    have := hnonempty.1
    omega
  · intro other hother following hfollowing
    rcases mem_cons.mp hother with rfl | hother
    · exact h.below previous (by simp) following hfollowing
    · exact h.below other (by simp [hother]) following hfollowing

theorem merging_coalesceStep (h : Merging merged (lock :: rest)) :
    Merging (coalesceStep merged lock) rest ∧
      ∀ owner byte hold, Holds (coalesceStep merged lock) owner byte hold ↔
        Holds (lock :: merged) owner byte hold := by
  have hpushed := h.push
  cases merged with
  | nil => exact ⟨hpushed, fun _ _ _ => .rfl⟩
  | cons previous merged =>
    rw [coalesceStep_cons]
    split
    · rename_i hjoin
      obtain ⟨htouch, htype, howner, hholder, hfid⟩ := hjoin
      have hbelow := h.below previous (by simp) lock (by simp)
      have hvalid := hpushed.sound.valid lock (by simp)
      have hvalid' := hpushed.sound.valid previous (by simp)
      obtain ⟨hmeet, hfinish⟩ := joined_finish hvalid' hvalid
        ((pairwise_cons.mp hpushed.sound.apart).1 previous (by simp)).symm hbelow htouch howner
      refine ⟨hpushed.join hbelow htouch howner, ?_⟩
      intro owner byte hold
      have howned : previous.ownedBy = lock.ownedBy := by
        apply Owner.key_injective
        rw [← hvalid.2, ← hvalid'.2, howner]
      have hsame : previous.hold = lock.hold := by
        simp [Lock.hold, htype, hholder, hfid]
      simp only [holds_cons]
      change (previous.ownedBy = owner ∧ _ ∧ previous.hold = hold) ∨ _ ↔ _
      unfold Lock.Covers
      rw [hfinish, howned, hsame]
      change (lock.ownedBy = owner ∧ (previous.start ≤ byte ∧ byte < lock.finish) ∧ _) ∨ _ ↔ _
      have hbytes : (previous.start ≤ byte ∧ byte < lock.finish) ↔
          (lock.start ≤ byte ∧ byte < lock.finish) ∨
            (previous.start ≤ byte ∧ byte < previous.finish) := by
        have := hvalid.1
        omega
      rw [hbytes]
      tauto
    · exact ⟨hpushed, fun _ _ _ => .rfl⟩

theorem foldl_coalesceStep (h : Merging merged rest) : Sound (rest.foldl coalesceStep merged) ∧
      ∀ owner byte hold, Holds (rest.foldl coalesceStep merged) owner byte hold ↔
        Holds (merged ++ rest) owner byte hold := by
  induction rest generalizing merged with
  | nil =>
    rw [append_nil]
    exact ⟨by simpa using h.sound, fun _ _ _ => Iff.rfl⟩
  | cons _ _ ih =>
    obtain ⟨hstep, hholds⟩ := merging_coalesceStep h
    obtain ⟨hsound, hrest⟩ := ih hstep
    refine ⟨hsound, ?_⟩
    intro owner byte hold
    rw [foldl_cons, hrest, holds_append, hholds, ← holds_append]
    exact holds_perm perm_middle.symm

theorem coalesce_spec (h : Sound locks) : Sound (coalesce locks) ∧
      ∀ owner byte hold, Holds (coalesce locks) owner byte hold ↔ Holds locks owner byte hold := by
  have hperm := perm_insertionSort (fun a b : Lock => a.start ≤ b.start) locks
  have hsorted : (locks.insertionSort fun a b => a.start ≤ b.start).Pairwise
      fun a b => a.start ≤ b.start := by
    have : Std.Total fun a b : Lock => a.start ≤ b.start := ⟨fun a b => le_total _ _⟩
    have : IsTrans Lock fun a b => a.start ≤ b.start := ⟨fun a b c => le_trans⟩
    exact pairwise_insertionSort _ _
  have hmerging : Merging [] (locks.insertionSort fun a b => a.start ≤ b.start) := by
    refine ⟨⟨?_, ?_⟩, hsorted, by simp⟩
    · intro lock hlock
      exact h.valid lock (hperm.mem_iff.mp hlock)
    · exact (hperm.symm.pairwise_iff .symm).mp h.apart
  obtain ⟨hsound, hholds⟩ := foldl_coalesceStep hmerging
  unfold coalesce
  constructor
  · refine ⟨?_, (reverse_perm _).symm.pairwise_iff .symm |>.mp hsound.apart⟩
    intro lock hlock
    exact hsound.valid lock (mem_reverse.mp hlock)
  · intro owner byte hold
    rw [holds_perm (reverse_perm _), hholds, nil_append, holds_perm hperm]

end MountRs.P9
