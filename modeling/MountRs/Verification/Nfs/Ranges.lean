import MountRs.Model.Nfs.Locks

/-! # Byte-range arithmetic

A list of ranges is read as the set of bytes it covers with each lock type.
Subtracting and coalescing are exact but for one byte: a range from offset zero that
ends before the last byte has the length that means up to the end of the file. -/

namespace MountRs.Nfs

open List

/-! ### Bytes of a range -/

def lastByte : ℕ := 2 ^ 64 - 1

/-- A range covers its first byte and ends inside the address space. -/
def ValidRange (range : LockRange) : Prop :=
  range.offset < lockEnd range.offset range.length ∧ lockEnd range.offset range.length ≤ 2 ^ 64

def InRange (offset length byte : ℕ) : Prop := offset ≤ byte ∧ byte < lockEnd offset length

def Covered (ranges : List LockRange) (lockType : LockAccess) (byte : ℕ) : Prop :=
  ∃ range ∈ ranges, range.lockType = lockType ∧ InRange range.offset range.length byte

theorem covered_nil (lockType : LockAccess) (byte : ℕ) : ¬Covered [] lockType byte := by
  simp [Covered]

variable {lockType : LockAccess} {byte : ℕ} {left right : List LockRange}

theorem covered_append : Covered (left ++ right) lockType byte ↔
      Covered left lockType byte ∨ Covered right lockType byte := by
  simp only [Covered, mem_append, or_and_right, exists_or]

variable {range : LockRange} {ranges : List LockRange}

theorem covered_cons : Covered (range :: ranges) lockType byte ↔
      (range.lockType = lockType ∧ InRange range.offset range.length byte) ∨
        Covered ranges lockType byte := by
  simp [Covered]

theorem covered_perm (h : left.Perm right) :
    Covered left lockType byte ↔ Covered right lockType byte := by
  simp only [Covered, h.mem_iff]

variable {offset length : ℕ}

theorem validRange_of_request (lockType : LockAccess) (hoffset : offset ≤ lastByte)
    (h : validLockRange offset length = true) :
    ValidRange { offset, length, lockType } := by
  simp only [validLockRange, Bool.and_eq_true, bne_iff_ne, Bool.or_eq_true, beq_iff_eq,
    decide_eq_true_eq] at h
  simp only [ValidRange, lockEnd]
  unfold lastByte at hoffset
  unfold u64Max at h ⊢
  split_ifs
  · omega
  · omega

variable {start finish : ℕ}

theorem lockEnd_lockLength (hlt : start < finish) (hle : finish ≤ 2 ^ 64) :
    lockEnd start (lockLength start finish) =
      if start = 0 ∧ finish = lastByte then 2 ^ 64 else finish := by
  unfold lockEnd lockLength u64Max lastByte
  split_ifs <;> omega

/-- The bytes of a range stored by its start and end: one byte more when the range is
all of the address space but its last byte. -/
theorem inRange_lockLength (hlt : start < finish) (hle : finish ≤ 2 ^ 64) :
    InRange start (lockLength start finish) byte ↔ (start ≤ byte ∧ byte < finish) ∨
        (start = 0 ∧ finish = lastByte ∧ byte = lastByte) := by
  unfold InRange
  rw [lockEnd_lockLength hlt hle]
  unfold lastByte
  split_ifs <;> omega

theorem validRange_lockLength (hlt : start < finish) (hle : finish ≤ 2 ^ 64) :
    ValidRange { offset := start, length := lockLength start finish, lockType } := by
  unfold ValidRange
  simp only [lockEnd_lockLength hlt hle]
  split_ifs <;> omega

theorem lockOverlaps_iff (hrange : ValidRange range) (hrequest : offset < lockEnd offset length) :
    lockOverlaps range offset length = true ↔
      ∃ byte, InRange range.offset range.length byte ∧ InRange offset length byte := by
  simp only [lockOverlaps, Bool.and_eq_true, decide_eq_true_eq, InRange]
  have hnonempty := hrange.1
  constructor
  · intro h
    exact ⟨max range.offset offset, by omega, by omega⟩
  · intro ⟨byte, hleft, hright⟩
    omega

/-! ### Subtraction -/

theorem subtractLockRange_valid (hrange : ValidRange range) {piece : LockRange}
    (h : piece ∈ subtractLockRange range offset length) : ValidRange piece := by
  unfold subtractLockRange at h
  obtain ⟨hnonempty, hend⟩ := hrange
  split_ifs at h with hover hleft hright hright
  · rw [mem_singleton.mp h]
    exact ⟨hnonempty, hend⟩
  all_goals
    simp only [lockOverlaps, Bool.not_eq_true', Bool.and_eq_false_iff, decide_eq_false_iff_not,
      not_or, not_not] at hover
    simp only [cons_append, nil_append, append_nil, mem_cons,
      not_mem_nil, or_false] at h
  · rcases h with rfl | rfl
    · exact validRange_lockLength hleft (by omega)
    · rw [Nat.mod_eq_of_lt (by omega)]
      exact validRange_lockLength hright hend
  · rw [h]
    exact validRange_lockLength hleft (by omega)
  · rw [h, Nat.mod_eq_of_lt (by omega)]
    exact validRange_lockLength hright hend

/-- Subtraction leaves the bytes outside the request. When everything but the last byte
remains, the last byte comes back with it. -/
theorem covered_subtractLockRange (hrange : ValidRange range)
    (hrequest : offset < lockEnd offset length) :
    Covered (subtractLockRange range offset length) lockType byte ↔ range.lockType = lockType ∧
        ((InRange range.offset range.length byte ∧ ¬InRange offset length byte) ∨
          (range.offset = 0 ∧ lockEnd range.offset range.length = 2 ^ 64 ∧ offset = lastByte ∧
            byte = lastByte)) := by
  obtain ⟨hnonempty, hend⟩ := hrange
  unfold subtractLockRange
  split_ifs with hover hleft hright hright
  · -- No byte is shared, so the request is outside the range.
    simp only [lockOverlaps, Bool.not_eq_true', Bool.and_eq_false_iff,
      decide_eq_false_iff_not] at hover
    simp only [covered_cons, covered_nil, or_false, InRange]
    unfold lastByte
    constructor
    · intro ⟨htype, hin⟩
      exact ⟨htype, .inl ⟨hin, by omega⟩⟩
    · intro ⟨htype, hin⟩
      exact ⟨htype, by omega⟩
  all_goals
    simp only [lockOverlaps, Bool.not_eq_true', Bool.and_eq_false_iff, decide_eq_false_iff_not,
      not_or, not_not] at hover
    simp only [cons_append, nil_append, covered_cons, covered_nil, or_false,
      ← and_or_left]
  · apply and_congr_right
    intro _
    rw [Nat.mod_eq_of_lt (by omega), inRange_lockLength hleft (by omega),
      inRange_lockLength hright hend]
    unfold InRange lastByte
    omega
  · apply and_congr_right
    intro _
    rw [inRange_lockLength hleft (by omega)]
    unfold InRange lastByte
    omega
  · apply and_congr_right
    intro _
    rw [Nat.mod_eq_of_lt (by omega), inRange_lockLength hright hend]
    unfold InRange lastByte
    omega
  · unfold InRange lastByte
    constructor
    · intro h
      exact h.elim
    · intro ⟨_, h⟩
      omega

/-! ### Coalescing -/

def Absorbed (bytes : ℕ → Prop) (byte : ℕ) : Prop :=
  bytes byte ∨ (byte = lastByte ∧ ∀ other < lastByte, bytes other)

variable {bytes : ℕ → Prop}

theorem Absorbed.mono {more : ℕ → Prop} (h : ∀ byte, bytes byte → more byte)
    (hb : Absorbed bytes byte) : Absorbed more byte := by
  rcases hb with hb | ⟨hlast, hall⟩
  · exact .inl (h byte hb)
  · exact .inr ⟨hlast, fun other hother => h other (hall other hother)⟩

theorem Absorbed.of_absorbed (h : Absorbed (Absorbed bytes) byte) : Absorbed bytes byte := by
  rcases h with h | ⟨hlast, hall⟩
  · exact h
  · refine .inr ⟨hlast, fun other hother => ?_⟩
    rcases hall other hother with hin | ⟨heq, _⟩
    · exact hin
    · omega

/-- A list covers what another does, and the last byte of a type that has all the others. -/
def Extended (old new : List LockRange) : Prop :=
  ∀ lockType byte, (Covered old lockType byte → Covered new lockType byte) ∧
    (Covered new lockType byte → Absorbed (Covered old lockType) byte)

theorem Extended.of_perm (h : left.Perm right) : Extended left right :=
  fun _ _ => ⟨(covered_perm h).1, fun hb => .inl ((covered_perm h).2 hb)⟩

theorem Extended.trans {old mid new : List LockRange} (h : Extended old mid)
    (h' : Extended mid new) : Extended old new := by
  intro lockType byte
  refine ⟨fun hb => (h' lockType byte).1 ((h lockType byte).1 hb), fun hb => ?_⟩
  exact (((h' lockType byte).2 hb).mono fun other => (h lockType other).2).of_absorbed

theorem Extended.append {old new : List LockRange} (h : Extended old new) (rest : List LockRange) :
    Extended (old ++ rest) (new ++ rest) := by
  intro lockType byte
  rw [covered_append, covered_append]
  refine ⟨.imp_left (h lockType byte).1, ?_⟩
  rintro (hb | hb)
  · exact ((h lockType byte).2 hb).mono fun _ hold => covered_append.2 (.inl hold)
  · exact .inl (covered_append.2 (.inr hb))

variable {merged rest : List LockRange}

theorem coalesceStep_cases (merged : List LockRange) (range : LockRange) :
    coalesceStep merged range = range :: merged ∨
      ∃ previous rest, merged = previous :: rest ∧ previous.lockType = range.lockType ∧
        range.offset ≤ lockEnd previous.offset previous.length ∧
        coalesceStep merged range = { previous with
          length := lockLength previous.offset
            (max (lockEnd previous.offset previous.length)
              (lockEnd range.offset range.length)) } :: rest := by
  unfold coalesceStep
  split
  · exact .inl rfl
  · next previous rest =>
      split_ifs with hjoin
      · exact .inr ⟨previous, rest, rfl, hjoin.1, hjoin.2, rfl⟩
      · exact .inl rfl

/-- What the merging loop keeps of the merged ranges and those still to come. -/
structure Merging (merged rest : List LockRange) : Prop where
  valid : ∀ previous ∈ merged, ValidRange previous
  coming : ∀ range ∈ rest, ValidRange range
  sorted : rest.Pairwise fun a b => a.offset ≤ b.offset
  below : ∀ previous ∈ merged, ∀ range ∈ rest, previous.offset ≤ range.offset

theorem Merging.step (h : Merging merged (range :: rest)) :
    Merging (coalesceStep merged range) rest ∧
      Extended (range :: merged) (coalesceStep merged range) := by
  obtain ⟨hmerged, hrest, hsorted, hbelow⟩ := h
  obtain ⟨hvalid, hrest⟩ := forall_mem_cons.1 hrest
  obtain ⟨hfirst, hsorted⟩ := pairwise_cons.1 hsorted
  simp only [forall_mem_cons] at hbelow
  obtain hstep | ⟨previous, merged, rfl, htype, htouch, hstep⟩ := coalesceStep_cases merged range <;>
    rw [hstep]
  · refine ⟨⟨forall_mem_cons.2 ⟨hvalid, hmerged⟩, hrest, hsorted, ?_⟩, .of_perm .rfl⟩
    exact forall_mem_cons.2 ⟨hfirst, fun previous hprevious => (hbelow previous hprevious).2⟩
  · -- The two ranges touch, so their union is one interval of the same type.
    obtain ⟨⟨hnonempty, hend⟩, hmerged⟩ := forall_mem_cons.1 hmerged
    obtain ⟨⟨horder, hlater⟩, hbelow⟩ := forall_mem_cons.1 hbelow
    obtain ⟨hsecond, hlimit⟩ := hvalid
    refine ⟨⟨forall_mem_cons.2 ⟨validRange_lockLength (by omega) (by omega), hmerged⟩, hrest,
      hsorted, forall_mem_cons.2 ⟨hlater, fun p hp => (hbelow p hp).2⟩⟩, ?_⟩
    intro lockType byte
    have hnew : InRange previous.offset (lockLength previous.offset
        (max (lockEnd previous.offset previous.length) (lockEnd range.offset range.length))) byte ↔
        (InRange previous.offset previous.length byte ∨ InRange range.offset range.length byte) ∨
        (previous.offset = 0 ∧ max (lockEnd previous.offset previous.length)
          (lockEnd range.offset range.length) = lastByte ∧ byte = lastByte) := by
      rw [inRange_lockLength (by omega) (by omega)]
      unfold InRange
      omega
    simp only [Absorbed, covered_cons, hnew, htype]
    constructor
    · tauto
    · rintro (⟨ht, (hin | hin) | ⟨hzero, hmax, hlast⟩⟩ | hrest)
      · exact .inl (.inr (.inl ⟨ht, hin⟩))
      · exact .inl (.inl ⟨ht, hin⟩)
      · refine .inr ⟨hlast, fun other hother => ?_⟩
        by_cases hin : InRange previous.offset previous.length other
        · exact .inr (.inl ⟨ht, hin⟩)
        · refine .inl ⟨ht, ?_⟩
          unfold InRange at hin ⊢
          omega
      · exact .inl (.inr (.inr hrest))

theorem foldl_coalesceStep (h : Merging merged rest) :
    (∀ piece ∈ rest.foldl coalesceStep merged, ValidRange piece) ∧
      Extended (merged ++ rest) (rest.foldl coalesceStep merged) := by
  induction rest generalizing merged with
  | nil => exact ⟨h.valid, .of_perm (by simp)⟩
  | cons range rest ih =>
    obtain ⟨hstep, hbytes⟩ := h.step
    obtain ⟨hpieces, hrest⟩ := ih hstep
    exact ⟨hpieces, (Extended.of_perm perm_middle).trans ((hbytes.append rest).trans hrest)⟩

/-- Coalescing keeps every byte, and adds only the last byte to a type that has all the
others. -/
theorem coalesceLockRanges_spec (h : ∀ range ∈ ranges, ValidRange range) :
    (∀ piece ∈ coalesceLockRanges ranges, ValidRange piece) ∧
    ∀ lockType byte,
      (Covered ranges lockType byte → Covered (coalesceLockRanges ranges) lockType byte) ∧
      (Covered (coalesceLockRanges ranges) lockType byte →
        Absorbed (Covered ranges lockType) byte) := by
  have hperm := perm_insertionSort (fun a b : LockRange => a.offset ≤ b.offset) ranges
  have hsorted : (ranges.insertionSort fun a b => a.offset ≤ b.offset).Pairwise
      fun a b => a.offset ≤ b.offset := by
    have : Std.Total fun a b : LockRange => a.offset ≤ b.offset := ⟨fun a b => le_total _ _⟩
    have : IsTrans LockRange fun a b => a.offset ≤ b.offset := ⟨fun a b c => le_trans⟩
    exact pairwise_insertionSort _ _
  obtain ⟨hpieces, hbytes⟩ := @foldl_coalesceStep [] _
    ⟨by simp, fun range hrange => h range (hperm.mem_iff.mp hrange), hsorted, by simp⟩
  exact ⟨fun piece hpiece => hpieces piece (mem_reverse.mp hpiece),
    (Extended.of_perm hperm.symm).trans (hbytes.trans (.of_perm (reverse_perm _).symm))⟩

end MountRs.Nfs
