import MountRs.Verification.Nfs.Ranges

/-! # The lock table as a map of bytes

A lock table says, for every file, client and lock owner, which bytes are held with
which type. -/

namespace MountRs.Nfs

open Except BTreeMap V4State List

/-! ### What a table holds -/

def Holds (locks : BTreeMap ℕ LockState) (holder : LockHolder) (lockType : LockAccess)
    (byte : ℕ) : Prop :=
  ∃ key lock, locks.get? key = some lock ∧ lock.holder = holder ∧ Covered lock.ranges lockType byte

/-- Lock states sit under their stateids, which were allocated before, and hold valid
ranges. A holder holds a byte with one type, and two holders of a file never hold a
byte with conflicting types. -/
structure LockTable (state : V4State) : Prop where
  keyed : ∀ key lock, state.locks.get? key = some lock → lock.stateid.other = key
  issued : ∀ key lock, state.locks.get? key = some lock →
    key < state.seed * 2 ^ 64 + state.nextStateid
  valid : ∀ key lock, state.locks.get? key = some lock → ∀ range ∈ lock.ranges, ValidRange range
  single : ∀ holder lockType other byte, Holds state.locks holder lockType byte →
    Holds state.locks holder other byte → lockType = other
  compatible : ∀ holder rival lockType other byte, holder.fileId = rival.fileId →
    holder ≠ rival → Holds state.locks holder lockType byte →
    Holds state.locks rival other byte → lockConflicts lockType other = false

theorem lockConflicts_comm (left right : LockAccess) :
    lockConflicts left right = lockConflicts right left := by
  simp [lockConflicts, Bool.or_comm]

variable {lock : LockState} {holder : LockHolder} {byte : ℕ} {key : ℕ} {lockType : LockAccess}

theorem holds_insert {locks : BTreeMap ℕ LockState} (h : locks.get? key = none) :
    Holds (locks.insert key lock) holder lockType byte ↔
      (lock.holder = holder ∧ Covered lock.ranges lockType byte) ∨
        Holds locks holder lockType byte := by
  constructor
  · intro ⟨place, found, hfound, hrest⟩
    rcases get?_insert_eq_some hfound with ⟨hplace, rfl⟩ | ⟨-, hfound⟩
    · exact .inl hrest
    · exact .inr ⟨place, found, hfound, hrest⟩
  · intro hheld
    rcases hheld with hrest | ⟨place, found, hfound, hrest⟩
    · exact ⟨key, lock, get?_insert_self _ _ _, hrest⟩
    · refine ⟨place, found, ?_, hrest⟩
      rw [get?_insert_of_ne]
      · exact hfound
      · intro hplace
        rw [hplace, h] at hfound
        cases hfound

/-! ### The search for conflicts -/

/-- Another holder of the file has a byte of the range with a conflicting type. -/
def Contended (state : V4State) (holder : LockHolder) (access : LockAccess) (offset length : ℕ) :
    Prop :=
  ∃ rival lockType byte, rival.fileId = holder.fileId ∧ rival ≠ holder ∧
    Holds state.locks rival lockType byte ∧ InRange offset length byte ∧
    lockConflicts lockType access = true

variable {state : V4State} {access : LockAccess} {offset length : ℕ}

theorem deniedBy_isSome_iff (h : LockTable state) (hrequest : offset < lockEnd offset length) :
    (state.deniedBy holder access offset length).isSome ↔
      Contended state holder access offset length := by
  have hother : ∀ lock : LockState, ¬(lock.fileId ≠ holder.fileId ∨
      (lock.clientid = holder.clientid ∧ lock.owner = holder.owner)) ↔
      lock.holder.fileId = holder.fileId ∧ lock.holder ≠ holder := by
    intro lock
    obtain ⟨_, _, _⟩ := holder
    simp only [LockState.holder, ne_eq, LockHolder.mk.injEq, not_or, not_not]
    tauto
  simp only [deniedBy, isSome_findSome?, any_eq_true, mem_values_iff]
  constructor
  · intro ⟨lock, ⟨key, hlock⟩, hfound⟩
    split_ifs at hfound with hskip
    · cases hfound
    · obtain ⟨hfile, hne⟩ := (hother lock).mp hskip
      simp only [Option.isSome_map, find?_isSome, Bool.and_eq_true] at hfound
      obtain ⟨range, hrange, hover, hconflict⟩ := hfound
      obtain ⟨byte, hin, hreq⟩ :=
        (lockOverlaps_iff (h.valid key lock hlock range hrange) hrequest).mp hover
      exact ⟨lock.holder, range.lockType, byte, hfile, hne,
        ⟨key, lock, hlock, rfl, range, hrange, rfl, hin⟩, hreq, hconflict⟩
  · intro ⟨rival, lockType, byte, hfile, hne, ⟨key, lock, hlock, hholder, hcovered⟩, hreq,
      hconflict⟩
    obtain ⟨range, hrange, htype, hin⟩ := hcovered
    refine ⟨lock, ⟨key, hlock⟩, ?_⟩
    rw [← hholder] at hfile hne
    rw [if_neg ((hother lock).mpr ⟨hfile, hne⟩)]
    simp only [Option.isSome_map, find?_isSome, Bool.and_eq_true]
    refine ⟨range, hrange, ?_, by rw [htype]; exact hconflict⟩
    exact (lockOverlaps_iff (h.valid key lock hlock range hrange) hrequest).mpr ⟨byte, hin, hreq⟩

/-! ### The checks before the table changes -/

variable {cursor : Cursor} {stateid : Stateid}

theorem validateStateid_ok {required : Option ℕ} {opened : OpenState}
    (h : state.validateStateid stateid cursor required = .ok (some opened)) :
    state.opens.get? stateid.other = some opened ∧ cursor.clientid = some opened.clientid := by
  unfold validateStateid at h
  split_ifs at h
  · cases h
  · split at h
    · cases h
    · next found hfound =>
        split_ifs at h with hclient
        cases h
        exact ⟨hfound, not_not.mp hclient⟩

variable {server : Server} {file : Except Status ℕ} {target : Option ℕ}

/-- A request that passes the checks of LOCK has a valid range and a known client. It
adds to a lock state of the holder, or to a new one of a live open of the client and
file. -/
theorem lockTarget_ok {lockType : ℕ} {reclaim : Bool} {locker : Locker} {openOther : ℕ}
    (hkeyed : ∀ key lock, state.locks.get? key = some lock → lock.stateid.other = key)
    (h : state.lockTarget server lockType reclaim offset length locker cursor file =
      .ok (access, holder, openOther, target)) :
    validLockRange offset length = true ∧ holder.clientid ∈ state.clients.keys ∧
      (∀ key, target = some key → ∃ lock, state.locks.get? key = some lock ∧ lock.holder = holder) ∧
      (target = none → ∃ key opened, state.opens.get? key = some opened ∧
        opened.stateid.other = openOther ∧ opened.clientid = holder.clientid ∧
        opened.fileId = holder.fileId) := by
  unfold lockTarget at h
  simp only [bind_eq_ok, okOr_eq_ok, failIf_eq_ok] at h
  obtain ⟨_, _, _, _, _, hvalid, clientid, hclient, client, hknown, _, _, _, _, h⟩ := h
  have hmem : clientid ∈ state.clients.keys := mem_keys_iff.mpr ⟨client, hknown⟩
  split_ifs at h with hnew
  · simp only [bind_eq_ok, okOr_eq_ok, failIf_eq_ok, pure_eq_ok, Prod.mk.injEq] at h
    obtain ⟨stateid, _, _, hvalidated, opened, hopened, _, hfile, rfl, rfl, rfl, rfl⟩ := h
    subst hopened
    obtain ⟨hget, hcursor⟩ := validateStateid_ok hvalidated
    rw [hclient, Option.some.injEq] at hcursor
    refine ⟨not_not.mp hvalid, hmem, ?_, ?_⟩
    · intro key hkey
      rw [Option.map_eq_some_iff] at hkey
      obtain ⟨lock, hfind, hother⟩ := hkey
      have hprop := find?_some hfind
      obtain ⟨place, hplace⟩ := mem_values_iff.mp (mem_of_find?_eq_some hfind)
      rw [← hother, hkeyed place lock hplace]
      simp only [Bool.and_eq_true, beq_iff_eq] at hprop
      obtain ⟨⟨⟨hc, hf⟩, _⟩, ho⟩ := hprop
      exact ⟨lock, hplace, by simp [LockState.holder, hc, hf, ho]⟩
    · intro _
      exact ⟨stateid.other, opened, hget, rfl, hcursor.symm, not_not.mp hfile⟩
  · simp only [bind_eq_ok, okOr_eq_ok, failIf_eq_ok, pure_eq_ok, Prod.mk.injEq] at h
    obtain ⟨_, _, _, _, lock, hlock, _, hsame, _, _, _, _, rfl, rfl, rfl, rfl⟩ := h
    simp only [not_or, ne_eq, not_not] at hsame
    refine ⟨not_not.mp hvalid, hmem, ?_, ?_⟩
    · intro key hkey
      cases hkey
      rw [hkeyed _ lock hlock]
      exact ⟨lock, hlock, by simp [LockState.holder, hsame.1, hsame.2]⟩
    · intro hnone
      cases hnone

theorem lockuTarget_ok (h : state.lockuTarget stateid offset length cursor file = .ok lock) :
    validLockRange offset length = true ∧ state.locks.get? stateid.other = some lock := by
  unfold lockuTarget at h
  simp only [bind_eq_ok, okOr_eq_ok, failIf_eq_ok, pure_eq_ok] at h
  obtain ⟨_, hvalid, _, _, _, _, _, _, _, hfound, _, _, _, _, _, _, rfl⟩ := h
  exact ⟨not_not.mp hvalid, hfound⟩

/-! ### Clearing and pushing a range -/

/-- What is left of the ranges when a range is taken out. -/
abbrev remaining (ranges : List LockRange) (offset length : ℕ) : List LockRange :=
  ranges.flatMap fun range => subtractLockRange range offset length

abbrev Outside (ranges : List LockRange) (offset length : ℕ) (lockType : LockAccess) (byte : ℕ) :
    Prop :=
  Covered ranges lockType byte ∧ ¬InRange offset length byte

/-- Valid ranges that cover the given bytes, and the last byte at most if all others are given. -/
def Spans (ranges : List LockRange) (bytes : LockAccess → ℕ → Prop) : Prop :=
  (∀ range ∈ ranges, ValidRange range) ∧ ∀ lockType byte,
    (bytes lockType byte → Covered ranges lockType byte) ∧
    (Covered ranges lockType byte → Absorbed (bytes lockType) byte)

variable {ranges : List LockRange}

theorem clear_spec (h : ∀ range ∈ ranges, ValidRange range)
    (hrequest : offset < lockEnd offset length) :
    Spans (remaining ranges offset length) (Outside ranges offset length) := by
  have hflat : ∀ lockType byte,
      Covered (remaining ranges offset length) lockType byte ↔
        ∃ range ∈ ranges, Covered (subtractLockRange range offset length) lockType byte := by
    intro lockType byte
    constructor
    · intro ⟨piece, hpiece, hrest⟩
      obtain ⟨range, hrange, hmem⟩ := mem_flatMap.mp hpiece
      exact ⟨range, hrange, piece, hmem, hrest⟩
    · intro ⟨range, hrange, piece, hmem, hrest⟩
      exact ⟨piece, mem_flatMap.mpr ⟨range, hrange, hmem⟩, hrest⟩
  constructor
  · intro piece hpiece
    obtain ⟨range, hrange, hmem⟩ := mem_flatMap.mp hpiece
    exact subtractLockRange_valid (h range hrange) hmem
  · intro lockType byte
    rw [hflat]
    constructor
    · intro ⟨⟨range, hrange, htype, hin⟩, hout⟩
      exact ⟨range, hrange, (covered_subtractLockRange (h range hrange) hrequest).mpr
        ⟨htype, .inl ⟨hin, hout⟩⟩⟩
    · intro ⟨range, hrange, hcovered⟩
      obtain ⟨htype, ⟨hin, hout⟩ | ⟨hzero, hend, hoffset, hlast⟩⟩ :=
        (covered_subtractLockRange (h range hrange) hrequest).mp hcovered
      · exact .inl ⟨⟨range, hrange, htype, hin⟩, hout⟩
      · refine .inr ⟨hlast, fun other hother => ⟨⟨range, hrange, htype, ?_⟩, ?_⟩⟩
        · unfold InRange
          unfold lastByte at hother
          omega
        · unfold InRange
          omega

variable {range : LockRange}

theorem push_spec (h : ∀ range ∈ ranges, ValidRange range) (hrange : ValidRange range) :
    Spans (coalesceLockRanges (remaining ranges range.offset range.length ++ [range]))
      fun lockType byte => Outside ranges range.offset range.length lockType byte ∨
        (lockType = range.lockType ∧ InRange range.offset range.length byte) := by
  obtain ⟨hpieces, hclear⟩ := clear_spec h hrange.1
  have hall : ∀ piece ∈ remaining ranges range.offset range.length ++ [range],
      ValidRange piece := by
    intro piece hpiece
    rcases mem_append.mp hpiece with hpiece | hpiece
    · exact hpieces piece hpiece
    · rw [mem_singleton.mp hpiece]
      exact hrange
  obtain ⟨hvalid, hbytes⟩ := coalesceLockRanges_spec hall
  have hone : ∀ lockType byte, Covered [range] lockType byte ↔
      lockType = range.lockType ∧ InRange range.offset range.length byte := by
    intro lockType byte
    rw [covered_cons, eq_comm]
    simp [covered_nil]
  refine ⟨hvalid, fun lockType byte => ⟨fun hbyte => ?_, fun hbyte => ?_⟩⟩
  · apply (hbytes lockType byte).1
    rw [covered_append, hone]
    exact hbyte.imp_left fun hkept => (hclear lockType byte).1 hkept
  · apply Absorbed.of_absorbed
    refine ((hbytes lockType byte).2 hbyte).mono fun b hb => ?_
    rw [covered_append, hone] at hb
    rcases hb with hb | hb
    · exact ((hclear lockType b).2 hb).mono fun c hc => .inl hc
    · exact .inl (.inr hb)

/-- A set of bytes that has the last byte if it has all the others. -/
def Whole (bytes : ℕ → Prop) : Prop := (∀ byte < lastByte, bytes byte) → bytes lastByte

variable {bytes : ℕ → Prop}

theorem Whole.of_absorbed (h : Whole bytes) (hb : Absorbed bytes byte) : bytes byte := by
  rcases hb with hb | ⟨rfl, hall⟩
  · exact hb
  · exact h hall

/-! ### The map after a request -/

def SetBytes (held : LockHolder → LockAccess → ℕ → Prop) (holder : LockHolder)
    (access : LockAccess) (offset length : ℕ) : LockHolder → LockAccess → ℕ → Prop :=
  fun other lockType byte =>
    (other = holder ∧ InRange offset length byte ∧ lockType = access) ∨
      (¬(other = holder ∧ InRange offset length byte) ∧ held other lockType byte)

def ClearBytes (held : LockHolder → LockAccess → ℕ → Prop) (holder : LockHolder)
    (offset length : ℕ) : LockHolder → LockAccess → ℕ → Prop :=
  fun other lockType byte =>
    ¬(other = holder ∧ InRange offset length byte) ∧ held other lockType byte

/-- A lock state keeps its identity and covers exactly the given bytes. -/
structure Rewritten (lock after : LockState) (bytes : LockAccess → ℕ → Prop) : Prop where
  holder : after.holder = lock.holder
  other : after.stateid.other = lock.stateid.other
  valid : ∀ range ∈ after.ranges, ValidRange range
  bytes : ∀ lockType byte, Covered after.ranges lockType byte ↔ bytes lockType byte

/-- A table with the same keys whose lock states are rewritten one by one. -/
structure Rewrites (before after : BTreeMap ℕ LockState)
    (bytes : ℕ → LockState → LockAccess → ℕ → Prop) : Prop where
  back : ∀ key lock, after.get? key = some lock →
    ∃ old, before.get? key = some old ∧ Rewritten old lock (bytes key old)
  forth : ∀ key old, before.get? key = some old →
    ∃ lock, after.get? key = some lock ∧ Rewritten old lock (bytes key old)

theorem Spans.rewritten {after : LockState} {bytes : LockAccess → ℕ → Prop}
    (h : Spans after.ranges bytes) (hwhole : ∀ lockType, Whole (bytes lockType))
    (hholder : after.holder = lock.holder) (hother : after.stateid.other = lock.stateid.other) :
    Rewritten lock after bytes := by
  refine ⟨hholder, hother, h.1, fun lockType byte => ⟨fun hcovered => ?_, (h.2 lockType byte).1⟩⟩
  exact (hwhole lockType).of_absorbed ((h.2 lockType byte).2 hcovered)

variable {before after : BTreeMap ℕ LockState} {bytes : ℕ → LockState → LockAccess → ℕ → Prop}

theorem Rewrites.of_get? {f : ℕ → LockState → LockState}
    (hget : ∀ key, after.get? key = (before.get? key).map (f key))
    (hf : ∀ key old, before.get? key = some old → Rewritten old (f key old) (bytes key old)) :
    Rewrites before after bytes where
  back key lock hlock := by
    rw [hget, Option.map_eq_some_iff] at hlock
    obtain ⟨old, hold, rfl⟩ := hlock
    exact ⟨old, hold, hf key old hold⟩
  forth key old hold := ⟨f key old, by rw [hget, hold, Option.map_some], hf key old hold⟩

theorem Rewrites.holds_iff (h : Rewrites before after bytes) :
    Holds after holder lockType byte ↔
      ∃ key lock, before.get? key = some lock ∧ lock.holder = holder ∧
        bytes key lock lockType byte := by
  constructor
  · intro ⟨key, lock, hlock, hholder, hcovered⟩
    obtain ⟨old, hold, hsame⟩ := h.back key lock hlock
    exact ⟨key, old, hold, hsame.holder.symm.trans hholder, (hsame.bytes lockType byte).mp hcovered⟩
  · intro ⟨key, old, hold, hholder, hbytes⟩
    obtain ⟨lock, hlock, hsame⟩ := h.forth key old hold
    exact ⟨key, lock, hlock, hsame.holder.trans hholder, (hsame.bytes lockType byte).mpr hbytes⟩

def afterGrant (holder : LockHolder) (target : Option ℕ) (range : LockRange) (key : ℕ)
    (lock : LockState) (lockType : LockAccess) (byte : ℕ) : Prop :=
  (Covered lock.ranges lockType byte ∧
      ¬(lock.holder = holder ∧ InRange range.offset range.length byte)) ∨
    (target = some key ∧ lockType = range.lockType ∧ InRange range.offset range.length byte)

/-- What a grant makes of a lock state. The target of the holder also receives the range. -/
def granted (holder : LockHolder) (target : Option ℕ) (range : LockRange) (key : ℕ)
    (lock : LockState) : LockState :=
  if lock.holder = holder then
    let cleared := { lock with ranges := remaining lock.ranges range.offset range.length }
    if target = some key then cleared.push range else cleared
  else lock

/-! ### One request -/

/-- The part of `LockTable` that concerns one lock state at a time. -/
def V4State.Tracked (state : V4State) : Prop :=
  ∀ key lock, state.locks.get? key = some lock → lock.stateid.other = key ∧
    key < state.seed * 2 ^ 64 + state.nextStateid ∧ ∀ range ∈ lock.ranges, ValidRange range

section

variable (h : LockTable state)
include h

theorem LockTable.of_set {after : V4State} (htracked : after.Tracked)
    (hset : Holds after.locks = SetBytes (Holds state.locks) holder access offset length)
    (hfree : ¬Contended state holder access offset length) : LockTable after where
  keyed key lock hlock := (htracked key lock hlock).1
  issued key lock hlock := (htracked key lock hlock).2.1
  valid key lock hlock := (htracked key lock hlock).2.2
  single other first second byte hfirst hsecond := by
    rw [hset] at hfirst hsecond
    rcases hfirst with ⟨hsame, hin, hfirst⟩ | ⟨hout, hfirst⟩
    · rcases hsecond with ⟨_, _, hsecond⟩ | ⟨hout, _⟩
      · rw [hfirst, hsecond]
      · exact absurd ⟨hsame, hin⟩ hout
    · rcases hsecond with ⟨hsame, hin, _⟩ | ⟨_, hsecond⟩
      · exact absurd ⟨hsame, hin⟩ hout
      · exact h.single other first second byte hfirst hsecond
  compatible left right first second byte hfile hne hleft hright := by
    rw [hset] at hleft hright
    rcases hleft with ⟨hsame, hin, hleft⟩ | ⟨_, hleft⟩
    · rcases hright with ⟨hother, _, _⟩ | ⟨_, hright⟩
      · exact absurd (hsame.trans hother.symm) hne
      · rw [hleft, lockConflicts_comm]
        subst hsame
        exact Bool.eq_false_iff.mpr fun hconflict =>
          hfree ⟨right, second, byte, hfile.symm, hne.symm, hright, hin, hconflict⟩
    · rcases hright with ⟨hsame, hin, hright⟩ | ⟨_, hright⟩
      · rw [hright]
        subst hsame
        exact Bool.eq_false_iff.mpr fun hconflict =>
          hfree ⟨left, first, byte, hfile, hne, hleft, hin, hconflict⟩
      · exact h.compatible left right first second byte hfile hne hleft hright

theorem LockTable.of_clear {after : V4State} (htracked : after.Tracked)
    (hclear : Holds after.locks = ClearBytes (Holds state.locks) holder offset length) :
    LockTable after where
  keyed key lock hlock := (htracked key lock hlock).1
  issued key lock hlock := (htracked key lock hlock).2.1
  valid key lock hlock := (htracked key lock hlock).2.2
  single other first second byte hfirst hsecond := by
    rw [hclear] at hfirst hsecond
    exact h.single other first second byte hfirst.2 hsecond.2
  compatible left right first second byte hfile hne hleft hright := by
    rw [hclear] at hleft hright
    exact h.compatible left right first second byte hfile hne hleft.2 hright.2

theorem Rewrites.tracked (hrewrites : Rewrites state.locks after bytes) :
    { state with locks := after }.Tracked := by
  intro key lock hlock
  obtain ⟨old, hold, hsame⟩ := hrewrites.back key lock hlock
  exact ⟨hsame.other.trans (h.keyed key old hold), h.issued key old hold, hsame.valid⟩

end

section

variable (htarget : ∀ key, target = some key →
    ∃ lock, state.locks.get? key = some lock ∧ lock.holder = holder)
include htarget

theorem Rewrites.holds_grant (hrewrites : Rewrites state.locks after (afterGrant holder target range))
    {other : LockHolder} :
    Holds after other lockType byte ↔ (target.isSome ∧ other = holder ∧
        InRange range.offset range.length byte ∧ lockType = range.lockType) ∨
      (¬(other = holder ∧ InRange range.offset range.length byte) ∧
        Holds state.locks other lockType byte) := by
  rw [hrewrites.holds_iff]
  constructor
  · rintro ⟨key, lock, hlock, rfl, ⟨hcovered, hout⟩ | ⟨hkey, htype, hin⟩⟩
    · exact .inr ⟨hout, key, lock, hlock, rfl, hcovered⟩
    · obtain ⟨own, hown, hholder⟩ := htarget key hkey
      rw [hlock] at hown
      cases hown
      exact .inl ⟨by simp [hkey], hholder, hin, htype⟩
  · rintro (⟨hsome, rfl, hin, htype⟩ | ⟨hout, key, lock, hlock, rfl, hcovered⟩)
    · obtain ⟨key, hkey⟩ := Option.isSome_iff_exists.mp hsome
      obtain ⟨own, hown, hholder⟩ := htarget key hkey
      exact ⟨key, own, hown, hholder, .inr ⟨hkey, htype, hin⟩⟩
    · exact ⟨key, lock, hlock, rfl, .inl ⟨hcovered, hout⟩⟩

variable (h : LockTable state) (hrange : ValidRange range)
  (hwhole : ∀ key lock, state.locks.get? key = some lock → lock.holder = holder →
    ∀ lockType, Whole (afterGrant holder target range key lock lockType))
include h hrange hwhole

theorem rewrites_grant (hget : ∀ key, after.get? key = (state.locks.get? key).map (granted holder target range key)) :
    Rewrites state.locks after (afterGrant holder target range) := by
  refine .of_get? hget fun key lock hlock => ?_
  have hvalid := h.valid key lock hlock
  unfold granted
  split_ifs with hholder hkey
  · have hbytes : afterGrant holder target range key lock = fun lockType byte =>
        Outside lock.ranges range.offset range.length lockType byte ∨
          (lockType = range.lockType ∧ InRange range.offset range.length byte) := by
      funext lockType byte
      simp [afterGrant, hholder, hkey]
    have hw := hwhole key lock hlock hholder
    rw [hbytes] at hw ⊢
    exact (push_spec hvalid hrange).rewritten hw rfl rfl
  · have hbytes : afterGrant holder target range key lock =
        Outside lock.ranges range.offset range.length := by
      funext lockType byte
      simp [afterGrant, hholder, hkey]
    have hw := hwhole key lock hlock hholder
    rw [hbytes] at hw ⊢
    exact (clear_spec hvalid hrange.1).rewritten hw rfl rfl
  · have hkey : target ≠ some key := by
      intro hkey
      obtain ⟨own, hown, hsame⟩ := htarget key hkey
      rw [hlock] at hown
      cases hown
      exact hholder hsame
    exact ⟨rfl, rfl, hvalid, by simp [afterGrant, hholder, hkey]⟩

theorem grantRange_spec (openOther : ℕ) (hfree : ¬Contended state holder range.lockType range.offset range.length) :
    state.grantRange holder openOther target range = (.failed .resource, state) ∨
      ∃ stateid after, state.grantRange holder openOther target range = (.done stateid, after) ∧
        LockTable after ∧ Holds after.locks =
          SetBytes (Holds state.locks) holder range.lockType range.offset range.length := by
  have hget : ∀ key, (clearRange state.locks holder range.offset range.length).get? key =
      (state.locks.get? key).map (granted holder none range key) := fun key => by
    rw [clearRange, get?_mapValues]
    rfl
  obtain ⟨locks, hlocks⟩ :
      ∃ locks, clearRange state.locks holder range.offset range.length = locks := ⟨_, rfl⟩
  rw [hlocks] at hget
  unfold grantRange
  cases target with
  | some key =>
    obtain ⟨own, hown, hholder⟩ := htarget key rfl
    dsimp only
    rw [hlocks, hget, hown, Option.map_some]
    refine .inr ⟨_, _, rfl, ?_⟩
    have hrewrites : Rewrites state.locks
        (locks.insert key ((granted holder none range key own).push range))
        (afterGrant holder (some key) range) := by
      refine rewrites_grant htarget h hrange hwhole fun place => ?_
      rw [get?_insert, hget]
      split_ifs with hplace
      · rw [hplace, hown]
        simp [granted, hholder]
      · congr 1
        funext lock
        simp [granted, Ne.symm hplace]
    have hset : Holds (locks.insert key ((granted holder none range key own).push range)) =
        SetBytes (Holds state.locks) holder range.lockType range.offset range.length := by
      funext other lockType byte
      rw [Rewrites.holds_grant htarget hrewrites]
      simp [SetBytes]
    exact ⟨h.of_set (hrewrites.tracked h) hset hfree, hset⟩
  | none =>
    unfold allocateStateid
    split_ifs with hfull
    · exact .inl rfl
    · refine .inr ⟨_, _, rfl, ?_⟩
      dsimp only
      rw [hlocks]
      have hrewrites := rewrites_grant htarget h hrange hwhole hget
      -- The new stateid is above every stateid of the table.
      have hfresh : locks.get? (serverStateid 1 state.seed state.nextStateid).other = none := by
        rw [Option.eq_none_iff_forall_ne_some]
        intro lock hlock
        have hbelow := (hrewrites.tracked h _ lock hlock).2.1
        simp only [serverStateid] at hbelow
        omega
      set fresh : LockState := { stateid := serverStateid 1 state.seed state.nextStateid
                                 clientid := holder.clientid, fileId := holder.fileId, openOther
                                 owner := holder.owner, ranges := [range] }
      have hset : Holds (locks.insert (serverStateid 1 state.seed state.nextStateid).other fresh) =
          SetBytes (Holds state.locks) holder range.lockType range.offset range.length := by
        funext other lockType byte
        rw [holds_insert hfresh, Rewrites.holds_grant htarget hrewrites, covered_cons]
        have hholder : fresh.holder = holder := rfl
        simp only [hholder, covered_nil, or_false, Option.isSome_none, Bool.false_eq_true, false_and,
          false_or, SetBytes, eq_comm, and_comm]
      refine ⟨h.of_set (fun key lock hlock => ?_) hset hfree, hset⟩
      dsimp only at hlock ⊢
      rcases get?_insert_eq_some hlock with ⟨hkey, rfl⟩ | ⟨-, hlock⟩
      · refine ⟨hkey.symm, ?_, fun piece hpiece => mem_singleton.mp hpiece ▸ hrange⟩
        rw [hkey]
        simp only [serverStateid]
        omega
      · obtain ⟨hother, hbelow, hvalid⟩ := hrewrites.tracked h _ lock hlock
        dsimp only at hbelow
        exact ⟨hother, by omega, hvalid⟩

end

/-- The condition under which a request is exact. No lock state is left with every byte
but the last one held with one type, and a released range meets no bytes that the
owner holds through another lock state. -/
def Spared (server : Server) (state : V4State) : LockRequest → Prop
  | .lock lockType reclaim offset length locker cursor file =>
    ∀ access holder openOther target,
      state.lockTarget server lockType reclaim offset length locker cursor file =
        .ok (access, holder, openOther, target) →
      state.deniedBy holder access offset length = none →
      state.grantedRanges holder.fileId < max server.maxLocksPerFile 1 →
      ∀ key lock, state.locks.get? key = some lock → lock.holder = holder → ∀ held,
        Whole (afterGrant holder target ⟨offset, length, access⟩ key lock held)
  | .lockt .. => True
  | .locku stateid offset length cursor file =>
    ∀ lock, state.lockuTarget stateid offset length cursor file = .ok lock →
      (∀ held, Whole fun byte => Covered lock.ranges held byte ∧ ¬InRange offset length byte) ∧
      ∀ key twin, state.locks.get? key = some twin → key ≠ stateid.other →
        twin.holder = lock.holder → ∀ held byte, Covered twin.ranges held byte →
        ¬InRange offset length byte

section

variable {server : Server} {state : V4State} {lockType : ℕ} {reclaim : Bool}
  {offset length : Fin (2 ^ 64)} {locker : Locker} {cursor : Cursor} {file : Except Status ℕ}

theorem request_lt {offset length : Fin (2 ^ 64)} (h : validLockRange offset length = true)
    (access : LockAccess) :
    ValidRange { offset := offset, length := length, lockType := access } := by
  apply validRange_of_request access _ h
  have hlt := offset.isLt
  unfold lastByte
  omega

/-- LOCK answers that the range is denied exactly when another holder has a byte of it
with a conflicting type. -/
theorem lock_denied_iff (h : LockTable state) {access : LockAccess} {holder : LockHolder}
    {openOther : ℕ} {target : Option ℕ}
    (htarget : state.lockTarget server lockType reclaim offset length locker cursor file =
      .ok (access, holder, openOther, target)) :
    (∃ range clientid owner, (state.lock server lockType reclaim offset length locker cursor
      file).1 = .denied range clientid owner) ↔ Contended state holder access offset length := by
  obtain ⟨hvalid, _, _, _⟩ := lockTarget_ok h.keyed htarget
  rw [← deniedBy_isSome_iff h (request_lt hvalid access).1]
  unfold lock
  rw [htarget]
  cases hdenied : state.deniedBy holder access offset length with
  | some denied =>
    obtain ⟨_, held⟩ := denied
    simp [hdenied]
  | none =>
    simp only [hdenied, Option.isSome_none, Bool.false_eq_true, iff_false, not_exists]
    intro range clientid owner
    split_ifs
    · simp
    · unfold grantRange
      cases target with
      | some | none =>
        dsimp only
        split <;> simp

theorem lock_spec (h : LockTable state)
    (hspared : Spared server state (.lock lockType reclaim offset length locker cursor file)) :
    let result := state.lock server lockType reclaim offset length locker cursor file
    result.2 = state ∧ (∀ stateid, result.1 ≠ .done stateid) ∨
      ∃ access holder openOther target,
        state.lockTarget server lockType reclaim offset length locker cursor file =
          .ok (access, holder, openOther, target) ∧ LockTable result.2 ∧
        Holds result.2.locks = SetBytes (Holds state.locks) holder access offset length := by
  unfold lock
  cases htarget : state.lockTarget server lockType reclaim offset length locker cursor file with
  | error => exact .inl ⟨rfl, by simp⟩
  | ok found =>
    obtain ⟨access, holder, openOther, target⟩ := found
    obtain ⟨hvalid, _, hexisting, _⟩ := lockTarget_ok h.keyed htarget
    have hrange := request_lt hvalid access
    dsimp only
    cases hdenied : state.deniedBy holder access offset length with
    | some => exact .inl ⟨rfl, by simp⟩
    | none =>
      dsimp only
      split_ifs with hfull
      · exact .inl ⟨rfl, by simp⟩
      · have hfree : ¬Contended state holder access offset length := by
          rw [← deniedBy_isSome_iff h hrange.1, hdenied]
          simp
        have hwhole := hspared access holder openOther target htarget hdenied
          (Nat.lt_of_not_le hfull)
        rcases grantRange_spec hexisting h hrange hwhole openOther hfree with
          hfailed | ⟨stateid, after, hgrant, htable, hset⟩
        · rw [hfailed]
          exact .inl ⟨rfl, by simp⟩
        · rw [hgrant]
          exact .inr ⟨access, holder, openOther, target, rfl, htable, hset⟩

theorem locku_spec (h : LockTable state) {stateid : Stateid}
    (hspared : Spared server state (.locku stateid offset length cursor file)) :
    let result := state.locku stateid offset length cursor file
    result.2 = state ∧ (∀ answer, result.1 ≠ .done answer) ∨
      ∃ lock, state.lockuTarget stateid offset length cursor file = .ok lock ∧ LockTable result.2 ∧
        Holds result.2.locks = ClearBytes (Holds state.locks) lock.holder offset length := by
  unfold locku
  cases htarget : state.lockuTarget stateid offset length cursor file with
  | error => exact .inl ⟨rfl, by simp⟩
  | ok lock =>
    obtain ⟨hvalid, hlock⟩ := lockuTarget_ok htarget
    obtain ⟨hwhole, hothers⟩ := hspared lock htarget
    set cleared : LockState :=
      { lock with
        ranges := lock.ranges.flatMap fun range => subtractLockRange range offset length
        stateid := { lock.stateid with seqid := bumpStateidSeq lock.stateid.seqid } }
    have hcleared : Rewritten lock cleared (Outside lock.ranges offset length) :=
      (clear_spec (h.valid _ lock hlock) (request_lt hvalid .read).1).rewritten hwhole rfl rfl
    have hrewrites : Rewrites state.locks (state.locks.insert stateid.other cleared)
        fun key held lockType byte => Covered held.ranges lockType byte ∧
          ¬(key = stateid.other ∧ InRange offset length byte) := by
      refine .of_get? (f := fun key old => if key = stateid.other then cleared else old)
        (fun key => ?_) fun key old hold => ?_
      · rw [get?_insert]
        split_ifs with hkey
        · rw [hkey, hlock, Option.map_some]
        · exact Option.map_id'.symm
      · split_ifs with hkey
        · subst hkey
          rw [hlock] at hold
          cases hold
          simpa only [true_and] using hcleared
        · exact ⟨rfl, rfl, h.valid key old hold, by simp [hkey]⟩
    have hclear : Holds (state.locks.insert stateid.other cleared) =
        ClearBytes (Holds state.locks) lock.holder offset length := by
      funext other held byte
      apply propext
      rw [hrewrites.holds_iff]
      constructor
      · intro ⟨key, old, hold, hsame, hcovered, hout⟩
        refine ⟨fun ⟨hholder, hin⟩ => ?_, key, old, hold, hsame, hcovered⟩
        by_cases hplace : key = stateid.other
        · exact hout ⟨hplace, hin⟩
        · exact hothers key old hold hplace (hsame.trans hholder) held byte hcovered hin
      · intro ⟨hout, key, old, hold, hsame, hcovered⟩
        refine ⟨key, old, hold, hsame, hcovered, fun ⟨hplace, hin⟩ => hout ⟨?_, hin⟩⟩
        subst hplace
        rw [hlock] at hold
        cases hold
        exact hsame.symm
    refine .inr ⟨lock, rfl, ?_, hclear⟩
    exact h.of_clear (hrewrites.tracked h) hclear

end

/-! ### Runs -/

/-- Lock requests that meet the condition, from an empty lock table. Between them other
operations may change the clients and the opens. -/
inductive LockRun (server : Server) : V4State → Prop
  | start {state : V4State} : state.locks = ∅ → LockRun server state
  | other {state after : V4State} : LockRun server state → after.locks = state.locks →
      after.seed = state.seed → state.nextStateid ≤ after.nextStateid → LockRun server after
  | request {state : V4State} {request : LockRequest} : LockRun server state →
      Spared server state request → LockRun server (request.perform server state)

theorem lockTable_empty (h : state.locks = ∅) : LockTable state := by
  have hnone : ∀ key lock, ¬state.locks.get? key = some lock := by
    intro key lock
    rw [h]
    simp
  constructor
  · exact fun key lock hlock => absurd hlock (hnone key lock)
  · exact fun key lock hlock => absurd hlock (hnone key lock)
  · exact fun key lock hlock => absurd hlock (hnone key lock)
  · exact fun _ _ _ _ ⟨key, lock, hlock, _⟩ => absurd hlock (hnone key lock)
  · exact fun _ _ _ _ _ _ _ ⟨key, lock, hlock, _⟩ => absurd hlock (hnone key lock)

theorem LockTable.perform (h : LockTable state) {request : LockRequest}
    (hspared : Spared server state request) :
    LockTable (request.perform server state) := by
  cases request with
  | lock lockType reclaim offset length locker cursor file =>
    show LockTable (state.lock server lockType reclaim offset length locker cursor file).2
    rcases lock_spec h hspared with ⟨hsame, _⟩ | ⟨_, _, _, _, _, htable, _⟩
    · rw [hsame]
      exact h
    · exact htable
  | lockt => exact h
  | locku stateid offset length cursor file =>
    show LockTable (state.locku stateid offset length cursor file).2
    rcases locku_spec h hspared with ⟨hsame, _⟩ | ⟨_, _, htable, _⟩
    · rw [hsame]
      exact h
    · exact htable

theorem LockRun.lockTable (h : LockRun server state) : LockTable state := by
  induction h with
  | start hempty => exact lockTable_empty hempty
  | other _ hlocks hseed hnext ih =>
    constructor
    · rw [hlocks]
      exact ih.keyed
    · intro key lock hlock
      rw [hlocks] at hlock
      have hbelow := ih.issued key lock hlock
      rw [hseed]
      omega
    · rw [hlocks]
      exact ih.valid
    · rw [hlocks]
      exact ih.single
    · rw [hlocks]
      exact ih.compatible
  | request _ hspared ih => exact ih.perform hspared

/-- In every run whose requests meet the condition the lock table is a map from bytes
and owners to types, without conflicts between owners. LOCK is denied exactly when
another owner holds a byte of its range with a conflicting type, and so is LOCKT.
A granted LOCK sets its range for the owner, LOCKU clears it, and everything else
stays as it was. -/
theorem byte_range_locks_refine_map {server : Server} {state : V4State} (h : LockRun server state) :
    (∀ holder lockType other byte, Holds state.locks holder lockType byte →
      Holds state.locks holder other byte → lockType = other) ∧
    (∀ holder rival lockType other byte, holder.fileId = rival.fileId → holder ≠ rival →
      Holds state.locks holder lockType byte → Holds state.locks rival other byte →
      lockConflicts lockType other = false) ∧
    (∀ lockType reclaim (offset length : Fin (2 ^ 64)) locker cursor file,
      (∀ access holder openOther target,
        state.lockTarget server lockType reclaim offset length locker cursor file =
          .ok (access, holder, openOther, target) →
        ((∃ range clientid owner, (state.lock server lockType reclaim offset length locker cursor
            file).1 = .denied range clientid owner) ↔
          ∃ rival held byte, rival.fileId = holder.fileId ∧ rival ≠ holder ∧
            Holds state.locks rival held byte ∧ InRange offset length byte ∧
            lockConflicts held access = true)) ∧
      (Spared server state (.lock lockType reclaim offset length locker cursor file) →
        (state.lock server lockType reclaim offset length locker cursor file).2 = state ∧
          (∀ stateid, (state.lock server lockType reclaim offset length locker cursor file).1 ≠
            .done stateid) ∨
        ∃ access holder openOther target,
          state.lockTarget server lockType reclaim offset length locker cursor file =
            .ok (access, holder, openOther, target) ∧
          ∀ other held byte,
            Holds (state.lock server lockType reclaim offset length locker cursor file).2.locks
              other held byte ↔
            SetBytes (Holds state.locks) holder access offset length other held byte)) ∧
    (∀ lockType (offset length : Fin (2 ^ 64)) owner cursor file access holder,
      V4State.locktHolder lockType offset length owner cursor file = .ok (access, holder) →
      ((∃ range clientid rival, state.lockt lockType offset length owner cursor file =
          some (.denied range clientid rival)) ↔
        ∃ rival held byte, rival.fileId = holder.fileId ∧ rival ≠ holder ∧
          Holds state.locks rival held byte ∧ InRange offset length byte ∧
          lockConflicts held access = true)) ∧
    (∀ stateid (offset length : Fin (2 ^ 64)) cursor file,
      Spared server state (.locku stateid offset length cursor file) →
      (state.locku stateid offset length cursor file).2 = state ∧
        (∀ answer, (state.locku stateid offset length cursor file).1 ≠ .done answer) ∨
      ∃ lock, state.lockuTarget stateid offset length cursor file = .ok lock ∧ ∀ other held byte,
          Holds (state.locku stateid offset length cursor file).2.locks other held byte ↔
          ClearBytes (Holds state.locks) lock.holder offset length other held byte) := by
  have htable := h.lockTable
  refine ⟨htable.single, htable.compatible, ?_, ?_, ?_⟩
  · intro lockType reclaim offset length locker cursor file
    constructor
    · intro access holder openOther target htarget
      exact lock_denied_iff htable htarget
    · intro hspared
      rcases lock_spec htable hspared with hsame | ⟨access, holder, openOther, target, ht, _, hset⟩
      · exact .inl hsame
      · exact .inr ⟨access, holder, openOther, target, ht, fun _ _ _ => by rw [hset]⟩
  · intro lockType offset length owner cursor file access holder hholder
    have hvalid : validLockRange offset length = true := by
      unfold V4State.locktHolder at hholder
      simp only [bind_eq_ok, failIf_eq_ok] at hholder
      obtain ⟨_, _, _, hvalid, _⟩ := hholder
      exact not_not.mp hvalid
    refine Iff.trans ?_ (deniedBy_isSome_iff htable (request_lt hvalid access).1)
    unfold V4State.lockt
    rw [hholder]
    cases hdenied : state.deniedBy holder access offset length <;> simp [hdenied]
  · intro stateid offset length cursor file hspared
    rcases locku_spec htable hspared with hsame | ⟨lock, hlock, _, hclear⟩
    · exact .inl hsame
    · exact .inr ⟨lock, hlock, fun _ _ _ => by rw [hclear]⟩

/-! ### The last byte -/

/-- A server without limits that matter here. -/
def sampleServer : Server :=
  { requireReclaimComplete := false, maxSessions := 8, maxForeSlots := 8, maxOperations := 8
    maxRequestSize := 4096, maxCachedResponseSize := 4096, maxOpensPerFile := 8
    maxLocksPerFile := 8, leaseDuration := 90, verifierTag := 0 }

/-- One client with file 7 open for reading and writing. -/
def sampleState : V4State :=
  { V4State.start 0 with
    nextStateid := 2
    clients := BTreeMap.ofList [(1,
      { owner := "c", verifier := "v", id := 1, confirmed := true, sequence := 1, renewed := 0
        reclaimComplete := true, createSessionReplay := none })]
    opens := BTreeMap.ofList [(1,
      { stateid := ⟨1, 1⟩, clientid := 1, handleId := 3, fileId := 7, readHandle := true
        writeHandle := true, access := 3, deny := 0, owner := "o" })] }

def sampleCursor : Cursor := { clientid := some 1, current := some 7 }

/-- A write lock of the owner on the given range through the sample open. -/
def sampleLock (owner : String) (offset length : Fin (2 ^ 64)) : LockRequest :=
  .lock 2 false offset length
    { newLockOwner := true, openStateid := some ⟨1, 1⟩, lockStateid := none, owner }
    sampleCursor (.ok 7)

/-- The owner locks the whole file and then unlocks its last byte. LOCKU succeeds, but
what remains has the length that means up to the end of the file. -/
theorem unlock_keeps_last_byte :
    let locked := (sampleLock "a" 0 (2 ^ 64 - 1)).perform sampleServer sampleState
    let unlocked := locked.locku ⟨1, 2⟩ (2 ^ 64 - 1 : Fin (2 ^ 64)) (2 ^ 64 - 1 : Fin (2 ^ 64))
      sampleCursor (.ok 7)
    unlocked.1 = .done ⟨2, 2⟩ ∧ InRange (2 ^ 64 - 1) u64Max lastByte ∧
      Holds unlocked.2.locks ⟨7, 1, "a"⟩ .write lastByte := by
  refine ⟨by decide +kernel, by unfold InRange lockEnd lastByte u64Max; simp, 2,
    ⟨⟨2, 2⟩, 1, 7, 1, "a", [⟨0, u64Max, .write⟩]⟩, by decide +kernel, rfl, ?_⟩
  refine ⟨⟨0, u64Max, .write⟩, by simp, rfl, ?_⟩
  unfold InRange lockEnd lastByte u64Max
  simp

/-- After one owner has locked the first ten bytes, a lock on one of them by another
owner is denied. -/
theorem byte_range_locks_refine_map_denied :
    let locked := (sampleLock "a" 0 10).perform sampleServer sampleState
    LockRun sampleServer locked ∧
      ∃ range clientid owner, (locked.lock sampleServer 2 false (5 : Fin (2 ^ 64))
        (1 : Fin (2 ^ 64))
        { newLockOwner := true, openStateid := some ⟨1, 1⟩, lockStateid := none, owner := "b" }
        sampleCursor (.ok 7)).1 = .denied range clientid owner := by
  have hspared : Spared sampleServer sampleState (sampleLock "a" 0 10) := by
    intro access holder openOther target _ _ _ key lock hlock
    simp [sampleState, V4State.start] at hlock
  have hrun : LockRun sampleServer ((sampleLock "a" 0 10).perform sampleServer sampleState) :=
    (LockRun.start rfl).request hspared
  refine ⟨hrun, ?_⟩
  obtain ⟨_, _, hlock, _⟩ := byte_range_locks_refine_map hrun
  refine ((hlock 2 false 5 1 _ sampleCursor (.ok 7)).1 .write ⟨7, 1, "b"⟩ 1 none
    (by decide +kernel)).mpr ?_
  refine ⟨⟨7, 1, "a"⟩, .write, 5, rfl, by decide, ⟨2, ⟨⟨1, 2⟩, 1, 7, 1, "a", [⟨0, 10, .write⟩]⟩,
    by decide +kernel, rfl, ⟨0, 10, .write⟩, by simp, rfl, ?_⟩, ?_, rfl⟩
  · unfold InRange lockEnd u64Max
    simp
  · unfold InRange lockEnd u64Max
    simp

end MountRs.Nfs
