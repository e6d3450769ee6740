import MountRs.Verification.P9.Ranges

/-! # The lock table is a map from bytes

Every call changes the map from paths, owners and bytes by what it asks for, and a request is
blocked exactly when the map has a conflicting byte of another owner. -/

namespace MountRs.P9

open List

/-! ### The table -/

/-- The exclusive end of the requested range. -/
def LockRequest.finish (request : LockRequest) : ℕ :=
  if request.length = 0 then lockEofEnd else request.start.toNat + request.length.toNat

def LockRequest.Covers (request : LockRequest) (byte : ℕ) : Prop :=
  request.start.toNat ≤ byte ∧ byte < request.finish

instance (request : LockRequest) (byte : ℕ) : Decidable (request.Covers byte) :=
  inferInstanceAs (Decidable (_ ∧ _))

theorem LockRequest.start_lt_finish (request : LockRequest) :
    request.start.toNat < request.finish := by
  unfold LockRequest.finish lockEofEnd
  have hstart := request.start.toNat_lt
  split
  · exact hstart
  · rename_i hlength
    have : request.length.toNat ≠ 0 := by
      intro hzero
      exact hlength (UInt64.toNat_inj.mp hzero)
    omega

variable {request : LockRequest}

theorem range_eq_ok {bounds : ℕ × ℕ} (h : range request.start request.length = .ok bounds) :
    bounds = (request.start.toNat, request.finish) := by
  simp only [range, Except.bind_eq_ok, Except.pure_eq_ok] at h
  obtain ⟨-, -, rfl⟩ := h
  rfl

namespace LockTable

variable {table : LockTable} {path : String} {holder : UInt64} {request : LockRequest}

def locksAt (table : LockTable) (path : String) : List Lock := (table.files path).getD []

def Holds (table : LockTable) (path : String) (owner : Owner) (byte : ℕ) (hold : Hold) : Prop :=
  P9.Holds (table.locksAt path) owner byte hold

def Sound (table : LockTable) : Prop := ∀ path, P9.Sound (table.locksAt path)

@[simp] theorem locksAt_setFile (table : LockTable) (path other : String)
    (locks : Option (List Lock)) :
    (table.setFile path locks).locksAt other =
      if other = path then locks.getD [] else table.locksAt other := by
  unfold locksAt setFile
  by_cases hother : other = path
  · subst hother
    simp
  · simp [hother]

def refuses (table : LockTable) (request : LockRequest) : Bool :=
  (table.locksAt request.path).any fun lock =>
    conflicts lock request.owner.key request.type request.start.toNat request.finish

def granted (holder : UInt64) (request : LockRequest) : Lock :=
  { start := request.start.toNat, finish := request.finish, type := request.type,
    owner := request.owner.key, procId := request.procId, clientId := request.clientId, holder,
    fid := request.fid }

def unlocked (table : LockTable) (request : LockRequest) : List Lock :=
  subtract (table.locksAt request.path) request.owner.key request.start.toNat request.finish

/-- Everything that a `lock` call can do. -/
inductive Locked (table : LockTable) (holder : UInt64) (request : LockRequest)
    (next : LockTable) : Except FsError LockStatus → Prop
  | failed (error) (htype : (∃ bounds, range request.start request.length = .ok bounds) →
        request.type ≠ lockTypeRdlck ∧ request.type ≠ lockTypeWrlck ∧ request.type ≠ lockTypeUnlck)
      (hsame : ∀ path, next.locksAt path = table.locksAt path) :
      Locked table holder request next (.error error)
  | unlocked (htype : request.type = lockTypeUnlck)
      (hnext : ∀ path, next.locksAt path =
        if path = request.path then table.unlocked request else table.locksAt path) :
      Locked table holder request next (.ok .success)
  | blocked (htype : request.type ≠ lockTypeUnlck) (hrefused : table.refuses request = true)
      (hsame : ∀ path, next.locksAt path = table.locksAt path) :
      Locked table holder request next (.ok .blocked)
  | full (htype : request.type ≠ lockTypeUnlck) (hfree : table.refuses request = false)
      (hsame : ∀ path, next.locksAt path = table.locksAt path)
      (hfull : table.maxLocksPerFile ≤ (table.locksAt request.path).length) :
      Locked table holder request next (.ok .error)
  | granted (htype : request.type ≠ lockTypeUnlck) (hfree : table.refuses request = false)
      (hnext : ∀ path, next.locksAt path =
        if path = request.path then coalesce (table.unlocked request ++ [granted holder request])
        else table.locksAt path)
      (hroom : (table.locksAt request.path).length < table.maxLocksPerFile) :
      Locked table holder request next (.ok .success)

theorem lock_locked (table : LockTable) (holder : UInt64) (request : LockRequest) :
    Locked table holder request (table.lock holder request).1 (table.lock holder request).2 := by
  unfold lock
  split
  · rename_i error hrange
    refine .failed _ ?_ fun _ => rfl
    rintro ⟨_, hbounds⟩
    rw [hrange] at hbounds
    cases hbounds
  · rename_i start finish hrange
    cases range_eq_ok hrange
    have hkept : ∀ path, (table.setFile request.path
        (some ((table.files request.path).getD []))).locksAt path = table.locksAt path := by
      intro path
      rw [locksAt_setFile]
      split
      · rename_i hpath
        rw [hpath]
        rfl
      · rfl
    dsimp only
    split
    · rename_i htype
      refine .unlocked htype ?_
      intro path
      rw [locksAt_setFile, hkept]
      split
      · split
        · rename_i hempty
          exact (isEmpty_iff.mp hempty).symm
        · rfl
      · rfl
    · rename_i hunlock
      split
      · rename_i hinvalid
        exact .failed _ (fun _ => ⟨hinvalid.1, hinvalid.2, hunlock⟩) hkept
      · split
        · rename_i hrefused
          exact .blocked hunlock hrefused hkept
        · rename_i hfree
          split
          · rename_i hfull
            exact .full hunlock (Bool.eq_false_of_not_eq_true hfree) hkept hfull
          · rename_i hroom
            refine .granted hunlock (Bool.eq_false_of_not_eq_true hfree) ?_ (not_le.mp hroom)
            intro path
            rw [locksAt_setFile, hkept]
            rfl

theorem unlocked_spec (request : LockRequest) (hsound : table.Sound) :
    P9.Sound (table.unlocked request) ∧ ∀ owner byte hold,
      P9.Holds (table.unlocked request) owner byte hold ↔ table.Holds request.path owner byte hold ∧
          ¬ (owner = request.owner ∧ request.Covers byte) :=
  ⟨sound_subtract request.start_lt_finish (hsound request.path),
    fun _ _ _ => holds_subtract (hsound request.path)⟩

/-- No lock of the owner is left in the range that was subtracted, so the granted lock is
apart from all of them. -/
theorem granted_spec (holder : UInt64) (request : LockRequest) (hsound : table.Sound) :
    P9.Sound (coalesce (table.unlocked request ++ [granted holder request])) ∧ ∀ owner byte hold,
        P9.Holds (coalesce (table.unlocked request ++ [granted holder request])) owner byte hold ↔
          if owner = request.owner ∧ request.Covers byte then
            hold = { type := request.type, holder, fid := request.fid }
          else table.Holds request.path owner byte hold := by
  obtain ⟨hunlocked, hholds⟩ := unlocked_spec request hsound
  have hadded : P9.Sound (table.unlocked request ++ [granted holder request]) := by
    constructor
    · intro lock hlock
      rw [mem_append, mem_singleton] at hlock
      rcases hlock with hlock | rfl
      · exact hunlocked.valid lock hlock
      · exact ⟨request.start_lt_finish, rfl⟩
    · rw [pairwise_append]
      refine ⟨hunlocked.apart, pairwise_singleton _ _, ?_⟩
      intro lock hlock added hadded
      rw [mem_singleton] at hadded
      subst hadded
      intro howner
      obtain ⟨whole, hwhole, hpiece⟩ := mem_flatMap.mp hlock
      obtain ⟨-, hsame, -, -, hout⟩ :=
        of_mem_subtractOne ((hsound request.path).valid whole hwhole) hpiece
      exact hout (hsame.symm.trans howner)
  obtain ⟨hcoalesced, hbytes⟩ := coalesce_spec hadded
  refine ⟨hcoalesced, ?_⟩
  intro owner byte hold
  have hsingle : P9.Holds [granted holder request] owner byte hold ↔
      (owner = request.owner ∧ request.Covers byte) ∧
        hold = { type := request.type, holder, fid := request.fid } := by
    rw [holds_cons, or_iff_left not_holds_nil, and_assoc]
    exact and_congr eq_comm (and_congr_right fun _ => eq_comm)
  rw [hbytes, holds_append, hholds, hsingle]
  split <;> tauto

theorem sound_lock (hsound : table.Sound) : (table.lock holder request).1.Sound := by
  have hlocked := table.lock_locked holder request
  generalize table.lock holder request = result at hlocked
  obtain ⟨_, _⟩ := result
  intro path
  cases hlocked with
  | failed _ _ hsame | blocked _ _ hsame | full _ _ hsame =>
    rw [hsame]
    exact hsound path
  | unlocked _ hnext =>
    rw [hnext]
    split
    · exact (unlocked_spec request hsound).1
    · exact hsound path
  | granted _ _ hnext =>
    rw [hnext]
    split
    · exact (granted_spec holder request hsound).1
    · exact hsound path

@[simp] theorem locksAt_dropWhere (table : LockTable) (predicate : Lock → Bool) (path : String) :
    (table.dropWhere predicate).locksAt path =
      (table.locksAt path).filter fun lock => !predicate lock := by
  unfold locksAt dropWhere
  dsimp only
  cases table.files path with
  | none => rfl
  | some locks =>
    rw [Option.bind_some, Option.getD_some]
    split
    · rename_i hempty
      exact (isEmpty_iff.mp hempty).symm
    · rfl

theorem sound_call (call : Call) (hsound : table.Sound) : (table.call call).Sound := by
  cases call with
  | lock => exact sound_lock hsound
  | getlock => exact hsound
  | releaseFid =>
    intro path
    rw [call, releaseFid, locksAt_dropWhere]
    exact (hsound path).filter _
  | releaseAll =>
    intro path
    rw [call, releaseAll, locksAt_dropWhere]
    exact (hsound path).filter _

theorem sound_new (maxLocksPerFile : ℕ) : (LockTable.new maxLocksPerFile).Sound :=
  fun _ => .nil

theorem holds_dropWhere {predicate : Lock → Bool} {test : Hold → Prop} {byte : ℕ} {owner : Owner}
    {hold : Hold} (htest : ∀ lock, predicate lock = true ↔ test lock.hold) :
    (table.dropWhere predicate).Holds path owner byte hold ↔
      table.Holds path owner byte hold ∧ ¬ test hold := by
  unfold Holds P9.Holds
  simp only [locksAt_dropWhere, mem_filter, Bool.not_eq_true', ← Bool.not_eq_true]
  constructor
  · rintro ⟨lock, ⟨hlock, hkept⟩, howner, hcovers, rfl⟩
    exact ⟨⟨lock, hlock, howner, hcovers, rfl⟩, fun h => hkept ((htest lock).mpr h)⟩
  · rintro ⟨⟨lock, hlock, howner, hcovers, rfl⟩, hkept⟩
    exact ⟨lock, ⟨hlock, fun h => hkept ((htest lock).mp h)⟩, howner, hcovers, rfl⟩

/-- A request is refused exactly when another owner holds a conflicting byte of its range. -/
theorem refuses_iff (hsound : table.Sound) :
    table.refuses request = true ↔ ∃ owner ≠ request.owner, ∃ byte hold, request.Covers byte ∧
      table.Holds request.path owner byte hold ∧
      (hold.type = lockTypeWrlck ∨ request.type = lockTypeWrlck) := by
  unfold refuses
  rw [any_eq_true]
  simp only [conflicts, Bool.and_eq_true, Bool.or_eq_true, bne_iff_ne, beq_iff_eq, overlaps_eq_true]
  constructor
  · rintro ⟨lock, hlock, ⟨hoverlap, hother⟩, htype⟩
    obtain ⟨hnonempty, hkey⟩ := (hsound request.path).valid lock hlock
    have hrange := request.start_lt_finish
    refine ⟨lock.ownedBy, ?_, max lock.start request.start.toNat, lock.hold,
      ⟨by omega, by omega⟩, ⟨lock, hlock, rfl, ⟨by omega, by omega⟩, rfl⟩, htype⟩
    intro hsame
    exact hother (by rw [hkey, hsame])
  · rintro ⟨_, hother, _, hold, hcovers, ⟨lock, hlock, rfl, hlocked, rfl⟩, htype⟩
    obtain ⟨-, hkey⟩ := (hsound request.path).valid lock hlock
    refine ⟨lock, hlock, ⟨?_, ?_⟩, htype⟩
    · unfold LockRequest.Covers at hcovers
      unfold Lock.Covers at hlocked
      omega
    · intro hsame
      exact hother (Owner.key_injective (hkey.symm.trans hsame))

end LockTable

/-! ### The map of bytes -/

abbrev ByteMap := String → Owner → ℕ → Option Hold

namespace ByteMap

def set (bytes : ByteMap) (request : LockRequest) (value : Option Hold) : ByteMap :=
  fun path owner byte =>
    if path = request.path ∧ owner = request.owner ∧ request.Covers byte then value
    else bytes path owner byte

/-- The bytes whose hold passes the test are cleared. -/
def clear (bytes : ByteMap) (test : Hold → Prop) [DecidablePred test] : ByteMap :=
  fun path owner byte => (bytes path owner byte).filter fun hold => ¬ test hold

/-- What a call does to the map; a lock request does nothing unless it succeeds. -/
def call (bytes : ByteMap) (succeeds : Bool) : LockTable.Call → ByteMap
  | .lock holder request =>
    if succeeds then
      bytes.set request (if request.type = lockTypeUnlck then none
        else some { type := request.type, holder, fid := request.fid })
    else bytes
  | .getlock _ => bytes
  | .releaseFid holder fid => bytes.clear fun hold => hold.holder = holder ∧ hold.fid = fid
  | .releaseAll holder => bytes.clear fun hold => hold.holder = holder

/-- Another owner holds a byte of the range with a type that excludes the requested one. -/
def Conflict (bytes : ByteMap) (request : LockRequest) : Prop :=
  ∃ owner ≠ request.owner, ∃ byte hold, request.Covers byte ∧
    bytes request.path owner byte = some hold ∧
    (hold.type = lockTypeWrlck ∨ request.type = lockTypeWrlck)

def Represents (table : LockTable) (bytes : ByteMap) : Prop :=
  ∀ path owner byte hold, table.Holds path owner byte hold ↔ bytes path owner byte = some hold

end ByteMap

/-- Whether the call is answered with success; calls other than `lock` always are. -/
def LockTable.succeeds (table : LockTable) : LockTable.Call → Bool
  | .lock holder request => (table.lock holder request).2.toOption == some .success
  | _ => true

/-- The map after the calls, given the answers that the table gives to them. -/
def ByteMap.run (table : LockTable) (bytes : ByteMap) : List LockTable.Call → ByteMap
  | [] => bytes
  | call :: calls => run (table.call call) (bytes.call (table.succeeds call) call) calls

open LockTable ByteMap

variable {table : LockTable} {bytes : ByteMap}

theorem represents_locked {next : LockTable} {holder : UInt64} {answer : Except FsError LockStatus}
    (hsound : table.Sound) (hlocked : table.Locked holder request next answer)
    (h : Represents table bytes) :
    Represents next (bytes.call (answer.toOption == some .success) (.lock holder request)) := by
  unfold ByteMap.call
  intro path owner byte hold
  unfold LockTable.Holds
  cases hlocked with
  | failed _ _ hsame | blocked _ _ hsame | full _ _ hsame =>
    rw [hsame]
    exact h path owner byte hold
  | unlocked htype hnext =>
    rw [hnext]
    simp only [Except.toOption, BEq.rfl, if_true, htype, ByteMap.set]
    by_cases hpath : path = request.path
    · subst hpath
      rw [if_pos rfl, (unlocked_spec request hsound).2, h]
      by_cases hin : owner = request.owner ∧ request.Covers byte
      · simp [hin]
      · simp [hin]
    · rw [if_neg hpath, if_neg (fun hin => hpath hin.1)]
      exact h path owner byte hold
  | granted htype _ hnext =>
    rw [hnext]
    simp only [Except.toOption, BEq.rfl, if_true, if_neg htype, ByteMap.set]
    by_cases hpath : path = request.path
    · subst hpath
      rw [if_pos rfl, (granted_spec holder request hsound).2]
      by_cases hin : owner = request.owner ∧ request.Covers byte
      · rw [if_pos hin, if_pos ⟨rfl, hin⟩, Option.some.injEq]
        exact eq_comm
      · rw [if_neg hin, if_neg (fun hall => hin hall.2)]
        exact h request.path owner byte hold
    · rw [if_neg hpath, if_neg (fun hin => hpath hin.1)]
      exact h path owner byte hold

theorem represents_clear {predicate : Lock → Bool} {test : Hold → Prop} [DecidablePred test]
    (htest : ∀ lock, predicate lock = true ↔ test lock.hold) (h : Represents table bytes) :
    Represents (table.dropWhere predicate) (bytes.clear test) := by
  intro path owner byte hold
  rw [holds_dropWhere htest, h, ByteMap.clear, Option.filter_eq_some_iff]
  simp

theorem represents_call (call : LockTable.Call) (hsound : table.Sound) (h : Represents table bytes) :
    Represents (table.call call) (bytes.call (table.succeeds call) call) := by
  cases call with
  | lock holder request => exact represents_locked hsound (table.lock_locked holder request) h
  | getlock => exact h
  | releaseFid | releaseAll =>
    apply represents_clear _ h
    intro lock
    simp [Lock.hold]

theorem represents_run (calls : List LockTable.Call) (hsound : table.Sound)
    (h : Represents table bytes) :
    (table.run calls).Sound ∧ Represents (table.run calls) (bytes.run table calls) := by
  induction calls generalizing table bytes with
  | nil => exact ⟨hsound, h⟩
  | cons call calls ih =>
    exact ih (sound_call call hsound) (represents_call call hsound h)

/-- After any calls the table holds exactly the bytes of the map that the calls describe, one
owner holds a byte with one type, an accepted lock request is blocked exactly when another
owner has a conflicting byte of its range and otherwise succeeds unless the file has all the
locks that it may have, and an accepted unlock succeeds. -/
theorem lock_table_refines_byte_map (maxLocksPerFile : ℕ) (calls : List LockTable.Call) :
    let table := (LockTable.new maxLocksPerFile).run calls
    let bytes := ByteMap.run (LockTable.new maxLocksPerFile) (fun _ _ _ => none) calls
    Represents table bytes ∧ (∀ path owner byte hold hold', table.Holds path owner byte hold →
        table.Holds path owner byte hold' → hold = hold') ∧
      ∀ holder request, (∃ bounds, range request.start request.length = .ok bounds) →
        (request.type = lockTypeRdlck ∨ request.type = lockTypeWrlck →
          ((table.lock holder request).2 = .ok .blocked ↔ bytes.Conflict request) ∧
          ((table.lock holder request).2 = .ok .error ↔ ¬ bytes.Conflict request ∧
            table.maxLocksPerFile ≤ (table.locksAt request.path).length) ∧
          ((table.lock holder request).2 = .ok .success ↔ ¬ bytes.Conflict request ∧
            (table.locksAt request.path).length < table.maxLocksPerFile)) ∧
        (request.type = lockTypeUnlck → (table.lock holder request).2 = .ok .success) := by
  intro table bytes
  have hempty : Represents (LockTable.new maxLocksPerFile) fun _ _ _ => none := by
    intro path owner byte hold
    exact iff_of_false not_holds_nil (by simp)
  obtain ⟨hsound, hrepresents⟩ := represents_run calls (sound_new maxLocksPerFile) hempty
  refine ⟨hrepresents, fun path _ _ _ _ => (hsound path).holds_unique, ?_⟩
  intro holder request hrange
  have hconflict : table.refuses request = true ↔ bytes.Conflict request := by
    rw [refuses_iff hsound]
    simp only [ByteMap.Conflict, hrepresents _ _ _ _]
    rfl
  have hlocked := table.lock_locked holder request
  generalize table.lock holder request = result at hlocked
  obtain ⟨_, _⟩ := result
  rw [← hconflict]
  cases hlocked with
  | failed _ hinvalid _ =>
    obtain ⟨hrdlck, hwrlck, hunlck⟩ := hinvalid hrange
    exact ⟨fun htype => absurd htype (by tauto), fun htype => absurd htype hunlck⟩
  | unlocked htype _ =>
    refine ⟨fun hlock => ?_, fun _ => rfl⟩
    rw [htype] at hlock
    exact absurd hlock (by decide)
  | blocked htype hrefused _ =>
    exact ⟨fun _ => by simp [hrefused], fun hunlock => absurd hunlock htype⟩
  | full htype hfree _ hfull =>
    exact ⟨fun _ => by simp [hfree, hfull], fun hunlock => absurd hunlock htype⟩
  | granted _ hfree _ hroom => exact ⟨fun _ => by simp [hfree, hroom], fun _ => rfl⟩

end MountRs.P9
