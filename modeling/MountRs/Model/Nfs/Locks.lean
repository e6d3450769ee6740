import MountRs.Model.Nfs.State
import Mathlib.Data.List.Sort

/-! # NFSv4.1 byte-range locks

LOCK, LOCKT and LOCKU of `v4.rs`. A range is an offset and a length, and the largest
length means up to the end of the file. -/

namespace MountRs.Nfs

open Except (failIf okOr)

/-! ## Ranges -/

/-- READ_LT, WRITE_LT, READW_LT and WRITEW_LT. -/
def lockAccess : ℕ → Option LockAccess
  | 1 | 3 => some .read
  | 2 | 4 => some .write
  | _ => none

/-- The access bit of an open that a lock type needs. -/
def LockAccess.bit : LockAccess → ℕ
  | .read => 1
  | .write => 2

def lockEnd (offset length : ℕ) : ℕ :=
  if length = u64Max then 2 ^ 64 else offset + length

def lockOverlaps (left : LockRange) (offset length : ℕ) : Bool :=
  decide (left.offset < lockEnd offset length) &&
    decide (offset < lockEnd left.offset left.length)

def lockConflicts (left right : LockAccess) : Bool := left == .write || right == .write

def validLockRange (offset length : ℕ) : Bool :=
  length != 0 && (length == u64Max || decide (offset + length ≤ u64Max))

def lockLength (start finish : ℕ) : ℕ :=
  if finish = 2 ^ 64 then u64Max else (finish - start) % 2 ^ 64

def subtractLockRange (range : LockRange) (offset length : ℕ) : List LockRange :=
  if !lockOverlaps range offset length then [range]
  else
    (if range.offset < offset then
      [{ range with length := lockLength range.offset offset }]
    else []) ++
    (if lockEnd offset length < lockEnd range.offset range.length then
      [{ range with
          offset := lockEnd offset length % 2 ^ 64
          length := lockLength (lockEnd offset length) (lockEnd range.offset range.length) }]
    else [])

/-- One iteration of the merging loop; the merged ranges are kept last one first. -/
def coalesceStep (merged : List LockRange) (range : LockRange) : List LockRange :=
  match merged with
  | [] => [range]
  | previous :: rest =>
    if previous.lockType = range.lockType ∧
        range.offset ≤ lockEnd previous.offset previous.length then
      { previous with
        length := lockLength previous.offset
          (max (lockEnd previous.offset previous.length)
            (lockEnd range.offset range.length)) } :: rest
    else range :: previous :: rest

def coalesceLockRanges (ranges : List LockRange) : List LockRange :=
  ((ranges.insertionSort fun a b => a.offset ≤ b.offset).foldl coalesceStep []).reverse

/-! ## Operations -/

/-- Whose lock states a request is about: the file, the client and the lock owner. -/
structure LockHolder where
  fileId : ℕ
  clientid : ℕ
  owner : String
  deriving DecidableEq

def LockState.holder (lock : LockState) : LockHolder :=
  { fileId := lock.fileId, clientid := lock.clientid, owner := lock.owner }

/-- The seqid moves on and the range joins the lock state. -/
def LockState.push (lock : LockState) (range : LockRange) : LockState :=
  { lock with
    stateid := { lock.stateid with seqid := bumpStateidSeq lock.stateid.seqid }
    ranges := coalesceLockRanges (lock.ranges ++ [range]) }

/-- The `locker4` argument. -/
structure Locker where
  newLockOwner : Bool
  openStateid : Option Stateid
  lockStateid : Option Stateid
  owner : String

inductive LockAnswer
  | failed (status : Status)
  | denied (range : LockRange) (clientid : ℕ) (owner : String)
  | done (stateid : Stateid)
  deriving DecidableEq

namespace V4State

variable (state : V4State)

/-- The first range of another holder of the file that conflicts with the request. -/
def deniedBy (holder : LockHolder) (access : LockAccess)
    (offset length : ℕ) : Option (LockRange × LockState) :=
  state.locks.values.findSome? fun held =>
    if held.fileId ≠ holder.fileId ∨
        (held.clientid = holder.clientid ∧ held.owner = holder.owner) then none
    else
      (held.ranges.find? fun range =>
        lockOverlaps range offset length && lockConflicts range.lockType access).map
        fun range => (range, held)

/-- The checks of LOCK before the table is searched for conflicts. `file` is the file of
the current filehandle, and the result is the holder, the open and the lock state that
receives the range. -/
def lockTarget (server : Server) (state : V4State) (lockType : ℕ) (reclaim : Bool)
    (offset length : ℕ) (locker : Locker) (cursor : Cursor) (file : Except Status ℕ) :
    Except Status (LockAccess × LockHolder × ℕ × Option ℕ) := do
  let access ← okOr (lockAccess lockType) .lockNotSupp
  failIf (reclaim = true) .noGrace
  failIf (¬validLockRange offset length) .inval
  let clientid ← okOr cursor.clientid .opNotInSession
  let client ← okOr (state.clients.get? clientid) .staleClientid
  failIf (server.requireReclaimComplete ∧ ¬client.reclaimComplete) .grace
  let fileId ← file
  if locker.newLockOwner then
    let stateid ← okOr locker.openStateid .badStateid
    let opened ← okOr (← state.validateStateid stateid cursor (some access.bit)) .badStateid
    failIf (opened.fileId ≠ fileId) .badStateid
    let target := state.locks.values.find? fun lock =>
      lock.clientid == clientid && lock.fileId == fileId &&
        lock.openOther == opened.stateid.other && lock.owner == locker.owner
    pure (access, ⟨fileId, clientid, locker.owner⟩, opened.stateid.other,
      target.map fun lock => lock.stateid.other)
  else
    let stateid ← okOr locker.lockStateid .badStateid
    failIf (isZeroStateid stateid || isInvalidStateid stateid) .badStateid
    let lock ← okOr (state.locks.get? stateid.other) .badStateid
    failIf (lock.clientid ≠ clientid ∨ lock.fileId ≠ fileId) .badStateid
    failIf (stateid.seqid < lock.stateid.seqid) .oldStateid
    failIf (stateid.seqid ≠ lock.stateid.seqid) .badStateid
    pure (access, ⟨fileId, clientid, lock.owner⟩, lock.openOther, some lock.stateid.other)

def grantedRanges (fileId : ℕ) : ℕ :=
  ((state.locks.values.filter fun lock => lock.fileId == fileId).map
    fun lock => lock.ranges.length).sum

/-- Take a range away from every lock state of the holder. -/
def clearRange (locks : BTreeMap ℕ LockState) (holder : LockHolder) (offset length : ℕ) :
    BTreeMap ℕ LockState :=
  locks.mapValues fun lock =>
    if lock.holder = holder then
      { lock with ranges := lock.ranges.flatMap fun range => subtractLockRange range offset length }
    else lock

/-- The granting part of LOCK. -/
def grantRange (holder : LockHolder) (openOther : ℕ) (target : Option ℕ)
    (range : LockRange) : LockAnswer × V4State :=
  match target with
  | some key =>
    let locks := clearRange state.locks holder range.offset range.length
    match locks.get? key with
    | none => (.failed .badStateid, { state with locks })
    | some lock =>
      (.done (lock.push range).stateid, { state with locks := locks.insert key (lock.push range) })
  | none =>
    match state.allocateStateid with
    | none => (.failed .resource, state)
    | some (stateid, state) =>
      (.done stateid,
        { state with
          locks := (clearRange state.locks holder range.offset range.length).insert
            stateid.other
            { stateid, clientid := holder.clientid, fileId := holder.fileId, openOther
              owner := holder.owner, ranges := [range] } })

def lock (server : Server) (state : V4State) (lockType : ℕ) (reclaim : Bool)
    (offset length : ℕ) (locker : Locker) (cursor : Cursor) (file : Except Status ℕ) :
    LockAnswer × V4State :=
  match state.lockTarget server lockType reclaim offset length locker cursor file with
  | .error status => (.failed status, state)
  | .ok (access, holder, openOther, target) =>
    match state.deniedBy holder access offset length with
    | some (range, held) => (.denied range held.clientid held.owner, state)
    | none =>
      if max server.maxLocksPerFile 1 ≤ state.grantedRanges holder.fileId then
        (.failed .resource, state)
      else state.grantRange holder openOther target { offset, length, lockType := access }

/-- The checks of LOCKT before the table is searched. -/
def locktHolder (lockType offset length : ℕ) (owner : String) (cursor : Cursor)
    (file : Except Status ℕ) : Except Status (LockAccess × LockHolder) := do
  let access ← okOr (lockAccess lockType) .lockNotSupp
  failIf (¬validLockRange offset length) .inval
  let clientid ← okOr cursor.clientid .opNotInSession
  let fileId ← file
  pure (access, ⟨fileId, clientid, owner⟩)

/-- LOCKT; `none` is the answer that the lock could be taken. -/
def lockt (lockType offset length : ℕ) (owner : String) (cursor : Cursor)
    (file : Except Status ℕ) : Option LockAnswer :=
  match locktHolder lockType offset length owner cursor file with
  | .error status => some (.failed status)
  | .ok (access, holder) =>
    (state.deniedBy holder access offset length).map fun denied =>
      .denied denied.1 denied.2.clientid denied.2.owner

def lockuTarget (stateid : Stateid) (offset length : ℕ) (cursor : Cursor)
    (file : Except Status ℕ) : Except Status LockState := do
  failIf (¬validLockRange offset length) .inval
  let clientid ← okOr cursor.clientid .opNotInSession
  let fileId ← file
  failIf (isZeroStateid stateid || isInvalidStateid stateid) .badStateid
  let lock ← okOr (state.locks.get? stateid.other) .badStateid
  failIf (lock.clientid ≠ clientid ∨ lock.fileId ≠ fileId) .badStateid
  failIf (stateid.seqid < lock.stateid.seqid) .oldStateid
  failIf (stateid.seqid ≠ lock.stateid.seqid) .badStateid
  pure lock

/-- LOCKU takes the range away from the one lock state that the stateid names. -/
def locku (stateid : Stateid) (offset length : ℕ) (cursor : Cursor)
    (file : Except Status ℕ) : LockAnswer × V4State :=
  match state.lockuTarget stateid offset length cursor file with
  | .error status => (.failed status, state)
  | .ok lock =>
    let released : LockState :=
      { lock with
        ranges := lock.ranges.flatMap fun range => subtractLockRange range offset length
        stateid := { lock.stateid with seqid := bumpStateidSeq lock.stateid.seqid } }
    (.done released.stateid, { state with locks := state.locks.insert stateid.other released })

end V4State

/-! ## Requests -/

/-- A lock request on a file; offsets and lengths are 64-bit values. -/
inductive LockRequest
  | lock (lockType : ℕ) (reclaim : Bool) (offset length : Fin (2 ^ 64)) (locker : Locker)
      (cursor : Cursor) (file : Except Status ℕ)
  | lockt (lockType : ℕ) (offset length : Fin (2 ^ 64)) (owner : String) (cursor : Cursor)
      (file : Except Status ℕ)
  | locku (stateid : Stateid) (offset length : Fin (2 ^ 64)) (cursor : Cursor)
      (file : Except Status ℕ)

def LockRequest.perform (server : Server) (state : V4State) : LockRequest → V4State
  | .lock lockType reclaim offset length locker cursor file =>
    (state.lock server lockType reclaim offset length locker cursor file).2
  | .lockt .. => state
  | .locku stateid offset length cursor file => (state.locku stateid offset length cursor file).2

end MountRs.Nfs
