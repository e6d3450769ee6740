import Mathlib.Data.List.Sort
import Mathlib.Logic.Function.Basic
import MountRs.Model.Error

/-! # 9P byte-range locks

The lock table behind `Tlock` and `Tgetlock`. Every call holds the table's mutex from its
first access to its last, so a call is one step. A range is kept by its start and its
exclusive end, which may be one more than the largest offset. -/

namespace MountRs.P9

abbrev lockTypeRdlck : UInt8 := 0
abbrev lockTypeWrlck : UInt8 := 1
abbrev lockTypeUnlck : UInt8 := 2

/-- `P9_LOCK_SUCCESS`, `P9_LOCK_BLOCKED` and `P9_LOCK_ERROR`. -/
inductive LockStatus
  | success
  | blocked
  | error
  deriving DecidableEq

/-- Exclusive end offset of an open-ended range. -/
def lockEofEnd : ℕ := 2 ^ 64

structure LockRequest where
  path : String
  fid : UInt32
  type : UInt8
  start : UInt64
  length : UInt64
  procId : UInt32
  clientId : String
  deriving DecidableEq

structure LockHolder where
  type : UInt8
  start : UInt64
  length : UInt64
  procId : UInt32
  clientId : String
  deriving DecidableEq

structure Lock where
  start : ℕ
  finish : ℕ
  type : UInt8
  owner : String
  procId : UInt32
  clientId : String
  holder : UInt64
  fid : UInt32
  deriving DecidableEq

def ownerKey (procId : UInt32) (clientId : String) : String :=
  toString procId.toNat ++ ":" ++ clientId

/-- The end of a range of two 64-bit numbers fits 128 bits, so `checked_add` never fails. -/
def range (start length : UInt64) : Except FsError (ℕ × ℕ) := do
  let finish := if length = 0 then lockEofEnd else start.toNat + length.toNat
  Except.failIf (lockEofEnd < finish)
    ((FsError.new .einval).withMessage "EINVAL: invalid lock range")
  return (start.toNat, finish)

def overlaps (leftStart leftEnd rightStart rightEnd : ℕ) : Bool :=
  decide (leftStart < rightEnd) && decide (rightStart < leftEnd)

def subtractOne (owner : String) (start finish : ℕ) (lock : Lock) : List Lock :=
  if lock.owner ≠ owner ∨ !overlaps lock.start lock.finish start finish then [lock]
  else
    (if lock.start < start then [{ lock with finish := start }] else []) ++
      (if finish < lock.finish then [{ lock with start := finish }] else [])

def subtract (locks : List Lock) (owner : String) (start finish : ℕ) : List Lock :=
  locks.flatMap (subtractOne owner start finish)

/-- One iteration of the merging loop; the merged locks are kept last one first. -/
def coalesceStep (merged : List Lock) (lock : Lock) : List Lock :=
  match merged with
  | [] => [lock]
  | previous :: rest =>
    if lock.start ≤ previous.finish ∧ previous.type = lock.type ∧
        previous.owner = lock.owner ∧ previous.holder = lock.holder ∧
        previous.fid = lock.fid then
      { previous with finish := max previous.finish lock.finish } :: rest
    else lock :: previous :: rest

def coalesce (locks : List Lock) : List Lock :=
  ((locks.insertionSort fun a b => a.start ≤ b.start).foldl coalesceStep []).reverse

/-- Whether a request of this type by this owner is refused because of the lock. -/
def conflicts (lock : Lock) (owner : String) (type : UInt8) (start finish : ℕ) : Bool :=
  overlaps lock.start lock.finish start finish && lock.owner != owner &&
    (lock.type == lockTypeWrlck || type == lockTypeWrlck)

def Lock.toHolder (lock : Lock) : LockHolder :=
  { type := lock.type
    start := UInt64.ofNat lock.start
    length := if lock.finish = lockEofEnd then 0 else UInt64.ofNat (lock.finish - lock.start)
    procId := lock.procId
    clientId := lock.clientId }

structure LockTable where
  files : String → Option (List Lock)
  maxLocksPerFile : ℕ

namespace LockTable

def new (maxLocksPerFile : ℕ) : LockTable :=
  { files := fun _ => none, maxLocksPerFile := max maxLocksPerFile 1 }

variable (table : LockTable)

def setFile (path : String) (locks : Option (List Lock)) : LockTable :=
  { table with files := Function.update table.files path locks }

def invalidLockType : FsError := (FsError.new .einval).withMessage "EINVAL: invalid lock type"

def lock (table : LockTable) (holder : UInt64) (request : LockRequest) :
    LockTable × Except FsError LockStatus :=
  match range request.start request.length with
  | .error error => (table, .error error)
  | .ok (start, finish) =>
    let owner := ownerKey request.procId request.clientId
    let locks := (table.files request.path).getD []
    -- `entry(..).or_default()` leaves an empty list behind when the request is refused.
    let table := table.setFile request.path (some locks)
    if request.type = lockTypeUnlck then
      let rest := subtract locks owner start finish
      (table.setFile request.path (if rest.isEmpty then none else some rest), .ok .success)
    else if request.type ≠ lockTypeRdlck ∧ request.type ≠ lockTypeWrlck then
      (table, .error invalidLockType)
    else if locks.any fun lock => conflicts lock owner request.type start finish then
      (table, .ok .blocked)
    else if table.maxLocksPerFile ≤ locks.length then (table, .ok .error)
    else
      let granted : Lock :=
        { start, finish, type := request.type, owner, procId := request.procId,
          clientId := request.clientId, holder, fid := request.fid }
      (table.setFile request.path (some (coalesce (subtract locks owner start finish ++ [granted]))),
        .ok .success)

def getlock (request : LockRequest) : Except FsError (Option LockHolder) := do
  let (start, finish) ← range request.start request.length
  Except.failIf (request.type ≠ lockTypeRdlck ∧ request.type ≠ lockTypeWrlck ∧
    request.type ≠ lockTypeUnlck) invalidLockType
  let owner := ownerKey request.procId request.clientId
  return (((table.files request.path).getD []).find? fun lock =>
    conflicts lock owner request.type start finish && request.type != lockTypeUnlck).map
      Lock.toHolder

def dropWhere (predicate : Lock → Bool) : LockTable :=
  { table with
    files := fun path => (table.files path).bind fun locks =>
      let rest := locks.filter fun lock => !predicate lock
      if rest.isEmpty then none else some rest }

def releaseFid (holder : UInt64) (fid : UInt32) : LockTable :=
  table.dropWhere fun lock => lock.holder == holder && lock.fid == fid

def releaseAll (holder : UInt64) : LockTable :=
  table.dropWhere fun lock => lock.holder == holder

/-- The calls of the connections on one table; an unlock is a `lock` with the unlock type. -/
inductive Call
  | lock (holder : UInt64) (request : LockRequest)
  | getlock (request : LockRequest)
  | releaseFid (holder : UInt64) (fid : UInt32)
  | releaseAll (holder : UInt64)
  deriving DecidableEq

def call : Call → LockTable
  | .lock holder request => (table.lock holder request).1
  | .getlock _ => table
  | .releaseFid holder fid => table.releaseFid holder fid
  | .releaseAll holder => table.releaseAll holder

def run (calls : List Call) : LockTable := calls.foldl call table

/-! ## Renames and removals -/

/-- Whether a rename of `source` moves the locks of a path. -/
def inside (source path : String) : Bool :=
  path == source || (source == "/" && "/".toList.isPrefixOf path.toList) ||
    (source ++ "/").toList.isPrefixOf path.toList

/-- The new name of a path that starts with `source`. -/
def moved (source destination path : String) : String :=
  destination ++ String.ofList (path.toList.drop source.length)

def remapOne (source destination : String) (table : LockTable) (old : String) : LockTable :=
  match table.files old with
  | none => table
  | some locks =>
    let new := moved source destination old
    ((table.setFile old none).setFile new none).setFile new (some locks)

/-- `order` has the paths of the table in the order in which its hash map lists them. -/
def remap (source destination : String) (order : List String) : LockTable :=
  if source = destination then table
  else (order.filter (inside source)).foldl (remapOne source destination) table

def release (path : String) : LockTable := table.setFile path none

/-- The calls of the connections, with the renames and removals that the session reports. -/
inductive Event
  | call (call : Call)
  | remap (source destination : String) (order : List String)
  | release (path : String)
  deriving DecidableEq

def event : Event → LockTable
  | .call call => table.call call
  | .remap source destination order => table.remap source destination order
  | .release path => table.release path

def runEvents (events : List Event) : LockTable := events.foldl event table

end LockTable

end MountRs.P9
