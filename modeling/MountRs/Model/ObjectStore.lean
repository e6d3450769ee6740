import MountRs.Model.Storage

/-! # Blocks in an object store

`ObjectStoreBlockStore`: one object for every block below a common path. An object is
created at most once; the time of its creation decides whether reconciliation may
delete it. -/

namespace MountRs.ObjectStore

def BLOCK_ID_PREFIX_CHAR : Char := 'b'
def LEGACY_BLOCK_ID_HEX_CHARS : ℕ := 32
def CONTENT_BLOCK_ID_HEX_CHARS : ℕ := 64

structure Object where
  bytes : List UInt8
  lastModifiedMs : ℤ
deriving DecidableEq

abbrev Objects := BTreeMap String Object

/-! ## Block ids and locations -/

/-- A digit of `is_ascii_hexdigit` that is not an upper case letter. -/
def isLowerHexDigit (c : Char) : Bool := c.isDigit || ('a' ≤ c && c ≤ 'f')

def validBlockId (id : BlockId) : Bool :=
  match id.toList with
  | [] => false
  | first :: digits =>
    decide (first = BLOCK_ID_PREFIX_CHAR) && (decide (digits.length = LEGACY_BLOCK_ID_HEX_CHARS) ||
        decide (digits.length = CONTENT_BLOCK_ID_HEX_CHARS)) &&
      digits.all isLowerHexDigit

def invalidScope (message : String) : FsError :=
  ((FsError.new .einval).withSyscall "block path").withMessage message

def location (scope : String) (id : BlockId) : String := scope ++ "/" ++ id

def objectPath (scope : String) (id : BlockId) : Result String := do
  Except.failIf (validBlockId id = false) (invalidScope "invalid object-store block ID")
  return location scope id

/-- What follows the path of the store in a location. -/
def relative (scope path : String) : Option String :=
  if (scope ++ "/").toList <+: path.toList then
    some (String.ofList (path.toList.drop (scope ++ "/").length))
  else none

/-! ## Storing a block -/

/-- `put_opts` with `PutMode::Create`: false when there already is an object. -/
def create (objects : Objects) (path : String) (object : Object) : Bool × Objects :=
  if objects.contains path then (false, objects) else (true, objects.insert path object)

/-- The check of an object that was already there. -/
def verifyExisting (objects : Objects) (path : String) (bytes : List UInt8) : Result Unit := do
  let existing ← Except.okOr (objects.get? path) (FsError.new .enoent)
  Except.failIf (existing.bytes ≠ bytes)
    (FsError.backend "object-store content-addressed block collision")

/-! ## Puts in flight -/

/-- A put of a store that others may join: what it ended with is told to all of them. -/
structure InFlightPut where
  store : ℕ
  id : BlockId
  result : Option (Result Unit)

inductive InFlightPutClaim
  | leader (put : ℕ)
  | follower (put : ℕ)

/-- `claim_put`: the puts of all stores have numbers; the finished ones stay, and nobody joins
them. -/
def claimPut (puts : List InFlightPut) (store : ℕ) (id : BlockId) :
    InFlightPutClaim × List InFlightPut :=
  match puts.findIdx? fun put => put.store = store && put.id = id && put.result.isNone with
  | some put => (.follower put, puts)
  | none => (.leader puts.length, puts ++ [⟨store, id, none⟩])

/-- `InFlightPutGuard::finish`. -/
def finishPut (puts : List InFlightPut) (put : ℕ) (result : Result Unit) : List InFlightPut :=
  puts.modify put fun entry => { entry with result := some result }

def canceledPut : FsError := FsError.backend "object-store block upload canceled"

/-! ## Reconciliation -/

/-- `std::time::Duration`. -/
structure Duration where
  nanos : ℕ
deriving DecidableEq

namespace Duration

def ofMillis (millis : ℕ) : Duration := ⟨millis * 1000000⟩

def isZero (duration : Duration) : Bool := duration.nanos = 0

def asMillis (duration : Duration) : ℕ := duration.nanos / 1000000

end Duration

inductive ReconcileCandidate
  | isProtected
  | recent
  | delete
deriving DecidableEq

def classifyReconcileCandidate (inScope validId isLive : Bool) (lastModifiedMs : ℤ)
    (nowMs graceMs : ℕ) : Option ReconcileCandidate :=
  if inScope = false ∨ validId = false then none
  else if isLive then some .isProtected
  else
    let cutoffMs := nowMs - graceMs
    if lastModifiedMs < 0 ∨ (cutoffMs : ℤ) ≤ lastModifiedMs then some .recent
    else some .delete

/-- The classification of a listed object. -/
def candidate (scope : String) (live : BTreeSet BlockId) (path : String) (lastModifiedMs : ℤ)
    (nowMs graceMs : ℕ) : Option ReconcileCandidate :=
  let name := relative scope path
  let inScope := name.any fun name => decide (name ≠ "" ∧ '/' ∉ name.toList)
  let id := name.filter fun _ => inScope
  classifyReconcileCandidate inScope (id.any validBlockId) (id.any fun id => decide (id ∈ live))
    lastModifiedMs nowMs graceMs

end MountRs.ObjectStore
