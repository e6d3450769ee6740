import MountRs.Model.Versioning

/-! # The memory metadata provider

`MemoryMetadataStore`. Every call holds the one lock of the store, so a call is one
function of the state; a call that fails leaves the state as it was. The
readings of the clock are arguments. -/

namespace MountRs.Memory

open Except (failIf okOr)

/-! ## State -/

structure LeaseState where
  owner : String
  fence : ℕ
  expiresAtMs : ℕ
deriving DecidableEq

structure MetadataState where
  revision : ℕ
  ns : Option Namespace
  lastFence : ℕ
  lease : Option LeaseState
  volumeId : VolumeId
  nextVersion : ℕ
  versions : BTreeMap VersionId VersionInfo
  head : Option VersionId
  nextReadFence : ℕ
  pins : BTreeMap String ReadLease
  operations : BTreeMap String VersionId
deriving DecidableEq

/-- The state of a new store. -/
def MetadataState.new (volumeId : VolumeId) : MetadataState :=
  { revision := 0, ns := none, lastFence := 0, lease := none, volumeId, nextVersion := 1
    versions := ∅, head := none, nextReadFence := 0, pins := ∅, operations := ∅ }

/-! ## Leases -/

def staleLease (message : String) : FsError := (FsError.new .estale).withMessage message

def durationMs (ttlMs : ℕ) : Result ℕ := do
  failIf (U64_MAX < ttlMs) ((FsError.new .eoverflow).withMessage "lease TTL overflows ms")
  failIf (ttlMs = 0) ((FsError.new .einval).withMessage "lease TTL must be positive")
  return ttlMs

def expiry (nowMs ttlMs : ℕ) : Result ℕ :=
  okOr (checkedAdd nowMs ttlMs)
    ((FsError.new .eoverflow).withMessage "lease expiry overflows ms")

def toPublicLease (lease : LeaseState) : WriterLease :=
  { owner := lease.owner, fence := lease.fence, expiresAtMs := lease.expiresAtMs }

def validateLease (state : MetadataState) (lease : WriterLease) (nowMs : ℕ) : Result Unit := do
  let current ← okOr state.lease (staleLease "no active writer lease")
  failIf (current.expiresAtMs ≤ nowMs) (staleLease "writer lease expired")
  failIf (current.owner ≠ lease.owner ∨ current.fence ≠ lease.fence ∨
      current.expiresAtMs ≠ lease.expiresAtMs)
    (staleLease "writer lease fencing token is stale")

def validateReadLease (current supplied : ReadLease) (nowMs : ℕ) : Result Unit := do
  failIf (current.expiresAtMs ≤ nowMs) ((FsError.new .estale).withSyscall "read lease")
  failIf (current.volume ≠ supplied.volume ∨ current.version ≠ supplied.version ∨
      current.viewId ≠ supplied.viewId ∨ current.owner ≠ supplied.owner ∨
      current.fence ≠ supplied.fence ∨ current.expiresAtMs ≠ supplied.expiresAtMs)
    ((FsError.new .estale).withSyscall "read lease")

namespace MetadataState

variable (state : MetadataState)

/-! ## The current namespace -/

def load : LoadedMetadata := { revision := state.revision, ns := state.ns }

variable (nowMs : ℕ) (lease : WriterLease)

def acquireWriter (owner : String) (ttlMs : ℕ) : Result (WriterLease × MetadataState) := do
  failIf (owner = "")
    ((FsError.new .einval).withMessage "writer lease owner must not be empty")
  let ttlMs ← durationMs ttlMs
  let expiresAtMs ← expiry nowMs ttlMs
  failIf (state.lease.any fun current => decide (nowMs < current.expiresAtMs))
    ((FsError.new .eagain).withMessage "a writer lease is already active")
  let fence ← okOr (checkedAdd state.lastFence 1) (FsError.new .eoverflow)
  let lease : LeaseState := { owner, fence, expiresAtMs }
  return (toPublicLease lease, { state with lastFence := fence, lease := some lease })

def renewWriter (ttlMs : ℕ) : Result (WriterLease × MetadataState) := do
  let ttlMs ← durationMs ttlMs
  let expiresAtMs ← expiry nowMs ttlMs
  validateLease state lease nowMs
  let renewed : LeaseState := { owner := lease.owner, fence := lease.fence, expiresAtMs }
  return (toPublicLease renewed, { state with lease := some renewed })

def releaseWriter : Result (Unit × MetadataState) := do
  validateLease state lease nowMs
  return ((), { state with lease := none })

def publish (nowMs expectedRevision : ℕ) (lease : WriterLease) (ns : Namespace) :
    Result (ℕ × MetadataState) := do
  validateLease state lease nowMs
  failIf (state.revision ≠ expectedRevision)
    ((FsError.new .eagain).withMessage ("metadata revision conflict: expected " ++
      toString expectedRevision ++ ", actual " ++ toString state.revision))
  let revision ← okOr (checkedAdd state.revision 1) (FsError.new .eoverflow)
  return (revision, { state with ns := some ns, revision })

/-! ## Versions -/

def versionHead : Result (Option VersionHead) :=
  match state.head with
  | none => return none
  | some version => do
    failIf (version.volume ≠ state.volumeId)
      (((FsError.new .eio).withSyscall "version head").withMessage
        "stored version head belongs to another volume")
    let record ← okOr (state.versions.get? version)
      (((FsError.new .eio).withSyscall "version head").withMessage
        "stored version head references a missing version")
    record.validateForVolume state.volumeId
    return some { version, revision := state.revision }

def loadVersion (id : VersionId) : Result VersionInfo := do
  failIf (id.volume ≠ state.volumeId)
    (((FsError.new .enoent).withSyscall "load version").withMessage
      "version belongs to another volume")
  let version ← okOr (state.versions.get? id)
    ((FsError.new .enoent).withSyscall "load version")
  version.validateForVolume state.volumeId
  return version

def findPublication (operationId : PublicationId) : Result (Option VersionInfo) :=
  match state.operations.get? operationId with
  | none => return none
  | some id => do
    let version ← okOr (state.versions.get? id) (FsError.new .eio)
    version.validateForVolume state.volumeId
    return some version

/-- The default implementation of `VersionedMetadataStore`. -/
def reconcilePublication (publication : VersionPublication) : Result (Option VersionInfo) := do
  publication.validate state.volumeId
  match ← state.findPublication publication.operationId with
  | none => return none
  | some committed => do
    failIf (publication.matchesCommitted committed = false)
      (((FsError.new .eexist).withSyscall "reconcile publication").withMessage
        "publication id was reused with a different payload")
    return some committed

def I64_MAX : ℕ := 2 ^ 63 - 1

/-- The version that a publication would create. -/
def versionOf (id : VersionId) (publication : VersionPublication) : VersionInfo :=
  { id, parent := publication.expectedParent, restoredFrom := publication.restoredFrom
    forkedFrom := publication.forkedFrom, kind := publication.kind, ns := publication.ns
    blockStoreId := publication.blockStoreId, createdAtMs := min nowMs I64_MAX, durable := false }

/-- The branch of `publish_version` for an identity without a committed version. -/
def createVersion (publication : VersionPublication) : Result (VersionInfo × MetadataState) := do
  publication.validate state.volumeId
  failIf (publication.durable = true)
    (((FsError.new .enotsup).withSyscall "publish version").withMessage
      "memory version store is volatile")
  validateLease state lease nowMs
  failIf (state.revision ≠ publication.expectedRevision)
    (((FsError.new .eagain).withSyscall "publish version").withMessage
      ("metadata revision conflict: expected " ++ toString publication.expectedRevision ++
        ", actual " ++ toString state.revision))
  failIf (state.head.any fun head =>
      decide (head.volume ≠ state.volumeId ∨ state.versions.contains head = false))
    (((FsError.new .eio).withSyscall "publish version").withMessage
      "stored version head references an invalid version")
  failIf (state.head ≠ publication.expectedParent)
    (((FsError.new .eagain).withSyscall "publish version").withMessage
      "version head changed concurrently")
  let id ← VersionId.new state.volumeId state.nextVersion
  let info := versionOf nowMs id publication
  info.validate
  let nextVersion ← okOr (checkedAdd state.nextVersion 1) (FsError.new .eoverflow)
  let revision ← okOr (checkedAdd state.revision 1) (FsError.new .eoverflow)
  return (info,
    { state with
      nextVersion, ns := some publication.ns, revision, head := some id
      operations := state.operations.insert publication.operationId id
      versions := state.versions.insert id info })

def publishVersion (publication : VersionPublication) : Result (VersionInfo × MetadataState) :=
  match state.operations.get? publication.operationId with
  | some existingId => do
    let existing ← okOr (state.versions.get? existingId) (FsError.new .eio)
    existing.validateForVolume state.volumeId
    failIf (publication.matchesCommitted existing = false)
      (((FsError.new .eexist).withSyscall "publish version").withMessage
        "publication id was reused with a different payload")
    return (existing, state)
  | none => state.createVersion nowMs lease publication

def deleteVersion (id : VersionId) : Result (Unit × MetadataState) := do
  validateLease state lease nowMs
  failIf (id.volume ≠ state.volumeId) ((FsError.new .enoent).withSyscall "delete version")
  failIf (state.head = some id)
    (((FsError.new .ebusy).withSyscall "delete version").withMessage
      "current version cannot be deleted")
  failIf (state.pins.values.any fun pin =>
      decide (pin.version = id ∧ nowMs < pin.expiresAtMs))
    (((FsError.new .ebusy).withSyscall "delete version").withMessage
      "version has an active read lease")
  failIf (state.versions.contains id = false)
    ((FsError.new .enoent).withSyscall "delete version")
  return ((), { state with
    versions := state.versions.erase id
    operations := state.operations.retain fun _ operationId => decide (operationId ≠ id) })

/-! ## Pins -/

def openViewPin (id : VersionId) (request : ReadLeaseRequest) :
    Result (ReadLease × MetadataState) := do
  let ttlMs ← request.validate
  failIf (id.volume ≠ state.volumeId ∨ state.versions.contains id = false)
    ((FsError.new .enoent).withSyscall "open version view")
  let expiresAtMs ← okOr (checkedAdd nowMs ttlMs) (FsError.new .eoverflow)
  let fence ← okOr (checkedAdd state.nextReadFence 1) (FsError.new .eoverflow)
  let viewId := state.volumeId ++ "-view-" ++ toString fence
  let lease : ReadLease :=
    { volume := state.volumeId, version := id, viewId, owner := request.owner, fence, expiresAtMs }
  return (lease, { state with nextReadFence := fence, pins := state.pins.insert viewId lease })

def renewViewPin (lease : ReadLease) (request : ReadLeaseRequest) :
    Result (ReadLease × MetadataState) := do
  let ttlMs ← request.validate
  let current ← okOr (state.pins.get? lease.viewId)
    ((FsError.new .estale).withSyscall "renew view")
  validateReadLease current lease nowMs
  failIf (current.owner ≠ request.owner) ((FsError.new .estale).withSyscall "renew view")
  let expiresAtMs ← okOr (checkedAdd nowMs ttlMs) (FsError.new .eoverflow)
  let renewed := { current with expiresAtMs }
  return (renewed, { state with pins := state.pins.insert lease.viewId renewed })

/-- The clock is read twice. -/
def closeViewPin (nowMs laterMs : ℕ) (lease : ReadLease) : Result (Unit × MetadataState) :=
  match state.pins.get? lease.viewId with
  | none => return ((), state)
  | some current =>
    if current = lease ∧ current.expiresAtMs ≤ nowMs then
      return ((), { state with pins := state.pins.erase lease.viewId })
    else do
      validateReadLease current lease laterMs
      return ((), { state with pins := state.pins.erase lease.viewId })

end MetadataState

end MountRs.Memory
