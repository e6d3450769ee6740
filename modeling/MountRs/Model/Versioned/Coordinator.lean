import MountRs.Library.Async
import MountRs.Model.Versioned.Memory

/-! # The version coordinator over the memory provider

`VersionedCoordinator` of `mount-rs-versioned`. Every provider call is one step of a
task; other tasks may run between any two calls, and a task that is dropped after a
call has lost its response. -/

namespace MountRs.Versioned

open Except (failIf okOr)
open Memory

structure VersionedOptions where
  owner : String
  leaseTtlMs : ℕ
  viewTtlMs : ℕ
  blockStoreId : BlockStoreId
deriving DecidableEq

/-- The store, and a record of what its publications did that no program reads. -/
structure VersionedWorld where
  metadata : MetadataState
  created : List (PublicationId × VersionInfo)
  /-- The identities that were published again after their version was deleted. -/
  reused : List PublicationId
deriving DecidableEq

namespace VersionedWorld

def new (volumeId : VolumeId) : VersionedWorld :=
  { metadata := MetadataState.new volumeId, created := [], reused := [] }

/-- The publication created a version that was deleted since. -/
def retired (world : VersionedWorld) (operationId : PublicationId) : Bool :=
  world.created.any fun entry =>
    decide (entry.1 = operationId) && !world.metadata.versions.contains entry.2.id

end VersionedWorld

/-- What the environment decides at a step: the readings of the clock and whether a
flush of the blocks fails. -/
structure Reading where
  nowMs : ℕ
  laterMs : ℕ
  flush : Option FsError

abbrev Task (α : Type) := Async VersionedWorld Reading FsError α

/-! ## Provider calls -/

/-- A call that may change the store. -/
def provider {α : Type} (f : Reading → MetadataState → Result (α × MetadataState)) : Task α :=
  Async.atomic fun reading world =>
    match f reading world.metadata with
    | .ok (a, metadata) => (.ok a, { world with metadata })
    | .error e => (.error e, world)

/-- A call that only reads the store. -/
def query {α : Type} (f : MetadataState → Result α) : Task α :=
  Async.atomic fun _ world => (f world.metadata, world)

def acquireWriter (owner : String) (ttlMs : ℕ) : Task WriterLease :=
  provider fun reading metadata => metadata.acquireWriter reading.nowMs owner ttlMs

section Provider

variable (lease : WriterLease) (publication : VersionPublication) (operationId : PublicationId)

def renewWriter (ttlMs : ℕ) : Task WriterLease :=
  provider fun reading metadata => metadata.renewWriter reading.nowMs lease ttlMs

def releaseWriter : Task Unit :=
  provider fun reading metadata => metadata.releaseWriter reading.nowMs lease

def publish (expectedRevision : ℕ) (lease : WriterLease) (ns : Namespace) : Task ℕ :=
  provider fun reading metadata => metadata.publish reading.nowMs expectedRevision lease ns

def deleteVersion (id : VersionId) : Task Unit :=
  provider fun reading metadata => metadata.deleteVersion reading.nowMs lease id

def openViewPin (id : VersionId) (request : ReadLeaseRequest) : Task ReadLease :=
  provider fun reading metadata => metadata.openViewPin reading.nowMs id request

def renewViewPin (lease : ReadLease) (request : ReadLeaseRequest) : Task ReadLease :=
  provider fun reading metadata => metadata.renewViewPin reading.nowMs lease request

def closeViewPin (lease : ReadLease) : Task Unit :=
  provider fun reading metadata => metadata.closeViewPin reading.nowMs reading.laterMs lease

def findPublication : Task (Option VersionInfo) :=
  query fun metadata => metadata.findPublication operationId

/-- A publication, with its record. -/
def publishVersion : Task VersionInfo :=
  Async.atomic fun reading world =>
    let reused := if world.retired publication.operationId then
      world.reused ++ [publication.operationId] else world.reused
    match world.metadata.publishVersion reading.nowMs lease publication with
    | .ok (info, metadata) =>
      (.ok info,
        { metadata, reused
          created := if world.metadata.versions.contains info.id then world.created
            else world.created ++ [(publication.operationId, info)] })
    | .error e => (.error e, { world with reused })

def blocksFlush : Task Unit :=
  Async.atomic fun reading world =>
    (match reading.flush with
      | some e => .error e
      | none => .ok (), world)

end Provider

/-! ## The coordinator -/

/-- Give the lease back; a failed release fails a call that had succeeded. -/
def finishLease {α : Type} (lease : WriterLease) (result : Result α) : Task α := do
  let release ← (releaseWriter lease).attempt
  match result with
  | .error e => Async.fail e
  | .ok value => do
    release
    return value

namespace VersionedOptions

variable (options : VersionedOptions) (lease : WriterLease) (publication : VersionPublication)
  (operationId : PublicationId)

/-- A committed version with the identity of a new snapshot. -/
def sameSnapshot (existing : VersionInfo) : Result VersionInfo := do
  failIf (existing.kind ≠ .snapshot ∨ existing.blockStoreId ≠ options.blockStoreId)
    (((FsError.new .eexist).withSyscall "snapshot").withMessage
      "publication id was reused for another snapshot payload")
  return existing

def publishWithLease : Task VersionInfo := do
  let volume ← query fun metadata => .ok metadata.volumeId
  publication.validate volume
  blocksFlush
  publishVersion lease publication

/-- The publication that captures a loaded namespace under a head. The memory
provider is never durable. -/
def capture (revision : ℕ) (ns : Namespace) (head : Option VersionHead) : VersionPublication :=
  { expectedRevision := revision, expectedParent := head.map VersionHead.version, operationId, ns
    blockStoreId := options.blockStoreId, kind := .snapshot, restoredFrom := none
    forkedFrom := none, durable := false }

def snapshotWithLease : Task VersionInfo := do
  let loaded ← query fun metadata => .ok metadata.load
  loaded.validate
  let ns ← okOr loaded.ns (((FsError.new .enoent).withSyscall "snapshot").withMessage
    "cannot snapshot an uninitialized filesystem")
  let head ← query fun metadata => metadata.versionHead
  publishWithLease lease (options.capture operationId loaded.revision ns head)

/-- The second lookup of `snapshot_with_publication_id`, under the lease. -/
def snapshotUnderLease : Task VersionInfo := do
  match ← findPublication operationId with
  | some existing => options.sameSnapshot existing
  | none => options.snapshotWithLease lease operationId

def snapshotWithPublicationId : Task VersionInfo := do
  match ← findPublication operationId with
  | some existing => options.sameSnapshot existing
  | none => do
    let lease ← acquireWriter options.owner options.leaseTtlMs
    let result ← (options.snapshotUnderLease lease operationId).attempt
    finishLease lease result

/-- A namespace publication may have been committed as a snapshot by an older release. -/
def legacyMatch (existing : VersionInfo) : Bool :=
  existing.kind = .snapshot ∧
    ({ publication with kind := .snapshot } : VersionPublication).matchesCommitted existing

def reconcileCommitted : Task (Option VersionInfo) :=
  query fun metadata => metadata.reconcilePublication publication

def reconcilePublication : Task (Option VersionInfo) :=
  if publication.kind = .namespacePublication then do
    match ← findPublication publication.operationId with
    | some existing =>
      if legacyMatch publication existing then return some existing
      else reconcileCommitted publication
    | none => reconcileCommitted publication
  else reconcileCommitted publication

def publishPublication : Task VersionInfo := do
  failIf (publication.kind = .snapshot)
    (((FsError.new .einval).withSyscall "publish version").withMessage
      "Snapshot kind is reserved for live snapshot capture")
  failIf (publication.blockStoreId ≠ options.blockStoreId)
    (((FsError.new .exdev).withSyscall "publish version").withMessage
      "publication uses a different block store")
  let volume ← query fun metadata => .ok metadata.volumeId
  publication.validate volume
  match ← reconcilePublication publication with
  | some existing => return existing
  | none => do
    blocksFlush
    let lease ← acquireWriter options.owner options.leaseTtlMs
    let result ← (publishWithLease lease publication).attempt
    finishLease lease result

/-- The publication that makes a retained version current again. -/
def restoration (revision : ℕ) (selected : VersionInfo)
    (head : Option VersionHead) : VersionPublication :=
  { expectedRevision := revision, expectedParent := head.map VersionHead.version, operationId
    ns := selected.ns, blockStoreId := options.blockStoreId, kind := .restore
    restoredFrom := some selected.id, forkedFrom := none, durable := false }

/-- A committed version with the identity of a new restore. -/
def sameRestore (id : VersionId) (existing : VersionInfo) : Result VersionInfo := do
  failIf (existing.kind ≠ .restore ∨ existing.restoredFrom ≠ some id ∨
      existing.blockStoreId ≠ options.blockStoreId)
    (((FsError.new .eexist).withSyscall "restore").withMessage
      "publication id was reused for another restore source")
  return existing

def restoreWithPublicationId (id : VersionId) (operationId : PublicationId) : Task VersionInfo := do
  match ← findPublication operationId with
  | some existing => options.sameRestore id existing
  | none => do
    let selected ← query fun metadata => metadata.loadVersion id
    failIf (selected.blockStoreId ≠ options.blockStoreId)
      (((FsError.new .exdev).withSyscall "restore").withMessage
        "restore source uses a different block store")
    let loaded ← query fun metadata => .ok metadata.load
    loaded.validate
    let head ← query fun metadata => metadata.versionHead
    options.publishPublication (options.restoration operationId loaded.revision selected head)

def delete (id : VersionId) : Task Unit := do
  let lease ← acquireWriter options.owner options.leaseTtlMs
  let result ← (deleteVersion lease id).attempt
  finishLease lease result

end VersionedOptions

/-! ## The system -/

/-- Direct calls of the provider and calls of coordinators, each with its options. -/
inductive Request
  | acquireWriter (owner : String) (ttlMs : ℕ)
  | renewWriter (lease : WriterLease) (ttlMs : ℕ)
  | releaseWriter (lease : WriterLease)
  | publish (expectedRevision : ℕ) (lease : WriterLease) (ns : Namespace)
  | publishVersion (lease : WriterLease) (publication : VersionPublication)
  | findPublication (operationId : PublicationId)
  | deleteVersion (lease : WriterLease) (id : VersionId)
  | openViewPin (id : VersionId) (request : ReadLeaseRequest)
  | renewViewPin (lease : ReadLease) (request : ReadLeaseRequest)
  | closeViewPin (lease : ReadLease)
  | snapshot (options : VersionedOptions) (operationId : PublicationId)
  | reconcile (publication : VersionPublication)
  | publishPublication (options : VersionedOptions) (publication : VersionPublication)
  | restore (options : VersionedOptions) (id : VersionId) (operationId : PublicationId)
  | delete (options : VersionedOptions) (id : VersionId)

inductive Response
  | unit
  | lease (lease : WriterLease)
  | revision (revision : ℕ)
  | pin (lease : ReadLease)
  | version (info : VersionInfo)
  | found (info : Option VersionInfo)
deriving DecidableEq

namespace Request

def program : Request → Task Response
  | acquireWriter owner ttlMs => do return .lease (← Versioned.acquireWriter owner ttlMs)
  | renewWriter lease ttlMs => do return .lease (← Versioned.renewWriter lease ttlMs)
  | releaseWriter lease => do Versioned.releaseWriter lease; return .unit
  | publish expectedRevision lease ns => do
    return .revision (← Versioned.publish expectedRevision lease ns)
  | publishVersion lease publication => do
    return .version (← Versioned.publishVersion lease publication)
  | findPublication operationId => do return .found (← Versioned.findPublication operationId)
  | deleteVersion lease id => do Versioned.deleteVersion lease id; return .unit
  | openViewPin id request => do return .pin (← Versioned.openViewPin id request)
  | renewViewPin lease request => do return .pin (← Versioned.renewViewPin lease request)
  | closeViewPin lease => do Versioned.closeViewPin lease; return .unit
  | snapshot options operationId => do
    return .version (← options.snapshotWithPublicationId operationId)
  | reconcile publication => do
    return .found (← VersionedOptions.reconcilePublication publication)
  | publishPublication options publication => do
    return .version (← options.publishPublication publication)
  | restore options id operationId => do
    return .version (← options.restoreWithPublicationId id operationId)
  | delete options id => do options.delete id; return .unit

/-- The publication identity that the answer of a request is about. -/
def operationId : Request → Option PublicationId
  | publishVersion _ publication => some publication.operationId
  | findPublication operationId => some operationId
  | snapshot _ operationId => some operationId
  | reconcile publication => some publication.operationId
  | publishPublication _ publication => some publication.operationId
  | restore _ _ operationId => some operationId
  | _ => none

end Request

/-- Any number of tasks; `requests` gives the request of every task. -/
def service (requests : ℕ → Request) :
    Service VersionedWorld Reading FsError Response Unit Empty where
  program task _ := (requests task).program
  arrive _ _ world := world
  disturb disturbance := disturbance.elim

def startPool (volumeId : VolumeId) : Pool VersionedWorld Reading FsError Response :=
  { shared := VersionedWorld.new volumeId, tasks := [] }

end MountRs.Versioned
