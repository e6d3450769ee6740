import MountRs.Model.Chunked.Lease
import MountRs.Model.ObjectStore
import MountRs.Model.Versioned.Coordinator

/-! # Reclaiming blocks

Exclusive writers (`ChunkedFs`) and version coordinators over one metadata store and one
object store. What a mutation does to the namespace is left open, except that the
blocks of the result come from the namespace or were stored by the mutation. -/

namespace MountRs.Reclamation

open Except (failIf okOr)
open Chunked (LeaseCalls LEASE_RENEWAL_MARGIN_MS closedError releasedError checkPersisted)
open Memory ObjectStore Versioned

/-! ## Block roots -/

def nodeRoots (node : NodeMetadata) : List BlockId :=
  match node.data with
  | .file layout => layout.extents.map BlockExtent.block
  | _ => []

variable (ns : Namespace) (orphans : BTreeMap InodeId NodeMetadata)

/-- `collect_block_roots`. -/
def blockRoots : List BlockId := ns.nodes.values.flatMap nodeRoots

/-! ## State -/

/-- What an operation does: the blocks that it stores, and how it changes the namespace
and the open files that the namespace no longer has. One that stores blocks keeps the
lifecycle of its coordinator. -/
structure Mutation where
  guarded : Bool
  blocks : List (List UInt8)
  guarded_of_blocks : blocks ≠ [] → guarded = true
  edit : List BlockId → Namespace → BTreeMap InodeId NodeMetadata →
    Result (Namespace × BTreeMap InodeId NodeMetadata)
  roots_edit : ∀ {stored ns orphans result}, edit stored ns orphans = .ok result →
    ∀ id ∈ blockRoots result.1, id ∈ blockRoots ns ∨ id ∈ stored

structure Options where
  owner : String
  leaseTtlMs : ℕ
  writeback : Bool

/-- One `ChunkedFs`; the tasks that hold its locks are named in them. -/
structure Coordinator where
  opened : Bool
  closed : Bool
  failure : Option FsError
  ns : Namespace
  orphans : BTreeMap InodeId NodeMetadata
  persistedRevision : ℕ
  pendingNamespace : Bool
  lease : Option WriterLease
  leaseRenewed : Bool
  gate : Option ℕ
  readers : List ℕ
  writer : Option ℕ

/-- No program reads the ledger. -/
structure Ledger where
  holder : ℕ
  reclaiming : List ℕ
  /-- The blocks that a coordinator has stored since it last reconciled. -/
  stored : List (ℕ × BlockId)
  /-- A lease was granted while another coordinator was reconciling. -/
  regranted : Bool
  /-- A put was answered by one in flight, of a block that its own coordinator had not stored
  since it last reconciled. -/
  joined : Bool
  /-- A reconciliation began while a version had an old block outside the live set. -/
  exposed : Bool

/-- The reconciliations and the puts of the coordinators have come apart. -/
def Ledger.overtaken (ledger : Ledger) : Bool := ledger.regranted || ledger.joined

/-- A lease is granted to a client. -/
def Ledger.grant (ledger : Ledger) (client : ℕ) : Ledger :=
  { ledger with
    holder := client
    regranted := ledger.regranted || ledger.reclaiming.any fun fs => decide (fs ≠ client) }

structure World where
  metadata : MetadataState
  objects : Objects
  puts : List InFlightPut
  fs : ℕ → Coordinator
  ledger : Ledger

namespace World

def setFs (world : World) (fs : ℕ) (coordinator : Coordinator) : World :=
  { world with fs := Function.update world.fs fs coordinator }

end World

/-- How a remote call ends: the caller learns the result, the call has its effect and
its response is lost, or the call is not executed. A caller that is dropped has also
lost the response. -/
inductive Outcome
  | acknowledged
  | lost (error : FsError)
  | refused (error : FsError)

def Outcome.respond {α : Type} (a : α) : Outcome → Result α
  | lost e => .error e
  | _ => .ok a

/-- What the environment decides at a step: clock readings, how a remote call ends, the
time stamp of a new object, and the next page of a listing. -/
structure Answer where
  nowMs : ℕ
  laterMs : ℕ
  outcome : Outcome
  storedAtMs : ℤ
  page : Option (List String)

abbrev Call (α : Type) := Async World Answer FsError α

/-! ## Provider calls -/

/-- A call of the metadata store, with what it adds to the ledger. -/
def provider {α : Type} (f : Answer → MetadataState → Result (α × MetadataState))
    (note : Ledger → Ledger) : Call α :=
  Async.atomic fun answer world =>
    match answer.outcome, f answer world.metadata with
    | .refused e, _ => (.error e, world)
    | _, .error e => (.error e, world)
    | outcome, .ok (a, metadata) =>
      (outcome.respond a, { world with metadata, ledger := note world.ledger })

/-- A call that only reads. -/
def query {α : Type} (f : Answer → World → Result α) : Call α :=
  Async.atomic fun answer world => (f answer world, world)

def acquireWriter (client : ℕ) (owner : String) (ttlMs : ℕ) : Call WriterLease :=
  provider (fun answer metadata => metadata.acquireWriter answer.nowMs owner ttlMs)
    fun ledger => ledger.grant client

variable (lease : WriterLease)

def renewWriter (ttlMs : ℕ) : Call WriterLease :=
  provider (fun answer metadata => metadata.renewWriter answer.nowMs lease ttlMs) id

def releaseWriter : Call Unit :=
  provider (fun answer metadata => metadata.releaseWriter answer.nowMs lease) id

def metadataLoad : Call LoadedMetadata :=
  query fun answer world =>
    match answer.outcome with
    | .acknowledged => .ok world.metadata.load
    | .lost e | .refused e => .error e

/-! ## Coordinators -/

structure Caller where
  fs : ℕ
  task : ℕ
  options : Options
  scope : String
  blockStore : ℕ
  blockId : List UInt8 → BlockId

/-- The failure and shutdown checks. -/
def Coordinator.usable (coordinator : Coordinator) : Result Unit :=
  match coordinator.failure with
  | some error => .error error
  | none => if coordinator.closed then .error closedError else .ok ()

def Coordinator.failWith (coordinator : Coordinator) (error : FsError) : Coordinator :=
  { coordinator with failure := coordinator.failure.or (some error) }

namespace Caller

variable (self : Caller)

/-- Look at the state of the coordinator. -/
def read {α : Type} (f : Coordinator → Result α) : Call α :=
  query fun _ world => f (world.fs self.fs)

def modify (f : Coordinator → Coordinator) : Call Unit :=
  Async.atomic fun _ world => (.ok (), world.setFs self.fs (f (world.fs self.fs)))

def failClosed {α : Type} (error : FsError) : Call α := do
  self.modify fun coordinator => coordinator.failWith error
  Async.fail error

def withGate {α : Type} (p : Call α) : Call α :=
  Async.withLock (fun world => (world.fs self.fs).gate.isNone)
    (fun world => world.setFs self.fs { world.fs self.fs with gate := some self.task })
    (fun world => world.setFs self.fs { world.fs self.fs with gate := none }) p

def withLifecycleRead {α : Type} (p : Call α) : Call α :=
  Async.withLock (fun world => (world.fs self.fs).writer.isNone) (fun world => world.setFs self.fs
      { world.fs self.fs with readers := self.task :: (world.fs self.fs).readers })
    (fun world => world.setFs self.fs
      { world.fs self.fs with readers := (world.fs self.fs).readers.erase self.task }) p

/-- `lifecycle.write()`; the ledger records a reconciliation. -/
def withLifecycleWrite {α : Type} (reclaims : Bool) (p : Call α) : Call α :=
  Async.withLock
    (fun world => (world.fs self.fs).writer.isNone && (world.fs self.fs).readers.isEmpty)
    (fun world =>
      { world.setFs self.fs { world.fs self.fs with writer := some self.task } with
        ledger := if reclaims then { world.ledger with
            reclaiming := self.fs :: world.ledger.reclaiming
            stored := world.ledger.stored.filter fun entry => decide (entry.1 ≠ self.fs) }
          else world.ledger })
    (fun world =>
      { world.setFs self.fs { world.fs self.fs with writer := none } with
        ledger := if reclaims then { world.ledger with
            reclaiming := world.ledger.reclaiming.filter fun fs => decide (fs ≠ self.fs) }
          else world.ledger }) p

/-! ### The writer lease -/

/-- Keep a lease for the next operations. -/
def installLease : Call WriterLease := do
  self.modify fun coordinator => { coordinator with lease := some lease, leaseRenewed := true }
  return lease

def leaseCalls : LeaseCalls World Answer where
  owner := self.options.owner
  cached := self.read fun coordinator => okOr coordinator.lease releasedError
  fresh force current := query fun answer world =>
    let margin := min self.options.leaseTtlMs LEASE_RENEWAL_MARGIN_MS
    .ok (!force && (world.fs self.fs).leaseRenewed &&
      decide (answer.nowMs + margin < current.expiresAtMs))
  acquire := acquireWriter self.fs self.options.owner self.options.leaseTtlMs
  renew current := renewWriter current self.options.leaseTtlMs
  release := releaseWriter
  load := metadataLoad
  persisted := self.read fun coordinator =>
    checkPersisted coordinator.failure coordinator.closed coordinator.persistedRevision
  install := self.installLease
  resume := self.installLease
  failClosed := self.failClosed

def validateLease : Call Unit := do
  let _ ← self.leaseCalls.renewLeaseInner true

/-! ### Mutations -/

/-- Publish a namespace and take it over. Without an acknowledgement the coordinator
fails closed, as it also does when the call is dropped. -/
def publish (ns : Namespace) (orphans : BTreeMap InodeId NodeMetadata) : Call Unit :=
  Async.atomic fun answer world =>
    let coordinator := world.fs self.fs
    let failed (e : FsError) (world : World) : Result Unit × World :=
      (.error e, world.setFs self.fs (coordinator.failWith e))
    match answer.outcome, world.metadata.publish answer.nowMs coordinator.persistedRevision lease ns
      with
    | .refused e, _ => failed e world
    | _, .error e => failed e world
    | .lost e, .ok (_, metadata) => failed e { world with metadata }
    | .acknowledged, .ok (revision, metadata) =>
      (.ok (), ({ world with metadata }).setFs self.fs { coordinator with
        ns, orphans, persistedRevision := revision, pendingNamespace := false })

/-- `publish_namespace_durable` of an exclusive writer. -/
def publishDurable : Call Unit := do
  Async.when self.options.writeback self.validateLease
  let lease ← self.leaseCalls.renewLeaseInner false
  self.publish lease ns orphans

def publishNamespace : Call Unit :=
  if self.options.writeback then
    self.modify fun coordinator => { coordinator with ns, orphans, pendingNamespace := true }
  else self.publishDurable ns orphans

/-- An object that is already there is kept as it is. -/
def putRemote (id : BlockId) (bytes : List UInt8) (path : String) : Call Unit := do
  let created ← Async.atomic fun answer world =>
    match answer.outcome with
    | .refused e => (.error (FsError.backend ("put object-store block: " ++ e.display)), world)
    | outcome =>
      let (created, objects) := create world.objects path ⟨bytes, answer.storedAtMs⟩
      (outcome.respond created, { world with
        objects
        ledger := { world.ledger with
          stored := if created then (self.fs, id) :: world.ledger.stored
            else world.ledger.stored } })
  Async.when (!created) (Async.atomic fun _ world =>
    match verifyExisting world.objects path bytes with
    | .error e => (.error e, world)
    | .ok () => (.ok (), { world with
        ledger := { world.ledger with stored := (self.fs, id) :: world.ledger.stored } }))

/-- The leader of a put in flight tells the others how it ended, also when it is dropped. -/
def leadPut (id : BlockId) (bytes : List UInt8) (path : String) (put : ℕ) : Call Unit := do
  let finish (result : Result Unit) (world : World) : World :=
    { world with puts := finishPut world.puts put result }
  let result ← Async.onDrop (finish (.error canceledPut)) do
    let result ← (self.putRemote id bytes path).attempt
    Async.atomic fun _ world => (.ok result, finish result world)
  result

/-- `wait_for_inflight_put`: the follower takes over the answer. -/
def followPut (id : BlockId) (put : ℕ) : Call Unit :=
  Async.await (fun world => (world.puts[put]?.bind InFlightPut.result).isSome) fun _ world =>
    match world.puts[put]?.bind InFlightPut.result with
    | none => (.error canceledPut, world)
    | some (.error e) => (.error e, world)
    | some (.ok ()) =>
      (.ok (), if (self.fs, id) ∈ world.ledger.stored then world
        else { world with
          ledger := { world.ledger with
            stored := (self.fs, id) :: world.ledger.stored, joined := true } })

/-- `put` of the block store. -/
def put (bytes : List UInt8) : Call BlockId := do
  let id := self.blockId bytes
  let path ← objectPath self.scope id
  let claim ← Async.atomic fun _ world =>
    let (claim, puts) := claimPut world.puts self.blockStore id
    (.ok claim, { world with puts })
  match claim with
  | .leader put => self.leadPut id bytes path put
  | .follower put => self.followPut id put
  return id

def putAll : List (List UInt8) → Call (List BlockId)
  | [] => return []
  | bytes :: rest => do
    let id ← self.put bytes
    return id :: (← putAll rest)

/-- Change the namespace under the gate. -/
def mutateWith (mutation : Mutation) (stored : List BlockId) : Call Unit :=
  self.withGate do
    let _ ← self.leaseCalls.renewLeaseInner false
    let (ns, orphans) ← self.read fun coordinator =>
      coordinator.usable.map fun _ => (coordinator.ns, coordinator.orphans)
    let (ns, orphans) ← mutation.edit stored ns orphans
    self.publishNamespace ns orphans

/-- Blocks are stored outside the gate. -/
def mutate (mutation : Mutation) : Call Unit :=
  if mutation.guarded then self.withLifecycleRead do
    let stored ← self.putAll mutation.blocks
    self.mutateWith mutation stored
  else self.mutateWith mutation []

/-- Publish what was staged. -/
def drainWriteback : Call Unit := do
  let (pending, ns, orphans) ← self.read fun coordinator => coordinator.usable.map fun _ =>
    (coordinator.pendingNamespace, coordinator.ns, coordinator.orphans)
  Async.when (self.options.writeback && pending) (self.publishDurable ns orphans)

def syncfs : Call Unit := self.withGate self.drainWriteback

/-! ### Reconciliation -/

structure BlockReconcileReport where
  scanned : ℕ
  isProtected : ℕ
  recent : ℕ
  deleted : ℕ
deriving DecidableEq

/-- The blocks that reconciliation may not delete. -/
def liveBlocks : BTreeSet BlockId :=
  BTreeSet.ofKeys (blockRoots ns ++ orphans.values.flatMap nodeRoots)

/-- A block that reconciliation keeps: it is live, or it is not old. -/
def covered (scope : String) (objects : Objects) (live : BTreeSet BlockId) (nowMs graceMs : ℕ)
    (id : BlockId) : Bool :=
  match objects.get? (location scope id) with
  | none => decide (id ∈ live)
  | some object => decide (candidate scope live (location scope id) object.lastModifiedMs nowMs
      graceMs ≠ some .delete)

/-- Every block of every version is kept. -/
def versionsCovered (scope : String) (world : World) (live : BTreeSet BlockId)
    (nowMs graceMs : ℕ) : Bool :=
  world.metadata.versions.values.all fun info =>
    (blockRoots info.ns).all (covered scope world.objects live nowMs graceMs)

/-- Read the clock. -/
def startListing (live : BTreeSet BlockId) (graceMs : ℕ) : Call ℕ :=
  Async.atomic fun answer world =>
    (.ok answer.nowMs, { world with
      ledger := { world.ledger with
        exposed := world.ledger.exposed ||
          !versionsCovered self.scope world live answer.nowMs graceMs } })

def listPage : Call (Option (List (String × ℤ))) :=
  query fun answer world =>
    match answer.outcome with
    | .acknowledged => .ok (answer.page.map fun paths => paths.filterMap fun path =>
      (world.objects.get? path).map fun object => (path, object.lastModifiedMs))
    | .lost e | .refused e =>
      .error (FsError.backend ("list object-store blocks for reconciliation: " ++ e.display))

def deleteObject (path : String) : Call Unit :=
  Async.atomic fun answer world =>
    let failed (e : FsError) : Result Unit := .error (FsError.backend
      ("delete unreferenced object-store block during reconciliation: " ++ e.display))
    match answer.outcome with
    | .refused e => (failed e, world)
    | .lost e => (failed e, { world with objects := world.objects.erase path })
    | .acknowledged => (.ok (), { world with objects := world.objects.erase path })

/-- One iteration of the loop over the listing. -/
def reconcileObject (live : BTreeSet BlockId) (nowMs graceMs : ℕ) (report : BlockReconcileReport)
    (listed : String × ℤ) : Call BlockReconcileReport :=
  match candidate self.scope live listed.1 listed.2 nowMs graceMs with
  | none => return report
  | some .isProtected => return { report with
      scanned := report.scanned + 1, isProtected := report.isProtected + 1 }
  | some .recent => return { report with
      scanned := report.scanned + 1, recent := report.recent + 1 }
  | some .delete => do
    deleteObject listed.1
    return { report with scanned := report.scanned + 1, deleted := report.deleted + 1 }

def reconcileObjects (live : BTreeSet BlockId) (nowMs graceMs : ℕ) :
    BlockReconcileReport → List (String × ℤ) → Call BlockReconcileReport
  | report, [] => return report
  | report, listed :: rest => do
    let report ← self.reconcileObject live nowMs graceMs report listed
    reconcileObjects live nowMs graceMs report rest

/-- The listing may have any number of pages; the fuel bounds those that are read. -/
def reconcilePages (live : BTreeSet BlockId) (nowMs graceMs : ℕ) :
    ℕ → BlockReconcileReport → Call BlockReconcileReport
  | 0, _ => .halted
  | fuel + 1, report => do
    match ← listPage with
    | none => return report
    | some page => do
      let report ← self.reconcileObjects live nowMs graceMs report page
      reconcilePages live nowMs graceMs fuel report

def graceError : FsError :=
  ((FsError.new .einval).withSyscall "reconcile blocks").withMessage
    "reconciliation grace period must be positive"

def reconcileBlocks (fuel : ℕ) (grace : Duration) : Call BlockReconcileReport := do
  failIf grace.isZero graceError
  self.withLifecycleWrite true (self.withGate do
    self.validateLease
    self.drainWriteback
    let live ← self.read fun coordinator =>
      coordinator.usable.map fun _ => liveBlocks coordinator.ns coordinator.orphans
    let nowMs ← self.startListing live grace.asMillis
    self.reconcilePages live nowMs grace.asMillis fuel ⟨0, 0, 0, 0⟩)

/-! ### Opening and closing -/

/-- The namespace that a coordinator starts from. -/
def loadNamespace : Call (ℕ × Namespace) := do
  let loaded ← metadataLoad
  loaded.validate
  let ns ← okOr loaded.ns (FsError.backend "metadata revision has no corresponding namespace")
  return (loaded.revision, ns)

def openExclusive : Call Unit := do
  let lease ← acquireWriter self.fs self.options.owner self.options.leaseTtlMs
  match ← loadNamespace.attempt with
  | .error e => do
    let _ ← (releaseWriter lease).attempt
    Async.fail e
  | .ok (revision, ns) => self.modify fun coordinator => { coordinator with
      opened := true, closed := false, failure := none, ns, orphans := ∅
      persistedRevision := revision, pendingNamespace := false, lease := some lease
      leaseRenewed := false }

/-- Release the lease that is still cached, and report how its renewal went. -/
def releaseLease (refresh : Result Unit) : Call Unit := do
  match ← self.read fun coordinator => .ok coordinator.lease with
  | none => refresh
  | some lease =>
    match ← (releaseWriter lease).attempt with
    | .ok () => do
      self.modify fun coordinator => { coordinator with lease := none }
      refresh
    | .error e => self.failClosed e

/-- Renew a lease that is about to be released; the outcome is reported later. -/
def refreshBeforeRelease (closed : Bool) : Call (Result Unit) := do
  let held ← self.read fun coordinator => .ok coordinator.lease.isSome
  if closed = false ∧ held then self.validateLease.attempt else return .ok ()

def shutdown : Call Unit :=
  self.withLifecycleWrite false (self.withGate do
    let (closed, failed) ← self.read fun coordinator =>
      .ok (coordinator.closed, coordinator.failure.isSome)
    Async.when (!closed && !failed) self.drainWriteback
    let refresh ← self.refreshBeforeRelease closed
    self.modify fun coordinator => { coordinator with closed := true }
    self.releaseLease refresh)

end Caller

/-! ## Version coordinators -/

/-- What a version coordinator is answered. -/
def Answer.reading (answer : Answer) : Reading :=
  { nowMs := answer.nowMs, laterMs := answer.laterMs
    flush := match answer.outcome with
      | .acknowledged => none
      | .lost e | .refused e => some e }

/-- A call of a version coordinator has changed the metadata; a higher fence is a lease that
was granted to it. -/
def World.setMetadata (world : World) (client : ℕ) (metadata : MetadataState) : World :=
  { world with
    metadata
    ledger := if world.metadata.lastFence < metadata.lastFence then world.ledger.grant client
      else world.ledger }

/-- What a version coordinator sees of the store. -/
def World.versionedWorld (world : World) : VersionedWorld :=
  { metadata := world.metadata, created := [], reused := [] }

/-- A task of a version coordinator. -/
def versioned {α : Type} (client : ℕ) (task : Versioned.Task α) : Call α :=
  task.zoom World.versionedWorld (fun after world => world.setMetadata client after.metadata)
    Answer.reading

/-! ## The system -/

inductive Op
  | openFs
  | mutate (mutation : Mutation)
  | syncfs
  | reconcile (grace : Duration)
  | shutdown
  | snapshot (options : VersionedOptions) (operationId : PublicationId)
  | deleteVersion (options : VersionedOptions) (id : VersionId)
  | openViewPin (version : VersionId) (request : ReadLeaseRequest)
  | renewViewPin (lease : ReadLease) (request : ReadLeaseRequest)
  | closeViewPin (lease : ReadLease)

/-- An operation on a coordinator; the other operations ignore the number. -/
structure Request where
  fs : ℕ
  op : Op

/-- What does not change in a run: the requests of the tasks, the options of every
coordinator, the path of the blocks, the store object that a coordinator shares with
others, and the digests of blocks. -/
structure Setup where
  requests : ℕ → Request
  options : ℕ → Options
  scope : String
  blockStore : ℕ → ℕ
  blockId : List UInt8 → BlockId

namespace Setup

variable (setup : Setup)

def caller (task fs : ℕ) : Caller :=
  { fs, task, options := setup.options fs, scope := setup.scope
    blockStore := setup.blockStore fs, blockId := setup.blockId }

/-- A coordinator can only be used after it has been opened. -/
def withOpened {α : Type} (fs : ℕ) (p : Call α) : Call α := do
  Async.await (fun world => (world.fs fs).opened) fun _ world => (.ok (), world)
  p

/-- The task that opens a coordinator gives it its number. -/
def program (task fuel : ℕ) : Call Unit :=
  let fs := (setup.requests task).fs
  let self := setup.caller task fs
  match (setup.requests task).op with
  | .openFs => (setup.caller task task).openExclusive
  | .mutate mutation => withOpened fs (self.mutate mutation)
  | .syncfs => withOpened fs self.syncfs
  | .reconcile grace => withOpened fs do
    let _ ← self.reconcileBlocks fuel grace
  | .shutdown => withOpened fs self.shutdown
  | .snapshot options operationId => versioned task do
    let _ ← options.snapshotWithPublicationId operationId
  | .deleteVersion options id => versioned task (options.delete id)
  | .openViewPin version request => versioned task do
    let _ ← Versioned.openViewPin version request
  | .renewViewPin lease request => versioned task do
    let _ ← Versioned.renewViewPin lease request
  | .closeViewPin lease => versioned task (Versioned.closeViewPin lease)

/-- Requests arrive in order, each with the fuel of its loop. -/
def service : Service World Answer FsError Unit ℕ Empty where
  program := setup.program
  arrive _ _ world := world
  disturb disturbance := disturbance.elim

end Setup

/-- A coordinator that nobody has opened. -/
def absentCoordinator : Coordinator :=
  { opened := false, closed := true, failure := none, ns, orphans := ∅, persistedRevision := 0
    pendingNamespace := false, lease := none, leaseRenewed := false, gate := none, readers := []
    writer := none }

/-- A run starts with an initialized store without files and any objects. -/
def World.start (volumeId : VolumeId) (ns : Namespace) (objects : Objects) : World :=
  { metadata := { MetadataState.new volumeId with revision := 1, ns := some ns }
    objects, puts := [], fs := fun _ => absentCoordinator ns
    ledger :=
      { holder := 0, reclaiming := [], stored := [], regranted := false, joined := false
        exposed := false } }

def startPool (volumeId : VolumeId) (ns : Namespace) (objects : Objects) :
    Pool World Answer FsError Unit :=
  { shared := World.start volumeId ns objects, tasks := [] }

end MountRs.Reclamation
