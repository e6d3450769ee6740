import MountRs.Library.Async
import MountRs.Model.Chunked.Mutation

/-! # The state of the coordinators and of their providers

`ChunkedInner` with its runtime state, the metadata and block providers that
several coordinators share, and the record of a run that the results are about. -/

namespace MountRs.Chunked

open Except (failIf okOr)

/-! ## One coordinator -/

structure ChunkedOptions where
  owner : String
  leaseTtlMs : ℕ
  concurrentWrites : Bool
  inodeUpdates : Bool
  writeback : Bool
deriving DecidableEq

structure RuntimeState where
  ns : Namespace
  inodeRevisions : BTreeMap InodeId ℕ
  selectedInodes : BTreeMap InodeId NodeMetadata
  /-- Local operation generation, incremented for every staged mutation. -/
  revision : ℕ
  /-- Provider CAS revision. -/
  persistedRevision : ℕ
  pendingNamespace : Bool
  openRefs : BTreeMap InodeId ℕ
  pendingAtime : BTreeMap InodeId ℤ
  orphans : BTreeMap InodeId NodeMetadata
  failure : Option FsError
  closed : Bool
deriving DecidableEq

/-- The parts of `ChunkedInner` that change. A lock is held by a task. -/
structure Coordinator where
  state : RuntimeState
  lease : Option WriterLease
  leaseRenewed : Bool
  gate : Option ℕ
  leaseGate : Option ℕ
deriving DecidableEq

/-! ## The providers -/

/-- The metadata provider: the published namespace under its revision, the
version of every inode within it, and the writer lease. In MRC4 the revision is the
structural generation. -/
structure Store where
  revision : ℕ
  ns : Namespace
  inodeRevisions : BTreeMap InodeId ℕ
  /-- The lease that has not expired and was not released. -/
  lease : Option WriterLease
  /-- The last fence handed out. -/
  fence : ℕ
deriving DecidableEq

/-- How a remote call goes wrong: it may be refused without effect, or take effect
and lose its answer. -/
inductive Fault
  | none
  | refuse (error : FsError)
  | lose (error : FsError)

/-- What the environment decides at a step: the fate of a remote call, the
readings of the clock, the identity of a stored block, whether a provider leaves
out a payload that has not changed, and whether it restarts inode revisions. -/
structure Answer where
  fault : Fault
  clock : Clock
  block : BlockId
  brief : Bool
  restart : Bool

/-! ## The record of a run

No program reads the record. -/

/-- The work of some tasks: the namespace they started from and what they made of it. -/
structure Stage where
  carried : List ℕ
  base : Namespace
  result : Namespace

structure Commit where
  author : ℕ
  stages : List Stage
  prior : Namespace
  ns : Namespace
  revision : ℕ

/-- An inode publication that the store accepted: the node it was computed from,
the one it replaced and the new one. -/
structure InodeCommit where
  author : ℕ
  task : ℕ
  inode : InodeId
  base : NodeMetadata
  prior : NodeMetadata
  node : NodeMetadata

/-- What happened to the store and to the state of its writers, in order. -/
inductive Record
  | structural (commit : Commit)
  | inode (commit : InodeCommit)
  /-- A coordinator with writeback changed its namespace in memory. -/
  | staged (author : ℕ) (stage : Stage) (prior : Namespace)
  | acquired (author fence : ℕ)
  /-- A coordinator goes on under a lease that it acquired after its own had expired. -/
  | resumed (author fence : ℕ)
  /-- A coordinator cached a node under another structural generation than the one it
  was read or published in. -/
  | crossed (author : ℕ) (inode : InodeId)

structure Ledger where
  log : List Record
  /-- The tasks whose publication took effect in a call that answered an error. -/
  unsettled : List ℕ
  /-- What a coordinator has staged and not yet published. -/
  pending : ℕ → List Stage

structure World where
  store : Store
  /-- The bytes of a block; an identity names the same bytes forever. -/
  content : BlockId → List UInt8
  fs : ℕ → Coordinator
  ledger : Ledger

/-- `&self` of a call with what never changes about it, and the identity of the
calling task. -/
structure Caller where
  fs : ℕ
  task : ℕ
  options : ChunkedOptions
  publishIncludesFlushBarrier : Bool

abbrev Call (α : Type) := Async World Answer FsError α

namespace World

def setFs (world : World) (fs : ℕ) (coordinator : Coordinator) : World :=
  { world with fs := Function.update world.fs fs coordinator }

def setState (world : World) (fs : ℕ) (state : RuntimeState) : World :=
  world.setFs fs { world.fs fs with state }

/-- The answer to a publication of these tasks got lost. -/
def unsettle (world : World) (tasks : List ℕ) : World :=
  { world with ledger := { world.ledger with unsettled := world.ledger.unsettled ++ tasks } }

def record (world : World) (entry : Record) : World :=
  { world with ledger := { world.ledger with log := world.ledger.log ++ [entry] } }

end World

/-! ## Sections and remote calls -/

namespace Caller

variable (self : Caller)

/-- One section of the state mutex. -/
def locked {α : Type} (f : RuntimeState → Result α × RuntimeState) : Call α :=
  Async.atomic fun _ world =>
    let (result, state) := f (world.fs self.fs).state
    (result, world.setState self.fs state)

/-- The readings of the clock until the next step. -/
def readClock : Call Clock := Async.atomic fun answer world => (.ok answer.clock, world)

def read {α : Type} (f : Coordinator → Result α) : Call α :=
  Async.atomic fun _ world => (f (world.fs self.fs), world)

/-- `gate.lock()`, held while the program runs. -/
def withGate {α : Type} (p : Call α) : Call α :=
  Async.withLock (fun world => (world.fs self.fs).gate.isNone)
    (fun world => world.setFs self.fs { world.fs self.fs with gate := some self.task })
    (fun world => if (world.fs self.fs).gate = some self.task then
        world.setFs self.fs { world.fs self.fs with gate := none } else world) p

def withLeaseGate {α : Type} (p : Call α) : Call α :=
  Async.withLock (fun world => (world.fs self.fs).leaseGate.isNone)
    (fun world => world.setFs self.fs { world.fs self.fs with leaseGate := some self.task })
    (fun world => if (world.fs self.fs).leaseGate = some self.task then
        world.setFs self.fs { world.fs self.fs with leaseGate := none } else world) p

end Caller

/-- A remote call with an effect on the store. A call answers `EAGAIN` only if it
had none. -/
def remote {α : Type} (effect : World → Result α × World) : Call α :=
  Async.atomic fun answer world =>
    match answer.fault with
    | .none => effect world
    | .refuse e => (.error e, world)
    | .lose e => if e.code = .eagain then (.error e, world) else (.error e, (effect world).2)

/-- A remote call that publishes the work of some tasks if the store accepts it. -/
def publication {α : Type} (accept : Store → Result α) (effect : Answer → World → World)
    (carried : World → List ℕ) : Call α :=
  Async.atomic fun answer world =>
    match answer.fault, accept world.store with
    | .none, .ok a => (.ok a, effect answer world)
    | .none, .error e => (.error e, world)
    | .refuse e, _ => (.error e, world)
    | .lose e, .ok _ =>
      if e.code = .eagain then (.error e, world)
      else (.error e, (effect answer world).unsettle (carried world))
    | .lose e, .error _ => (.error e, world)

/-- A remote call that changes nothing. -/
def inspect {α : Type} (f : Answer → World → Result α) : Call α :=
  Async.atomic fun answer world =>
    match answer.fault with
    | .none => (f answer world, world)
    | .refuse e => (.error e, world)
    | .lose e => (.error e, world)

/-! ## The block provider -/

def blocksGet (block : BlockId) : Call (List UInt8) := inspect fun _ world => .ok (world.content block)

/-- The provider chooses the identity, which may only name the stored bytes. -/
def blocksPut (bytes : List UInt8) : Call BlockId :=
  inspect fun answer world =>
    if world.content answer.block = bytes ∧ answer.block ≠ "" then .ok answer.block
    else .error (FsError.new .eio)

def blocksFlush : Call Unit := inspect fun _ _ => .ok ()

def verifyConcurrentBacking : Call Unit := inspect fun _ _ => .ok ()

/-! ## The metadata provider -/

def metadataLoad : Call LoadedMetadata :=
  inspect fun _ world => .ok { revision := world.store.revision, ns := some world.store.ns }

/-- An unchanged payload may be left out. -/
def metadataLoadIfChanged (knownRevision : ℕ) : Call (Option LoadedMetadata) :=
  inspect fun answer world =>
    if world.store.revision = knownRevision ∧ answer.brief then .ok none
    else .ok (some { revision := world.store.revision, ns := some world.store.ns })

/-- The work that a publication makes durable: one stage, or all that the
coordinator has staged since its last publication. -/
inductive Work
  | direct (stage : Stage)
  | staged

def Work.stages (fs : ℕ) (world : World) : Work → List Stage
  | direct stage => [stage]
  | staged => world.ledger.pending fs

/-- The tasks whose work some stages are. -/
def carriedBy (stages : List Stage) : List ℕ := stages.flatMap Stage.carried

/-- The barrier after a publication. -/
def metadataFlush (carried : List ℕ) : Call Unit :=
  Async.atomic fun answer world =>
    match answer.fault with
    | .none => (.ok (), world)
    | .refuse e => (.error e, world.unsettle carried)
    | .lose e => (.error e, world.unsettle carried)

def World.clearPending (world : World) (fs : ℕ) : World :=
  { world with ledger := { world.ledger with pending := Function.update world.ledger.pending fs [] } }

def World.stage (world : World) (fs : ℕ) (stage : Stage) : World :=
  { world with ledger := { world.ledger with
    log := world.ledger.log ++ [.staged fs stage (world.fs fs).state.ns]
    pending := Function.update world.ledger.pending fs (world.ledger.pending fs ++ [stage]) } }

variable (self : Caller)

/-- Replace the published namespace. -/
def commit (work : Work) (ns : Namespace) (world : World) : World :=
  let published := { world with
      store := { world.store with revision := world.store.revision + 1, ns } }.record
    (.structural
      { author := self.fs, stages := work.stages self.fs world, prior := world.store.ns, ns
        revision := world.store.revision + 1 })
  match work with
  | .direct _ => published
  | .staged => published.clearPending self.fs

def acceptRevision (expectedRevision : ℕ) (store : Store) : Result ℕ := do
  failIf (store.revision ≠ expectedRevision) (FsError.new .eagain)
  okOr (checkedAdd store.revision 1) (FsError.new .eoverflow)

def publishBoundIfRevision (expectedRevision : ℕ) (work : Work) (ns : Namespace) : Call ℕ :=
  publication (acceptRevision expectedRevision) (fun _ => commit self work ns)
    fun world => carriedBy (work.stages self.fs world)

/-! ### Writer leases -/

def Store.holds (store : Store) (lease : WriterLease) : Bool :=
  store.lease.any fun current => current.owner == lease.owner && current.fence == lease.fence

/-- One unexpired lease exists at a time, and every one has a new fence. -/
def acquireWriter : Call WriterLease :=
  Async.atomic fun answer world =>
    let lease :=
      { owner := self.options.owner, fence := world.store.fence + 1
        expiresAtMs := (answer.clock 0).toNat }
    let granted := { world with
      store := { world.store with lease := some lease, fence := world.store.fence + 1 } }.record
        (.acquired self.fs (world.store.fence + 1))
    match answer.fault with
    | .none => if world.store.lease.isSome then (.error (FsError.new .eagain), world)
        else (.ok lease, granted)
    | .refuse e => (.error e, world)
    | .lose e => if e.code = .eagain ∨ world.store.lease.isSome then (.error e, world)
        else (.error e, granted)

def renewWriter (lease : WriterLease) : Call WriterLease :=
  Async.atomic fun answer world =>
    let renewed := { lease with expiresAtMs := (answer.clock 0).toNat }
    let extended := { world with store := { world.store with lease := some renewed } }
    match answer.fault with
    | .none => if world.store.holds lease then (.ok renewed, extended)
        else (.error (FsError.new .estale), world)
    | .refuse e => (.error e, world)
    | .lose e => if world.store.holds lease then (.error e, extended) else (.error e, world)

def releaseWriter (lease : WriterLease) : Call Unit :=
  remote fun world =>
    if world.store.holds lease then
      (.ok (), { world with store := { world.store with lease := none } })
    else (.error (FsError.new .estale), world)

/-- A publication under a lease. -/
def acceptLease (expectedRevision : ℕ) (lease : WriterLease) (store : Store) : Result ℕ := do
  failIf (store.holds lease = false) (FsError.new .estale)
  acceptRevision expectedRevision store

def metadataPublish (expectedRevision : ℕ) (lease : WriterLease) (work : Work)
    (ns : Namespace) : Call ℕ :=
  publication (acceptLease expectedRevision lease) (fun _ => commit self work ns)
    fun world => carriedBy (work.stages self.fs world)

/-! ### Versions of single inodes -/

structure InodeVersion where
  structuralGeneration : ℕ
  inodeRevision : ℕ
deriving DecidableEq

structure InodeMetadataSnapshot where
  structuralGeneration : ℕ
  ns : Namespace
  inodeRevisions : BTreeMap InodeId ℕ

def InodeMetadataSnapshot.validate (snapshot : InodeMetadataSnapshot) : Result Unit := do
  failIf (snapshot.structuralGeneration = 0)
    (invalidNamespace "inode structural generation must be nonzero")
  snapshot.ns.validate
  failIf (snapshot.inodeRevisions.keys ≠ snapshot.ns.nodes.keys)
    (invalidNamespace "inode revision keys must match namespace nodes")

/-- Which nodes an inode publication may put in place of which. -/
def inodePublicationAttributesAllowed (inode : InodeId) (original next : Stats)
    (originalFile nextFile : Bool) : Bool :=
  inode != 0 && originalFile && nextFile && original.ino == inode && next.ino == inode &&
    original.mode &&& S_IFMT == S_IFREG && next.mode &&& S_IFMT == S_IFREG &&
    original.dev == next.dev && original.mode == next.mode && original.nlink == next.nlink &&
    original.uid == next.uid && original.gid == next.gid && original.rdev == next.rdev &&
    original.blksize == next.blksize && original.atimeMs == next.atimeMs &&
    original.birthtimeMs == next.birthtimeMs

def isFile : NodeData → Bool
  | .file _ => true
  | _ => false

def validateInodePublication (inode : InodeId) (original next : NodeMetadata) : Result Unit := do
  validateNodeKind original
  validateNodeKind next
  failIf (inodePublicationAttributesAllowed inode original.stats next.stats
      (isFile original.data) (isFile next.data) = false)
    (invalidNamespace "inode publication changes structural attributes")

def loadInodeSnapshot : Call InodeMetadataSnapshot :=
  inspect fun _ world => .ok
    { structuralGeneration := world.store.revision, ns := world.store.ns
      inodeRevisions := world.store.inodeRevisions }

def acceptInode (inode : InodeId) (expected : InodeVersion) (node : NodeMetadata) (store : Store) :
    Result InodeVersion := do
  failIf (store.revision ≠ expected.structuralGeneration) (FsError.new .eagain)
  let revision ← okOr (store.inodeRevisions.get? inode) (FsError.new .estale)
  failIf (revision ≠ expected.inodeRevision) (FsError.new .eagain)
  let original ← okOr (store.ns.nodes.get? inode) (FsError.new .estale)
  validateInodePublication inode original node
  let inodeRevision ← okOr (checkedAdd revision 1) (FsError.new .eoverflow)
  return { structuralGeneration := store.revision, inodeRevision }

/-- Replace one node; `base` is the node it was computed from. -/
def commitInode (inode : InodeId) (base node : NodeMetadata) (world : World) : World :=
  match world.store.ns.nodes.get? inode with
  | some prior =>
    { world with store := { world.store with
        ns := setNode world.store.ns inode node
        inodeRevisions := world.store.inodeRevisions.modify inode (· + 1) } }.record
      (.inode { author := self.fs, task := self.task, inode, base, prior, node })
  | none => world

def publishInodeIfVersion (inode : InodeId) (expected : InodeVersion)
    (base node : NodeMetadata) : Call InodeVersion :=
  publication (acceptInode inode expected node) (fun _ => commitInode self inode base node)
    fun _ => [self.task]

def acceptStructure (expectedGeneration : ℕ) (expectedInodeRevisions : BTreeMap InodeId ℕ)
    (ns : Namespace) (store : Store) : Result ℕ := do
  ns.validate
  let next ← okOr (checkedAdd expectedGeneration 1) (FsError.new .eoverflow)
  failIf (store.revision ≠ expectedGeneration) (FsError.new .eagain)
  failIf (store.inodeRevisions ≠ expectedInodeRevisions) (FsError.new .eagain)
  return next

/-- The guards of the next generation: complete, and restarted or kept. -/
def nextInodeRevisions (restart : Bool) (old : BTreeMap InodeId ℕ) (ns : Namespace) :
    BTreeMap InodeId ℕ :=
  ns.nodes.keys.foldl (fun revisions inode =>
    revisions.insert inode (if restart then 0 else (old.get? inode).getD 0)) ∅

def publishStructureIfVersions (expectedGeneration : ℕ)
    (expectedInodeRevisions : BTreeMap InodeId ℕ) (work : Work) (ns : Namespace) : Call ℕ :=
  publication (acceptStructure expectedGeneration expectedInodeRevisions ns) (fun answer world =>
      let world := commit self work ns world
      { world with store := { world.store with
          inodeRevisions :=
            nextInodeRevisions answer.restart world.store.inodeRevisions ns } })
    fun world => carriedBy (work.stages self.fs world)

end MountRs.Chunked
