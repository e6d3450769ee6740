import MountRs.Library.Async
import MountRs.Model.Delegation

/-! # Writer leases of the FoundationDB provider

Transactions are serializable, so the body of one runs as a function of the volume
at its commit. A metadata transaction whose commit may have been applied is not run
again; its call fails with an ambiguous outcome. -/

namespace MountRs.FoundationDb

open Except (failIf okOr)

/-! ## Records of a volume -/

structure LeaseRecord where
  owner : String
  fence : ℕ
  expiresAtMs : ℕ
deriving DecidableEq

/-- The value of the fence key: the last fence that was granted, or the mark that keeps
leased writers away from a volume with concurrent writers. -/
inductive FenceRecord
  | last (fence : ℕ)
  | sentinel
deriving DecidableEq

/-- The value of the write-mode key. -/
inductive ModeMarker
  | concurrent
  | bound
  | unknown
deriving DecidableEq

/-- The decoded keys of one volume. Bytes at the backing key that are no backing
identity are `some none`. -/
structure Volume where
  authorityMs : Option ℕ
  mode : Option ModeMarker
  backing : Option (Option ConcurrentBackingId)
  lease : Option LeaseRecord
  fence : Option FenceRecord
  manifest : Option (ℕ × Namespace)
deriving DecidableEq

def Volume.revision (volume : Volume) : ℕ := volume.manifest.elim 0 Prod.fst

/-! ## Errors -/

def backendError (message : String) : FsError := FsError.backend message

def enotsup (syscall : String) : FsError := (FsError.new .enotsup).withSyscall syscall

def stale : FsError := (FsError.new .estale).withSyscall "FoundationDB metadata lease"

def staleBacking : FsError :=
  (FsError.new .estale).withSyscall "FoundationDB concurrent backing authority"

def ambiguousCommitError (code : ℤ) (message : String) : FsError :=
  (FsError.new .eio).withMessage
    ("FoundationDB transaction outcome is ambiguous after commit attempt (error " ++ toString code
      ++ ": " ++ message ++ "); reconcile state before retrying")

/-! ## Checks and plans -/

/-- The time that the authority publishes next. -/
def authorityTimeSample (current : Option ℕ) (proposed : ℕ) (maxForwardJumpMs : Option ℕ) :
    Result ℕ := do
  failIf (proposed = 0)
    ((FsError.new .einval).withMessage "FoundationDB lease authority time must be non-zero")
  let current := current.getD 0
  failIf (maxForwardJumpMs.any fun bound =>
      decide (current ≠ 0 ∧ current < proposed ∧ bound < proposed - current))
    ((FsError.new .eio).withMessage
      "FoundationDB lease authority clock advanced beyond the configured safety bound")
  return max current proposed

def FOUNDATIONDB_MAX_VALUE_BYTES : ℕ := 100000

def LEASE_HEADER_BYTES : ℕ := 4 + 8 + 8 + 4

def validateOwner (owner : String) : Result Unit := do
  failIf (owner = "") (FsError.new .einval)
  failIf (FOUNDATIONDB_MAX_VALUE_BYTES - LEASE_HEADER_BYTES < owner.utf8ByteSize)
    ((FsError.new .enametoolong).withMessage "FoundationDB lease owner is too long")

def checkTtlMs (ttlMs : ℕ) : Result ℕ := do
  failIf (U64_MAX < ttlMs) ((FsError.new .eoverflow).withMessage "lease TTL overflows")
  failIf (ttlMs = 0) (FsError.new .einval)
  return ttlMs

def leaseFromInput (lease : WriterLease) : Result LeaseRecord := do
  validateOwner lease.owner
  failIf (lease.fence = 0 ∨ lease.expiresAtMs = 0) stale
  return { owner := lease.owner, fence := lease.fence, expiresAtMs := lease.expiresAtMs }

def toWriterLease (record : LeaseRecord) : WriterLease :=
  { owner := record.owner, fence := record.fence, expiresAtMs := record.expiresAtMs }

def leaseMatches (current requested : LeaseRecord) (nowMs : ℕ) : Bool :=
  current.owner = requested.owner ∧ current.fence = requested.fence ∧
    current.expiresAtMs = requested.expiresAtMs ∧ nowMs < current.expiresAtMs

/-- Decide a takeover from the persisted fence and expiry alone. -/
def planWriterAcquisition (current : Option LeaseRecord) (lastFence : Option ℕ) (nowMs ttlMs : ℕ) :
    Result (ℕ × ℕ) := do
  failIf (current.any fun lease => decide (nowMs < lease.expiresAtMs))
    ((FsError.new .eagain).withSyscall "acquire writer")
  let previousFence := max (lastFence.getD 0) (current.elim 0 LeaseRecord.fence)
  let fence ← okOr (checkedAdd previousFence 1) (FsError.new .eoverflow)
  let expiresAtMs ← okOr (checkedAdd nowMs ttlMs) (FsError.new .eoverflow)
  return (fence, expiresAtMs)

/-- Renew only the exact live token, without changing its fence. -/
def planWriterRenewal (current requested : LeaseRecord) (nowMs ttlMs : ℕ) : Result (ℕ × ℕ) := do
  failIf (leaseMatches current requested nowMs = false) stale
  let expiresAtMs ← okOr (checkedAdd nowMs ttlMs) (FsError.new .eoverflow)
  return (requested.fence, expiresAtMs)

inductive ConcurrentModeState
  | legacy
  | mrc1
  | mrc2 (backing : ConcurrentBackingId)
deriving DecidableEq

def decodeConcurrentModeState (mode : Option ModeMarker)
    (backing : Option (Option ConcurrentBackingId)) : Result ConcurrentModeState :=
  match mode, backing with
  | none, none => .ok .legacy
  | some .concurrent, none => .ok .mrc1
  | some .bound, some id => do
    let id ← okOr id (backendError "FoundationDB concurrent metadata backing ID is invalid")
    return .mrc2 id
  | _, _ => .error (backendError "FoundationDB metadata write mode and backing ID disagree")

def requireLegacyWriteMode : Option ModeMarker → Result Unit
  | none => .ok ()
  | some .unknown => .error (backendError "FoundationDB metadata write mode marker is invalid")
  | some _ => .error ((enotsup "FoundationDB fenced metadata writer").withMessage
      "this volume uses concurrent revision publication")

/-- The sentinel does not decode as a fence. -/
def decodeLastFence : Option FenceRecord → Result (Option ℕ)
  | none => .ok none
  | some (.last fence) => .ok (some fence)
  | some .sentinel => .error (backendError "malformed FoundationDB fence record")

/-! ## Runs and their record -/

/-- An accepted publication under a lease: its task and token, the time that it read,
and the volume before and after. -/
structure Publication where
  task : ℕ
  token : LeaseRecord
  nowMs : ℕ
  before : Volume
  after : Volume

/-- The end of a lease: its last record, whether it was released or gave way to a new grant,
and the authority time then on record. -/
structure Ending where
  lease : LeaseRecord
  released : Bool
  authorityMs : Option ℕ

/-- No program reads the ledger. -/
structure Ledger where
  /-- The fences of the grants. -/
  granted : List ℕ
  ended : List Ending
  published : List Publication
  /-- The tasks whose metadata transaction committed. -/
  committed : List ℕ

def Ledger.endLease (ledger : Ledger) (released : Bool) (volume : Volume) : Ledger :=
  { ledger with
    ended := ledger.ended ++
      volume.lease.toList.map fun lease => ⟨lease, released, volume.authorityMs⟩ }

structure World where
  volume : Volume
  ledger : Ledger

/-- How a transaction ends: the client learns the outcome, the commit is applied and
its acknowledgement is lost, or the transaction is not applied. -/
inductive Outcome
  | acknowledged
  | lost (code : ℤ) (message : String)
  | refused (error : FsError)

/-- What the environment decides at a step; the local clock may show anything. -/
structure Answer where
  outcome : Outcome
  clock : Result ℕ

abbrev Call (α : Type) := Async World Answer FsError α

/-- A metadata transaction of a task, with what it adds to the ledger. -/
def transactMetadata {α : Type} (task : ℕ) (body : Volume → Result (α × Volume))
    (note : α → Volume → Volume → Ledger → Ledger) : Call α :=
  Async.atomic fun answer world =>
    match answer.outcome, body world.volume with
    | .refused e, _ => (.error e, world)
    | _, .error e => (.error e, world)
    | outcome, .ok (a, volume) =>
      let ledger := note a world.volume volume world.ledger
      (match outcome with
        | .lost code message => .error (ambiguousCommitError code message)
        | _ => .ok a,
        { volume, ledger := { ledger with committed := ledger.committed ++ [task] } })

/-! ## Time -/

/-- The time source of a client: the record of a separate authority, read in the
transaction of the caller, or a record that every reader advances by its own clock in a
transaction of its own. -/
inductive LeaseOracle
  | shared
  | persisted
deriving DecidableEq

/-- A transaction of the time record alone. -/
def advanceAuthority (f : Answer → Option ℕ → Result ℕ) : Call ℕ :=
  Async.atomic fun answer world =>
    match answer.outcome, f answer world.volume.authorityMs with
    | .refused e, _ => (.error e, world)
    | _, .error e => (.error e, world)
    | outcome, .ok nowMs =>
      (match outcome with
        | .lost code message => .error (ambiguousCommitError code message)
        | _ => .ok nowMs,
        { world with volume := { world.volume with authorityMs := some nowMs } })

def publishNowMs (nowMs : ℕ) (maxForwardJumpMs : Option ℕ) : Call ℕ := do
  failIf (nowMs = 0)
    ((FsError.new .einval).withMessage "FoundationDB lease authority time must be non-zero")
  advanceAuthority fun _ current => authorityTimeSample current nowMs maxForwardJumpMs

def persistedNowMs : Call ℕ :=
  advanceAuthority fun answer current => do
    let proposed ← answer.clock
    return max (current.getD 0) proposed

namespace LeaseOracle

/-- The time that is read before the transaction commits. The transaction reads the
record of a shared authority itself. -/
def sample : LeaseOracle → Call (Option ℕ)
  | shared => pure none
  | persisted => do return some (← persistedNowMs)

end LeaseOracle

def nowMsInTransaction (sampled : Option ℕ) (volume : Volume) : Result ℕ :=
  match sampled with
  | some nowMs => .ok nowMs
  | none => okOr volume.authorityMs
      ((enotsup "FoundationDB shared lease authority").withMessage
        "the shared lease authority has not published a time sample")

/-! ## Transactions -/

namespace Volume

variable (volume : Volume)

def acquire (sampled : Option ℕ) (owner : String) (ttlMs : ℕ) : Result (LeaseRecord × Volume) := do
  requireLegacyWriteMode volume.mode
  let lastFence ← decodeLastFence volume.fence
  let nowMs ← nowMsInTransaction sampled volume
  let (fence, expiresAtMs) ← planWriterAcquisition volume.lease lastFence nowMs ttlMs
  let record : LeaseRecord := { owner, fence, expiresAtMs }
  return (record, { volume with lease := some record, fence := some (.last fence) })

def renew (sampled : Option ℕ) (requested : LeaseRecord) (ttlMs : ℕ) :
    Result (LeaseRecord × Volume) := do
  requireLegacyWriteMode volume.mode
  let current ← okOr volume.lease stale
  let nowMs ← nowMsInTransaction sampled volume
  let (fence, expiresAtMs) ← planWriterRenewal current requested nowMs ttlMs
  let renewed : LeaseRecord := { owner := requested.owner, fence, expiresAtMs }
  return (renewed, { volume with lease := some renewed })

def release (sampled : Option ℕ) (requested : LeaseRecord) : Result (Unit × Volume) := do
  requireLegacyWriteMode volume.mode
  let current ← okOr volume.lease stale
  let nowMs ← nowMsInTransaction sampled volume
  failIf (leaseMatches current requested nowMs = false) stale
  return ((), { volume with lease := none })

/-- The result is the new revision with the time that was read. -/
def publish (sampled : Option ℕ) (expectedRevision nextRevision : ℕ) (requested : LeaseRecord)
    (ns : Namespace) : Result ((ℕ × ℕ) × Volume) := do
  let nowMs ← nowMsInTransaction sampled volume
  requireLegacyWriteMode volume.mode
  let current ← okOr volume.lease stale
  failIf (leaseMatches current requested nowMs = false) stale
  failIf (volume.revision ≠ expectedRevision)
    ((FsError.new .eagain).withSyscall "publish metadata")
  return ((nextRevision, nowMs), { volume with manifest := some (nextRevision, ns) })

def publishBound (backing : ConcurrentBackingId) (expectedRevision nextRevision : ℕ)
    (ns : Namespace) : Result (ℕ × Volume) := do
  match ← decodeConcurrentModeState volume.mode volume.backing with
  | .mrc1 => .error (((FsError.new .ebusy).withSyscall
      "publish bound FoundationDB metadata").withMessage
        "MRC1 needs offline migrate-concurrent-backing")
  | .legacy => .error ((enotsup "publish bound FoundationDB metadata").withMessage
      "prepare the volume for bound writers first")
  | .mrc2 current => do
    failIf (current ≠ backing) staleBacking
    failIf (volume.lease.isSome ∨ volume.fence ≠ some .sentinel)
      (((FsError.new .ebusy).withSyscall "publish bound FoundationDB metadata").withMessage
        "the concurrent fence sentinel is missing or a legacy writer has claimed this volume")
    failIf (volume.revision ≠ expectedRevision)
      ((FsError.new .eagain).withSyscall "publish bound FoundationDB metadata")
    return (nextRevision, { volume with manifest := some (nextRevision, ns) })

end Volume

/-! ## Calls -/

/-- A handle of the provider: its time source, and the size and chunker limits that it
checks before a publication. -/
structure Client where
  oracle : Option LeaseOracle
  fits : Namespace → Result Unit

namespace Client

variable (client : Client) (task : ℕ)

def requireOracle : Result LeaseOracle :=
  okOr client.oracle ((enotsup "FoundationDB metadata lease clock").withMessage
    "a shared FoundationDB lease oracle is required for writer leases")

def acquireWriter (owner : String) (ttlMs : ℕ) : Call WriterLease := do
  validateOwner owner
  let ttlMs ← checkTtlMs ttlMs
  let oracle ← client.requireOracle
  let sampled ← oracle.sample
  let record ← transactMetadata task (fun volume => volume.acquire sampled owner ttlMs)
    fun record before _ ledger =>
      { ledger.endLease false before with granted := ledger.granted ++ [record.fence] }
  return toWriterLease record

def renewWriter (lease : WriterLease) (ttlMs : ℕ) : Call WriterLease := do
  let requested ← leaseFromInput lease
  let ttlMs ← checkTtlMs ttlMs
  let oracle ← client.requireOracle
  let sampled ← oracle.sample
  let record ← transactMetadata task (fun volume => volume.renew sampled requested ttlMs)
    fun _ _ _ ledger => ledger
  return toWriterLease record

def releaseWriter (lease : WriterLease) : Call Unit := do
  let requested ← leaseFromInput lease
  let oracle ← client.requireOracle
  let sampled ← oracle.sample
  transactMetadata task (fun volume => volume.release sampled requested)
    fun _ before _ ledger => ledger.endLease true before

def publish (expectedRevision : ℕ) (lease : WriterLease) (ns : Namespace) : Call ℕ := do
  ns.validate
  client.fits ns
  let nextRevision ← okOr (checkedAdd expectedRevision 1) (FsError.new .eoverflow)
  let requested ← leaseFromInput lease
  let oracle ← client.requireOracle
  let sampled ← oracle.sample
  let (revision, _) ← transactMetadata task
    (fun volume => volume.publish sampled expectedRevision nextRevision requested ns)
    fun accepted before after ledger => { ledger with
      published := ledger.published ++
        [{ task, token := requested, nowMs := accepted.2, before, after }] }
  return revision

def publishBoundIfRevision (backing : ConcurrentBackingId) (expectedRevision : ℕ)
    (ns : Namespace) : Call ℕ := do
  ns.validate
  client.fits ns
  let nextRevision ← okOr (checkedAdd expectedRevision 1) (FsError.new .eoverflow)
  transactMetadata task (fun volume => volume.publishBound backing expectedRevision nextRevision ns)
    fun _ _ _ ledger => ledger

end Client

/-! ## The system -/

inductive Request
  | acquireWriter (owner : String) (ttlMs : ℕ)
  | renewWriter (lease : WriterLease) (ttlMs : ℕ)
  | releaseWriter (lease : WriterLease)
  | publish (expectedRevision : ℕ) (lease : WriterLease) (ns : Namespace)
  | publishBound (backing : ConcurrentBackingId) (expectedRevision : ℕ) (ns : Namespace)
  /-- A sample of the authority. -/
  | publishNowMs (nowMs : ℕ) (maxForwardJumpMs : Option ℕ)
  /-- A reading of the persisted oracle. -/
  | readTime

inductive Value
  | unit
  | lease (lease : WriterLease)
  | revision (revision : ℕ)
  | time (nowMs : ℕ)
deriving DecidableEq

def Request.program (client : Client) (task : ℕ) : Request → Call Value
  | acquireWriter owner ttlMs => do return .lease (← client.acquireWriter task owner ttlMs)
  | renewWriter lease ttlMs => do return .lease (← client.renewWriter task lease ttlMs)
  | releaseWriter lease => do client.releaseWriter task lease; return .unit
  | publish expectedRevision lease ns => do
    return .revision (← client.publish task expectedRevision lease ns)
  | publishBound backing expectedRevision ns => do
    return .revision (← client.publishBoundIfRevision task backing expectedRevision ns)
  | publishNowMs proposed maxForwardJumpMs => do
    return .time (← FoundationDb.publishNowMs proposed maxForwardJumpMs)
  | readTime => do return .time (← persistedNowMs)

/-- The calls of the provider, as opposed to those of its time sources. -/
def Request.isMetadata : Request → Bool
  | publishNowMs _ _ => false
  | readTime => false
  | _ => true

/-- Every task is a request on some handle of the provider. -/
structure Setup where
  requests : ℕ → Request
  clients : ℕ → Client

def Setup.service (setup : Setup) : Service World Answer FsError Value Unit Empty where
  program task _ := (setup.requests task).program (setup.clients task) task
  arrive _ _ world := world
  disturb disturbance := disturbance.elim

def startPool (volume : Volume) : Pool World Answer FsError Value :=
  { shared := { volume, ledger := { granted := [], ended := [], published := [], committed := [] } }
    tasks := [] }

end MountRs.FoundationDb
