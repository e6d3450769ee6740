import MountRs.Model.Chunked.Layout
import MountRs.Model.Chunked.Lease

/-! # Snapshots, leases and publication -/

namespace MountRs.Chunked

def MAX_CONCURRENT_CAS_RETRIES : ℕ := 128

/-! ## The cached namespace -/

namespace RuntimeState

variable (state : RuntimeState)

/-- The failure and shutdown checks that most sections start with. -/
def usable : Result Unit :=
  match state.failure with
  | some error => .error error
  | none => if state.closed then .error closedError else .ok ()

def foldSelected (ns : Namespace) : Namespace :=
  state.selectedInodes.entries.foldl (fun ns binding =>
    if ns.nodes.contains binding.1 then setNode ns binding.1 binding.2 else ns) ns

def raiseAtime (ns : Namespace) (binding : InodeId × ℤ) : Namespace :=
  match ns.nodes.get? binding.1 with
  | some node => setNode ns binding.1
      { node with stats := { node.stats with atimeMs := max node.stats.atimeMs binding.2 } }
  | none => ns

def foldAtime (ns : Namespace) : Namespace :=
  state.pendingAtime.entries.foldl raiseAtime ns

def snapshot : Result (Namespace × ℕ) := do
  state.usable
  return (state.foldAtime (state.foldSelected state.ns), state.revision)

/-- Keep a private copy of every open node that the next namespace does not have. -/
def retainOpenDetached (next : Namespace) : RuntimeState :=
  let detached := state.openRefs.entries.filterMap fun binding =>
    if 0 < binding.2 ∧ next.nodes.contains binding.1 = false then
      ((state.selectedInodes.get? binding.1).or (state.ns.nodes.get? binding.1)).map
        fun node => (binding.1, node)
    else none
  { state with
    orphans := detached.foldl (fun orphans binding =>
      if orphans.contains binding.1 then orphans else orphans.insert binding.1 binding.2)
      state.orphans }

/-- Record a failure unless there already is one. -/
def failWith (error : FsError) : RuntimeState :=
  { state with failure := state.failure.or (some error) }

end RuntimeState

def canceledPublication : FsError :=
  ((FsError.new .eio).withSyscall "metadata-publish").withMessage
    "metadata publication canceled before its outcome was known"

namespace Caller

variable (self : Caller) (expectedRevision : ℕ) (stage : Stage)

def snapshot : Call (Namespace × ℕ) := self.locked fun state => (state.snapshot, state)

def failClosed {α : Type} (error : FsError) : Call α :=
  self.locked fun state => (.error error, state.failWith error)

def checkRuntime : Call Unit := self.locked fun state => (state.usable, state)

/-- A `PublicationGuard`. The program returns a result to leave the scope with the
guard disarmed; it throws to leave while the guard is still armed. -/
def armed {α : Type} (p : Call (Result α)) : Call α := do
  let result ← Async.onDrop (fun world => world.setState self.fs
      ((world.fs self.fs).state.failWith canceledPublication)) do
    match ← p.attempt with
    | .ok result => pure result
    | .error e => self.locked fun state => (.error e, state.failWith canceledPublication)
  result

/-! ## Following other writers -/

/-- Take over a namespace that another writer has published. -/
def installNewer (ns : Namespace) (revision : ℕ) (state : RuntimeState) : RuntimeState :=
  if state.revision < revision then
    { state.retainOpenDetached ns with
      ns, revision, persistedRevision := revision, pendingAtime := ∅ }
  else state

/-- `refresh_concurrent_namespace` of MRC2. -/
def refreshNamespace : Call Unit := do
  let knownRevision ← self.locked fun state => (state.usable.map fun _ => state.revision, state)
  let loaded ← (metadataLoadIfChanged knownRevision).orElse fun e =>
    self.failClosed (withContext e "metadata-load" none)
  match loaded with
  | some loaded => do
    match loaded.validate with
    | .error e => self.failClosed (withContext e "metadata-validate" none)
    | .ok () =>
      match loaded.ns with
      | none =>
        self.failClosed (FsError.backend "concurrent metadata revision has no published namespace")
      | some ns => self.locked fun state =>
        match state.usable with
        | .error e => (.error e, state)
        | .ok () => (.ok (), installNewer ns loaded.revision state)
  | none => self.checkRuntime

/-- Take over a snapshot of every inode and its version. -/
def installSnapshot (snapshot : InodeMetadataSnapshot) (state : RuntimeState) :
    Result Unit × RuntimeState :=
  if state.persistedRevision ≤ snapshot.structuralGeneration then
    let retained := { state.retainOpenDetached snapshot.ns with ns := snapshot.ns }
    let changed := state.persistedRevision ≠ snapshot.structuralGeneration ∨
      state.inodeRevisions ≠ snapshot.inodeRevisions ∨ state.selectedInodes ≠ ∅
    match if changed then checkedAdd state.revision 1 else some state.revision with
    | none => (.error (FsError.new .eoverflow), retained)
    | some revision => (.ok (),
        { retained with
          revision, persistedRevision := snapshot.structuralGeneration
          inodeRevisions := snapshot.inodeRevisions, selectedInodes := ∅ })
  else (.ok (), state)

/-- `refresh_concurrent_namespace` of MRC4. -/
def refreshInodeSnapshot : Call Unit := do
  self.checkRuntime
  verifyConcurrentBacking.orElse self.failClosed
  let snapshot ← loadInodeSnapshot.orElse self.failClosed
  match snapshot.validate with
  | .error e => self.failClosed e
  | .ok () => do
    self.checkRuntime
    self.locked (installSnapshot snapshot)

def refreshConcurrentNamespace : Call Unit :=
  if self.options.inodeUpdates then self.refreshInodeSnapshot else self.refreshNamespace

/-! ## Writer leases -/

def leaseCalls : LeaseCalls World Answer where
  owner := self.options.owner
  cached := self.read fun fs => Except.okOr fs.lease releasedError
  fresh force current := Async.atomic fun answer world =>
    let margin := min self.options.leaseTtlMs LEASE_RENEWAL_MARGIN_MS
    (.ok (!force && (world.fs self.fs).leaseRenewed &&
      decide ((answer.clock 0).toNat + margin < current.expiresAtMs)), world)
  acquire := acquireWriter self
  renew := renewWriter
  release := releaseWriter
  load := metadataLoad
  persisted := self.locked fun state =>
    (checkPersisted state.failure state.closed state.persistedRevision, state)
  install renewed := Async.atomic fun _ world => (.ok renewed, world.setFs self.fs
    { world.fs self.fs with lease := some renewed, leaseRenewed := true })
  resume acquired := Async.atomic fun _ world => (.ok acquired, (world.setFs self.fs
    { world.fs self.fs with lease := some acquired, leaseRenewed := true }).record
      (.resumed self.fs acquired.fence))
  failClosed := self.failClosed

def renewLease : Call WriterLease := self.withLeaseGate (self.leaseCalls.renewLeaseInner false)

def validateLease : Call Unit :=
  if self.options.concurrentWrites then self.refreshConcurrentNamespace
  else do
    let _ ← self.withLeaseGate (self.leaseCalls.renewLeaseInner true)

def ensureOperationLease : Call Unit :=
  if self.options.concurrentWrites then self.refreshConcurrentNamespace
  else do
    let _ ← self.renewLease

/-! ## Publication -/

/-- The barrier after an accepted publication, unless the provider includes it. -/
def flushPublication (carried : List ℕ) (context : FsError → FsError) : Call Unit :=
  Async.when (!self.publishIncludesFlushBarrier)
    ((metadataFlush carried).orElse fun e => self.failClosed (context e))

/-- `publish_namespace_durable` of MRC2. -/
def publishBound : Call ℕ := do
  verifyConcurrentBacking.orElse fun e => self.failClosed (withContext e "backing-verify" none)
  self.armed do
    match ← (publishBoundIfRevision self expectedRevision (.direct stage) stage.result).attempt with
    | .error e =>
      if e.code = .eagain then return .error (withContext e "metadata-publish" none)
      else self.failClosed (withContext e "metadata-publish" none)
    | .ok revision => do
      self.flushPublication stage.carried fun e => withContext e "metadata-flush" none
      let closed ← self.locked fun state =>
        if state.closed then (.ok true, state)
        else (.ok false, installNewer stage.result revision state)
      if closed then
        self.failClosed ((FsError.new .ebadf).withMessage
          "filesystem closed during concurrent publication")
      else return .ok revision

/-- `publish_namespace_durable` of an exclusive writer. -/
def publishExclusive (work : Work) (carried : List ℕ) (ns : Namespace) : Call ℕ := do
  Async.when self.options.writeback self.validateLease
  let lease ← self.renewLease
  self.armed do
    let revision ← (metadataPublish self expectedRevision lease work ns).orElse fun e =>
      self.failClosed (withContext e "metadata-publish" none)
    self.flushPublication carried fun e => withContext e "metadata-flush" none
    self.locked fun state => (.ok (),
      { state with
        ns, revision := if self.options.writeback then state.revision else revision
        persistedRevision := revision, pendingAtime := ∅ })
    return .ok revision

def publishInodeStructure (generation : ℕ) (stage : Stage) (blocksFlushed : Bool) : Call ℕ := do
  self.checkRuntime
  stage.result.validate
  let (expected, revisions) ← self.locked fun state =>
    (if state.revision ≠ generation then .error (FsError.new .eagain)
      else .ok (state.persistedRevision, state.inodeRevisions), state)
  Async.when (!blocksFlushed) blocksFlush
  verifyConcurrentBacking.orElse self.failClosed
  let next ← self.armed do
    match ← (publishStructureIfVersions self expected revisions (.direct stage)
        stage.result).attempt with
    | .error e => if e.code = .eagain then return .error e else self.failClosed e
    | .ok next => do
      self.flushPublication stage.carried id
      self.checkRuntime
      self.locked fun state =>
        let retained := { state.retainOpenDetached stage.result with ns := stage.result }
        match checkedAdd state.revision 1 with
        | none => (.error (FsError.new .eoverflow), retained)
        | some revision => (.ok (),
            { retained with
              revision, persistedRevision := next, inodeRevisions := ∅, selectedInodes := ∅ })
      return .ok next
  self.refreshConcurrentNamespace
  return next

def publishNamespaceDurable (blocksFlushed : Bool) : Call ℕ :=
  if self.options.inodeUpdates then
    self.publishInodeStructure expectedRevision stage blocksFlushed
  else do
    Async.when (!blocksFlushed)
      (blocksFlush.orElse fun e => Async.fail (withContext e "block-flush" none))
    if self.options.concurrentWrites then
      self.publishBound expectedRevision stage
    else self.publishExclusive expectedRevision (.direct stage) stage.carried stage.result

/-- Stage a mutation in memory. -/
def stageNamespace : Call ℕ :=
  Async.atomic fun _ world =>
    let state := (world.fs self.fs).state
    match state.usable with
    | .error e => (.error (if state.failure.isSome then e else FsError.new .ebadf), world)
    | .ok () =>
      if expectedRevision ≠ state.revision then (.error (FsError.new .eagain), world)
      else match checkedAdd state.revision 1 with
        | none => (.error ((FsError.new .eio).withMessage "local namespace generation overflow"),
            world)
        | some generation => (.ok generation, (world.stage self.fs stage).setState self.fs
            { state.retainOpenDetached stage.result with
              ns := stage.result, revision := generation, pendingNamespace := true
              pendingAtime := ∅ })

def publishNamespace (blocksFlushed : Bool) : Call ℕ :=
  if self.options.writeback then self.stageNamespace expectedRevision stage
  else self.publishNamespaceDurable expectedRevision stage blocksFlushed

end Caller

end MountRs.Chunked
