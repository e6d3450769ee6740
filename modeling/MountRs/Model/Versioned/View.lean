import MountRs.Model.Versioned.Coordinator

/-! # Historical views

`VersionedView`, its `ViewLifetime` and its file handles. A section under the mutex of
the lifetime that does not wait is one step. A renewal keeps the mutex over the call of
the provider and is two steps, since a destructor can invalidate the view without the
mutex. The memory provider answers before it lets other code of its task run, so a
task is never dropped between a call and the use of its answer. -/

namespace MountRs.Versioned

open Memory

/-! ## State -/

/-- The store and the clock of the provider. -/
structure Moment where
  metadata : MetadataState
  clockMs : ℕ
deriving DecidableEq

structure ViewLifetime where
  /-- Whether the view has been returned. -/
  present : Bool
  defaultTtlMs : ℕ
  pin : Option ReadLease
  closed : Bool
  handles : ℕ
  invalidated : Bool
  operations : ℕ
  holder : Option ℕ
  /-- What `fetch_sub` has returned to the destructors that have not ended. -/
  dropping : List ℕ
  /-- The closes that were spawned and have not been started. -/
  spawned : ℕ
  /-- Record: the task that holds the mutex is going to renew the pin. -/
  renewing : Bool
  /-- Record: the tasks with an active operation guard. -/
  running : List ℕ
  /-- Record: the handles that count. -/
  holders : List ℕ
  /-- Record: the tasks that have to see to the release of the pin. -/
  cleaning : List ℕ
deriving DecidableEq

structure HandleState where
  view : ℕ
  path : String
  position : ℕ
  closed : Bool
  holder : Option ℕ
deriving DecidableEq

structure Opening where
  moment : ℕ
  pin : ReadLease
deriving DecidableEq

/-- Views have the number of the task that opened them, and so have handles. -/
structure ViewWorld where
  now : Moment
  /-- Record: the earlier moments, oldest first. -/
  past : List Moment
  views : ℕ → ViewLifetime
  handles : ℕ → Option HandleState
  /-- Record: the pins that were issued. -/
  opened : ℕ → Option Opening
  /-- Record: the views and the pins that their renewals and releases named. -/
  touched : List (ℕ × ReadLease)
  /-- Record: when the body of an operation began, and when it ended. -/
  ran : ℕ → List ℕ
  /-- Record: when a task last renewed a pin. -/
  renewed : ℕ → Option ℕ

namespace ViewWorld

variable (world : ViewWorld)

def moment : ℕ := world.past.length

/-- Every moment until now. -/
def history : List Moment := world.past ++ [world.now]

def advance (next : Moment) : ViewWorld :=
  { world with now := next, past := world.past ++ [world.now] }

def setView (view : ℕ) (lifetime : ViewLifetime) : ViewWorld :=
  { world with views := Function.update world.views view lifetime }

def setHandle (handle : ℕ) (state : HandleState) : ViewWorld :=
  { world with handles := Function.update world.handles handle (some state) }

def touch (view : ℕ) (pin : ReadLease) : ViewWorld :=
  { world with touched := world.touched ++ [(view, pin)] }

def closeHandle (handle : ℕ) : ViewWorld :=
  { world with handles := fun other =>
      if other = handle then (world.handles other).map fun state => { state with closed := true }
      else world.handles other }

end ViewWorld

/-- What the environment decides at a step: what the body of an operation computes from
the captured namespace and its blocks, and the time between two readings of the clock. -/
structure Signal where
  outcome : Result ℕ
  elapsedMs : ℕ

abbrev ViewCall (α : Type) := Async ViewWorld Signal FsError α

variable (syscall : String)

def viewClosedError : FsError :=
  ((FsError.new .ebadf).withSyscall syscall).withMessage "historical view is closed"

def viewExpiredError : FsError :=
  ((FsError.new .estale).withSyscall syscall).withMessage "historical view read lease expired"

def errorWithPath (code : ErrorCode) (syscall path : String) : FsError :=
  ((FsError.new code).withSyscall syscall).withPath path

/-- A task that uses a view. Futures are dropped on a Tokio runtime or outside of one. -/
structure Viewer where
  task : ℕ
  view : ℕ
  runtime : Bool

def ViewLifetime.new (pin : ReadLease) (defaultTtlMs : ℕ) : ViewLifetime :=
  { present := true, defaultTtlMs, pin := some pin, closed := false, handles := 0
    invalidated := false, operations := 0, holder := none, dropping := [], spawned := 0
    renewing := false, running := [], holders := [], cleaning := [] }

namespace Viewer

variable (self : Viewer)

/-! ## Sections and provider calls -/

/-- A section under the mutex of the lifetime. -/
def locked {α : Type} (f : ViewLifetime → Result α × ViewLifetime) : ViewCall α :=
  Async.await (fun world => (world.views self.view).holder.isNone) fun _ world =>
    ((f (world.views self.view)).1, world.setView self.view (f (world.views self.view)).2)

def renewal (current : ReadLease) (ttlMs : ℕ) (world : ViewWorld) : Result ReadLease × ViewWorld :=
  match world.now.metadata.renewViewPin world.now.clockMs current
      { owner := current.owner, ttlMs } with
  | .ok (renewed, metadata) =>
    let next := (world.advance { world.now with metadata }).touch self.view current
    (.ok renewed, { next with renewed := Function.update next.renewed self.task (some next.moment) })
  | .error e => (.error e, world.touch self.view current)

def closePin (pin : ReadLease) : ViewCall Unit :=
  Async.atomic fun signal world =>
    let laterMs := world.now.clockMs + signal.elapsedMs
    match world.now.metadata.closeViewPin world.now.clockMs laterMs pin with
    | .ok (_, metadata) =>
      (.ok (), (world.advance { metadata, clockMs := laterMs }).touch self.view pin)
    | .error e =>
      (.error e, (world.advance { world.now with clockMs := laterMs }).touch self.view pin)

/-! ## Release -/

/-- A provider error is not proof that the pin was removed. -/
def releasePin (pin : ReadLease) : ViewCall Unit := do
  match ← (self.closePin pin).attempt with
  | .ok () => return ()
  | .error e => do
    self.locked fun lifetime =>
      (.ok (), if lifetime.pin.isNone then { lifetime with pin := some pin } else lifetime)
    Async.fail e

def clearPin (pin : ReadLease) : ViewCall Unit :=
  self.locked fun lifetime => (.ok (), { lifetime with
    pin := if lifetime.pin = some pin then none else lifetime.pin
    cleaning := lifetime.cleaning.filter (· ≠ self.task) })

def close : ViewCall Unit := do
  let pin ← self.locked fun lifetime =>
    let pin := if lifetime.handles = 0 ∧ lifetime.operations = 0 then lifetime.pin else none
    (.ok pin, { lifetime with
      closed := true
      cleaning := if pin.isSome then lifetime.cleaning else lifetime.cleaning.filter (· ≠ self.task) })
  match pin with
  | none => return ()
  | some pin => do
    self.releasePin pin
    self.clearPin pin

def scheduleClose (world : ViewWorld) : ViewWorld :=
  let lifetime := world.views self.view
  world.setView self.view { lifetime with
    spawned := if self.runtime then lifetime.spawned + 1 else lifetime.spawned
    cleaning := lifetime.cleaning.filter (· ≠ self.task) }

/-- `cancel_operation` up to its `fetch_sub`. -/
def cancelOperation (world : ViewWorld) : ViewWorld :=
  let lifetime := world.views self.view
  world.setView self.view { lifetime with
    operations := lifetime.operations - 1
    running := lifetime.running.erase self.task
    dropping := lifetime.dropping ++ [lifetime.operations] }

def unlock (world : ViewWorld) : ViewWorld :=
  let lifetime := world.views self.view
  world.setView self.view { lifetime with holder := none, renewing := false }

/-! ## Operations -/

def checkBegin (allowClosed : Bool) (syscall : String) (lifetime : ViewLifetime) :
    Result ReadLease := do
  Except.failIf (lifetime.invalidated = true) (viewExpiredError syscall)
  Except.failIf (lifetime.closed = true ∧ allowClosed = false) (viewClosedError syscall)
  Except.okOr lifetime.pin (viewExpiredError syscall)

/-- The renewal of `begin` and `renew`, and what becomes of its answer. -/
def renewHeld (current : ReadLease) (ttlMs : ℕ) (syscall : String) : ViewCall (Result Unit) :=
  Async.atomic fun _ world =>
    match self.renewal current ttlMs world with
    | (.error e, world) =>
      let lifetime := world.views self.view
      (.ok (.error e), world.setView self.view { lifetime with
        invalidated := true, closed := true, holder := none, renewing := false })
    | (.ok renewed, world) =>
      let lifetime := world.views self.view
      if lifetime.invalidated then
        (.ok (.error (viewExpiredError syscall)), world.setView self.view { lifetime with
          closed := true, pin := some renewed, holder := none, renewing := false })
      else
        (.ok (.ok ()), world.setView self.view { lifetime with
          pin := some renewed, holder := none, renewing := false })

def begin (allowClosed : Bool) (syscall : String) : ViewCall Unit := do
  let (current, ttlMs) ← self.locked fun lifetime =>
    match checkBegin allowClosed syscall lifetime with
    | .error e => (.error e, lifetime)
    | .ok current => (.ok (current, lifetime.defaultTtlMs), { lifetime with
        operations := lifetime.operations + 1, running := self.task :: lifetime.running
        holder := some self.task, renewing := true })
  match ← (self.renewHeld current ttlMs syscall).onDrop
      (fun world => self.cancelOperation (self.unlock world)) with
  | .ok () => return ()
  | .error e => do
    Async.commit (fun world => ((), self.cancelOperation world)) (fun _ world => world)
    let _ ← self.close.attempt
    Async.fail e

def renew (ttlMs : ℕ) : ViewCall Unit := do
  let current ← self.locked fun lifetime =>
    match checkBegin false "renew view" lifetime with
    | .error e => (.error e, lifetime)
    | .ok current => (.ok current, { lifetime with holder := some self.task, renewing := true })
  match ← (self.renewHeld current ttlMs "renew view").onDrop self.unlock with
  | .ok () => return ()
  | .error e => do
    let _ ← self.close.attempt
    Async.fail e

structure FinishAction where
  result : Result Unit
  pin : Option ReadLease

/-- The renewal of `prepare_finish` and its `fetch_sub`. -/
def finishHeld (current : Option ReadLease) (ttlMs : ℕ) (syscall : String) :
    ViewCall FinishAction :=
  Async.atomic fun _ world =>
    let ended (action : FinishAction) (world : ViewWorld) (lifetime : ViewLifetime) :=
      (.ok action, world.setView self.view { lifetime with
        operations := lifetime.operations - 1, running := lifetime.running.erase self.task
        cleaning := self.task :: lifetime.cleaning, renewing := false })
    match current with
    | none =>
      let lifetime := world.views self.view
      ended ⟨.error (viewExpiredError syscall), lifetime.pin⟩ world
        { lifetime with invalidated := true, closed := true }
    | some current =>
      match self.renewal current ttlMs world with
      | (.error e, world) =>
        let lifetime := world.views self.view
        ended ⟨.error e, lifetime.pin⟩ world { lifetime with invalidated := true, closed := true }
      | (.ok renewed, world) =>
        let lifetime := world.views self.view
        if lifetime.invalidated then
          ended ⟨.error (viewExpiredError syscall), some renewed⟩ world
            { lifetime with closed := true, pin := some renewed }
        else ended ⟨.ok (), none⟩ world { lifetime with pin := some renewed }

/-- The end of `prepare_finish`: whether the last operation has to release the pin. -/
def lastRelease (action : FinishAction) (world : ViewWorld) : FinishAction × ViewWorld :=
  let lifetime := world.views self.view
  let pin := if lifetime.closed = true ∧ lifetime.handles = 0 ∧ lifetime.operations = 0 ∧
      action.pin = none then lifetime.pin else action.pin
  ({ action with pin }, world.setView self.view { lifetime with
    holder := none
    cleaning := if pin.isSome then lifetime.cleaning else lifetime.cleaning.filter (· ≠ self.task) })

def prepareFinish : ViewCall FinishAction := do
  let (current, ttlMs) ← Async.onDrop self.cancelOperation <| self.locked fun lifetime =>
    let current := if lifetime.invalidated then none else lifetime.pin
    (.ok (current, lifetime.defaultTtlMs),
      { lifetime with holder := some self.task, renewing := current.isSome })
  let action ← (self.finishHeld current ttlMs syscall).onDrop
    (fun world => self.cancelOperation (self.unlock world))
  Async.commit (self.lastRelease action)
    (fun action world => if action.pin.isSome then self.scheduleClose world else world)

/-- `OperationGuard::finish`. A guard whose cleanup failed or was dropped schedules a close. -/
def finish : ViewCall Unit := do
  let action ← self.prepareFinish syscall
  match action.pin with
  | none => action.result
  | some pin => do
    let released ← (Async.onDrop self.scheduleClose do
      self.releasePin pin
      self.clearPin pin).attempt
    match released with
    | .ok () => action.result
    | .error e => do
      Async.commit (fun world => ((), self.scheduleClose world)) (fun _ world => world)
      Async.fail e

/-- What an operation computes. It may read many blocks before it ends. -/
def body : ViewCall ℕ := do
  Async.atomic fun _ world =>
    (.ok (), { world with ran := Function.update world.ran self.task [world.moment] })
  Async.atomic fun signal world =>
    (signal.outcome, { world with
      ran := Function.update world.ran self.task (world.ran self.task ++ [world.moment]) })

/-- A begun operation: its body, and the renewal that ends it. -/
def operation : ViewCall ℕ := do
  let result ← (self.body.onDrop self.cancelOperation).attempt
  let finish ← (self.finish syscall).attempt
  match result with
  | .error e => Async.fail e
  | .ok value => do
    finish
    return value

def withOperation : ViewCall ℕ := do
  self.begin false syscall
  self.operation syscall

/-! ## Handles -/

/-- Count a handle, and make it. -/
def acquireHandle (path : String) : ViewCall Unit :=
  Async.await (fun world => (world.views self.view).holder.isNone) fun _ world =>
    let lifetime := world.views self.view
    match checkBegin false "open" lifetime with
    | .error e => (.error e, world)
    | .ok _ => (.ok (), (world.setView self.view { lifetime with
        handles := lifetime.handles + 1, holders := self.task :: lifetime.holders }).setHandle
          self.task { view := self.view, path, position := 0, closed := false, holder := none })

/-- `open`. The handle is counted after the renewal that ends the operation. -/
def openFile (path : String) : ViewCall ℕ := do
  self.begin false "open"
  let _ ← self.operation "open"
  self.acquireHandle path
  return self.task

/-- Take a handle from the count. Its `closed` is set before its task waits again. -/
def forgetHandle (handle : ℕ) (world : ViewWorld) : ViewWorld :=
  let lifetime := world.views self.view
  (world.setView self.view { lifetime with
    handles := lifetime.handles - 1, holders := lifetime.holders.erase handle }).closeHandle handle

def releaseHandle (handle : ℕ) : ViewCall Unit := do
  let pin ← Async.await (fun world => (world.views self.view).holder.isNone) fun _ world =>
    let lifetime := world.views self.view
    if lifetime.handles = 0 then (.ok none, world.closeHandle handle)
    else
      let last := if (lifetime.closed = true ∨ lifetime.invalidated = true) ∧
          lifetime.handles = 1 ∧ lifetime.operations = 0 then lifetime.pin else none
      (.ok last, if last.isNone then self.forgetHandle handle world else world)
  match pin with
  | none => return ()
  | some pin => do
    self.releasePin pin
    Async.await (fun world => (world.views self.view).holder.isNone) fun _ world =>
      let lifetime := world.views self.view
      (.ok (), self.forgetHandle handle (world.setView self.view { lifetime with
        pin := if lifetime.pin = some pin then none else lifetime.pin }))

/-- Hold the mutex of a handle. -/
def withHandle {α : Type} (handle : ℕ) (p : ViewCall α) : ViewCall α :=
  let setHolder (holder : Option ℕ) (world : ViewWorld) : ViewWorld :=
    { world with handles := fun other =>
        if other = handle then (world.handles other).map fun state => { state with holder }
        else world.handles other }
  Async.withLock (fun world => (world.handles handle).any fun state => state.holder.isNone)
    (setHolder (some self.task)) (setHolder none) p

def handleState (handle : ℕ) : ViewCall (Option HandleState) :=
  Async.atomic fun _ world => (.ok (world.handles handle), world)

/-- `read` and `stat` of a handle; a read without a position moves the handle on. -/
def useHandle (handle : ℕ) (syscall : String) (moves : Bool) : ViewCall ℕ :=
  self.withHandle handle do
    match ← handleState handle with
    | none => Async.fail (FsError.new .ebadf)
    | some state =>
      if state.closed then Async.fail (errorWithPath .ebadf syscall state.path)
      else do
        self.begin true syscall
        let count ← self.operation syscall
        if moves then
          match checkedAdd state.position count with
          | none => Async.fail (FsError.new .eoverflow)
          | some position =>
            Async.commit (fun world =>
              (count, world.setHandle handle { state with position, holder := some self.task }))
              (fun _ world => world)
        else return count

def closeFile (handle : ℕ) : ViewCall Unit :=
  self.withHandle handle do
    match ← handleState handle with
    | none => Async.fail (FsError.new .ebadf)
    | some state => if state.closed then return () else self.releaseHandle handle

/-! ## Opening a view -/

def openViewPin (options : VersionedOptions) (id : VersionId) : ViewCall ReadLease :=
  Async.atomic fun _ world =>
    match world.now.metadata.openViewPin world.now.clockMs id
        { owner := options.owner, ttlMs := options.viewTtlMs } with
    | .ok (pin, metadata) =>
      let next := world.advance { world.now with metadata }
      (.ok pin, { next with
        opened := Function.update next.opened self.task (some ⟨next.moment, pin⟩) })
    | .error e => (.error e, world)

/-- Load the version, and make its view if it is kept in the same block store. -/
def loadView (options : VersionedOptions) (id : VersionId) (pin : ReadLease) :
    ViewCall (Result Bool) :=
  Async.atomic fun _ world =>
    match world.now.metadata.loadVersion id with
    | .error e => (.ok (.error e), world)
    | .ok record =>
      if record.blockStoreId = options.blockStoreId then
        (.ok (.ok true), world.setView self.view (ViewLifetime.new pin options.viewTtlMs))
      else (.ok (.ok false), world)

/-- `view`. The view has the number of its task. -/
def openView (options : VersionedOptions) (id : VersionId) : ViewCall Unit := do
  let pin ← self.openViewPin options id
  match ← self.loadView options id pin with
  | .error e => do
    let _ ← (self.closePin pin).attempt
    Async.fail e
  | .ok false => do
    self.closePin pin
    Async.fail (((FsError.new .exdev).withSyscall "open version view").withMessage
      "historical view uses a different block store")
  | .ok true => return ()

/-- A spawned close. The runtime does not drop it: where its task is dropped, the close is
put off. -/
def runSpawned : ViewCall Unit := do
  Async.await (fun world => decide (0 < (world.views self.view).spawned)) fun _ world =>
    let lifetime := world.views self.view
    (.ok (), world.setView self.view { lifetime with
      spawned := lifetime.spawned - 1, cleaning := self.task :: lifetime.cleaning })
  let restart := { self with runtime := true }.scheduleClose
  let _ ← (self.close.onDrop restart).attempt
  Async.commit (fun world =>
    let lifetime := world.views self.view
    ((), world.setView self.view { lifetime with cleaning := lifetime.cleaning.filter (· ≠ self.task) }))
    (fun _ world => world)

end Viewer

/-! ## Requests -/

inductive ViewRequest
  | openView (options : VersionedOptions) (id : VersionId)
  /-- `stat`, `lstat`, `statfs`, `readdir`, `readlink`, `syncfs` and the refused changes. -/
  | operate (view : ℕ) (syscall : String)
  | openFile (view : ℕ) (path : String)
  | useHandle (view handle : ℕ) (syscall : String) (moves : Bool)
  | closeFile (view handle : ℕ)
  | renew (view ttlMs : ℕ)
  | close (view : ℕ)
  | runSpawned (view : ℕ)

/-- What does not change in a run. -/
structure ViewSetup where
  requests : ℕ → ViewRequest
  runtime : Bool

namespace ViewSetup

variable (setup : ViewSetup)

def view (task : ℕ) : ℕ :=
  match setup.requests task with
  | .openView _ _ => task
  | .operate view _ | .openFile view _ | .useHandle view _ _ _ | .closeFile view _ | .renew view _
  | .close view | .runSpawned view => view

def viewer (task : ℕ) : Viewer := { task, view := setup.view task, runtime := setup.runtime }

/-- A view can only be used after it has been returned. -/
def returned (task : ℕ) : ViewCall Unit :=
  Async.await (fun world => (world.views (setup.view task)).present) fun _ world => (.ok (), world)

/-- A handle belongs to the view that opened it. -/
def ofView (task handle : ℕ) : ViewCall Unit :=
  Async.await (fun world => (world.handles handle).any fun state =>
    decide (state.view = setup.view task)) fun _ world => (.ok (), world)

def program (task : ℕ) : ViewCall ℕ :=
  let self := setup.viewer task
  match setup.requests task with
  | .openView options id => do self.openView options id; return task
  | .operate _ syscall => do setup.returned task; self.withOperation syscall
  | .openFile _ path => do setup.returned task; self.openFile path
  | .useHandle _ handle syscall moves => do
    setup.returned task
    setup.ofView task handle
    self.useHandle handle syscall moves
  | .closeFile _ handle => do
    setup.returned task
    setup.ofView task handle
    self.closeFile handle
    return 0
  | .renew _ ttlMs => do setup.returned task; self.renew ttlMs; return 0
  | .close _ => do setup.returned task; self.close; return 0
  | .runSpawned _ => do setup.returned task; self.runSpawned; return 0

/-- Calls of the provider that concern no pin. -/
inductive StoreCall
  | acquireWriter (owner : String) (ttlMs : ℕ)
  | renewWriter (lease : WriterLease) (ttlMs : ℕ)
  | releaseWriter (lease : WriterLease)
  | publish (expectedRevision : ℕ) (lease : WriterLease) (ns : Namespace)
  | publishVersion (lease : WriterLease) (publication : VersionPublication)
  | deleteVersion (lease : WriterLease) (id : VersionId)

def StoreCall.apply (call : StoreCall) (now : Moment) : Result MetadataState :=
  match call with
  | acquireWriter owner ttlMs => do
    return (← now.metadata.acquireWriter now.clockMs owner ttlMs).2
  | renewWriter lease ttlMs => do return (← now.metadata.renewWriter now.clockMs lease ttlMs).2
  | releaseWriter lease => do return (← now.metadata.releaseWriter now.clockMs lease).2
  | publish expectedRevision lease ns => do
    return (← now.metadata.publish now.clockMs expectedRevision lease ns).2
  | publishVersion lease publication => do
    return (← now.metadata.publishVersion now.clockMs lease publication).2
  | deleteVersion lease id => do return (← now.metadata.deleteVersion now.clockMs lease id).2

inductive Disturbance
  /-- The clock goes on. -/
  | clock (elapsedMs : ℕ)
  | store (call : StoreCall)
  /-- The rest of `cancel_operation`. -/
  | dropped (view index : ℕ)

def disturb : Disturbance → ViewWorld → ViewWorld
  | .clock elapsedMs, world =>
    world.advance { world.now with clockMs := world.now.clockMs + elapsedMs }
  | .store call, world =>
    match call.apply world.now with
    | .ok metadata => world.advance { world.now with metadata }
    | .error _ => world
  | .dropped view index, world =>
    let lifetime := world.views view
    match lifetime.dropping[index]? with
    | none => world
    | some previous => world.setView view { lifetime with
        invalidated := true, dropping := lifetime.dropping.eraseIdx index
        spawned := if previous = 1 ∧ setup.runtime = true then lifetime.spawned + 1
          else lifetime.spawned }

/-- Requests arrive in order. -/
def service : Service ViewWorld Signal FsError ℕ Unit Disturbance where
  program task _ := setup.program task
  arrive _ _ world := world
  disturb := setup.disturb

end ViewSetup

/-- A view that nobody has opened. -/
def absentView : ViewLifetime :=
  { ViewLifetime.new ⟨"", ⟨"", 0⟩, "", "", 0, 0⟩ 0 with present := false, pin := none }

/-- Where a run starts: a new store. -/
def viewStart (volumeId : VolumeId) (clockMs : ℕ) : Pool ViewWorld Signal FsError ℕ :=
  { shared :=
      { now := { metadata := MetadataState.new volumeId, clockMs }, past := []
        views := fun _ => absentView, handles := fun _ => none, opened := fun _ => none
        touched := [], ran := fun _ => [], renewed := fun _ => none }
    tasks := [] }

end MountRs.Versioned
