import MountRs.Model.Error
import Mathlib.Logic.Function.Basic

/-! # The save gate and `persist`

`PersistedFs` applies a mutation to its memory core and then persists: it takes the save gate,
takes a snapshot of the core and hands it to the store. Every section of the gate's mutex,
every delivery of a wake-up and every answer of the store is a step of its own, and a call can
be dropped while it waits for the gate or for the store. A snapshot is known by the calls
whose mutations it contains. -/

namespace MountRs.Persist

/-! ## The gate -/

/-- The waker of one poll of the lock future of a call. -/
structure Waker where
  call : ℕ
  poll : ℕ
deriving DecidableEq

structure SaveGateWaiter where
  id : ℕ
  waker : Waker
deriving DecidableEq

structure SaveGateState where
  held : Bool
  nextWaiterId : ℕ
  waiters : List SaveGateWaiter

namespace SaveGateState

def new : SaveGateState := { held := false, nextWaiterId := 0, waiters := [] }

variable (gate : SaveGateState)

def position (id : ℕ) : Option ℕ :=
  gate.waiters.findIdx? fun waiter => waiter.id = id

/-- A poll that is ready gives the guard, and one that is pending leaves the future queued. -/
inductive Polled
  | ready
  | pending (id : ℕ)
  | panicked

def ownsNextTurn (queuedId : Option ℕ) : Bool :=
  !gate.held && match queuedId with
    | some id => gate.waiters.head?.any fun waiter => waiter.id = id
    | none => gate.waiters.isEmpty

/-- `SaveGateFuture::poll`. -/
def poll (queuedId : Option ℕ) (waker : Waker) : SaveGateState × Polled :=
  if gate.ownsNextTurn queuedId then
    let waiters := if queuedId.isSome then gate.waiters.tail else gate.waiters
    ({ gate with held := true, waiters }, .ready)
  else match queuedId with
    | some id =>
      match gate.position id with
      | some position =>
        let waiters := gate.waiters.modify position fun waiter => { waiter with waker }
        ({ gate with waiters }, .pending id)
      | none => (gate, .panicked)
    | none =>
      let id := gate.nextWaiterId
      if id < U64_MAX then
        ({ gate with nextWaiterId := id + 1, waiters := gate.waiters ++ [{ id, waker }] },
          .pending id)
      else (gate, .panicked)

/-- The waker of the first waiter, to be woken after the section. -/
def front : List Waker :=
  (gate.waiters.head?.map SaveGateWaiter.waker).toList

/-- The destructor of a queued `SaveGateFuture`. -/
def dropFuture (id : ℕ) : Option (SaveGateState × List Waker) :=
  (gate.position id).map fun position =>
    let next := { gate with waiters := gate.waiters.eraseIdx position }
    (next, if position = 0 ∧ gate.held = false then next.front else [])

/-- The destructor of `SaveGateGuard`. -/
def dropGuard : SaveGateState × List Waker :=
  ({ gate with held := false }, gate.front)

end SaveGateState

/-! ## Calls -/

/-- A call that persists. -/
inductive Call
  | unstarted
  /-- The lock future, with the number of its polls and whether its last waker was woken. -/
  | waiting (queuedId : Option ℕ) (polls : ℕ) (woken : Bool)
  | holding
  | saving (snapshot : List ℕ) (expectedVersion : String)
  /-- The store has answered, and the guard is not dropped yet. -/
  | saved (ok : Bool)
  | answered (ok : Bool)
  | canceled
  | panicked

/-- The gate, the calls, the wake-ups on their way and the core. The last four fields record
the calls that came to the gate and those that it let in, and the snapshots that were handed
to the store and those that it saved, all in order. -/
structure World where
  gate : SaveGateState
  calls : ℕ → Call
  waking : List Waker
  core : List ℕ
  snapshotVersion : String
  arrived : List ℕ
  admitted : List ℕ
  handed : List (List ℕ)
  stored : List (List ℕ)

inductive Event
  /-- A call begins; one that mutates has its mutation applied to the core. -/
  | start (call : ℕ) (mutates : Bool)
  | poll (call : ℕ)
  /-- A wake-up on its way is delivered. -/
  | wake (index : ℕ)
  /-- The snapshot is taken, or taking it fails. -/
  | snapshot (call : ℕ) (ok : Bool)
  | store (call : ℕ) (version : Option String)
  /-- The guard is dropped and the call answers. -/
  | answer (call : ℕ)
  | cancel (call : ℕ)

namespace World

def opened (version : String) : World :=
  { gate := .new, calls := fun _ => .unstarted, waking := [], core := [], snapshotVersion := version
    arrived := [], admitted := [], handed := [], stored := [] }

variable (world : World) (i : ℕ)

def setCall (call : Call) : World :=
  { world with calls := Function.update world.calls i call }

def poll (world : World) (i : ℕ) (queuedId : Option ℕ) (polls : ℕ) : World :=
  let (gate, polled) := world.gate.poll queuedId { call := i, poll := polls + 1 }
  -- A future that is not queued is polled for the first time.
  let arrived := if queuedId.isNone then world.arrived ++ [i] else world.arrived
  match polled with
  | .ready =>
    { world.setCall i .holding with gate, arrived, admitted := world.admitted ++ [i] }
  | .pending id => { world.setCall i (.waiting (some id) (polls + 1) false) with gate, arrived }
  | .panicked => { world.setCall i .panicked with gate, arrived }

/-- A waker that an earlier poll left behind wakes nobody. -/
def wake (waker : Waker) : World :=
  match world.calls waker.call with
  | .waiting queuedId polls _ =>
    if polls = waker.poll then world.setCall waker.call (.waiting queuedId polls true) else world
  | _ => world

/-- The guard is dropped, and the call goes on as given. -/
def dropGuard (call : Call) : World :=
  let (gate, wakers) := world.gate.dropGuard
  { world.setCall i call with gate, waking := world.waking ++ wakers }

def dropFuture (i id : ℕ) : World :=
  match world.gate.dropFuture id with
  | some (gate, wakers) =>
    { world.setCall i .canceled with gate, waking := world.waking ++ wakers }
  | none => world.setCall i .panicked

def step : Event → World
  | .start i mutates =>
    match world.calls i with
    | .unstarted =>
      { world.setCall i (.waiting none 0 false) with
        core := if mutates then world.core ++ [i] else world.core }
    | _ => world
  | .poll i =>
    match world.calls i with
    | .waiting queuedId polls _ => world.poll i queuedId polls
    | _ => world
  | .wake index =>
    match world.waking[index]? with
    | some waker => { world with waking := world.waking.eraseIdx index }.wake waker
    | none => world
  | .snapshot i ok =>
    match world.calls i with
    | .holding =>
      if ok then
        { world.setCall i (.saving world.core world.snapshotVersion) with
          handed := world.handed ++ [world.core] }
      else world.setCall i (.saved false)
    | _ => world
  | .store i version =>
    match world.calls i, version with
    | .saving snapshot _, some version =>
      { world.setCall i (.saved true) with
        snapshotVersion := version, stored := world.stored ++ [snapshot] }
    | .saving _ _, none => world.setCall i (.saved false)
    | _, _ => world
  | .answer i =>
    match world.calls i with
    | .saved ok => world.dropGuard i (.answered ok)
    | _ => world
  | .cancel i =>
    match world.calls i with
    | .waiting none _ _ => world.setCall i .canceled
    | .waiting (some id) _ _ => world.dropFuture i id
    | .holding | .saving _ _ => world.dropGuard i .canceled
    | _ => world

def run (events : List Event) : World := events.foldl step world

end World

end MountRs.Persist
