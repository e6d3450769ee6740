import MountRs.Model.Nfs.State

/-! # Session slots

`dispatch_compound`, `busy_sequence_status` and the drop of `InFlightSlot`. A COMPOUND
that starts with SEQUENCE is a task; each critical section of the state mutex and each
operation it executes is a step, and a task can be canceled wherever it awaits. -/

namespace MountRs.Nfs

/-! ## Operations and replies -/

inductive Op
  | access | close | commit | create | getattr | getfh | link | lookup | lookupp | lock | lockt
  | locku | nverify | openFile | openDowngrade | putfh | putrootfh | putpubfh | read | readdir
  | readlink | remove | rename | restorefh | savefh | secinfo | secinfoNoName | setattr | verify
  | write | exchangeId | createSession | bindConnToSession | destroySession | destroyClientid
  | freeStateid | sequence | reclaimComplete | testStateid | backchannelCtl
  | unsupported (opnum : ℕ)
  deriving DecidableEq

def Op.opnum : Op → ℕ
  | .access => 3 | .close => 4 | .commit => 5 | .create => 6 | .getattr => 9 | .getfh => 10
  | .link => 11 | .lookup => 15 | .lookupp => 16 | .lock => 12 | .lockt => 13 | .locku => 14
  | .nverify => 17 | .openFile => 18 | .openDowngrade => 21 | .putfh => 22 | .putrootfh => 24
  | .putpubfh => 23 | .read => 25 | .readdir => 26 | .readlink => 27 | .remove => 28
  | .rename => 29 | .restorefh => 31 | .savefh => 32 | .secinfo => 33 | .secinfoNoName => 52
  | .setattr => 34 | .verify => 37 | .write => 38 | .exchangeId => 42 | .createSession => 43
  | .bindConnToSession => 41 | .destroySession => 44 | .destroyClientid => 57
  | .freeStateid => 45 | .sequence => 53 | .reclaimComplete => 58 | .testStateid => 55
  | .backchannelCtl => 40 | .unsupported opnum => opnum

def Op.mayMutate : Op → Bool
  | .access | .getattr | .getfh | .lookup | .lookupp | .lockt | .nverify | .putfh | .putrootfh
  | .putpubfh | .read | .readdir | .readlink | .restorefh | .savefh | .secinfo | .secinfoNoName
  | .sequence | .testStateid | .verify | .backchannelCtl | .unsupported _ => false
  | _ => true

/-- The read-only operations whose result may be replaced by a bounded error. -/
def Op.replaceable : Op → Bool
  | .getattr | .getfh | .read | .readdir | .readlink => true
  | _ => false

def Op.isUnsupported : Op → Bool
  | .unsupported _ => true
  | _ => false

def errDelay : ℕ := 10008
def errBadSession : ℕ := 10052
def errBadSlot : ℕ := 10053
def errSeqMisordered : ℕ := 10063
def errRepTooBigToCache : ℕ := 10067
def errRetryUncachedRep : ℕ := 10068
def errTooManyOps : ℕ := 10070
def errSeqFalseRetry : ℕ := 10076
def errBadHighSlot : ℕ := 10077

/-- A COMPOUND whose first operation is SEQUENCE. It declares `count` operations; `ops`
are those after SEQUENCE, up to the first unsupported one. -/
structure Compound where
  tag : String
  credentials : String
  session : ℕ
  sequence : ℕ
  slot : ℕ
  highest : ℕ
  cachethis : Bool
  count : ℕ
  ops : List Op

/-- The requests of a run, what each operation of each request answers, and the encoded
size of a reply. -/
structure SlotSetup where
  requests : ℕ → Compound
  outcome : ℕ → ℕ → OpResult
  size : Reply → ℕ

/-! ## The world -/

inductive SlotPhase
  | start
  /-- The busy check has passed; the request waits for the path lock. -/
  | gated
  /-- Admitted; `index` operations have been executed. -/
  | running (index : ℕ) (results : List OpResult) (mutated : Bool) (maxCached : ℕ)
  /-- The reply has been cached or not, and the slot guard is about to be dropped. -/
  | replying (reply : Reply) (completed : Bool)
  | answered (reply : Reply)
  | canceled
  deriving DecidableEq

/-- A request that took its slot. -/
structure Admission where
  task : ℕ
  session : ℕ
  slot : ℕ
  sequence : ℕ
  deriving DecidableEq

/-- The session table, the tasks, and a ledger: the session ids used so far, the requests
received, those admitted, the operations begun for them and the replies produced. -/
structure SlotWorld where
  sessions : BTreeMap ℕ SessionState
  phase : ℕ → SlotPhase
  used : List ℕ
  received : List ℕ
  admissions : List Admission
  log : List (Admission × ℕ)
  produced : ℕ → Option Reply

def SlotWorld.start : SlotWorld :=
  { sessions := ∅, phase := fun _ => .start, used := [], received := [], admissions := []
    log := [], produced := fun _ => none }

variable (setup : SlotSetup) (world : SlotWorld) (i : ℕ)

def SlotSetup.admission : Admission :=
  { task := i, session := (setup.requests i).session, slot := (setup.requests i).slot
    sequence := (setup.requests i).sequence }

namespace SlotWorld

def setPhase (phase : SlotPhase) : SlotWorld :=
  { world with phase := Function.update world.phase i phase }

/-- Answer with an error and the results given. -/
def refuse (i code : ℕ) (results : List OpResult) : SlotWorld :=
  world.setPhase i (.answered { status := code, tag := (setup.requests i).tag, results })

def active (session : SessionState) (slot : ℕ) : Option ℕ := (session.inFlight[slot]?).join

/-- `busy_sequence_status`: answer a slot that is running before anything else. -/
def busySequenceStatus : Option ℕ :=
  let request := setup.requests i
  if V4State.maxCompoundOps < request.count ∨ request.ops.any Op.isUnsupported then none
  else
    (world.sessions.get? request.session).bind fun session =>
      (active session request.slot).map fun sequence =>
        if request.sequence = sequence then errDelay else errSeqMisordered

def sequenceResult (request : Compound) (session : SessionState) : OpResult :=
  { opnum := Op.opnum .sequence, status := 0
    body := [request.session, request.sequence, request.slot, session.nextSequence.length - 1] }

/-- The section that checks SEQUENCE and takes the slot. -/
def accept : SlotWorld :=
  let request := setup.requests i
  match world.sessions.get? request.session with
  | none => world.refuse setup i errBadSession []
  | some session =>
    match session.nextSequence[request.slot]? with
    | none => world.refuse setup i errBadSlot []
    | some expected =>
      match active session request.slot with
      | some sequence =>
        world.refuse setup i (if request.sequence = sequence then errDelay else errSeqMisordered) []
      | none =>
        if request.sequence = expected then
          if session.nextSequence.length ≤ request.highest then
            world.refuse setup i errBadHighSlot []
          else if session.maxOperations < request.ops.length + 1 then
            world.refuse setup i errTooManyOps []
          else
            { world.setPhase i
                (.running 0 [sequenceResult request session] false session.maxCached) with
              sessions := world.sessions.insert request.session
                { session with
                  nextSequence := session.nextSequence.set request.slot
                    ((expected + 1) % 2 ^ 32)
                  inFlight := session.inFlight.set request.slot (some request.sequence) }
              admissions := world.admissions ++ [setup.admission i] }
        else
          match (session.cached[request.slot]?).join.filter fun cached =>
              cached.sequence == request.sequence with
          | some cached =>
            if cached.credentials ≠ request.credentials then
              world.refuse setup i errSeqFalseRetry
                [{ opnum := Op.opnum .sequence, status := errSeqFalseRetry, body := [] }]
            else world.setPhase i (.answered cached.body)
          | none => world.refuse setup i errSeqMisordered []

/-- A successful read that would overflow a required cache becomes a bounded error, if
the error fits. -/
def boundResult (op : Op) (results : List OpResult)
    (maxCached : ℕ) (result : OpResult) : OpResult :=
  let request := setup.requests i
  let tooBig : OpResult := { opnum := op.opnum, status := errRepTooBigToCache, body := [] }
  if request.cachethis = true ∧ result.status = 0 ∧ op.replaceable = true ∧ maxCached < setup.size
        { status := 0, tag := request.tag, results := results ++ [result] } ∧
      setup.size
        { status := errRepTooBigToCache, tag := request.tag, results := results ++ [tooBig] } ≤
        maxCached then
    tooBig
  else result

def lastStatus (results : List OpResult) : ℕ := (results.getLast?.map OpResult.status).getD 0

/-- The reply kept for a retry: the full reply if it fits, else for a request without
the caching hint an error on its second operation. -/
def cachedBody (results : List OpResult) (maxCached : ℕ) (reply : Reply) : Option Reply :=
  let request := setup.requests i
  if setup.size reply ≤ maxCached then some reply
  else if request.cachethis = false then
    match request.ops.head?.filter (fun op => !op.isUnsupported), results.head? with
    | some op, some first =>
      let uncached : Reply :=
        { status := errRetryUncachedRep, tag := request.tag
          results := [first, { opnum := op.opnum, status := errRetryUncachedRep, body := [] }] }
      if setup.size uncached ≤ maxCached then some uncached else none
    | _, _ => none
  else none

def storeReply (body : Reply) : SlotWorld :=
  let request := setup.requests i
  match world.sessions.get? request.session with
  | none => world
  | some session =>
    { world with
      sessions := world.sessions.insert request.session
        { session with
          cached := session.cached.set request.slot
            (some { sequence := request.sequence, body, credentials := request.credentials }) } }

/-- The end of the loop: build the reply and cache it. -/
def finish (results : List OpResult) (mutated : Bool) (maxCached : ℕ) : SlotWorld :=
  let reply : Reply :=
    { status := lastStatus results, tag := (setup.requests i).tag, results }
  let produced := Function.update world.produced i (some reply)
  match cachedBody setup i results maxCached reply with
  | some body =>
    { (world.storeReply setup i body).setPhase i (.replying reply true) with produced }
  | none => { world.setPhase i (.replying reply (!mutated)) with produced }

/-- The drop of the slot guard. -/
def dropSlot (completed : Bool) : SlotWorld :=
  let request := setup.requests i
  match world.sessions.get? request.session with
  | none => world
  | some session =>
    if session.inFlight[request.slot]? ≠ some (some request.sequence) then world
    else if completed then
      { world with
        sessions := world.sessions.insert request.session
          { session with inFlight := session.inFlight.set request.slot none } }
    else { world with sessions := world.sessions.erase request.session }

/-- The next step of task `i`. -/
def step : SlotWorld :=
  let request := setup.requests i
  match world.phase i with
  | .start =>
    let world := { world with received := world.received ++ [i] }
    match world.busySequenceStatus setup i with
    | some code => world.refuse setup i code []
    | none => world.setPhase i .gated
  | .gated =>
    if V4State.maxCompoundOps < request.count then
      world.refuse setup i errTooManyOps []
    else world.accept setup i
  | .running index results mutated maxCached =>
    match request.ops[index]? with
    | some op =>
      if lastStatus results = 0 then
        { world.setPhase i (.running (index + 1)
            (results ++ [boundResult setup i op results maxCached (setup.outcome i index)])
            (mutated || op.mayMutate) maxCached) with
          log := world.log ++ [(setup.admission i, index)] }
      else world.finish setup i results mutated maxCached
    | none => world.finish setup i results mutated maxCached
  | .replying reply completed =>
    (world.dropSlot setup i completed).setPhase i (.answered reply)
  | .answered _ | .canceled => world

/-- The future of task `i` is dropped where it awaits: before admission, or inside an
operation, which has then begun. -/
def cancel : SlotWorld :=
  match world.phase i with
  | .start | .gated => world.setPhase i .canceled
  | .running index results _ _ =>
    if index < (setup.requests i).ops.length ∧ lastStatus results = 0 then
      { (world.dropSlot setup i false).setPhase i .canceled with
        log := world.log ++ [(setup.admission i, index)] }
    else world
  | .replying .. | .answered _ | .canceled => world

end SlotWorld

/-! ## Runs -/

/-- What can happen next. CREATE_SESSION gives an id that no session has had, and
DESTROY_SESSION or a lease expiry removes a session. -/
inductive SlotMove
  | run (i : ℕ)
  | cancel (i : ℕ)
  | createSession (id clientid slots maxOperations maxCached : ℕ)
  | removeSession (id : ℕ)

def freshSession (id clientid slots maxOperations maxCached : ℕ) : SessionState :=
  { id, clientid, nextSequence := List.replicate slots 1
    inFlight := List.replicate slots none, cached := List.replicate slots none
    maxOperations, maxCached }

def SlotWorld.apply : SlotMove → SlotWorld
  | .run i => world.step setup i
  | .cancel i => world.cancel setup i
  | .createSession id clientid slots maxOperations maxCached =>
    if id ∈ world.used then world
    else
      { world with
        used := world.used ++ [id]
        sessions := world.sessions.insert id
          (freshSession id clientid slots maxOperations maxCached) }
  | .removeSession id => { world with sessions := world.sessions.erase id }

def SlotWorld.run (moves : List SlotMove) : SlotWorld :=
  moves.foldl (SlotWorld.apply setup) SlotWorld.start

end MountRs.Nfs
