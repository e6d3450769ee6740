import Mathlib.Data.Int.Notation
import Mathlib.Data.Nat.Notation
import Mathlib.Logic.Function.Basic

/-! # Writes to one key

`put_object`, `put_object_stream`, `copy_object` and the end of `complete_multipart` as they
act on the path of one key. Each driver call on that path is a step; the calls on other
paths between two of them (parents, staging files, the body) are one step that may fail. -/

namespace MountRs.S3

/-! ## Conditional headers -/

structure Stats where
  etag : String
  mtime : ℤ
  directory : Bool
  deriving DecidableEq

inductive S3Failure
  | noSuchKey
  | preconditionFailed
  | invalidRequest
  /-- An error of the driver or of the request body. -/
  | other
  deriving DecidableEq

/-- The conditional headers of a PUT. A list header is given by its trimmed members, and
a date that does not parse is `some none`. -/
structure PutHeaders where
  ifMatch : Option (List String)
  ifNoneMatch : Option (List String)
  ifUnmodifiedSince : Option (Option ℤ)
  deriving DecidableEq

def etagHeader (etag : String) : String := "\"" ++ etag ++ "\""

def conditionalMatch (value : List String) (etag : String) : Bool :=
  value.any fun candidate => candidate == "*" || candidate == etagHeader etag || candidate == etag

def checkPutConditionals (existing : Option Stats) (headers : PutHeaders) :
    Except S3Failure Unit := do
  if let some value := headers.ifMatch then
    match existing with
    | none => throw .noSuchKey
    | some stats => if !conditionalMatch value stats.etag then throw .preconditionFailed
  if let some value := headers.ifNoneMatch then
    if let some stats := existing then
      if conditionalMatch value stats.etag then throw .preconditionFailed
  if let some (some date) := headers.ifUnmodifiedSince then
    if existing.any fun stats => date + 999 < stats.mtime then throw .preconditionFailed

def hasPutConditionals (headers : PutHeaders) : Bool :=
  headers.ifMatch.isSome || headers.ifNoneMatch.isSome || headers.ifUnmodifiedSince.isSome

def checkCreateOnly (headers : PutHeaders) : Bool := headers.ifNoneMatch == some ["*"]

/-! ## Requests -/

structure PutRequest where
  headers : PutHeaders
  /-- The target ends in a slash. -/
  directory : Bool
  streaming : Bool
  emptyBody : Bool
  deriving DecidableEq

inductive KeyRequest
  | put (request : PutRequest)
  | copyObject
  | completeMultipart
  deriving DecidableEq

inductive PutPhase
  | start
  /-- Before the first `stat` of the target. -/
  | checking
  /-- The conditionals passed; `existing` is what that `stat` found. -/
  | preparing (existing : Option Stats)
  /-- Before the second `stat` of a streaming PUT. -/
  | rechecking
  /-- Before the call that makes the object visible. -/
  | publishing (existing : Option Stats)
  /-- Metadata, durability barrier and the last `stat`. -/
  | settling
  | done (result : Except S3Failure Unit)
  | canceled

/-- The node at the path, the holder of the conditional PUT lock and the requests.
`published i` records whether a node existed when request `i` made its object visible. -/
structure PutWorld where
  node : Option Stats
  holder : Option ℕ
  phase : ℕ → PutPhase
  published : ℕ → Option Bool

def PutWorld.start (node : Option Stats) : PutWorld :=
  { node, holder := none, phase := fun _ => .start, published := fun _ => none }

/-- Whether the driver calls of a step succeed, and the attributes of a node they make. -/
structure PutOutcome where
  ok : Bool
  stats : Stats
  deriving DecidableEq

namespace PutWorld

variable (world : PutWorld) (i : ℕ)

def setPhase (phase : PutPhase) : PutWorld :=
  { world with phase := Function.update world.phase i phase }

/-- The request ends, and its lock guard is dropped. -/
def leave (phase : PutPhase) : PutWorld :=
  { world.setPhase i phase with
    holder := if world.holder = some i then none else world.holder }

def fail (failure : S3Failure) : PutWorld :=
  world.leave i (.done (.error failure))

/-- The request makes its object visible. -/
def publish (node : Stats) : PutWorld :=
  { world.setPhase i .settling with
    node := some node
    published := Function.update world.published i (some world.node.isSome) }

/-- `acquire_conditional_put_lock`; without conditionals the request goes on unlocked. -/
def lock (request : PutRequest) : PutWorld :=
  if hasPutConditionals request.headers = false then world.setPhase i .checking
  else if world.holder = none then
    { world.setPhase i .checking with holder := some i }
  else world

/-- The first `stat`, any error of which reads as an absent object, and the conditionals. -/
def check (request : PutRequest) (outcome : PutOutcome) : PutWorld :=
  let existing := if outcome.ok then world.node else none
  match checkPutConditionals existing request.headers with
  | .error failure => world.fail i failure
  | .ok _ => world.setPhase i (.preparing existing)

/-- Whether the object must be created: it was absent and the request is create-only. -/
def exclusive (existing : Option Stats) (request : PutRequest) : Bool :=
  existing.isNone && checkCreateOnly request.headers

def prepare (existing : Option Stats) (request : PutRequest) (outcome : PutOutcome) : PutWorld :=
  if outcome.ok = false then world.fail i .other
  else if request.directory = true ∧ request.emptyBody = false then
    world.fail i .invalidRequest
  else if request.directory = false ∧ request.streaming = true ∧
      exclusive existing request = true then
    world.setPhase i .rechecking
  else world.setPhase i (.publishing existing)

def recheck (outcome : PutOutcome) : PutWorld :=
  if outcome.ok = false then world.fail i .other
  else if world.node.isSome then world.fail i .preconditionFailed
  else world.setPhase i (.publishing none)

/-- `mkdir` with `recursive`: an existing directory is kept. -/
def mkdir (outcome : PutOutcome) : PutWorld :=
  match world.node with
  | some stats =>
    if stats.directory then world.publish i stats else world.fail i .other
  | none => world.publish i { outcome.stats with directory := true }

/-- `open` with `wx` or `w`; the bytes follow through the handle. -/
def openFile (exclusive : Bool) (outcome : PutOutcome) : PutWorld :=
  match world.node with
  | some stats =>
    if exclusive ∨ stats.directory then world.fail i .other
    else world.publish i { outcome.stats with directory := false }
  | none => world.publish i { outcome.stats with directory := false }

/-- `rename` of a staging file. -/
def rename (outcome : PutOutcome) : PutWorld :=
  if world.node.any Stats.directory then world.fail i .other
  else world.publish i { outcome.stats with directory := false }

def publishPut (existing : Option Stats) (request : PutRequest) (outcome : PutOutcome) : PutWorld :=
  if outcome.ok = false then world.fail i .other
  else if request.directory then world.mkdir i outcome
  else if request.streaming then world.rename i outcome
  else world.openFile i (exclusive existing request) outcome

def settle (outcome : PutOutcome) : PutWorld :=
  if outcome.ok = false then world.fail i .other else world.leave i (.done (.ok ()))

def step (requests : ℕ → KeyRequest) (world : PutWorld) (i : ℕ) (outcome : PutOutcome) :
    PutWorld :=
  match requests i, world.phase i with
  | .put request, .start => world.lock i request
  | .put request, .checking => world.check i request outcome
  | .put request, .preparing existing => world.prepare i existing request outcome
  | .put _, .rechecking => world.recheck i outcome
  | .put request, .publishing existing => world.publishPut i existing request outcome
  -- A copy and a completion stage their object and rename it.
  | _, .start =>
    if outcome.ok = false then world.fail i .other else world.setPhase i (.publishing none)
  | _, .publishing _ =>
    if outcome.ok = false then world.fail i .other else world.rename i outcome
  | _, .settling => world.settle i outcome
  | _, _ => world

end PutWorld

/-! ## Runs -/

inductive PutMove
  | run (i : ℕ) (outcome : PutOutcome)
  | cancel (i : ℕ)
  /-- The object is deleted. -/
  | delete
  deriving DecidableEq

def PutWorld.apply (requests : ℕ → KeyRequest) (world : PutWorld) : PutMove → PutWorld
  | .run i outcome => world.step requests i outcome
  | .cancel i =>
    match world.phase i with
    | .done _ => world
    | _ => world.leave i .canceled
  | .delete => { world with node := none }

def PutWorld.run (requests : ℕ → KeyRequest) (node : Option Stats) (moves : List PutMove) :
    PutWorld :=
  moves.foldl (PutWorld.apply requests) (PutWorld.start node)

end MountRs.S3
