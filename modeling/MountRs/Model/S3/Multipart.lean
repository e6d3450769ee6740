import Mathlib.Data.Nat.Notation
import Mathlib.Logic.Function.Basic

/-! # Multipart uploads

`upload_part`, `upload_part_stream`, `complete_multipart` and `abort_multipart` on one
upload id. The world is the upload's directory and the object at the key; each driver call
on them is a step, and the upload's requests interleave between any two steps. -/

namespace MountRs.S3

/-! ## The upload directory -/

/-- The names in the directory of an upload. Staging names are drawn at random, so that
each request has its own. -/
inductive FileName
  | manifest
  | marker
  | part (number : ℕ)
  | partStaging (i : ℕ)
  | completion (i : ℕ)
  deriving DecidableEq

structure PartFile where
  content : List UInt8
  etag : String
  deriving DecidableEq

abbrev Directory := List (FileName × PartFile)

def Directory.get? (files : Directory) (name : FileName) : Option PartFile :=
  (files.find? fun entry => entry.1 = name).map Prod.snd

def Directory.erase (files : Directory) (name : FileName) : Directory :=
  files.filter fun entry => entry.1 ≠ name

def Directory.put (files : Directory) (name : FileName) (file : PartFile) : Directory :=
  files.erase name ++ [(name, file)]

/-! ## Requests -/

inductive UploadRequest
  | uploadPart (number : ℕ) (file : PartFile) (streaming : Bool)
  /-- Part numbers and their unquoted ETags. -/
  | complete (parts : List (ℕ × String))
  | abort
  deriving DecidableEq

inductive UploadPhase
  | start
  /-- The part upload has read the manifest, and checks the marker before it stages. -/
  | admitted (checks : ℕ)
  | staged
  /-- The last check found no marker; the `rename` of the part is next. -/
  | unfinalized
  | preflight (index : ℕ)
  | reserving
  /-- `claim_multipart_finalization`, before the manifest and before the marker. -/
  | claiming
  | marking
  | claimed
  | checking (sizes : List ℕ)
  | opening (sizes : List ℕ)
  | copying (sizes : List ℕ) (index : ℕ) (data : List UInt8)
  | publishing (data : List UInt8)
  | renamed
  /-- `remove_tree`: before `readdir`, and with the entries left to unlink. -/
  | listing
  | removing (names : List FileName)
  | settling
  /-- The request has failed and unlinks the names given. -/
  | cleaning (names : List FileName)
  | done (ok : Bool)
  deriving DecidableEq

/-- The directory, if it exists, and the object at the key. The ledger has every file that
stood at the path of a part and what each completion published. -/
structure UploadWorld where
  directory : Option Directory
  object : Option (List UInt8)
  phase : ℕ → UploadPhase
  history : List (ℕ × PartFile)
  published : ℕ → Option (List UInt8)

/-- Whether the driver calls of a step succeed, whether the handle of a new marker closes,
and the order in which `readdir` lists the directory. -/
structure UploadOutcome where
  ok : Bool
  closed : Bool
  order : List FileName
  deriving DecidableEq

def minPartSize : ℕ := 5 * 1024 * 1024

namespace UploadWorld

def start (files : Directory) (object : Option (List UInt8)) : UploadWorld :=
  { directory := some files, object, phase := fun _ => .start
    history := files.filterMap fun entry =>
      match entry.1 with
      | .part number => some (number, entry.2)
      | _ => none
    published := fun _ => none }

variable (world : UploadWorld) (i : ℕ)

def get? (name : FileName) : Option PartFile :=
  world.directory.bind fun files => files.get? name

def erase (name : FileName) : UploadWorld :=
  { world with directory := world.directory.map fun files => files.erase name }

def put (name : FileName) (file : PartFile) : UploadWorld :=
  { world with directory := world.directory.map fun files => files.put name file }

def setPhase (phase : UploadPhase) : UploadWorld :=
  { world with phase := Function.update world.phase i phase }

/-- The file a request makes for a marker or a reservation. -/
def emptyFile : PartFile := { content := [], etag := "" }

/-! ## Part uploads -/

def uploadStep (i number : ℕ) (file : PartFile) (streaming : Bool)
    (outcome : UploadOutcome) : UploadWorld :=
  match world.phase i with
  | .start =>
    if outcome.ok = true ∧ (world.get? .manifest).isSome = true then
      world.setPhase i (.admitted (if streaming then 1 else 2))
    else world.setPhase i (.done false)
  | .admitted (checks + 1) =>
    if outcome.ok = true ∧ world.get? .marker = none then world.setPhase i (.admitted checks)
    else world.setPhase i (.done false)
  | .admitted 0 =>
    if outcome.ok = true ∧ world.directory.isSome = true then
      (world.put (.partStaging i) file).setPhase i .staged
    else world.setPhase i (.cleaning [.partStaging i])
  | .staged =>
    if outcome.ok = true ∧ world.get? .marker = none then world.setPhase i .unfinalized
    else world.setPhase i (.cleaning [.partStaging i])
  | .unfinalized =>
    match world.get? (.partStaging i) with
    | some staged =>
      if outcome.ok then
        { ((world.erase (.partStaging i)).put (.part number) staged).setPhase i .settling with
          history := world.history ++ [(number, staged)] }
      else world.setPhase i (.cleaning [.partStaging i])
    | none => world.setPhase i (.cleaning [.partStaging i])
  | .settling => world.setPhase i (.done outcome.ok)
  | _ => world

/-! ## Completion and abort -/

variable (parts : List (ℕ × String))

/-- The part number before the one at `index`, zero at the start. -/
def previousNumber (index : ℕ) : ℕ :=
  if index = 0 then 0 else ((parts[index - 1]?).map Prod.fst).getD 0

/-- One turn of `multipart_parts`: the size of the part at `index`, if it has a greater
number than the one before it, the ETag asked for, and the size a part must have. -/
def checkPart (index : ℕ) (part : ℕ × String) : Option ℕ :=
  if part.1 ≤ previousNumber parts index then none
  else
    match world.get? (.part part.1) with
    | none => none
    | some file =>
      if file.etag ≠ part.2 then none
      else if index + 1 < parts.length ∧ file.content.length < minPartSize then none
      else some file.content.length

/-- The staging file a request cleans up. -/
def reservation : UploadRequest → List FileName
  | .complete _ => [.completion i]
  | _ => []

/-- `claim_multipart_finalization`, shared by completion and abort. -/
def claimStep (request : UploadRequest) (granted : UploadPhase)
    (outcome : UploadOutcome) : UploadWorld :=
  match world.phase i with
  | .claiming =>
    if outcome.ok = true ∧ (world.get? .manifest).isSome = true then world.setPhase i .marking
    else world.setPhase i (.cleaning (reservation i request))
  | .marking =>
    if outcome.ok = true ∧ world.directory.isSome = true ∧ world.get? .marker = none then
      if outcome.closed then (world.put .marker emptyFile).setPhase i granted
      else (world.put .marker emptyFile).setPhase i (.cleaning (reservation i request))
    else world.setPhase i (.cleaning (reservation i request))
  | _ => world

/-- `remove_tree` of the directory and the durability barrier. -/
def removeStep (unsettled : UploadPhase) (outcome : UploadOutcome) : UploadWorld :=
  match world.phase i with
  | .listing =>
    match world.directory with
    | none => world.setPhase i .settling
    | some files =>
      if outcome.ok then
        let names := files.map Prod.fst
        world.setPhase i (.removing (if outcome.order.isPerm names then outcome.order else names))
      else world.setPhase i (.cleaning [.marker])
  | .removing (name :: names) =>
    if outcome.ok then (world.erase name).setPhase i (.removing names)
    else world.setPhase i (.cleaning [.marker])
  | .removing [] =>
    match world.directory with
    | none => world.setPhase i .settling
    | some [] =>
      if outcome.ok then { world.setPhase i .settling with directory := none }
      else world.setPhase i (.cleaning [.marker])
    | some _ => world.setPhase i (.cleaning [.marker])
  | .settling => world.setPhase i (if outcome.ok then .done true else unsettled)
  | _ => world

def cleanStep (outcome : UploadOutcome) : UploadWorld :=
  match world.phase i with
  | .cleaning (name :: names) =>
    (if outcome.ok then world.erase name else world).setPhase i (.cleaning names)
  | .cleaning [] => world.setPhase i (.done false)
  | _ => world

/-- The assembly between the claim of the marker and the removal of the directory. -/
def assembleStep (outcome : UploadOutcome) : UploadWorld :=
  match world.phase i with
  | .claimed =>
    if outcome.ok = true ∧ (world.get? .manifest).isSome = true then
      world.setPhase i (.checking [])
    else world.setPhase i (.cleaning [.marker, .completion i])
  | .checking sizes =>
    match parts[sizes.length]? with
    | none =>
      if outcome.ok then world.setPhase i (.opening sizes)
      else world.setPhase i (.cleaning [.marker, .completion i])
    | some part =>
      match world.checkPart parts sizes.length part with
      | some size =>
        if outcome.ok then world.setPhase i (.checking (sizes ++ [size]))
        else world.setPhase i (.cleaning [.marker, .completion i])
      | none => world.setPhase i (.cleaning [.marker, .completion i])
  | .opening sizes =>
    if outcome.ok = true ∧ (world.get? (.completion i)).isSome = true then
      world.setPhase i (.copying sizes 0 [])
    else world.setPhase i (.cleaning [.completion i, .marker])
  | .copying sizes index data =>
    match parts[index]?, sizes[index]? with
    | some part, some size =>
      match world.get? (.part part.1) with
      | some file =>
        -- A part shorter than it was reads zero bytes, which is an error.
        if outcome.ok = true ∧ size ≤ file.content.length then
          world.setPhase i (.copying sizes (index + 1) (data ++ file.content.take size))
        else world.setPhase i (.cleaning [.completion i, .marker])
      | none => world.setPhase i (.cleaning [.completion i, .marker])
    | _, _ => world.setPhase i (.publishing data)
  | .publishing data =>
    if outcome.ok = true ∧ (world.get? (.completion i)).isSome = true then
      { (world.erase (.completion i)).setPhase i .renamed with
        object := some data
        published := Function.update world.published i (some data) }
    else world.setPhase i (.cleaning [.completion i, .marker])
  | .renamed => world.setPhase i (if outcome.ok then .listing else .cleaning [.marker])
  | _ => world

def completeStep (outcome : UploadOutcome) : UploadWorld :=
  match world.phase i with
  | .start => world.setPhase i (if outcome.ok then .preflight 0 else .done false)
  | .preflight index =>
    match parts[index]? with
    | none => world.setPhase i (if outcome.ok then .reserving else .done false)
    | some part =>
      if outcome.ok = true ∧ (world.checkPart parts index part).isSome = true then
        world.setPhase i (.preflight (index + 1))
      else world.setPhase i (.done false)
  | .reserving =>
    if outcome.ok = true ∧ world.directory.isSome = true then
      (world.put (.completion i) emptyFile).setPhase i .claiming
    else world.setPhase i (.done false)
  | .claiming | .marking => world.claimStep i (.complete parts) .claimed outcome
  | .listing | .removing _ | .settling => world.removeStep i (.cleaning [.marker]) outcome
  | .cleaning _ => world.cleanStep i outcome
  | _ => world.assembleStep i parts outcome

def abortStep (outcome : UploadOutcome) : UploadWorld :=
  match world.phase i with
  | .start => world.setPhase i (if outcome.ok then .claiming else .done false)
  | .claiming | .marking => world.claimStep i .abort .listing outcome
  | .cleaning _ => world.cleanStep i outcome
  | _ => world.removeStep i (.done false) outcome

def step (requests : ℕ → UploadRequest) (world : UploadWorld) (i : ℕ) (outcome : UploadOutcome) :
    UploadWorld :=
  match requests i with
  | .uploadPart number file streaming =>
    match world.phase i with
    | .cleaning _ => world.cleanStep i outcome
    | _ => world.uploadStep i number file streaming outcome
  | .complete parts => world.completeStep i parts outcome
  | .abort => world.abortStep i outcome

end UploadWorld

/-! ## Runs -/

inductive UploadMove
  | run (i : ℕ) (outcome : UploadOutcome)
  /-- `reap_staging` of some request unlinks a file of an expired upload, or removes its
  empty directory. -/
  | reap (name : FileName)
  | reapDirectory
  deriving DecidableEq

def UploadWorld.apply (requests : ℕ → UploadRequest) (world : UploadWorld) :
    UploadMove → UploadWorld
  | .run i outcome => world.step requests i outcome
  | .reap name => world.erase name
  | .reapDirectory => if world.directory = some [] then { world with directory := none } else world

def UploadWorld.run (requests : ℕ → UploadRequest) (files : Directory)
    (object : Option (List UInt8)) (moves : List UploadMove) : UploadWorld :=
  moves.foldl (UploadWorld.apply requests) (UploadWorld.start files object)

end MountRs.S3
