import MountRs.Model.Error
import Mathlib.Logic.Function.Basic

/-! # Open files of the key-value filesystem

The handles of one file share a buffer. `write` and `truncate` change the buffer and mark it
dirty; `sync` and `close` flush it: they clear the mark in one section of the file's mutex and
then hand a copy to the store. A store call takes effect at one point, and it may fail before
or after that point. The file is neither unlinked nor renamed. -/

namespace MountRs.KeyValue

abbrev Bytes := List UInt8

structure OpenFile where
  data : Bytes
  refs : ℕ
  dirty : Bool
  orphan : Bool

structure HandleState where
  write : Bool
  append : Bool
  position : ℕ
  closed : Bool

inductive Request
  | write (handle : ℕ) (buffer : Bytes) (position : Option ℕ)
  | truncate (handle length : ℕ)
  | sync (handle : ℕ)
  | close (handle : ℕ)

inductive Phase
  | unstarted
  /-- A change of the buffer has passed the check of its handle. -/
  | checked
  /-- The handle is marked closed. -/
  | closing
  | flushing
  /-- The store has the snapshot, and it may have taken effect. -/
  | storing (snapshot : Bytes) (effective : Bool)
  /-- The result of the flush. -/
  | flushed (error : Option ErrorCode)
  | returned (error : Option ErrorCode)
deriving DecidableEq

/-- The last two fields record every content that the buffer had, and which of them it had
when a `sync` or `close` was made. -/
structure World where
  file : OpenFile
  handles : ℕ → HandleState
  /-- The entry is in the table of open files. -/
  listed : Bool
  stored : Bytes
  phases : ℕ → Phase
  history : List Bytes
  made : ℕ → ℕ

/-- A section of a call, where memory may be short, or what happens to its store call. -/
inductive Event
  | run (call : ℕ) (reserves : Bool)
  | effect (call : ℕ)
  | fail (call : ℕ) (code : ErrorCode)

def resizeBytes (data : Bytes) (length : ℕ) (reserves : Bool) : Except ErrorCode Bytes :=
  if data.length < length ∧ reserves = false then .error .efbig
  else .ok (data.take length ++ List.replicate (length - data.length) 0)

def writeData (data buffer : Bytes) (start : ℕ) (reserves : Bool) :
    Except ErrorCode (Bytes × ℕ) := do
  let stop ← Except.okOr (checkedAdd start buffer.length) .efbig
  let data ← if data.length < stop then resizeBytes data stop reserves else .ok data
  return (data.take start ++ buffer ++ data.drop stop, stop)

namespace World

/-- The handles below a number are open on a file with the given content. -/
def opened (content : Bytes) (count : ℕ) (handle : ℕ → HandleState) : World :=
  { file := { data := content, refs := count, dirty := false, orphan := false }
    handles := fun h => { handle h with closed := decide (count ≤ h) }
    listed := true, stored := content, phases := fun _ => .unstarted, history := [content]
    made := fun _ => 0 }

variable (world : World) (i : ℕ)

def setPhase (phase : Phase) : World :=
  { world with phases := Function.update world.phases i phase }

def setHandle (h : ℕ) (handle : HandleState) : World :=
  { world with handles := Function.update world.handles h handle }

/-- A `sync` or `close` is made. -/
def make : World :=
  { world with made := Function.update world.made i (world.history.length - 1) }

def change (data : Bytes) : World :=
  { world with
    file := { world.file with data, dirty := true }, history := world.history ++ [data] }

/-- `begin` for a change of the buffer. -/
def begin (i h : ℕ) : World :=
  if (world.handles h).closed ∨ (world.handles h).write = false then
    world.setPhase i (.returned (some .ebadf))
  else world.setPhase i .checked

def write (i h : ℕ) (buffer : Bytes) (position : Option ℕ) (reserves : Bool) : World :=
  let handle := world.handles h
  let start :=
    if handle.append then world.file.data.length else position.getD handle.position
  match writeData world.file.data buffer start reserves with
  | .error code => world.setPhase i (.returned (some code))
  | .ok (data, stop) =>
    let position := if handle.append ∨ position.isNone then stop else handle.position
    ((world.change data).setHandle h { handle with position }).setPhase i (.returned none)

def truncate (i length : ℕ) (reserves : Bool) : World :=
  match resizeBytes world.file.data length reserves with
  | .error code => world.setPhase i (.returned (some code))
  | .ok data => (world.change data).setPhase i (.returned none)

def close (i h : ℕ) : World :=
  let handle := world.handles h
  if handle.closed then world.setPhase i (.returned none)
  else (world.setHandle h { handle with closed := true }).setPhase i .closing

/-- The first section of `release`. -/
def release : World :=
  { world with file := { world.file with refs := world.file.refs - 1 } }.setPhase i .flushing

/-- The section of `flush`. -/
def flush : World :=
  if world.file.dirty = false ∨ world.file.orphan then world.setPhase i (.flushed none)
  else
    { world with file := { world.file with dirty := false } }.setPhase i
      (.storing world.file.data false)

def removeClosed : World :=
  let file := world.file
  { world with
    listed := world.listed && !(decide (file.refs = 0) && (!file.dirty || file.orphan)) }

def run (request : Request) (reserves : Bool) : World :=
  match world.phases i, request with
  | .unstarted, .write h _ _ | .unstarted, .truncate h _ => world.begin i h
  | .unstarted, .sync _ => (world.make i).setPhase i .flushing
  | .unstarted, .close h => (world.make i).close i h
  | .checked, .write h buffer position => world.write i h buffer position reserves
  | .checked, .truncate _ length => world.truncate i length reserves
  | .closing, _ => world.release i
  | .flushing, _ => world.flush i
  | .storing _ true, _ => world.setPhase i (.flushed none)
  | .flushed error, .close _ => world.removeClosed.setPhase i (.returned error)
  | .flushed error, _ => world.setPhase i (.returned error)
  | _, _ => world

def step (requests : ℕ → Request) (world : World) : Event → World
  | .run i reserves => world.run i (requests i) reserves
  | .effect i =>
    match world.phases i with
    | .storing snapshot false =>
      { world with stored := snapshot }.setPhase i (.storing snapshot true)
    | _ => world
  | .fail i code =>
    match world.phases i with
    | .storing _ _ =>
      { world with file := { world.file with dirty := true } }.setPhase i (.flushed (some code))
    | _ => world

def steps (requests : ℕ → Request) (world : World) (events : List Event) : World :=
  events.foldl (step requests) world

end World

end MountRs.KeyValue
