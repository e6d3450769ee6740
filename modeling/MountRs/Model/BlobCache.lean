import MountRs.Model.Storage
import Mathlib.Data.List.Sort

/-! # The memory of the local blob cache

A blob that comes to memory displaces the blobs there that were used least recently. -/

namespace MountRs.BlobCache

structure LocalCacheConfig where
  memoryBytes : ℕ
  maxEntries : ℕ
  maxBlobBytes : ℕ

structure Entry where
  bytes : Option (List UInt8)
  size : ℕ
  disk : Bool
  tick : ℕ
  generation : ℕ

structure State (κ : Type) [LinearOrder κ] where
  entries : BTreeMap κ Entry
  memory : ℕ
  disk : ℕ
  tick : ℕ
  generation : ℕ
  /-- How many files could not be deleted. -/
  quarantined : ℕ

def error : FsError := (FsError.new .eio).withSyscall "blob cache"

namespace State

variable {κ : Type} [LinearOrder κ] (config : LocalCacheConfig) (state : State κ)

/-- The candidates of a loop that drops the one with the least tick, in the order in which it
comes to them: a turn leaves the other candidates as they are. -/
def byTick (candidate : Entry → Bool) : List (κ × Entry) :=
  (state.entries.entries.filter fun e => candidate e.2).insertionSort fun a b => a.2.tick ≤ b.2.tick

def evictWhile (full : State κ → Bool) (drop : State κ → κ × Entry → State κ) :
    List (κ × Entry) → State κ → State κ
  | [], state => state
  | old :: rest, state => if full state then evictWhile full drop rest (drop state old) else state

def dropBytes (state : State κ) (old : κ × Entry) : State κ :=
  { state with
    memory := state.memory - old.2.size
    entries := if old.2.disk then state.entries.insert old.1 { old.2 with bytes := none }
      else state.entries.erase old.1 }

def removeIndex (state : State κ) (old : κ × Entry) : State κ :=
  { state with
    entries := state.entries.erase old.1
    memory := if old.2.bytes.isSome then state.memory - old.2.size else state.memory
    disk := if old.2.disk then state.disk - (old.2.size + 32) else state.disk }

def admitShared (key : κ) (bytes : List UInt8) : State κ :=
  if config.memoryBytes < bytes.length then state
  else
    let state := evictWhile (fun state => config.memoryBytes - state.memory < bytes.length)
      dropBytes (state.byTick fun entry => entry.bytes.isSome) state
    match state.entries.get? key with
    | some entry =>
      if entry.bytes = none then
        { state with
          memory := state.memory + bytes.length
          entries := state.entries.insert key { entry with bytes := some bytes } }
      else state
    | none => state

def full : Bool := config.maxEntries ≤ state.entries.size + state.quarantined

def makeRoom : State κ :=
  evictWhile (full config) removeIndex (state.byTick fun entry => !entry.disk) state

/-- `verified` is the answer of the integrity policy for the blob. -/
def insertMemoryShared (key : κ) (bytes : List UInt8) (verified : Result Unit) :
    Result Unit × State κ :=
  if config.maxBlobBytes < bytes.length then (.error error, state)
  else match verified with
    | .error e => (.error e, state)
    | .ok () =>
      if config.memoryBytes < bytes.length then (.ok (), state)
      else match state.entries.get? key with
        | some entry =>
          if entry.size ≠ bytes.length then (.error error, state)
          else if entry.bytes.any (· ≠ bytes) then (.error error, state)
          else (.ok (), state.admitShared config key bytes)
        | none =>
          let state := state.makeRoom config
          if state.full config then (.ok (), state)
          else if state.generation + 1 = 2 ^ 64 then (.error error, state)
          else
            let generation := state.generation + 1
            let tick := (state.tick + 1) % 2 ^ 64
            let entry := { bytes := none, size := bytes.length, disk := false, tick, generation }
            let state := { state with
              generation, tick, entries := state.entries.insert key entry }
            (.ok (), state.admitShared config key bytes)

def getMemorySharedHashed (key : κ) : Option (List UInt8) × State κ :=
  let state := { state with tick := (state.tick + 1) % 2 ^ 64 }
  match state.entries.get? key with
  | none => (none, state)
  | some entry =>
    (entry.bytes,
      { state with entries := state.entries.insert key { entry with tick := state.tick } })

end State

end MountRs.BlobCache
