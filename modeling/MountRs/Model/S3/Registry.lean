import Mathlib.Data.String.Basic
import MountRs.Library.BTreeMap

/-! # The registry of conditional PUT locks

`ConditionalPutLockRegistry`. A lock has a number, and the references to it are counted. A section
of the registry's mutex and a change of a reference count are one step each. -/

namespace MountRs.S3.Registry

/-- An `Arc<Mutex<()>>`. -/
structure SharedMutex where
  strong : ℕ
  locked : Bool

/-- Where a call of `acquire`, its guard or their destructors stand. -/
inductive Phase
  | idle
  /-- The registration has the lock. -/
  | registered (key : String) (lock : ℕ)
  /-- The future of `lock_owned` has it too. -/
  | waiting (key : String) (lock : ℕ)
  /-- The future is done: the owned guard has its reference. -/
  | locked (key : String) (lock : ℕ)
  /-- The third reference is the one of the guard to be returned. -/
  | cloned (key : String) (lock : ℕ)
  /-- The registration is disarmed and gone; the guard exists. -/
  | guard (key : String) (lock : ℕ)
  /-- The owned guard has unlocked the mutex. -/
  | unlocked (key : String) (lock : ℕ)
  /-- `remove_if_unused` is next, for a guard or for a registration that was not disarmed. -/
  | dropping (key : String) (lock : ℕ)
  /-- The last reference is still to be dropped. -/
  | dropped (lock : ℕ)
deriving DecidableEq

structure World where
  locks : BTreeMap String ℕ
  mutexes : ℕ → SharedMutex
  /-- The number of the next lock that is created. -/
  next : ℕ
  tasks : List Phase

/-- The caller starts a call, lets its task go on, or drops the future that waits. -/
inductive Move
  | acquire (key : String)
  | proceed
  | cancel

namespace World

def new (tasks : ℕ) : World :=
  { locks := ∅, mutexes := fun _ => ⟨0, false⟩, next := 0, tasks := List.replicate tasks .idle }

variable (world : World) (i : ℕ)

/-- The task goes to `phase` with a change of one lock. -/
def change (phase : Phase) (lock : ℕ) (f : SharedMutex → SharedMutex) : World :=
  { world with
    mutexes := Function.update world.mutexes lock (f (world.mutexes lock))
    tasks := world.tasks.set i phase }

def clone (mutex : SharedMutex) : SharedMutex := { mutex with strong := mutex.strong + 1 }

def drop (mutex : SharedMutex) : SharedMutex := { mutex with strong := mutex.strong - 1 }

/-- `entry(key).or_insert_with(..)`. -/
def orInsert (key : String) : World × ℕ :=
  match world.locks.get? key with
  | some lock => (world, lock)
  | none =>
    ({ world with
        locks := world.locks.insert key world.next
        mutexes := Function.update world.mutexes world.next ⟨1, false⟩
        next := world.next + 1 }, world.next)

/-- The section of `acquire`. -/
def register (key : String) : World :=
  let (inserted, lock) := world.orInsert key
  inserted.change i (.registered key lock) lock clone

/-- The removal drops the reference of the registry. -/
def removeIfUnused (key : String) (lock : ℕ) : World :=
  if (world.mutexes lock).strong = 2 ∧ world.locks.get? key = some lock then
    { world with
      locks := world.locks.erase key
      mutexes := Function.update world.mutexes lock (drop (world.mutexes lock)) }
  else world

def proceed : Phase → World
  | .idle => world
  | .registered key lock => world.change i (.waiting key lock) lock clone
  | .waiting key lock =>
    if (world.mutexes lock).locked then world
    else world.change i (.locked key lock) lock fun mutex => { mutex with locked := true }
  | .locked key lock => world.change i (.cloned key lock) lock clone
  | .cloned key lock => world.change i (.guard key lock) lock drop
  | .guard key lock =>
    world.change i (.unlocked key lock) lock fun mutex => { mutex with locked := false }
  | .unlocked key lock => world.change i (.dropping key lock) lock drop
  | .dropping key lock => (world.removeIfUnused key lock).change i (.dropped lock) lock id
  | .dropped lock => world.change i .idle lock drop

def step (world : World) : ℕ × Move → World
  | (i, move) =>
    match world.tasks[i]?, move with
    | some .idle, .acquire key => world.register i key
    | some (.waiting key lock), .cancel => world.change i (.dropping key lock) lock drop
    | some phase, .proceed => world.proceed i phase
    | _, _ => world

def run (world : World) (moves : List (ℕ × Move)) : World := moves.foldl step world

end World

end MountRs.S3.Registry
