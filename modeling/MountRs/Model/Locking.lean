import MountRs.Library.FairLock
import Mathlib.Logic.Function.Basic

/-! # The locks of an exclusive coordinator

What the operations of one exclusive `ChunkedFs` wait for: the lifecycle lock, the
operation gate, the gate of the lease, the gates of the handles, and the replies to
batched mutations. Everything else that an operation does is a call that returns. -/

namespace MountRs.Locking

/-! ## Operations -/

inductive LockId
  | handle (number : ℕ)
  | lifecycle
  /-- The gate of the handle that a whole-file write opens for itself. -/
  | scratch (task : ℕ)
  | gate
  | leaseGate
deriving DecidableEq

/-- The parts of an operation. A call may fail, which ends what it is a part of. -/
inductive Prog
  | skip
  | call
  /-- Hand a mutation to the batch queue and wait for its reply. -/
  | submit
  | seq (p q : Prog)
  /-- One of two parts, depending on the state. -/
  | choice (p q : Prog)
  | locked (lock : LockId) (mode : LockMode) (p : Prog)
  /-- Go on whatever the outcome of the first part is, and report it at the end. -/
  | thenAlways (p q : Prog)

namespace Prog

/-- `renew_lease`; `ensure_operation_lease` and `validate_lease` of an exclusive writer
are the same for the locks. -/
def renewLease : Prog := locked .leaseGate .exclusive call

def publishNamespace : Prog := choice call (seq (choice skip renewLease) (seq renewLease call))

def gated (p : Prog) : Prog := locked .gate .exclusive p

/-- `mutate`: a local change under the gate and its publication. -/
def mutate : Prog := gated (seq renewLease (seq call (choice skip publishNamespace)))

def readAt : Prog :=
  locked .lifecycle .shared
    (seq (gated (seq renewLease call)) (seq call (gated (seq renewLease call))))

/-- `write_at`: the base, the blocks, and the commit. An empty write ends early, and
after a conflict the write is repeated under the gate. -/
def writeAt : Prog :=
  locked .lifecycle .shared
    (seq (gated (seq renewLease call)) (choice skip (seq call (seq mutate (choice skip mutate)))))

def truncateInode : Prog := mutate

/-- `close_inode_after_gate` of a handle, which may reap a detached inode. -/
def closeHandle (handle : LockId) : Prog :=
  locked handle .exclusive (gated (choice skip (seq renewLease (choice skip publishNamespace))))

def drainWriteback : Prog := choice skip publishNamespace

def flushPendingAtime : Prog := choice skip (seq renewLease publishNamespace)

def shutdown : Prog :=
  locked .lifecycle .exclusive (gated (seq (choice skip (seq drainWriteback flushPendingAtime))
      (thenAlways (choice skip renewLease) (choice skip call))))

def reconcileBlocks : Prog :=
  locked .lifecycle .exclusive (gated (seq renewLease (seq drainWriteback call)))

/-- The writes of a whole-file write through a handle of its own. -/
def rewrites (handle : LockId) : ℕ → Prog
  | 0 => skip
  | count + 1 => seq (locked handle .exclusive writeAt) (rewrites handle count)

/-- `write_file_atomic` of an exclusive writer. Without a conflict the batch has done
everything; after one the file is opened, written and closed. -/
def writeFileAtomic (task : ℕ) (fallback : Option ℕ) : Prog :=
  locked .lifecycle .shared (seq renewLease (seq call (seq submit (match fallback with
        | none => skip
        | some count => seq mutate
            (thenAlways (rewrites (.scratch task) count) (closeHandle (.scratch task)))))))

/-- `apply_mutation_batch`, up to its gate and its replies. -/
def applyMutationBatch : Prog := seq renewLease (seq call (choice skip publishNamespace))

end Prog

/-- What a caller asks for. A whole-file write says whether its batch reports a
conflict, and with how many writes it then stores its data. -/
inductive Op
  | writeFile (fallback : Option ℕ)
  | read (handle : ℕ)
  | write (handle : ℕ)
  | truncate
  | truncateHandle (handle : ℕ)
  | close (handle : ℕ)
  | shutdown
  | reconcileBlocks
deriving DecidableEq

def Op.prog (task : ℕ) : Op → Prog
  | writeFile fallback => Prog.writeFileAtomic task fallback
  | read handle => .locked (.handle handle) .exclusive Prog.readAt
  | write handle => .locked (.handle handle) .exclusive Prog.writeAt
  | truncate => Prog.mutate
  | truncateHandle handle => .locked (.handle handle) .exclusive Prog.truncateInode
  | close handle => Prog.closeHandle (.handle handle)
  | shutdown => Prog.shutdown
  | reconcileBlocks => Prog.reconcileBlocks

/-- A whole-file write that stores its data through a handle takes the lifecycle lock
while it holds it. -/
def Op.reenters : Op → Bool
  | writeFile (some (_ + 1)) => true
  | _ => false

/-! ## Paths -/

inductive Action
  | acquire (lock : LockId) (mode : LockMode)
  | release (lock : LockId)
  | call
  | submit
  /-- Take the requests of the batch queue, or stop running batches. -/
  | collect
  /-- Reply to the requests of a batch. -/
  | applied (batch : List ℕ)
  | awaitReply
deriving DecidableEq

/-- The actions of one execution, and whether it succeeds. -/
inductive Path : Prog → Bool → List Action → Prop
  | skip : Path .skip true []
  | call (ok : Bool) : Path .call ok [.call]
  | submit (ok : Bool) : Path .submit ok [.submit]
  | stop {p q : Prog} {first : List Action} (h : Path p false first) : Path (.seq p q) false first
  | seq {p q : Prog} {ok : Bool} {first second : List Action} (h : Path p true first)
      (h' : Path q ok second) : Path (.seq p q) ok (first ++ second)
  | left {p q : Prog} {ok : Bool} {script : List Action} (h : Path p ok script) :
      Path (.choice p q) ok script
  | right {p q : Prog} {ok : Bool} {script : List Action} (h : Path q ok script) :
      Path (.choice p q) ok script
  | locked {p : Prog} {ok : Bool} {lock : LockId} {mode : LockMode} {inner : List Action}
      (h : Path p ok inner) :
      Path (.locked lock mode p) ok (.acquire lock mode :: inner ++ [.release lock])
  | thenAlways {p q : Prog} {ok ok' : Bool} {first second : List Action} (h : Path p ok first)
      (h' : Path q ok' second) : Path (.thenAlways p q) (ok && ok') (first ++ second)

/-- What the environment chooses: the path of every operation, in the order in which
they start, and the path of every batch. -/
structure Choices where
  script : ℕ → List Action
  batch : ℕ → List Action

structure Choices.Follow (choices : Choices) (ops : ℕ → Op) : Prop where
  script : ∀ i, ∃ ok, Path ((ops i).prog i) ok (choices.script i)
  batch : ∀ n, ∃ ok, Path Prog.applyMutationBatch ok (choices.batch n)

/-! ## Tasks -/

/-- What a task still has to do, the locks that it holds with the newest first, and
whether it has requested the lock that it acquires next. -/
structure Task where
  todo : List Action
  held : List LockId
  queued : Bool
deriving DecidableEq

structure State where
  task : ℕ → Task
  spawned : ℕ
  lock : LockId → FairLock
  /-- The batch queue: the requests and whether a task runs batches. -/
  pending : List ℕ
  running : Bool
  /-- The number of batches so far. -/
  batches : ℕ
  /-- The tasks that have their reply. -/
  replied : List ℕ

def idle : Task := { todo := [], held := [], queued := false }

def State.start : State :=
  { task := fun _ => idle, spawned := 0, lock := fun _ => FairLock.free, pending := []
    running := false, batches := 0, replied := [] }

/-- A batch under the gate. The outcome of its calls goes into the replies. -/
def batchScript (work : List Action) (batch : List ℕ) : List Action :=
  .acquire .gate .exclusive :: work ++ [.applied batch, .release .gate]

namespace State

variable (state : State)

def setTask (i : ℕ) (task : Task) : State :=
  { state with task := Function.update state.task i task }

def setLock (lock : LockId) (value : FairLock) : State :=
  { state with lock := Function.update state.lock lock value }

/-- One step of a task; none when it has finished or has to wait. -/
def step (choices : Choices) (i : ℕ) : Option State :=
  let task := state.task i
  match task.todo with
  | [] => none
  | .acquire lock mode :: rest =>
    if task.queued then
      if (state.lock lock).grantable i then
        some ((state.setLock lock (state.lock lock).grant).setTask i
          { todo := rest, held := lock :: task.held, queued := false })
      else none
    else some ((state.setLock lock ((state.lock lock).request i mode)).setTask i
      { task with queued := true })
  | .release lock :: rest =>
    some ((state.setLock lock ((state.lock lock).release i)).setTask i
      { task with todo := rest, held := task.held.erase lock })
  | .call :: rest => some (state.setTask i { task with todo := rest })
  | .submit :: rest =>
    -- The first to come runs the batches, also those of the others.
    if state.running then
      some ({ state with pending := state.pending ++ [i] }.setTask i
        { task with todo := .awaitReply :: rest })
    else
      some ({ state with pending := state.pending ++ [i], running := true }.setTask i
        { task with todo := .collect :: .awaitReply :: rest })
  | .collect :: rest =>
    if state.pending = [] then
      some ({ state with running := false }.setTask i { task with todo := rest })
    else
      some ({ state with pending := [], batches := state.batches + 1 }.setTask i
        { task with
          todo := batchScript (choices.batch state.batches) state.pending ++
            Action.collect :: rest })
  | .applied batch :: rest =>
    some ({ state with replied := state.replied ++ batch }.setTask i { task with todo := rest })
  | .awaitReply :: rest =>
    if i ∈ state.replied then some (state.setTask i { task with todo := rest }) else none

end State

inductive Event
  | spawn
  | run (task : ℕ)

def State.next (choices : Choices) (state : State) : Event → State
  | .spawn => { state.setTask state.spawned { idle with todo := choices.script state.spawned } with
      spawned := state.spawned + 1 }
  | .run task => (state.step choices task).getD state

def State.run (choices : Choices) (state : State) (schedule : List Event) : State :=
  schedule.foldl (State.next choices) state

/-- Some operation has not finished, and none can take a step. -/
def State.Deadlocked (choices : Choices) (state : State) : Prop :=
  (∃ i < state.spawned, (state.task i).todo ≠ []) ∧
    ∀ i < state.spawned, (state.step choices i).isNone = true

instance (choices : Choices) (state : State) : Decidable (state.Deadlocked choices) :=
  inferInstanceAs (Decidable (_ ∧ _))

end MountRs.Locking
