import Mathlib.Data.List.Basic
import Mathlib.Logic.Function.Basic

/-! # Cooperative tasks over a shared state

An asynchronous program is a tree of atomic steps on a shared state `σ`. The
environment answers every step with an `ω`: the outcome of a remote call, a clock
reading. A step may have to wait until the state is ready for it, and it says what
the destructors do when the task is dropped there. -/

namespace MountRs

inductive Async (σ ω ε α : Type)
  | done (result : Except ε α)
  | step (ready : σ → Bool) (act : ω → σ → σ) (next : ω → σ → Async σ ω ε α) (drop : σ → σ)
  /-- Never scheduled again: dropped, or a loop cut off where a run ends. -/
  | halted

namespace Async

variable {σ ω ε α β : Type}

/-! ## Sequencing -/

def bind : Async σ ω ε α → (α → Async σ ω ε β) → Async σ ω ε β
  | done (.ok a), f => f a
  | done (.error e), _ => done (.error e)
  | step ready act next drop, f => step ready act (fun w s => (next w s).bind f) drop
  | halted, _ => halted

instance : Monad (Async σ ω ε) where
  pure a := done (.ok a)
  bind := bind

/-- The `?` operator on the result of a synchronous call. -/
instance : MonadLift (Except ε) (Async σ ω ε) where
  monadLift result := done result

def fail (e : ε) : Async σ ω ε α := done (.error e)

/-- Hand an error to the caller as a value. -/
def attempt : Async σ ω ε α → Async σ ω ε (Except ε α)
  | done result => done (.ok result)
  | step ready act next drop => step ready act (fun w s => (next w s).attempt) drop
  | halted => halted

/-- Run a handler on an error. -/
def orElse (p : Async σ ω ε α) (handler : ε → Async σ ω ε α) : Async σ ω ε α := do
  match ← p.attempt with
  | .ok a => pure a
  | .error e => handler e

/-! ## Atomic steps -/

/-- Wait until the state is ready, then take one step. -/
def await (ready : σ → Bool) (f : ω → σ → Except ε α × σ) : Async σ ω ε α :=
  step ready (fun w s => (f w s).2) (fun w s => done (f w s).1) id

def atomic (f : ω → σ → Except ε α × σ) : Async σ ω ε α := await (fun _ => true) f

/-- Run a program only under a condition. -/
def when (c : Bool) (p : Async σ ω ε Unit) : Async σ ω ε Unit := if c then p else pure ()

/-- Let other tasks run. -/
def yield : Async σ ω ε Unit := atomic fun _ s => (.ok (), s)

/-- A step between two awaits. Dropped before it, the task has still taken it and is
dropped at the next await. -/
def commit (f : σ → α × σ) (dropped : α → σ → σ) : Async σ ω ε α :=
  step (fun _ => true) (fun _ s => (f s).2) (fun _ s => done (.ok (f s).1))
    (fun s => dropped (f s).1 (f s).2)

/-! ## Destructors -/

/-- While the program runs, dropping it also runs a destructor. The destructors of
the inner scopes run first. -/
def onDrop (cleanup : σ → σ) : Async σ ω ε α → Async σ ω ε α
  | done result => done result
  | step ready act next drop =>
    step ready act (fun w s => (next w s).onDrop cleanup) (fun s => cleanup (drop s))
  | halted => halted

/-- Hold a lock while the program runs. -/
def withLock (free : σ → Bool) (lock unlock : σ → σ) (p : Async σ ω ε α) : Async σ ω ε α := do
  await free fun _ s => (.ok (), lock s)
  let result ← onDrop unlock do
    let result ← p.attempt
    atomic fun _ s => (.ok result, unlock s)
  match result with
  | .ok a => pure a
  | .error e => fail e

/-! ## Parts of a state -/

variable {σ' ω' : Type}

/-- A program on a part of the state. -/
def zoom (get : σ' → σ) (put : σ → σ' → σ') (answer : ω' → ω) :
    Async σ ω ε α → Async σ' ω' ε α
  | done result => done result
  | step ready act next drop =>
    step (fun s => ready (get s)) (fun w s => put (act (answer w) (get s)) s)
      (fun w s => (next (answer w) (get s)).zoom get put answer) (fun s => put (drop (get s)) s)
  | halted => halted

variable {get : σ' → σ} {put : σ → σ' → σ'} {answer : ω' → ω} {p : Async σ ω ε α}

theorem zoom_bind {f : α → Async σ ω ε β} : (p >>= f).zoom get put answer =
      p.zoom get put answer >>= fun a => (f a).zoom get put answer := by
  change (p.bind f).zoom get put answer =
    (p.zoom get put answer).bind fun a => (f a).zoom get put answer
  induction p with
  | done result => cases result <;> rfl
  | step _ _ _ _ ih => simp only [bind, zoom, ih]
  | halted => rfl

theorem zoom_atomic {f : ω → σ → Except ε α × σ} (hput : ∀ s, put (get s) s = s) :
    (atomic f).zoom get put answer = atomic fun w s =>
      ((f (answer w) (get s)).1, put (f (answer w) (get s)).2 s) := by
  simp only [atomic, await, zoom, id, hput]
  rfl

theorem zoom_attempt : p.attempt.zoom get put answer = (p.zoom get put answer).attempt := by
  induction p with
  | done => rfl
  | step _ _ _ _ ih => simp only [attempt, zoom, ih]
  | halted => rfl

end Async

/-! ## Pools of tasks -/

/-- What serves requests of type `κ`: the program of a request, which may use the
number of its task, and the disturbances `η` that the environment may cause. -/
structure Service (σ ω ε α κ η : Type) where
  program : ℕ → κ → Async σ ω ε α
  /-- What the arrival of a request changes. -/
  arrive : ℕ → κ → σ → σ
  disturb : η → σ → σ

inductive Event (ω κ η : Type)
  | spawn (request : κ)
  | run (task : ℕ) (answer : ω)
  | cancel (task : ℕ)
  | disturb (disturbance : η)

namespace Event

variable {ω κ η : Type}

def isCancel : Event ω κ η → Bool
  | cancel _ => true
  | _ => false

end Event

structure Pool (σ ω ε α : Type) where
  shared : σ
  tasks : List (Async σ ω ε α)

namespace Pool

variable {σ ω ε α κ η : Type}

def runTask (pool : Pool σ ω ε α) (task : ℕ) (answer : ω) : Pool σ ω ε α :=
  match pool.tasks[task]? with
  | some (.step ready act next _) =>
    if ready pool.shared then
      { shared := act answer pool.shared
        tasks := pool.tasks.set task (next answer pool.shared) }
    else pool
  | _ => pool

def cancelTask (pool : Pool σ ω ε α) (task : ℕ) : Pool σ ω ε α :=
  match pool.tasks[task]? with
  | some (.step _ _ _ drop) =>
    { shared := drop pool.shared, tasks := pool.tasks.set task .halted }
  | _ => pool

def next (service : Service σ ω ε α κ η) (pool : Pool σ ω ε α) : Event ω κ η → Pool σ ω ε α
  | .spawn request =>
    { shared := service.arrive pool.tasks.length request pool.shared
      tasks := pool.tasks ++ [service.program pool.tasks.length request] }
  | .run task answer => pool.runTask task answer
  | .cancel task => pool.cancelTask task
  | .disturb disturbance => { pool with shared := service.disturb disturbance pool.shared }

def run (service : Service σ ω ε α κ η) (pool : Pool σ ω ε α) (schedule : List (Event ω κ η)) :
    Pool σ ω ε α :=
  schedule.foldl (next service) pool

def answer (pool : Pool σ ω ε α) (task : ℕ) : Option (Except ε α) :=
  match pool.tasks[task]? with
  | some (.done result) => some result
  | _ => none

end Pool

end MountRs
