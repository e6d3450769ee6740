import MountRs.Library.Async
import MountRs.Model.Chunked.Mutation

/-! # The writer lease of a coordinator

Renewal and recovery of the lease, over the calls of a metadata store. -/

namespace MountRs.Chunked

def LEASE_RENEWAL_MARGIN_MS : ℕ := 5000

def closedError : FsError := (FsError.new .ebadf).withMessage "filesystem is closed"

def releasedError : FsError := (FsError.new .ebadf).withMessage "writer lease released"

/-- The check of a coordinator that has acquired its lease again. -/
def checkPersisted (failure : Option FsError) (closed : Bool) (revision : ℕ) : Result ℕ :=
  match failure with
  | some error => .error error
  | none => if closed then
      .error (((FsError.new .ebadf).withSyscall "lease-acquire").withMessage "filesystem is closed")
    else .ok revision

inductive ReacquiredFence
  | next
  | fenced
  | overflow
deriving DecidableEq

def classifyReacquiredFence (prior acquired : ℕ) : ReacquiredFence :=
  match checkedAdd prior 1 with
  | none => .overflow
  | some next => if acquired = next then .next else .fenced

/-- What a coordinator does with its lease: the calls of the store and the sections of its
own state. -/
structure LeaseCalls (σ ω : Type) where
  owner : String
  /-- The cached lease. -/
  cached : Async σ ω FsError WriterLease
  /-- Unless a renewal is forced: the lease was renewed before, and does not expire within the
  margin. -/
  fresh : Bool → WriterLease → Async σ ω FsError Bool
  acquire : Async σ ω FsError WriterLease
  renew : WriterLease → Async σ ω FsError WriterLease
  release : WriterLease → Async σ ω FsError Unit
  load : Async σ ω FsError LoadedMetadata
  /-- The revision that a usable coordinator has persisted. -/
  persisted : Async σ ω FsError ℕ
  /-- Keep a renewed lease for the next operations. -/
  install : WriterLease → Async σ ω FsError WriterLease
  /-- Keep a lease that was acquired again. -/
  resume : WriterLease → Async σ ω FsError WriterLease
  failClosed : {α : Type} → FsError → Async σ ω FsError α

namespace LeaseCalls

variable {σ ω : Type} (calls : LeaseCalls σ ω)

/-- Give an acquired lease back; the outcome is ignored. -/
def giveUp {α : Type} (acquired : WriterLease) (error : FsError) : Async σ ω FsError α := do
  let _ ← (calls.release acquired).attempt
  calls.failClosed error

/-- Recover only an expired lease that no other writer has fenced past. -/
def reacquireExpiredLease (current : WriterLease) : Async σ ω FsError WriterLease := do
  let acquired ← calls.acquire.orElse fun e =>
    calls.failClosed (if e.code = .eagain then
        ((FsError.new .estale).withSyscall "lease-acquire").withMessage e.display
      else withContext e "lease-acquire" none)
  let decision := classifyReacquiredFence current.fence acquired.fence
  if decision = .overflow then
    calls.giveUp acquired (((FsError.new .eoverflow).withSyscall "lease-acquire").withMessage
      "writer lease fence overflow")
  else if decision ≠ .next ∨ acquired.owner ≠ calls.owner then
    calls.giveUp acquired (((FsError.new .estale).withSyscall "lease-acquire").withMessage
      "writer lease was fenced by another owner")
  else do
    let loaded ← calls.load.orElse fun e =>
      calls.giveUp acquired (withContext e "metadata-load" none)
    match loaded.validate with
    | .error e => calls.giveUp acquired (withContext e "metadata-validate" none)
    | .ok () => do
      let localRevision ← calls.persisted.orElse fun e => calls.giveUp acquired e
      if loaded.revision ≠ localRevision then
        calls.giveUp acquired (((FsError.new .eagain).withSyscall "lease-acquire").withMessage
          "metadata changed while the writer lease was expired")
      else calls.resume acquired

def renewLeaseInner (force : Bool) : Async σ ω FsError WriterLease := do
  let current ← calls.cached
  let fresh ← calls.fresh force current
  if fresh then return current
  else do
    match ← (calls.renew current).attempt with
    | .ok renewed => calls.install renewed
    | .error e =>
      if e.code = .estale then calls.reacquireExpiredLease current
      else calls.failClosed (withContext e "lease-renew" none)

end LeaseCalls

end MountRs.Chunked
