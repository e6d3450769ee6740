import MountRs.Model.Chunked.Publish

/-! # Namespace operations

Edits of files, and `mutate` with its retries. -/

namespace MountRs.Chunked

/-! ## Edits of files -/

/-- The layout of a file after it was cut or extended to a length. -/
def truncateLayout (layout : FileLayout) (size length : ℕ) : Result FileLayout := do
  if length < size then return { layout with extents := ← trimExtents layout.extents length }
  else return layout

/-- A change of a file: `truncate_inode` to a length, or `write_at` of bytes at a position. -/
inductive LayoutEdit
  | truncate (length : ℕ)
  | write (position : ℕ) (input : List UInt8)

/-- The layout and the size that the changed file is given. -/
def editLayout (path : String) (file : FileLayout × ℕ) : LayoutEdit → Call (FileLayout × ℕ)
  | .truncate length => do return (← truncateLayout file.1 file.2 length, length)
  | .write position input => do
    let stop ← Except.okOr (checkedAdd position input.length) (errorWithPath .efbig "write" path)
    if input.isEmpty then return file
    else do
      let size := max file.2 stop
      return (← rewriteLayout file.1 file.2 position input size path, size)

/-- Give a file a new layout and size. -/
def replaceContents (node : NodeMetadata) (layout : FileLayout) (size : ℕ) (concurrent : Bool)
    (now : ℤ) : Result NodeMetadata := do
  let stats ← touchModifiedAt (setFileSize node.stats size) now concurrent
  return { stats, data := .file layout }

/-- Add a regular file under an entry that has none. -/
def createFile (ns : Namespace) (entry : Entry) (inode : InodeId) (mode : UInt32)
    (overflowPath : String) (concurrent : Bool) (clock : Clock) : Result Namespace := do
  let nextInode ← Except.okOr (checkedAdd ns.nextInode 1)
    (errorWithPath .eoverflow "open" overflowPath)
  let node := newFileNode inode (S_IFREG ||| (mode &&& ~~~ns.umask &&& 0o7777)) ns.defaultUid
    ns.defaultGid ns.defaultChunker (clock 0)
  addEntry (setNode { ns with nextInode } inode node) entry.parent entry.name inode "open"
    entry.path concurrent (clock 1)

/-! ## Single mutations -/

namespace Caller

variable (self : Caller)

def attempts : ℕ := if self.options.concurrentWrites then MAX_CONCURRENT_CAS_RETRIES else 1

/-- A publication that lost its race is tried again while attempts remain. -/
def retries (e : FsError) (remaining : ℕ) : Bool :=
  self.options.concurrentWrites && decide (e.code = .eagain) && decide (0 < remaining)

/-- Run an edit. It sees the open handles and may add to the private copies of
unlinked nodes, also when it fails. -/
def runEdit {α : Type} (edit : MutationContext → Clock → Mutation α) (ns : Namespace) :
    Call (α × Namespace) :=
  Async.atomic fun answer world =>
    let state := (world.fs self.fs).state
    match (edit { concurrent := self.options.concurrentWrites, openRefs := state.openRefs }
        answer.clock).run { ns, orphans := state.orphans } with
    | .ok value draft =>
      (.ok (value, draft.ns), world.setState self.fs { state with orphans := draft.orphans })
    | .error e draft => (.error e, world.setState self.fs { state with orphans := draft.orphans })

/-- Publish, and go on with `again` if the race was lost and may be run again. -/
def publishOr {α : Type} (revision : ℕ) (stage : Stage) (blocksFlushed : Bool) (remaining : ℕ)
    (again : Call α) (value : α) : Call α := do
  match ← (self.publishNamespace revision stage blocksFlushed).attempt with
  | .ok _ => return value
  | .error e =>
    if self.retries e remaining then do
      Async.yield
      again
    else Async.fail e

def mutateAttempts {α : Type} (edit : MutationContext → Clock → Mutation α) : ℕ → Call α
  | 0 => Async.fail (((FsError.new .eagain).withSyscall "publish concurrent metadata").withMessage
      "another writer repeatedly changed the namespace")
  | remaining + 1 => do
    self.ensureOperationLease
    let (ns, revision) ← self.snapshot
    let (value, result) ← self.runEdit edit ns
    self.publishOr revision { carried := [self.task], base := ns, result } false remaining
      (mutateAttempts edit remaining) value

def mutate {α : Type} (edit : MutationContext → Clock → Mutation α) : Call α :=
  self.withGate (self.mutateAttempts edit self.attempts)

end Caller

end MountRs.Chunked
