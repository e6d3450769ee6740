import MountRs.Model.Chunked.Operations

/-! # Publications of single inodes, and opening

MRC4 publishes the contents of a file under the version of its inode, and everything
else under the versions of all of them. -/

namespace MountRs.Chunked

open Except (failIf okOr)

/-! ## Selected inodes -/

namespace RuntimeState

def versionOf (state : RuntimeState) (inode : InodeId) : Option InodeVersion :=
  (state.inodeRevisions.get? inode).map fun inodeRevision =>
    { structuralGeneration := state.persistedRevision, inodeRevision }

end RuntimeState

namespace Caller

variable (self : Caller)

/-- Cache a node with its version. A new version counts as a local change, and an
acknowledged publication always does. -/
def installInode (inode : InodeId) (version : InodeVersion) (node : NodeMetadata)
    (acknowledged : Bool) : Call Unit :=
  Async.atomic fun _ world =>
    let state := (world.fs self.fs).state
    let changed := acknowledged ∨ state.inodeRevisions.get? inode ≠ some version.inodeRevision
    match if changed then checkedAdd state.revision 1 else some state.revision with
    | none => (.error (FsError.new .eoverflow), world)
    | some revision =>
      let installed := world.setState self.fs
        { state with
          revision
          inodeRevisions := state.inodeRevisions.insert inode version.inodeRevision
          selectedInodes := state.selectedInodes.insert inode node }
      (.ok (), if state.persistedRevision = version.structuralGeneration then installed
        else installed.record (.crossed self.fs inode))

/-- Publish one node; the error of a lost race is the result. -/
def publishNodeOnce (inode : InodeId) (expected : InodeVersion) (base node : NodeMetadata) :
    Call (Option FsError) := do
  self.checkRuntime
  verifyConcurrentBacking.orElse self.failClosed
  self.armed do
    match ← (publishInodeIfVersion self inode expected base node).attempt with
    | .error e => if e.code = .eagain then return .ok (some e) else self.failClosed e
    | .ok version => do
      self.flushPublication [self.task] id
      self.checkRuntime
      self.installInode inode version node true
      return .ok none

def publishSelectedNode (inode : InodeId) (expected : InodeVersion) (base node : NodeMetadata) :
    Call Unit := do
  match ← self.publishNodeOnce inode expected base node with
  | none => return ()
  | some e => Async.fail e

end Caller

/-! ## Opened files -/

structure OpenFlags where
  read : Bool
  write : Bool
  create : Bool
  truncate : Bool
  append : Bool
  exclusive : Bool
deriving DecidableEq

/-- What `open` makes of a namespace: the inode, whether it existed, and the result. -/
structure OpenedFile where
  inode : InodeId
  existed : Bool
  result : Namespace

/-- Clear an existing file that is opened for truncation. -/
def truncateOpened (node : NodeMetadata) (concurrent : Bool) (now : ℤ) : Result NodeMetadata := do
  let data := match node.data with
    | .file layout => .file { layout with extents := [] }
    | data => data
  return { stats := ← touchModifiedAt (setFileSize node.stats 0) now concurrent, data }

def openNamespace (ns : Namespace) (normalized : String) (flags : OpenFlags) (mode : UInt32)
    (concurrent : Bool) (clock : Clock) : Result OpenedFile := do
  let entry ← walk ns normalized (!(flags.create && flags.exclusive)) "open"
  match entry.node with
  | some inode => do
    failIf (flags.exclusive = true) (errorWithPath .eexist "open" entry.path)
    let node ← okOr (ns.nodes.get? inode) (errorWithPath .estale "open" entry.path)
    let kind := node.stats.mode &&& S_IFMT
    failIf (kind = S_IFDIR ∧ flags.write = true) (errorWithPath .eisdir "open" entry.path)
    failIf (kind = S_IFBLK ∨ kind = S_IFCHR ∨ kind = S_IFIFO ∨ kind = S_IFSOCK)
      (errorWithPath .enxio "open" entry.path)
    if flags.truncate then do
      let node ← truncateOpened node concurrent (clock 0)
      return { inode, existed := true, result := setNode ns inode node }
    else return { inode, existed := true, result := ns }
  | none => do
    failIf (flags.create = false) (errorWithPath .enoent "open" entry.path)
    let parent ← okOr (ns.nodes.get? entry.parent) (errorWithPath .estale "open" entry.path)
    failIf (parent.data.isDirectory = false) (errorWithPath .enotdir "open" entry.path)
    let result ← createFile ns entry ns.nextInode mode entry.path concurrent clock
    return { inode := ns.nextInode, existed := false, result }

namespace RuntimeState

/-- `allocate_fd`, of which only the reference count matters here. -/
def allocateFd (inode : InodeId) (state : RuntimeState) : Result Unit × RuntimeState :=
  match state.usable with
  | .error e => (.error e, state)
  | .ok () =>
    match checkedAdd ((state.openRefs.get? inode).getD 0) 1 with
    | none => (.error ((FsError.new .emfile).withMessage "open reference overflow"), state)
    | some count => (.ok (), { state with openRefs := state.openRefs.insert inode count })

end RuntimeState

namespace Caller

variable (self : Caller)

/-! ## Handles -/

def allocateFd (inode : InodeId) : Call Unit := self.locked (RuntimeState.allocateFd inode)

/-- The version under which an existing file may be truncated, while the snapshot is
still current. -/
def truncateVersion (inode : InodeId) (revision : ℕ) : Call (Option InodeVersion) :=
  self.read fun fs =>
    if fs.state.revision ≠ revision then .ok none
    else (okOr (fs.state.versionOf inode) (FsError.new .eio)).map some

/-- Publish what `open` changed. -/
def publishOpened (ns : Namespace) (revision : ℕ) (opened : OpenedFile) (path : String) :
    Call Unit :=
  if self.options.inodeUpdates ∧ opened.existed then do
    match ← self.truncateVersion opened.inode revision with
    | none => Async.fail (FsError.new .eagain)
    | some expected => do
      let base ← okOr (ns.nodes.get? opened.inode) (errorWithPath .estale "open" path)
      let node ← okOr (opened.result.nodes.get? opened.inode)
        (errorWithPath .estale "open" path)
      blocksFlush
      self.publishSelectedNode opened.inode expected base node
  else do
    let _ ← self.publishNamespace revision
      { carried := [self.task], base := ns, result := opened.result } false

/-! ## Opening -/

def initialState (ns : Namespace) (revision : ℕ) (inodeRevisions : BTreeMap InodeId ℕ) :
    RuntimeState :=
  { ns, inodeRevisions, selectedInodes := ∅, revision, persistedRevision := revision
    pendingNamespace := false, openRefs := ∅, pendingAtime := ∅, orphans := ∅, failure := none
    closed := false }

end Caller

/-- A filesystem that nobody has opened. -/
def absentCoordinator (store : Store) : Coordinator :=
  { state := { Caller.initialState store.ns store.revision store.inodeRevisions with closed := true }
    lease := none, leaseRenewed := false, gate := none, leaseGate := none }

end MountRs.Chunked
