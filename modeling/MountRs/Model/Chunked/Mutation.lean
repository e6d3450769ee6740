import MountRs.Model.Path
import MountRs.Model.Storage

/-! # Namespace mutations

The synchronous edits of a namespace in `mount-rs-chunked`: path resolution,
directory entries, timestamps, and the edits that the filesystem calls publish. -/

namespace MountRs.Chunked

open Except (failIf okOr)

def BLOCK_SIZE : ℕ := 4096

def MAX_SYMLINK_DEPTH : ℕ := 40

def I64_MAX : ℤ := 2 ^ 63 - 1

def errorWithPath (code : ErrorCode) (syscall path : String) : FsError :=
  ((FsError.new code).withSyscall syscall).withPath path

def withContext (error : FsError) (syscall : String) (path : Option String) : FsError :=
  let result := (FsError.new error.code).withSyscall syscall
  let result := match path with
    | some path => result.withPath path
    | none => result
  result.withMessage error.display

/-! ## Timestamps

`now_ms` is read afresh at every use, so an edit takes the sequence of readings. -/

abbrev Clock := ℕ → ℤ

def Clock.after (clock : Clock) (readings : ℕ) : Clock := fun n => clock (n + readings)

def nextConcurrentTime (prior now : ℤ) (overflowMessage : String) : Result ℤ := do
  failIf (prior = I64_MAX) ((FsError.new .eoverflow).withMessage overflowMessage)
  return max now (prior + 1)

def touchChangedAt (stats : Stats) (now : ℤ) (concurrent : Bool) : Result Stats :=
  if concurrent then do
    let ctimeMs ← nextConcurrentTime stats.ctimeMs now "file change time overflow"
    return { stats with ctimeMs }
  else return { stats with ctimeMs := now }

def touchModifiedAt (stats : Stats) (now : ℤ) (concurrent : Bool) : Result Stats :=
  if concurrent then do
    let mtimeMs ← nextConcurrentTime stats.mtimeMs now "file modification time overflow"
    let ctimeMs ← nextConcurrentTime stats.ctimeMs now "file change time overflow"
    return { stats with mtimeMs, ctimeMs }
  else return { stats with mtimeMs := now, ctimeMs := now }

def setFileSize (stats : Stats) (size : ℕ) : Stats :=
  { stats with size, blocks := (size + 511) / 512 }

/-! ## New nodes -/

def baseStats (inode : InodeId) (mode uid gid : UInt32) (nlink size blocks : ℕ)
    (timestamp : ℤ) : Stats :=
  { dev := 0, ino := inode, mode, nlink, uid, gid, rdev := 0, size, blksize := BLOCK_SIZE, blocks
    atimeMs := timestamp, mtimeMs := timestamp, ctimeMs := timestamp, birthtimeMs := timestamp }

def newFileNode (inode : InodeId) (mode uid gid : UInt32) (chunker : ChunkerConfig)
    (timestamp : ℤ) : NodeMetadata :=
  { stats := baseStats inode mode uid gid 1 0 0 timestamp
    data := .file { chunker, extents := [] } }

def newDirectoryNode (inode : InodeId) (mode uid gid : UInt32) (timestamp : ℤ) : NodeMetadata :=
  { stats := baseStats inode mode uid gid 2 BLOCK_SIZE ((BLOCK_SIZE + 511) / 512) timestamp
    data := .directory [] }

/-! ## Path resolution -/

structure Entry where
  parent : InodeId
  name : String
  node : Option InodeId
  path : String
deriving DecidableEq

/-- The path that a symbolic link rewrites the remaining walk to. -/
def rewriteLink (seen rest : List String) (target : String) : String :=
  let parentPath := if seen = [] then "/" else "/" ++ joinSlash seen
  let rewritten := if target.toList.head? = some '/' then target else parentPath ++ "/" ++ target
  if rest = [] then rewritten else rewritten ++ "/" ++ joinSlash rest

/-- The component loop of `walk`: `seen` are the components before `current`, and
`follow` is the walk of a rewritten path. -/
def walkSegments (ns : Namespace) (followFinal : Bool) (syscall normalized : String)
    (follow : String → Result Entry) (current : InodeId) (seen : List String) :
    List String → Result Entry
  | [] => .error (errorWithPath .estale syscall normalized)
  | name :: rest => do
    let node ← okOr (ns.nodes.get? current) (errorWithPath .estale syscall normalized)
    match node.data with
    | .directory entries =>
      match entries.find? (fun entry => entry.name == name) with
      | none =>
        if rest = [] then
          return { parent := current, name, node := none, path := normalized }
        else .error (errorWithPath .enoent syscall normalized)
      | some entry => do
        let child ← okOr (ns.nodes.get? entry.inode)
          (errorWithPath .estale syscall normalized)
        match child.data, rest with
        | .symlink target, [] =>
          if followFinal then do
            failIf (target = "") (errorWithPath .enoent syscall normalized)
            follow (rewriteLink seen [] target)
          else
            return { parent := current, name, node := some entry.inode, path := normalized }
        | .symlink target, rest => do
          failIf (target = "") (errorWithPath .enoent syscall normalized)
          follow (rewriteLink seen rest target)
        | _, [] =>
          return { parent := current, name, node := some entry.inode, path := normalized }
        | _, rest =>
          walkSegments ns followFinal syscall normalized follow entry.inode (seen ++ [name]) rest
    | _ => .error (errorWithPath .enotdir syscall normalized)

/-- `walk` with the number of rewrites that are still allowed. -/
def walkDepth (ns : Namespace) (followFinal : Bool) (syscall : String) : ℕ → String → Result Entry
  | 0, path => .error (errorWithPath .eloop syscall (normalizePath path))
  | depth + 1, path =>
    let normalized := normalizePath path
    if normalized = "/" then
      .ok { parent := ns.root, name := "", node := some ns.root, path := normalized }
    else
      walkSegments ns followFinal syscall normalized (walkDepth ns followFinal syscall depth)
        ns.root [] (splitPath normalized)

variable (ns : Namespace)

def walk (path : String) (followFinal : Bool) (syscall : String) : Result Entry :=
  walkDepth ns followFinal syscall (MAX_SYMLINK_DEPTH + 1) path

def resolve (path : String) (followFinal : Bool) (syscall : String) : Result InodeId := do
  let entry ← walk ns path followFinal syscall
  okOr entry.node (errorWithPath .enoent syscall entry.path)

/-! ## Directory entries -/

def setNode (inode : InodeId) (node : NodeMetadata) : Namespace :=
  { ns with nodes := ns.nodes.insert inode node }

def removeNode (inode : InodeId) : Namespace :=
  { ns with nodes := ns.nodes.erase inode }

def isDirectory (inode : InodeId) : Bool :=
  (ns.nodes.get? inode).any fun node => node.data.isDirectory

/-- The link count of a directory that gains or loses an entry. -/
def parentLinks (childIsDirectory : Bool) (changed : Option ℕ) (unchanged : ℕ) (error : FsError) :
    Result ℕ :=
  if childIsDirectory then okOr changed error else .ok unchanged

def addEntry (parent : InodeId) (name : String) (inode : InodeId)
    (syscall path : String) (concurrent : Bool) (now : ℤ) : Result Namespace := do
  let parentNode ← okOr (ns.nodes.get? parent) (errorWithPath .estale syscall path)
  match parentNode.data with
  | .directory entries => do
    failIf (entries.any fun entry => entry.name == name) (errorWithPath .eexist syscall path)
    let nlink ← parentLinks (isDirectory ns inode) (checkedAdd parentNode.stats.nlink 1)
      parentNode.stats.nlink (errorWithPath .emlink syscall path)
    let stats ← touchModifiedAt { parentNode.stats with nlink } now concurrent
    return setNode ns parent { stats, data := .directory (entries ++ [⟨name, inode⟩]) }
  | _ => .error (errorWithPath .enotdir syscall path)

/-- Remove the entry of a name and return its inode; `clock` is read once for the
parent and once for the inode that lost a link. -/
def detachEntry (parent : InodeId) (name : String) (decrementLink : Bool)
    (syscall path : String) (concurrent : Bool) (clock : Clock) : Result (Namespace × InodeId) := do
  let parentNode ← okOr (ns.nodes.get? parent) (errorWithPath .estale syscall path)
  match parentNode.data with
  | .directory entries => do
    let entry ← okOr (entries.find? fun entry => entry.name == name)
      (errorWithPath .enoent syscall path)
    let nlink ← parentLinks (isDirectory ns entry.inode) (checkedSub parentNode.stats.nlink 1)
      parentNode.stats.nlink (errorWithPath .eio syscall path)
    let stats ← touchModifiedAt { parentNode.stats with nlink } (clock 0) concurrent
    let kept := entries.eraseP fun entry => entry.name == name
    let ns := setNode ns parent { stats, data := .directory kept }
    match ns.nodes.get? entry.inode with
    | some node =>
      if decrementLink ∧ node.data.isDirectory = false then do
        let nlink ← okOr (checkedSub node.stats.nlink 1) (errorWithPath .eio syscall path)
        let stats ← touchChangedAt { node.stats with nlink } (clock 1) concurrent
        return (setNode ns entry.inode { node with stats }, entry.inode)
      else return (ns, entry.inode)
    | none => return (ns, entry.inode)
  | _ => .error (errorWithPath .enotdir syscall path)

/-! ## Edits of a draft -/

/-- The namespace being edited, and the private copies of unlinked nodes that
handles of this process keep. An edit that fails leaves what it did to the copies. -/
structure Draft where
  ns : Namespace
  orphans : BTreeMap InodeId NodeMetadata

abbrev Mutation := EStateM FsError Draft

/-- What an edit reads of the process that makes it. -/
structure MutationContext where
  concurrent : Bool
  openRefs : BTreeMap InodeId ℕ

def getNamespace : Mutation Namespace := do return (← get).ns

def setNamespace : Mutation Unit := modify fun draft => { draft with ns }

def ofResult {α : Type} : Result α → Mutation α
  | .ok a => pure a
  | .error e => throw e

def MutationContext.addEntry (ctx : MutationContext) (parent : InodeId) (name : String)
    (inode : InodeId) (syscall path : String) (now : ℤ) : Mutation Unit := do
  setNamespace (← ofResult
    (Chunked.addEntry (← getNamespace) parent name inode syscall path ctx.concurrent now))

def MutationContext.detachEntry (ctx : MutationContext) (parent : InodeId) (name : String)
    (decrementLink : Bool) (syscall path : String) (clock : Clock) : Mutation Unit := do
  let (ns, _) ← ofResult (Chunked.detachEntry (← getNamespace) parent name decrementLink syscall
    path ctx.concurrent clock)
  setNamespace ns

/-- `allocate_inode`, and the insertion of the node that takes the number. -/
def createNode (syscall path : String) (node : Namespace → InodeId → NodeMetadata) :
    Mutation InodeId := do
  let ns ← getNamespace
  let nextInode ← ofResult (okOr (checkedAdd ns.nextInode 1)
    (errorWithPath .eoverflow syscall path))
  setNamespace (setNode { ns with nextInode } ns.nextInode (node ns ns.nextInode))
  return ns.nextInode

/-- Change the stats of a node that is there. -/
def touchNode (inode : InodeId) (touch : Stats → Result Stats) : Mutation Unit := do
  let ns ← getNamespace
  match ns.nodes.get? inode with
  | some node => do
    let stats ← ofResult (touch node.stats)
    setNamespace (setNode ns inode { node with stats })
  | none => return ()

/-- Remove a detached inode from the next published namespace. Concurrent writers
keep an unlinked file as a tombstone; an exclusive one keeps it for its handles. -/
def MutationContext.reapDetached (ctx : MutationContext) (inode : InodeId) : Mutation Unit := do
  let ns ← getNamespace
  if ctx.concurrent then
    if (ns.nodes.get? inode).any fun node => !node.data.isDirectory then return ()
    else setNamespace (removeNode ns inode)
  else match ns.nodes.get? inode with
    | none => return ()
    | some node =>
      if node.data.isDirectory ∨ node.stats.nlink = 0 then do
        setNamespace (removeNode ns inode)
        if ctx.openRefs.contains inode then
          modify fun draft => { draft with orphans := draft.orphans.insert inode node }
      else return ()

/-! ## The edits of the filesystem calls -/

section Apply

variable (ctx : MutationContext) (clock : Clock)

def applyMkdirMutation (path : String) (mode : UInt32) : Mutation InodeId := do
  let normalized := normalizePath path
  let entry ← ofResult (walk (← getNamespace) normalized false "mkdir")
  ofResult (failIf entry.node.isSome (errorWithPath .eexist "mkdir" entry.path))
  let inode ← createNode "mkdir" normalized fun ns inode =>
    newDirectoryNode inode (S_IFDIR ||| (mode &&& ~~~ns.umask &&& 0o7777)) ns.defaultUid
      ns.defaultGid (clock 0)
  ctx.addEntry entry.parent entry.name inode "mkdir" entry.path (clock 1)
  return inode

def applyRmdirMutation (path : String) : Mutation Unit := do
  let ns ← getNamespace
  let entry ← ofResult (walk ns (normalizePath path) false "rmdir")
  let inode ← ofResult (okOr entry.node (errorWithPath .enoent "rmdir" entry.path))
  ofResult (failIf (inode = ns.root) (errorWithPath .ebusy "rmdir" entry.path))
  let node ← ofResult (okOr (ns.nodes.get? inode) (errorWithPath .estale "rmdir" entry.path))
  match node.data with
  | .directory entries => do
    ofResult (failIf (entries ≠ []) (errorWithPath .enotempty "rmdir" entry.path))
    ctx.detachEntry entry.parent entry.name true "rmdir" entry.path clock
    ctx.reapDetached inode
  | _ => throw (errorWithPath .enotdir "rmdir" entry.path)

def applyUnlinkMutation (path : String) : Mutation Unit := do
  let ns ← getNamespace
  let entry ← ofResult (walk ns path false "unlink")
  let inode ← ofResult (okOr entry.node (errorWithPath .enoent "unlink" entry.path))
  let node ← ofResult (okOr (ns.nodes.get? inode)
    (errorWithPath .estale "unlink" entry.path))
  ofResult (failIf node.data.isDirectory (errorWithPath .eisdir "unlink" entry.path))
  ctx.detachEntry entry.parent entry.name true "unlink" entry.path clock
  ctx.reapDetached inode

/-- Whether a rename may replace its destination. -/
def checkDestination (sourceIsDir : Bool) (destination : InodeId)
    (oldPath newPath : String) : Result Unit :=
  if sourceIsDir then do
    failIf (isDirectory ns destination = false)
      ((errorWithPath .enotdir "rename" oldPath).withDest newPath)
    failIf (ns.entriesAt destination ≠ [])
      ((errorWithPath .enotempty "rename" oldPath).withDest newPath)
  else failIf (isDirectory ns destination)
    ((errorWithPath .eisdir "rename" oldPath).withDest newPath)

/-- Give up the destination of a rename, if it has one. -/
def replaceDestination (sourceIsDir : Bool) (target : Entry) (oldPath newPath : String) :
    Mutation Unit := do
  match target.node with
  | none => return ()
  | some destination => do
    ofResult (checkDestination (← getNamespace) sourceIsDir destination oldPath newPath)
    ctx.detachEntry target.parent target.name true "rename" target.path clock
    ctx.reapDetached destination

def applyRenameMutation (oldPath newPath : String) : Mutation Unit := do
  let oldNormalized := normalizePath oldPath
  let newNormalized := normalizePath newPath
  let ns ← getNamespace
  let origin ← ofResult (walk ns oldNormalized false "rename")
  let source ← ofResult (okOr origin.node
    ((errorWithPath .enoent "rename" oldNormalized).withDest newNormalized))
  ofResult (failIf (source = ns.root) (errorWithPath .einval "rename" oldNormalized))
  let target ← ofResult (walk ns newNormalized false "rename")
  if target.node = some source then return ()
  else do
    let sourceIsDir := isDirectory ns source
    ofResult (failIf (sourceIsDir ∧ isPathInside target.path origin.path)
      ((errorWithPath .einval "rename" oldNormalized).withDest newNormalized))
    replaceDestination ctx clock sourceIsDir target oldNormalized newNormalized
    ctx.detachEntry origin.parent origin.name false "rename" origin.path (clock.after 2)
    ctx.addEntry target.parent target.name source "rename" target.path (clock 4)
    touchNode source fun stats => touchChangedAt stats (clock 5) ctx.concurrent

def applyLinkMutation (existingPath targetPath : String) : Mutation Unit := do
  let newPath := normalizePath targetPath
  let ns ← getNamespace
  let origin ← ofResult (walk ns (normalizePath existingPath) false "link")
  let inode ← ofResult (okOr origin.node
    ((errorWithPath .enoent "link" origin.path).withDest newPath))
  ofResult (failIf (isDirectory ns inode)
    ((errorWithPath .eperm "link" origin.path).withDest newPath))
  let target ← ofResult (walk ns newPath false "link")
  ofResult (failIf target.node.isSome (errorWithPath .eexist "link" target.path))
  touchNode inode fun stats => do
    let nlink ← okOr (checkedAdd stats.nlink 1) (errorWithPath .emlink "link" origin.path)
    touchChangedAt { stats with nlink } (clock 0) ctx.concurrent
  ctx.addEntry target.parent target.name inode "link" target.path (clock 1)

def applySymlinkMutation (target path : String) : Mutation InodeId := do
  let normalized := normalizePath path
  ofResult (failIf (target = "")
    ((errorWithPath .enoent "symlink" target).withDest normalized))
  let entry ← ofResult (walk (← getNamespace) normalized false "symlink")
  ofResult (failIf entry.node.isSome (errorWithPath .eexist "symlink" entry.path))
  let size := target.utf8ByteSize
  let inode ← createNode "symlink" normalized fun ns inode =>
    { stats := baseStats inode (S_IFLNK ||| 0o777) ns.defaultUid ns.defaultGid 1 size
        ((size + 511) / 512) (clock 0)
      data := .symlink target }
  ctx.addEntry entry.parent entry.name inode "symlink" entry.path (clock 1)
  return inode

end Apply

end MountRs.Chunked
