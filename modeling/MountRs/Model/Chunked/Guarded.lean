import MountRs.Model.Chunked.Calls

/-! # Guarded mutations

`guarded_mutation`: requests that name what their caller has seen before. The guards are
checked on the same snapshot that the mutation is applied to. -/

namespace MountRs.Chunked

open Except (failIf okOr)

/-! ## Guards -/

structure PathIdentity where
  dev : ℕ
  ino : InodeId
deriving DecidableEq

structure PathGuard where
  path : String
  identity : PathIdentity
deriving DecidableEq

inductive ObservedEntry
  | any
  | absent
  | identity (identity : PathIdentity)
deriving DecidableEq

def staleGuard (path syscall : String) : FsError :=
  (errorWithPath .estale syscall path).withMessage
    "opaque handle no longer names its original inode"

def checkPathGuard (ns : Namespace) (guard : PathGuard) (syscall : String) : Result InodeId := do
  let path := normalizePath guard.path
  failIf (guard.identity.ino = 0) (staleGuard path syscall)
  let inode ← (resolve ns path false syscall).mapError fun _ => staleGuard path syscall
  let node ← okOr (ns.nodes.get? inode) (staleGuard path syscall)
  failIf (node.stats.dev ≠ guard.identity.dev ∨ node.stats.ino ≠ guard.identity.ino)
    (staleGuard path syscall)
  return inode

def guardedChildPath (parent : PathGuard) (name syscall : String) : Result String := do
  failIf (name = "" ∨ '/' ∈ name.toList ∨ Char.ofNat 0 ∈ name.toList ∨ name = "." ∨
    name = "..") (errorWithPath .einval syscall name)
  return normalizePath (parent.path ++ "/" ++ name)

def checkObservedEntry (ns : Namespace) (inode : Option InodeId) (observed : ObservedEntry)
    (path syscall : String) : Result Unit :=
  match observed with
  | .any => return ()
  | .absent => failIf inode.isSome (staleGuard path syscall)
  | .identity identity => do
    failIf (identity.ino = 0) (staleGuard path syscall)
    let node ← okOr (inode.bind ns.nodes.get?) (staleGuard path syscall)
    failIf (node.stats.dev ≠ identity.dev ∨ node.stats.ino ≠ identity.ino)
      (staleGuard path syscall)

def guardedChildEntry (ns : Namespace) (parent : PathGuard) (name : String)
    (observed : ObservedEntry) (syscall : String) : Result Entry := do
  let parentInode ← checkPathGuard ns parent syscall
  let parentNode ← okOr (ns.nodes.get? parentInode) (staleGuard parent.path syscall)
  failIf (parentNode.data.isDirectory = false) (staleGuard parent.path syscall)
  let path ← guardedChildPath parent name syscall
  let entry ← walk ns path false syscall
  failIf (entry.parent ≠ parentInode) (staleGuard parent.path syscall)
  checkObservedEntry ns entry.node observed path syscall
  return entry

/-! ## Mutations -/

structure GuardedSetattr where
  mode : Option UInt32
  uid : Option UInt32
  gid : Option UInt32
  size : Option ℕ
  atimeMs : Option ℤ
  mtimeMs : Option ℤ
  expectedCtimeMs : Option ℤ
deriving DecidableEq

inductive GuardedMutation
  | setattr (target : PathGuard) (change : GuardedSetattr)
  | openChild (parent : PathGuard) (name : String) (observed : ObservedEntry) (flags : OpenFlags)
      (mode : UInt32)
  | mkdir (parent : PathGuard) (name : String) (mode : UInt32)
  | symlink (parent : PathGuard) (name target : String)
  | mknod (parent : PathGuard) (name : String) (mode : UInt32) (dev : ℕ)
  | unlink (parent : PathGuard) (name : String) (entry : ObservedEntry)
  | rmdir (parent : PathGuard) (name : String) (entry : ObservedEntry)
  | rename (fromParent : PathGuard) (fromName : String) (source : ObservedEntry)
      (toParent : PathGuard) (toName : String) (destination : ObservedEntry)
  | link (source : PathGuard) (toParent : PathGuard) (toName : String)
      (destination : ObservedEntry)
deriving DecidableEq

/-- A returned handle is known by its inode. -/
inductive GuardedMutationResult
  | applied
  | created (identity : PathIdentity)
  | opened (handle : InodeId) (identity : PathIdentity)
deriving DecidableEq

def U32_MAX : UInt32 := 0xffffffff

/-- The owner and the permissions that a change asks for, and whether it asks for any. -/
def setOwner (stats : Stats) (change : GuardedSetattr) : Stats × Bool :=
  let uid := change.uid.filter (· ≠ U32_MAX)
  let gid := change.gid.filter (· ≠ U32_MAX)
  ({ stats with
      mode := change.mode.elim stats.mode fun mode => (stats.mode &&& S_IFMT) ||| (mode &&& 0o7777)
      uid := uid.getD stats.uid, gid := gid.getD stats.gid },
    change.mode.isSome || uid.isSome || gid.isSome)

/-- The part of a change that is about the size of a file. -/
def setSize (node : NodeMetadata) (length : ℕ) (path : String) (concurrent : Bool) (now : ℤ) :
    Result NodeMetadata :=
  match node.data with
  | .file layout => do
    let layout ← truncateLayout layout node.stats.size length
    replaceContents node layout length concurrent now
  | .directory _ => .error (errorWithPath .eisdir "setattr" path)
  | .special => .error (errorWithPath .einval "setattr" path)
  | .symlink _ => .error (errorWithPath .eio "setattr" path)

def setattrNode (node : NodeMetadata) (change : GuardedSetattr) (path : String)
    (concurrent : Bool) (now : ℤ) : Result NodeMetadata := do
  failIf (change.expectedCtimeMs.any fun expected => decide (node.stats.ctimeMs ≠ expected))
    ((errorWithPath .eagain "setattr" path).withMessage
      "change time guard does not match the current inode")
  let (stats, ownerChanged) := setOwner node.stats change
  let node ← match change.size with
    | some length => setSize { node with stats } length path concurrent now
    | none => .ok { node with stats }
  let stats := { node.stats with
    atimeMs := change.atimeMs.getD node.stats.atimeMs
    mtimeMs := change.mtimeMs.getD node.stats.mtimeMs }
  let changed := ownerChanged || change.atimeMs.isSome || change.mtimeMs.isSome
  let stats ← if changed && change.size.isNone then touchChangedAt stats now concurrent
    else .ok stats
  return { node with stats }

section Apply

variable (ctx : MutationContext) (clock : Clock)

def applyGuardedSetattr (target : PathGuard) (change : GuardedSetattr) : Mutation Unit := do
  let ns ← getNamespace
  let inode ← ofResult (checkPathGuard ns target "setattr")
  let node ← ofResult (okOr (ns.nodes.get? inode) (staleGuard target.path "setattr"))
  let node ← ofResult (setattrNode node change target.path ctx.concurrent (clock 0))
  setNamespace (setNode ns inode node)

/-- What a new node of a type holds; directories and links are not made this way. -/
def mknodData (kind : UInt32) (chunker : ChunkerConfig) : Option NodeData :=
  if kind = S_IFBLK ∨ kind = S_IFCHR ∨ kind = S_IFIFO ∨ kind = S_IFSOCK then some .special
  else if kind = S_IFDIR ∨ kind = S_IFLNK then none
  else some (.file { chunker, extents := [] })

def applyMknodMutation (path : String) (mode : UInt32) (dev : ℕ) : Mutation InodeId := do
  let normalized := normalizePath path
  let ns ← getNamespace
  let entry ← ofResult (walk ns normalized false "mknod")
  ofResult (failIf entry.node.isSome (errorWithPath .eexist "mknod" entry.path))
  let kind := mode &&& S_IFMT
  let data ← ofResult (okOr (mknodData kind ns.defaultChunker)
    (errorWithPath .eperm "mknod" entry.path))
  -- A mode without a known type makes a regular file.
  let bits := if data = .special then kind else S_IFREG
  let rdev := if kind = S_IFBLK ∨ kind = S_IFCHR then dev else 0
  let inode ← createNode "mknod" normalized fun ns inode =>
    { stats := { baseStats inode (bits ||| (mode &&& ~~~S_IFMT &&& ~~~ns.umask &&& 0o7777))
        ns.defaultUid ns.defaultGid 1 0 0 (clock 0) with rdev }
      data }
  ctx.addEntry entry.parent entry.name inode "mknod" entry.path (clock 1)
  return inode

/-- Check what is known about a child, and give its path. -/
def guardChild (parent : PathGuard) (name : String) (observed : ObservedEntry) (syscall : String) :
    Mutation String := do
  let _ ← ofResult (guardedChildEntry (← getNamespace) parent name observed syscall)
  ofResult (guardedChildPath parent name syscall)

def createdInode (inode : InodeId) : GuardedMutationResult := .created { dev := 0, ino := inode }

/-- The edit of a request that does not open a file. -/
def GuardedMutation.edit : GuardedMutation → Mutation GuardedMutationResult
  | setattr target change => do
    applyGuardedSetattr ctx clock target change
    return .applied
  | openChild _ _ _ _ _ => return .applied
  | mkdir parent name mode => do
    let path ← guardChild parent name .any "mkdir"
    return createdInode (← applyMkdirMutation ctx clock path mode)
  | symlink parent name target => do
    let path ← guardChild parent name .any "symlink"
    return createdInode (← applySymlinkMutation ctx clock target path)
  | mknod parent name mode dev => do
    let path ← guardChild parent name .any "mknod"
    return createdInode (← applyMknodMutation ctx clock path mode dev)
  | unlink parent name entry => do
    let path ← guardChild parent name entry "unlink"
    applyUnlinkMutation ctx clock path
    return .applied
  | rmdir parent name entry => do
    let path ← guardChild parent name entry "rmdir"
    applyRmdirMutation ctx clock path
    return .applied
  | rename fromParent fromName source toParent toName destination => do
    let oldPath ← guardChild fromParent fromName source "rename"
    let newPath ← guardChild toParent toName destination "rename"
    applyRenameMutation ctx clock oldPath newPath
    return .applied
  | link source toParent toName destination => do
    let _ ← ofResult (checkPathGuard (← getNamespace) source "link")
    let newPath ← guardChild toParent toName destination "link"
    applyLinkMutation ctx clock source.path newPath
    return .applied

end Apply

/-- The names of a request are checked before anything else. -/
def GuardedMutation.checkNames : GuardedMutation → Result Unit
  | setattr _ _ => return ()
  | openChild parent name _ _ _ => do let _ ← guardedChildPath parent name "open"
  | mkdir parent name _ => do let _ ← guardedChildPath parent name "mkdir"
  | symlink parent name _ => do let _ ← guardedChildPath parent name "symlink"
  | mknod parent name _ _ => do let _ ← guardedChildPath parent name "mknod"
  | unlink parent name _ => do let _ ← guardedChildPath parent name "unlink"
  | rmdir parent name _ => do let _ ← guardedChildPath parent name "rmdir"
  | rename fromParent fromName _ toParent toName _ => do
    let _ ← guardedChildPath fromParent fromName "rename"
    let _ ← guardedChildPath toParent toName "rename"
  | link _ toParent toName _ => do let _ ← guardedChildPath toParent toName "link"

/-! ## Opening -/

def checkOpenGuard (ns : Namespace) (normalized : String) (entry : Entry) (parent : PathGuard)
    (name : String) (observed : ObservedEntry) (flags : OpenFlags) : Result Unit := do
  let original ← guardedChildEntry ns parent name observed "open"
  failIf (original.path ≠ normalized ∨ entry.parent ≠ original.parent)
    (staleGuard parent.path "open")
  failIf ((original.node.bind ns.nodes.get?).any fun node =>
      match node.data with
      | .symlink _ => true
      | _ => false)
    (errorWithPath .eexist "open" normalized)
  failIf (entry.node ≠ original.node) (staleGuard normalized "open")
  let known := match observed with
    | .identity _ => true
    | _ => false
  failIf (flags.truncate = true ∧ flags.exclusive = false ∧ original.node.isSome ∧
    known = false) (staleGuard normalized "open")

def guardedOpenNamespace (ns : Namespace) (normalized : String) (parent : PathGuard)
    (name : String) (observed : ObservedEntry) (flags : OpenFlags) (mode : UInt32)
    (concurrent : Bool) (clock : Clock) : Result OpenedFile := do
  let entry ← walk ns normalized (!(flags.create && flags.exclusive)) "open"
  checkOpenGuard ns normalized entry parent name observed flags
  openNamespace ns normalized flags mode concurrent clock

namespace Caller

variable (self : Caller)

/-- The loop of `open_flags_inner` with a guard. -/
def guardedOpenAttempts (normalized : String) (parent : PathGuard) (name : String)
    (observed : ObservedEntry) (flags : OpenFlags) (mode : UInt32) : ℕ → Call InodeId
  | 0 => Async.fail (((FsError.new .eagain).withSyscall "open").withMessage
      "another writer repeatedly changed the namespace")
  | remaining + 1 => do
    self.ensureOperationLease
    let (ns, revision) ← self.snapshot
    let clock ← readClock
    let opened ← guardedOpenNamespace ns normalized parent name observed flags mode
      self.options.concurrentWrites clock
    if opened.existed ∧ flags.truncate = false then do
      self.allocateFd opened.inode
      return opened.inode
    else do
      match ← (self.publishOpened ns revision opened normalized).attempt with
      | .ok () => do
        self.allocateFd opened.inode
        return opened.inode
      | .error e =>
        if self.retries e remaining then do
          Async.yield
          guardedOpenAttempts normalized parent name observed flags mode remaining
        else Async.fail e

def guardedOpen (parent : PathGuard) (name : String) (observed : ObservedEntry)
    (flags : OpenFlags) (mode : UInt32) : Call InodeId := do
  let path ← guardedChildPath parent name "open"
  if (flags.read = false ∧ flags.write = false) ∨ (flags.truncate = true ∧ flags.write = false) then
    Async.fail (errorWithPath .einval "open" path)
  else
    self.withGate (self.guardedOpenAttempts (normalizePath path) parent name observed flags mode
      self.attempts)

def guardedMutation (request : GuardedMutation) : Call GuardedMutationResult :=
  match request with
  | .openChild parent name observed flags mode => do
    let inode ← self.guardedOpen parent name observed flags mode
    return .opened inode { dev := 0, ino := inode }
  | request => do
    request.checkNames
    self.mutate fun ctx clock => request.edit ctx clock

end Caller

/-! ## Requests to several coordinators -/

structure GuardedRequest where
  fs : ℕ
  mutation : GuardedMutation

/-- What does not change in a run. -/
structure GuardedSetup where
  requests : ℕ → GuardedRequest
  options : ℕ → ChunkedOptions
  publishIncludesFlushBarrier : Bool

namespace GuardedSetup

variable (setup : GuardedSetup)

def home (task : ℕ) : ℕ := (setup.requests task).fs

def caller (task : ℕ) : Caller :=
  { fs := setup.home task, task, options := setup.options (setup.home task)
    publishIncludesFlushBarrier := setup.publishIncludesFlushBarrier }

/-- What everybody else may do between two steps of the guarded requests. -/
inductive Disturbance
  /-- Some operation, here or elsewhere, publishes a namespace. -/
  | commit (author : ℕ) (ns : Namespace)
  /-- Another operation of a coordinator takes over a namespace that was published. -/
  | install (fs index : ℕ)
  /-- A read of an exclusive writer notes its time. -/
  | read (fs : ℕ) (inode : InodeId) (atimeMs : ℤ)
  /-- Handles are opened and closed. -/
  | handles (fs : ℕ) (openRefs : BTreeMap InodeId ℕ) (orphans : BTreeMap InodeId NodeMetadata)
  /-- The writer lease expires or changes hands. -/
  | lease (lease : Option WriterLease) (fence : ℕ)
  | shutdown (fs : ℕ)

def disturb : Disturbance → World → World
  | .commit author ns, world =>
    { world with store := { world.store with revision := world.store.revision + 1, ns } }.record
      (.structural { author, stages := [], prior := world.store.ns, ns
                     revision := world.store.revision + 1 })
  | .install fs index, world =>
    match world.ledger.log[index]? with
    | some (.structural commit) =>
      world.setState fs (Caller.installNewer commit.ns commit.revision (world.fs fs).state)
    | _ => world
  | .read fs inode atimeMs, world =>
    if (setup.options fs).concurrentWrites then world
    else world.setState fs { (world.fs fs).state with
      pendingAtime := (world.fs fs).state.pendingAtime.insert inode atimeMs }
  | .handles fs openRefs orphans, world =>
    world.setState fs { (world.fs fs).state with openRefs, orphans }
  | .lease lease fence, world => { world with store := { world.store with lease, fence } }
  | .shutdown fs, world => world.setState fs { (world.fs fs).state with closed := true }

/-- Requests arrive in order. -/
def service : Service World Answer FsError GuardedMutationResult Unit Disturbance where
  program task _ := (setup.caller task).guardedMutation (setup.requests task).mutation
  arrive _ _ world := world
  disturb := setup.disturb

/-- Every coordinator has loaded the namespace that the run starts with. -/
def start (store : Store) (leases : ℕ → Option WriterLease) :
    Pool World Answer FsError GuardedMutationResult :=
  { shared :=
      { store, content := fun _ => []
        fs := fun fs => { absentCoordinator store with
          state := Caller.initialState store.ns store.revision store.inodeRevisions
          lease := leases fs }
        ledger := { log := [], unsettled := [], pending := fun _ => [] } }
    tasks := [] }

end GuardedSetup

end MountRs.Chunked
