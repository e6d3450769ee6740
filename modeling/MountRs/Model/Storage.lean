import MountRs.Library.Worklist
import MountRs.Model.Error
import Mathlib.Data.String.Basic

/-! # Namespaces and their structural validation

The metadata records of `src/storage.rs` and `src/chunking.rs`, and
`Namespace::validate` with the checks it is made of. -/

namespace MountRs

open Except (failIf okOr)

abbrev InodeId := ℕ

/-! ## File types -/

def S_IFMT : UInt32 := 0o170000
def S_IFREG : UInt32 := 0o100000
def S_IFDIR : UInt32 := 0o040000
def S_IFLNK : UInt32 := 0o120000
def S_IFBLK : UInt32 := 0o060000
def S_IFCHR : UInt32 := 0o020000
def S_IFIFO : UInt32 := 0o010000
def S_IFSOCK : UInt32 := 0o140000

structure Stats where
  dev : ℕ
  ino : ℕ
  mode : UInt32
  nlink : ℕ
  uid : UInt32
  gid : UInt32
  rdev : ℕ
  size : ℕ
  blksize : ℕ
  blocks : ℕ
  atimeMs : ℤ
  mtimeMs : ℤ
  ctimeMs : ℤ
  birthtimeMs : ℤ
deriving DecidableEq

/-! ## Chunker configurations -/

structure ChunkerConfig where
  algorithm : String
  version : ℕ
  parameters : BTreeMap String ℕ
deriving DecidableEq

/-- The one supported algorithm; its chunk size is never zero. -/
structure FixedSizeChunker where
  size : ℕ
  pos : 0 < size

namespace FixedSizeChunker

def new (size : ℕ) : Result FixedSizeChunker :=
  if h : 0 < size then .ok ⟨size, h⟩
  else .error ((FsError.new .einval).withMessage "chunk size must be positive")

def config (chunker : FixedSizeChunker) : ChunkerConfig :=
  { algorithm := "fixed-size", version := 1,
    parameters := BTreeMap.ofList [("chunk_size", chunker.size)] }

end FixedSizeChunker

/-- Restore a supported algorithm, rejecting unknown versions and parameters. -/
def fromConfig (config : ChunkerConfig) : Result FixedSizeChunker := do
  failIf (config.algorithm ≠ "fixed-size" ∨ config.version ≠ 1)
    ((FsError.new .enotsup).withMessage "unsupported chunker algorithm/version")
  failIf (config.parameters.size ≠ 1)
    ((FsError.new .einval).withMessage "invalid fixed-size parameters")
  let size ← okOr ((config.parameters.get? "chunk_size").filter (· ≤ U64_MAX))
    ((FsError.new .einval).withMessage "invalid chunk_size")
  FixedSizeChunker.new size

/-! ## Nodes and namespaces -/

abbrev BlockId := String

structure BlockExtent where
  fileOffset : ℕ
  block : BlockId
  blockOffset : ℕ
  length : ℕ
deriving DecidableEq

structure FileLayout where
  chunker : ChunkerConfig
  extents : List BlockExtent
deriving DecidableEq

structure DirectoryEntry where
  name : String
  inode : InodeId
deriving DecidableEq

inductive NodeData
  | directory (entries : List DirectoryEntry)
  | file (layout : FileLayout)
  | symlink (target : String)
  | special
deriving DecidableEq

namespace NodeData

def isDirectory : NodeData → Bool
  | directory _ => true
  | _ => false

def entries : NodeData → List DirectoryEntry
  | directory entries => entries
  | _ => []

end NodeData

structure NodeMetadata where
  stats : Stats
  data : NodeData
deriving DecidableEq

structure Namespace where
  formatVersion : ℕ
  root : InodeId
  nextInode : InodeId
  defaultUid : UInt32
  defaultGid : UInt32
  umask : UInt32
  defaultChunker : ChunkerConfig
  nodes : BTreeMap InodeId NodeMetadata
deriving DecidableEq

def NAMESPACE_FORMAT_VERSION : ℕ := 1

def invalidNamespace (message : String) : FsError := (FsError.new .einval).withMessage message

def overflowNamespace (message : String) : FsError := (FsError.new .eoverflow).withMessage message

/-! ## Checks on one node -/

def validateFormatVersion (version : ℕ) : Result Unit := do
  failIf (NAMESPACE_FORMAT_VERSION < version)
    ((FsError.new .enotsup).withMessage "namespace format version is newer than this core")
  failIf (version ≠ NAMESPACE_FORMAT_VERSION)
    (invalidNamespace "unsupported namespace format version")

/-- One iteration of `validate_file_extents`; the state is `previous_end`. -/
def validateFileExtent (fileSize : ℕ) (previousEnd : Option ℕ) (extent : BlockExtent) :
    Result (Option ℕ) := do
  failIf (extent.length = 0) (invalidNamespace "file extents must be nonempty")
  failIf (extent.block = "") (invalidNamespace "file extents must name a block")
  let fileEnd ← okOr (checkedAdd extent.fileOffset extent.length)
    (overflowNamespace "file extent offset overflows")
  let _ ← okOr (checkedAdd extent.blockOffset extent.length)
    (overflowNamespace "block extent offset overflows")
  failIf (fileSize < fileEnd) (invalidNamespace "file extent exceeds file size")
  failIf (previousEnd.any fun stop => decide (extent.fileOffset < stop))
    (invalidNamespace "file extents must be sorted and non-overlapping")
  return some fileEnd

def validateFileExtents (extents : List BlockExtent) (fileSize : ℕ) : Result Unit := do
  let _ ← extents.foldlM (validateFileExtent fileSize) none

def validateFileLayout (layout : FileLayout) (fileSize : ℕ) : Result Unit := do
  let _ ← fromConfig layout.chunker
  validateFileExtents layout.extents fileSize

def validateNodeKind (node : NodeMetadata) : Result Unit := do
  let modeType := node.stats.mode &&& S_IFMT
  let valid ← match node.data with
    | .directory _ => pure (decide (modeType = S_IFDIR))
    | .file layout =>
      if modeType = S_IFREG then do
        validateFileLayout layout node.stats.size
        pure true
      else pure false
    | .symlink _ => pure (decide (modeType = S_IFLNK))
    | .special =>
      pure (decide (modeType = S_IFBLK ∨ modeType = S_IFCHR ∨ modeType = S_IFIFO ∨
        modeType = S_IFSOCK))
  failIf (valid = false) (invalidNamespace "node metadata kind does not match stats.mode")

def validateEntryName (name : String) : Result Unit :=
  failIf (name = "" ∨ name = "." ∨ name = ".." ∨ '/' ∈ name.toList ∨ '\x00' ∈ name.toList)
    (invalidNamespace "invalid directory entry name")

/-! ## Link counts -/

def incrementCount (counts : BTreeMap InodeId ℕ) (inode : InodeId) (what : String) :
    Result (BTreeMap InodeId ℕ) := do
  let count ← okOr (checkedAdd ((counts.get? inode).getD 0) 1) (overflowNamespace what)
  return counts.insert inode count

structure LinkCounts where
  references : BTreeMap InodeId ℕ
  directoryReferences : BTreeMap InodeId ℕ
  directoryChildren : BTreeMap InodeId ℕ

/-- The state of the scan of one directory. -/
structure EntryScan where
  names : BTreeSet String
  childDirectories : ℕ
  counts : LinkCounts

variable (ns : Namespace)

def scanEntry (scan : EntryScan) (entry : DirectoryEntry) : Result EntryScan := do
  validateEntryName entry.name
  failIf (entry.name ∈ scan.names) (invalidNamespace "directory entry names must be unique")
  let child ← okOr (ns.nodes.get? entry.inode)
    (invalidNamespace "directory entry references a missing inode")
  let references ← incrementCount scan.counts.references entry.inode "inode reference count"
  let scan := { scan with
    names := scan.names.add entry.name
    counts := { scan.counts with references } }
  if child.data.isDirectory then
    let childDirectories ← okOr (checkedAdd scan.childDirectories 1)
      (overflowNamespace "directory child count overflow")
    let directoryReferences ← incrementCount scan.counts.directoryReferences entry.inode
      "directory parent count"
    return { scan with childDirectories, counts := { scan.counts with directoryReferences } }
  else return scan

def scanNode (counts : LinkCounts) (binding : InodeId × NodeMetadata) : Result LinkCounts :=
  match binding.2.data with
  | .directory entries => do
    let scan ← entries.foldlM (scanEntry ns) ⟨∅, 0, counts⟩
    return { scan.counts with
      directoryChildren := scan.counts.directoryChildren.insert binding.1 scan.childDirectories }
  | _ => pure counts

def validateDirectoryLinkCounts (isRoot : Bool) (parentCount childCount nlink : ℕ) :
    Result Unit := do
  if isRoot then
    failIf (parentCount ≠ 0) (invalidNamespace "root directory cannot be linked as a child")
  else
    failIf (parentCount ≠ 1)
      (invalidNamespace "non-root directories must have exactly one parent")
  let expectedNlink ← okOr (checkedAdd 2 childCount)
    (overflowNamespace "directory nlink overflows")
  failIf (nlink ≠ expectedNlink) (invalidNamespace "directory nlink is inconsistent")

/-- The entries of a directory that name directories, as the traversal pushes them. -/
def childDirectories (node : NodeMetadata) : List InodeId :=
  (node.data.entries.map DirectoryEntry.inode).filter fun inode =>
    (ns.nodes.get? inode).any fun child => child.data.isDirectory

/-- The traversal of `validate_directory_links`. A pop fails or visits a node for
the first time, so one pop more than there are nodes is enough fuel. -/
def visitDirectories (ns : Namespace) : ℕ → List InodeId → BTreeSet InodeId →
    Result (BTreeSet InodeId)
  | 0, _, visited => .ok visited
  | _ + 1, [], visited => .ok visited
  | fuel + 1, inode :: pending, visited => do
    failIf (inode ∈ visited)
      (invalidNamespace "directory graph contains a cycle or hard-linked directory")
    let node ← okOr (ns.nodes.get? inode)
      (invalidNamespace "directory traversal reached missing inode")
    visitDirectories ns fuel ((childDirectories ns node).reverse ++ pending) (visited.add inode)

def validateDirectoryLinks (directoryReferences directoryChildren : BTreeMap InodeId ℕ) : Result Unit := do
  forM ns.nodes.entries fun binding =>
    if binding.2.data.isDirectory then
      validateDirectoryLinkCounts (decide (binding.1 = ns.root))
        ((directoryReferences.get? binding.1).getD 0)
        ((directoryChildren.get? binding.1).getD 0) binding.2.stats.nlink
    else pure ()
  let visited ← visitDirectories ns (ns.nodes.size + 1) [ns.root] ∅
  failIf (visited.size ≠ (ns.nodes.values.filter fun node => node.data.isDirectory).length)
    (invalidNamespace "directory is unreachable from root")

def validateNodeLinks (references : BTreeMap InodeId ℕ) : Result Unit :=
  forM ns.nodes.entries fun binding =>
    if binding.2.data.isDirectory then pure ()
    else
      let referenceCount := (references.get? binding.1).getD 0
      if referenceCount = 0 then
        failIf (binding.2.stats.nlink ≠ 0)
          (invalidNamespace "unlinked orphan must have zero nlink")
      else
        failIf (binding.2.stats.nlink ≠ referenceCount)
          (invalidNamespace "file nlink is inconsistent")

def validateNodeIdentity (binding : InodeId × NodeMetadata) : Result Unit := do
  failIf (binding.1 = 0) (invalidNamespace "inode keys must be nonzero")
  failIf (binding.2.stats.ino ≠ binding.1)
    (invalidNamespace "inode key and stats.ino disagree")
  validateNodeKind binding.2

/-! ## The whole namespace -/

namespace Namespace

def validate : Result Unit := do
  validateFormatVersion ns.formatVersion
  let _ ← fromConfig ns.defaultChunker
  let maxInode ← okOr ns.nodes.keys.getLast?
    (invalidNamespace "namespace must contain a root node")
  failIf (maxInode = U64_MAX)
    (overflowNamespace "namespace cannot allocate an inode after u64::MAX")
  failIf (ns.nextInode ≤ maxInode)
    (invalidNamespace "next_inode must be greater than every inode")
  failIf (ns.root = 0) (invalidNamespace "root inode must be nonzero")
  let root ← okOr (ns.nodes.get? ns.root) (invalidNamespace "root inode is missing")
  failIf (root.stats.mode &&& S_IFMT ≠ S_IFDIR)
    (invalidNamespace "root inode must be a directory")
  forM ns.nodes.entries validateNodeIdentity
  let counts ← ns.nodes.entries.foldlM (scanNode ns) ⟨∅, ∅, ∅⟩
  validateDirectoryLinks ns counts.directoryReferences counts.directoryChildren
  validateNodeLinks ns counts.references

/-- The entries found at an inode. A missing inode has none: the source indexes
the node map there, after a validation that found every entry's inode. -/
def entriesAt (inode : InodeId) : List DirectoryEntry :=
  ((ns.nodes.get? inode).map fun node => node.data.entries).getD []

def childrenAt (inode : InodeId) : List InodeId :=
  (ns.entriesAt inode).map DirectoryEntry.inode

end Namespace

/-! ## What a metadata store hands out -/

structure LoadedMetadata where
  revision : ℕ
  ns : Option Namespace

def LoadedMetadata.validate (loaded : LoadedMetadata) : Result Unit := do
  failIf (decide (loaded.revision = 0) ≠ loaded.ns.isNone)
    (invalidNamespace "metadata revision and initialization state disagree")
  match loaded.ns with
  | some ns => ns.validate
  | none => return ()

structure WriterLease where
  owner : String
  fence : ℕ
  expiresAtMs : ℕ
deriving DecidableEq

end MountRs
