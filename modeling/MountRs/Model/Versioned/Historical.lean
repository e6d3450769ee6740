import MountRs.Model.Chunked.Layout
import MountRs.Model.Versioned.View

/-! # Reading a version -/

namespace MountRs.Versioned

open Except

/-- The component loop of `resolve_namespace`: `seen` are the components before `current`, and
`follow` resolves a rewritten path. -/
def resolveSegments (ns : Namespace) (followFinal : Bool) (syscall normalized : String)
    (follow : String → Result InodeId) (current : InodeId) (seen : List String) :
    List String → Result InodeId
  | [] => .error (errorWithPath .enoent syscall normalized)
  | name :: rest => do
    let node ← okOr (ns.nodes.get? current) (errorWithPath .estale syscall normalized)
    match node.data with
    | .directory entries => do
      let entry ← okOr (entries.find? fun entry => entry.name == name)
        (errorWithPath .enoent syscall normalized)
      let child ← okOr (ns.nodes.get? entry.inode) (errorWithPath .estale syscall normalized)
      match child.data with
      | .symlink target =>
        if rest ≠ [] ∨ followFinal then do
          failIf (target = "") (errorWithPath .enoent syscall normalized)
          follow (Chunked.rewriteLink seen rest target)
        else return entry.inode
      | _ =>
        if rest = [] then return entry.inode
        else resolveSegments ns followFinal syscall normalized follow entry.inode (seen ++ [name]) rest
    | _ => .error (errorWithPath .enotdir syscall normalized)

/-- `resolve_namespace` with the number of rewrites that are still allowed. -/
def resolveDepth (ns : Namespace) (followFinal : Bool) (syscall : String) :
    ℕ → String → Result InodeId
  | 0, path => .error (errorWithPath .eloop syscall path)
  | depth + 1, path =>
    let normalized := normalizePath path
    if normalized = "/" then .ok ns.root
    else resolveSegments ns followFinal syscall normalized (resolveDepth ns followFinal syscall depth)
      ns.root [] (splitPath normalized)

def resolveNamespace (ns : Namespace) (path : String) (followFinal : Bool) (syscall : String) :
    Result InodeId :=
  resolveDepth ns followFinal syscall (Chunked.MAX_SYMLINK_DEPTH + 1) path

open Chunked (Call blocksGet copyFromSlice readLayoutInto)

/-- One iteration of the extent loop of `read_layout`; the state is the buffer. -/
def readLayoutExtent (start stop : ℕ) (path : String) (buffer : List UInt8) (extent : BlockExtent) :
    Call (List UInt8) := do
  let failure := errorWithPath .eio "read" path
  let extentEnd ← okOr (checkedAdd extent.fileOffset extent.length) failure
  let overlapStart := max start extent.fileOffset
  let overlapEnd := min stop extentEnd
  if overlapEnd ≤ overlapStart then return buffer
  let bytes ← (blocksGet extent.block).orElse fun e =>
    Async.fail ((e.withSyscall "read").withPath path)
  let blockOffset ← okOr (checkedAdd extent.blockOffset (overlapStart - extent.fileOffset))
    failure
  let blockEnd ← okOr (checkedAdd blockOffset (overlapEnd - overlapStart)) failure
  if bytes.length < blockEnd then Async.fail failure
  else
    let bytes := (bytes.drop blockOffset).take (overlapEnd - overlapStart)
    return copyFromSlice buffer (overlapStart - start) bytes

/-- The bytes that `read_layout` puts into a buffer of the given length. -/
def readLayout (layout : FileLayout) (fileSize start length : ℕ) (path : String) :
    Call (List UInt8) := do
  if fileSize ≤ start ∨ length = 0 then return []
  let requestedEnd ← okOr (checkedAdd start length) (FsError.new .eoverflow)
  let stop := min requestedEnd fileSize
  layout.extents.foldlM (readLayoutExtent start stop path) (List.replicate (stop - start) 0)

/-- The bytes that `read_at` of the live filesystem puts into a buffer of the given length. -/
def readAt (layout : FileLayout) (size position length : ℕ) (path : String) : Call (List UInt8) :=
  let count := if size ≤ position then 0 else min length (size - position)
  if 0 < count then readLayoutInto layout size position count path "read" else return []

end MountRs.Versioned
