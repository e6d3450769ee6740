import MountRs.Model.Chunked.Mutation

/-! # Path resolution of the memory filesystem

`MemoryFs::walk`. Entries and rewritten paths are as in the chunked filesystem. -/

namespace MountRs.MemFs

open Except

/-- What path resolution reads of a node. -/
structure Node where
  mode : UInt32
  target : Option String
  children : List (String × ℕ)
deriving DecidableEq

def Node.isDirectory (node : Node) : Bool := node.mode &&& S_IFMT == S_IFDIR

def Node.isSymlink (node : Node) : Bool := node.mode &&& S_IFMT == S_IFLNK

def Node.child (node : Node) (name : String) : Option ℕ :=
  (node.children.find? fun child => child.1 == name).map Prod.snd

structure MemoryState where
  root : ℕ
  nodes : BTreeMap ℕ Node

open Chunked (Entry rewriteLink errorWithPath)

def MAX_SYMLINK_DEPTH : ℕ := 40

/-- The component loop of `walk`: `seen` are the components before `current`, and `follow` is the
walk of a rewritten path. -/
def walkSegments (state : MemoryState) (followFinal : Bool) (syscall normalized : String)
    (follow : String → Result Entry) (current : ℕ) (seen : List String) :
    List String → Result Entry
  | [] => .error (errorWithPath .estale syscall normalized)
  | name :: rest => do
    let node ← okOr (state.nodes.get? current) (errorWithPath .estale syscall normalized)
    failIf (node.isDirectory = false) (errorWithPath .enotdir syscall normalized)
    match node.child name with
    | none =>
      if rest = [] then return { parent := current, name, node := none, path := normalized }
      else .error (errorWithPath .enoent syscall normalized)
    | some inode => do
      let child ← okOr (state.nodes.get? inode) (errorWithPath .estale syscall normalized)
      if child.isSymlink ∧ (rest ≠ [] ∨ followFinal) then do
        let target := child.target.getD ""
        failIf (target = "") (errorWithPath .enoent syscall normalized)
        follow (rewriteLink seen rest target)
      else if rest = [] then
        return { parent := current, name, node := some inode, path := normalized }
      else walkSegments state followFinal syscall normalized follow inode (seen ++ [name]) rest

/-- `walk` with the number of paths that it may still look at. -/
def walkDepth (state : MemoryState) (followFinal : Bool) (syscall : String) :
    ℕ → String → Result Entry
  | 0, path => do
    failIf ('\x00' ∈ path.toList) (errorWithPath .einval syscall path)
    .error (errorWithPath .eloop syscall (normalizePath path))
  | depth + 1, path => do
    failIf ('\x00' ∈ path.toList) (errorWithPath .einval syscall path)
    let normalized := normalizePath path
    if normalized = "/" then
      return { parent := state.root, name := "", node := some state.root, path := normalized }
    else
      walkSegments state followFinal syscall normalized (walkDepth state followFinal syscall depth)
        state.root [] (splitPath normalized)

def walk (state : MemoryState) (path : String) (followFinal : Bool) (syscall : String) :
    Result Entry :=
  walkDepth state followFinal syscall MAX_SYMLINK_DEPTH path

end MountRs.MemFs
