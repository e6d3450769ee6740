import MountRs.Model.Error
import MountRs.Model.Path
import Mathlib.Data.List.Infix
import Mathlib.Data.List.Dedup
import Mathlib.Logic.Function.Basic
import Mathlib.Data.Nat.Notation

/-! # A driver tree with symbolic links

The part of a driver's namespace the WebDAV handlers act on. Paths are lists of names; a
call that follows links acts on the path it resolves to, and a call on an entry resolves
the parent only. -/

namespace MountRs.WebDav

/-! ## Names and paths -/

abbrev Name :=
  { name : String // name ≠ "" ∧ name ≠ "." ∧ name ≠ ".." ∧ '/' ∉ name.toList }

/-- The components of a normalized absolute path. -/
abbrev TreePath := List Name

variable (tree : FileTree) (path : TreePath)

/-- The spelling of a path. -/
def TreePath.render : String := "/" ++ joinSlash (path.map Subtype.val)

/-! ## Trees -/

inductive Node
  | directory
  | file (data : List UInt8)
  | symlink (target : TreePath)
  deriving DecidableEq

def Node.isDirectory : Node → Bool
  | .directory => true
  | _ => false

/-- The nodes of a tree by their paths; `paths` lists at least those that exist. -/
structure FileTree where
  node : TreePath → Option Node
  paths : List TreePath
  support : ∀ path, node path ≠ none → path ∈ paths

namespace FileTree

/-- `none` removes the node. -/
def set (value : Option Node) : FileTree where
  node := Function.update tree.node path value
  paths := path :: tree.paths
  support := by
    intro other h
    by_cases hpath : other = path
    · exact List.mem_cons.2 (Or.inl hpath)
    · rw [Function.update_of_ne hpath] at h
      exact List.mem_cons.2 (Or.inr (tree.support other h))

/-- The nodes below `source` appear below `destination` instead. -/
def moved (source destination path : TreePath) : Option Node :=
  if destination <+: path then tree.node (source ++ path.drop destination.length)
  else if source <+: path then none
  else tree.node path

def move (source destination : TreePath) : FileTree where
  node := tree.moved source destination
  paths := tree.paths ++
    tree.paths.map fun path => destination ++ path.drop source.length
  support := by
    intro path h
    unfold moved at h
    split_ifs at h with hd hs
    · refine List.mem_append_right _ (List.mem_map.2 ⟨_, tree.support _ h, ?_⟩)
      obtain ⟨rest, rfl⟩ := hd
      simp
    · exact absurd rfl h
    · exact List.mem_append_left _ (tree.support path h)

/-- The names in a directory, each once. -/
def names : List Name :=
  ((tree.paths.filter fun child => child.dropLast = path).filterMap
    List.getLast?).dedup.filter fun name => (tree.node (path ++ [name])).isSome

/-! ## Resolution -/

/-- Walk the components from a resolved directory; `follow` continues at the target of a
link. The last component need not exist. -/
def walk (tree : FileTree) (follow : TreePath → Except ErrorCode TreePath) :
    TreePath → TreePath → Except ErrorCode TreePath
  | base, [] => .ok base
  | base, name :: rest =>
    match tree.node (base ++ [name]) with
    | some (.symlink target) => follow (target ++ rest)
    | some .directory => walk tree follow (base ++ [name]) rest
    | some (.file _) => if rest = [] then .ok (base ++ [name]) else .error .enotdir
    | none => if rest = [] then .ok (base ++ [name]) else .error .enoent

def resolveLinks (tree : FileTree) : ℕ → TreePath → Except ErrorCode TreePath
  | 0, _ => .error .eloop
  | links + 1, path => tree.walk (tree.resolveLinks links) [] path

/-- The path with every link followed, at most forty of them. -/
def resolve : Except ErrorCode TreePath :=
  tree.resolveLinks 41 path

def directory : Except ErrorCode TreePath :=
  match tree.resolve path with
  | .error code => .error code
  | .ok target =>
    match tree.node target with
    | some .directory => .ok target
    | some _ => .error .enotdir
    | none => .error .enoent

/-- The entry a path names: its parent is resolved, its last component is not. -/
def locate : Except ErrorCode TreePath :=
  match path.getLast? with
  | none => .error .einval
  | some name =>
    match tree.directory path.dropLast with
    | .error code => .error code
    | .ok parent => .ok (parent ++ [name])

/-! ## Calls -/

def stat : Except ErrorCode Node :=
  match tree.resolve path with
  | .error code => .error code
  | .ok target => (tree.node target).elim (.error .enoent) .ok

def lstat : Except ErrorCode Node :=
  if path = [] then tree.stat []
  else
    match tree.locate path with
    | .error code => .error code
    | .ok entry => (tree.node entry).elim (.error .enoent) .ok

def readdir : Except ErrorCode (List (Name × Node)) :=
  match tree.directory path with
  | .error code => .error code
  | .ok target =>
    .ok ((tree.names target).filterMap fun name =>
      (tree.node (target ++ [name])).map fun node => (name, node))

/-- A mutating call gives the tree after it and the paths it creates, changes or removes. -/
abbrev Mutation := FileTree → Except ErrorCode (FileTree × List TreePath)

def unlink : Mutation := fun tree =>
  match tree.locate path with
  | .error code => .error code
  | .ok entry =>
    match tree.node entry with
    | none => .error .enoent
    | some .directory => .error .eisdir
    | some _ => .ok (tree.set entry none, [entry])

def rmdir : Mutation := fun tree =>
  match tree.locate path with
  | .error code => .error code
  | .ok entry =>
    match tree.node entry with
    | none => .error .enoent
    | some .directory =>
      if tree.names entry = [] then .ok (tree.set entry none, [entry])
      else .error .enotempty
    | some _ => .error .enotdir

def mkdir : Mutation := fun tree =>
  match tree.locate path with
  | .error code => .error code
  | .ok entry =>
    match tree.node entry with
    | some _ => .error .eexist
    | none => .ok (tree.set entry (some .directory), [entry])

/-- `open` with `w`, and the writes that follow: the file at the resolved path is created
or replaced. -/
def write (data : List UInt8) : Mutation := fun tree =>
  match tree.locate path with
  | .error code => .error code
  | .ok _ =>
    match tree.resolve path with
    | .error code => .error code
    | .ok target =>
      match tree.node target with
      | some .directory => .error .eisdir
      | _ => .ok (tree.set target (some (.file data)), [target])

def utimes : Mutation := fun tree =>
  match tree.resolve path with
  | .error code => .error code
  | .ok target =>
    match tree.node target with
    | none => .error .enoent
    | some _ => .ok (tree, [target])

/-- Whether an existing destination refuses the entry renamed onto it. -/
def renameBlocked (source : Node) (destination : TreePath) : Option ErrorCode :=
  match source, tree.node destination with
  | _, none => none
  | .directory, some .directory =>
    if tree.names destination = [] then none else some .enotempty
  | .directory, some _ => some .enotdir
  | _, some .directory => some .eisdir
  | _, some _ => none

def rename (source destination : TreePath) : Mutation := fun tree =>
  match tree.locate source with
  | .error code => .error code
  | .ok entry =>
    match tree.locate destination with
    | .error code => .error code
    | .ok target =>
      match tree.node entry with
      | none => .error .enoent
      | some node =>
        if entry = target then .ok (tree, [])
        else if entry <+: target then .error .einval
        else
          match tree.renameBlocked node target with
          | some code => .error code
          | none =>
            let below := tree.paths.filter fun path =>
              entry <+: path ∧ (tree.node path).isSome
            .ok (tree.move entry target,
              below ++ below.map fun path => target ++ path.drop entry.length)

end FileTree

/-! ## The driver -/

/-- The tree, the number of calls made so far, and the paths touched. -/
structure Driver where
  tree : FileTree
  calls : ℕ
  touched : List TreePath

/-- A failure of single calls: call number `n` fails with the code `faults n`. -/
abbrev Faults := ℕ → Option ErrorCode

namespace Driver

def start : Driver := { tree, calls := 0, touched := [] }

def tick (driver : Driver) : Driver := { driver with calls := driver.calls + 1 }

def read {α : Type} (faults : Faults) (driver : Driver) (query : FileTree → Except ErrorCode α) :
    Except ErrorCode α × Driver :=
  match faults driver.calls with
  | some code => (.error code, driver.tick)
  | none => (query driver.tree, driver.tick)

/-- A call that changes the tree. -/
def mutate (faults : Faults) (driver : Driver) (mutation : FileTree.Mutation) :
    Except ErrorCode Unit × Driver :=
  match faults driver.calls with
  | some code => (.error code, driver.tick)
  | none =>
    match mutation driver.tree with
    | .error code => (.error code, driver.tick)
    | .ok (tree, touched) =>
      (.ok (), { tree, calls := driver.calls + 1, touched := driver.touched ++ touched })

end Driver

end MountRs.WebDav
