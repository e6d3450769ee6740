/-! # Virtual paths

`src/path.rs`. A path is a string whose components are separated by slashes. -/

namespace MountRs

def splitSlash (path : String) : List String := (path.toList.splitOn '/').map String.ofList

def joinSlash : List String → String
  | [] => ""
  | [segment] => segment
  | segment :: rest => segment ++ "/" ++ joinSlash rest

/-- One iteration of the component loop; the state is the stack of kept segments,
the last one first. -/
def pushSegment (segments : List String) (segment : String) : List String :=
  if segment = "" ∨ segment = "." then segments
  else if segment = ".." then segments.tail
  else segment :: segments

/-- Normalize an absolute POSIX-style path and clamp `..` at the virtual root. -/
def normalizePath (path : String) : String :=
  match ((splitSlash path).foldl pushSegment []).reverse with
  | [] => "/"
  | segments => "/" ++ joinSlash segments

def joinPath (parts : List String) : String := normalizePath (joinSlash parts)

def dirname (path : String) : String :=
  match ((normalizePath path).toList.reverse.dropWhile (· ≠ '/')).tail.reverse with
  | [] => "/"
  | chars => String.ofList chars

def splitPath (path : String) : List String :=
  (splitSlash (normalizePath path)).filter fun segment => segment != ""

def hasComponentPrefix (path parent : String) : Bool :=
  path == parent || (parent == "/" && path.toList.head? == some '/') ||
    (parent.toList ++ ['/']).isPrefixOf path.toList

def isPathInside (path parent : String) : Bool :=
  hasComponentPrefix (normalizePath path) (normalizePath parent)

example : normalizePath "a//b/../c/" = "/a/c" := by decide

end MountRs
