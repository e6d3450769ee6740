import MountRs.Model.WebDav.Locks
import MountRs.Model.WebDav.Tree

/-! # The mutating WebDAV methods

PUT, DELETE, MKCOL, COPY, MOVE and PROPPATCH of `session.rs`, with their recursive
traversals. The lock table is read at the clock reading of the request. -/

namespace MountRs.WebDav

def statusForError : ErrorCode → ℕ
  | .eperm | .eacces | .erofs | .emlink => 403
  | .enoent | .enodev | .enodata | .estale => 404
  | .eintr | .eio | .ebadf | .espipe | .erange | .eproto | .eoverflow => 500
  | .enxio => 403
  | .eagain | .enomem | .enfile | .emfile => 503
  | .ebusy | .eexist | .enotdir | .enotempty => 409
  | .exdev => 502
  | .eisdir => 405
  | .einval => 400
  | .efbig => 413
  | .enospc | .edquot => 507
  | .enametoolong => 414
  | .enosys | .enotsup => 501
  | .eloop => 508

def isAbsent (code : ErrorCode) : Bool := code == .enoent || code == .enotdir

structure Failure where
  path : String
  collection : Bool
  status : ℕ
  deriving DecidableEq

inductive Answer
  | status (code : ℕ)
  | multistatus (failures : List Failure)
  deriving DecidableEq

inductive Depth
  | zero
  | one
  | infinity
  deriving DecidableEq

/-- The clock reading of a request and the lock tokens of its If header. -/
structure Guard where
  now : ℤ
  submitted : List String

/-! ## Locks -/

variable (table : DavLockTable) (guard : Guard) (path : TreePath)

/-- The locks that cover a path and whose token was not submitted. -/
def blocking : List DavLock :=
  (table.covering path.render guard.now).1.filter fun lock => !guard.submitted.contains lock.token

/-- `require_writable`: no lock blocks the path, nor its parent if membership changes. -/
def requireWritable (membership : Bool) : Bool :=
  (blocking table guard path).isEmpty &&
    (!(membership && path != []) || (blocking table guard path.dropLast).isEmpty)

def lockedMembers : List Failure :=
  ((table.within path.render guard.now).1.filter fun lock =>
    lock.path != path.render && !guard.submitted.contains lock.token).map fun lock =>
      { path := lock.path, collection := lock.collection, status := 423 }

/-! ## Single calls -/

section Calls

variable (faults : Faults) (driver : Driver) (path : TreePath)

/-- `stat`, whose absence is a 404. -/
def statResource : Except Answer Node × Driver :=
  match driver.read faults fun tree => tree.stat path with
  | (.ok node, driver) => (.ok node, driver)
  | (.error code, driver) =>
    (.error (.status (if isAbsent code then 404 else statusForError code)), driver)

def statOrAbsent : Except Answer (Option Node) × Driver :=
  match driver.read faults fun tree => tree.stat path with
  | (.ok node, driver) => (.ok (some node), driver)
  | (.error code, driver) =>
    if isAbsent code then (.ok none, driver)
    else (.error (.status (statusForError code)), driver)

/-- `link_stat`, which falls back to `stat` on a driver without `lstat`. -/
def linkStat : Except Answer Node × Driver :=
  match driver.read faults fun tree => tree.lstat path with
  | (.ok node, driver) => (.ok node, driver)
  | (.error code, driver) =>
    if code = .enosys then statResource faults driver path
    else (.error (.status (if isAbsent code then 404 else statusForError code)), driver)

def requireCollection : Except Answer Unit × Driver :=
  match statOrAbsent faults driver path with
  | (.error answer, driver) => (.error answer, driver)
  | (.ok (some .directory), driver) => (.ok (), driver)
  | (.ok _, driver) => (.error (.status 409), driver)

/-! ## Recursive deletion -/

/-- What a traversal gives: its failures, whether it changed anything, and the driver. -/
abbrev Traversal := List Failure × Bool × Driver

def deleteEntry (recurse : Driver → TreePath → Traversal) (path : TreePath) :
    Traversal → Name × Node → Traversal
  | (failures, mutated, driver), (name, node) =>
    if node.isDirectory then
      match recurse driver (path ++ [name]) with
      | (more, changed, driver) => (failures ++ more, mutated || changed, driver)
    else
      match driver.mutate faults (FileTree.unlink (path ++ [name])) with
      | (.ok _, driver) => (failures, true, driver)
      | (.error code, driver) =>
        if isAbsent code then (failures, mutated, driver)
        else
          (failures ++
            [{ path := (path ++ [name]).render, collection := false
               status := statusForError code }], mutated, driver)

def deleteTree : ℕ → Driver → TreePath → Traversal
  | 0, driver, path =>
    ([{ path := path.render, collection := true, status := 508 }], false, driver)
  | levels + 1, driver, path =>
    match driver.read faults fun tree => tree.readdir path with
    | (.error code, driver) =>
      if isAbsent code then ([], false, driver)
      else
        ([{ path := path.render, collection := true, status := statusForError code }], false,
          driver)
    | (.ok entries, driver) =>
      match entries.foldl (deleteEntry faults (deleteTree levels) path) ([], false, driver) with
      | ([], mutated, driver) =>
        match driver.mutate faults (FileTree.rmdir path) with
        | (.ok _, driver) => ([], true, driver)
        | (.error code, driver) =>
          if isAbsent code then ([], mutated, driver)
          else
            ([{ path := path.render, collection := true
                status := statusForError code }], mutated, driver)
      | traversal => traversal

/-! ## Recursive copy -/

def openRead (tree : FileTree) : Except ErrorCode (List UInt8) :=
  match tree.stat path with
  | .error code => .error code
  | .ok (.file data) => .ok data
  | .ok _ => .error .eisdir

/-- `copy_file` of a file that had `size` bytes: open both, copy, close both. -/
def copyFile (source destination : TreePath) (size : ℕ) : Except ErrorCode Unit × Driver :=
  match driver.read faults (openRead source) with
  | (.error code, driver) => (.error code, driver)
  | (.ok data, driver) =>
    match driver.mutate faults (FileTree.write destination []) with
    | (.error code, driver) => (.error code, driver)
    | (.ok _, driver) =>
      if data.length < size then (.error .eio, driver)
      else
        match driver.mutate faults (FileTree.write destination (data.take size)) with
        | (.error code, driver) => (.error code, driver)
        | (.ok _, driver) => driver.read faults fun _ => .ok ()

def copyEntry (recurse : Driver → TreePath → TreePath → Node → Traversal)
    (source destination : TreePath) : Traversal → Name × Node → Traversal
  | (failures, mutated, driver), (name, node) =>
    match statOrAbsent faults driver (source ++ [name]) with
    | (.ok none, driver) => (failures, mutated, driver)
    | (.error answer, driver) =>
      (failures ++
        [{ path := (source ++ [name]).render, collection := node.isDirectory
           status := match answer with
             | .status code => code
             | .multistatus _ => 207 }], mutated, driver)
    | (.ok (some stats), driver) =>
      match node, stats with
      | .symlink _, .directory =>
        (failures ++ [{ path := (source ++ [name]).render, collection := true, status := 403 }],
          mutated, driver)
      | _, _ =>
        match recurse driver (source ++ [name]) (destination ++ [name]) stats with
        | (more, changed, driver) => (failures ++ more, mutated || changed, driver)

def copyTree : ℕ → Driver → TreePath → TreePath → Node → Bool → Traversal
  | 0, driver, source, _, _, _ =>
    ([{ path := source.render, collection := true, status := 508 }], false, driver)
  | levels + 1, driver, source, destination, stats, deep =>
    match stats with
    | .symlink _ =>
      ([{ path := source.render, collection := false, status := 403 }], false, driver)
    | .file data =>
      match copyFile faults driver source destination data.length with
      | (.ok _, driver) => ([], true, driver)
      | (.error code, driver) =>
        ([{ path := source.render, collection := false, status := statusForError code }],
          false, driver)
    | .directory =>
      match driver.mutate faults (FileTree.mkdir destination) with
      | (.error code, driver) =>
        ([{ path := source.render, collection := true, status := statusForError code }],
          false, driver)
      | (.ok _, driver) =>
        if deep = false then ([], true, driver)
        else
          match driver.read faults fun tree => tree.readdir source with
          | (.error code, driver) =>
            ([{ path := source.render, collection := true
                status := statusForError code }], true, driver)
          | (.ok entries, driver) =>
            entries.foldl (copyEntry faults (fun driver source destination stats =>
                copyTree levels driver source destination stats true)
              source destination) ([], true, driver)

end Calls

/-! ## Requests -/

inductive DavRequest
  | put (path : TreePath) (contentRange : Bool) (conditionals : Option Node → Bool)
      /- `none` if the body fails before its first byte. -/
      (body : Option (List UInt8))
  | delete (path : TreePath) (depth : Depth)
  | mkcol (path : TreePath) (emptyBody : Bool)
  | copyOrMove (path destination : TreePath) (moving overwrite : Bool) (depth : Depth)
  /-- The status of each instruction and whether it sets the modification time. -/
  | proppatch (path : TreePath) (outcomes : List (ℕ × Bool))

section Handlers

variable (faults : Faults) (table : DavLockTable) (guard : Guard) (levels : ℕ) (driver : Driver)
  (path : TreePath)

def durabilityBarrier (answer : Answer) : Answer × Driver :=
  match driver.read faults fun _ => Except.ok () with
  | (.ok _, driver) => (answer, driver)
  | (.error code, driver) => (.status (statusForError code), driver)

def put (contentRange : Bool)
    (conditionals : Option Node → Bool) (body : Option (List UInt8)) : Answer × Driver :=
  if contentRange then (.status 400, driver)
  else if path = [] then (.status 405, driver)
  else
    match statOrAbsent faults driver path with
    | (.error answer, driver) => (answer, driver)
    | (.ok (some .directory), driver) => (.status 405, driver)
    | (.ok existing, driver) =>
      match requireCollection faults driver path.dropLast with
      | (.error answer, driver) => (answer, driver)
      | (.ok _, driver) =>
        if requireWritable table guard path existing.isNone = false then (.status 423, driver)
        else if conditionals existing = false then (.status 412, driver)
        else
          match body with
          | none => (.status 500, driver)
          | some data =>
            match driver.mutate faults (FileTree.write path data) with
            | (.error code, driver) => (.status (statusForError code), driver)
            | (.ok _, driver) =>
              durabilityBarrier faults driver (.status (if existing.isSome then 204 else 201))

def answerOf (failures : List Failure) (done : ℕ) : Answer :=
  if failures = [] then .status done else .multistatus failures

def delete (depth : Depth) : Answer × Driver :=
  if path = [] then (.status 403, driver)
  else
    match linkStat faults driver path with
    | (.error answer, driver) => (answer, driver)
    | (.ok stats, driver) =>
      if stats.isDirectory = true ∧ depth ≠ .infinity then (.status 400, driver)
      else if requireWritable table guard path true = false then (.status 423, driver)
      else if lockedMembers table guard path ≠ [] then
        (.multistatus (lockedMembers table guard path), driver)
      else if stats.isDirectory = false then
        match driver.mutate faults (FileTree.unlink path) with
        | (.error code, driver) => (.status (statusForError code), driver)
        | (.ok _, driver) => durabilityBarrier faults driver (.status 204)
      else
        match deleteTree faults levels driver path with
        | (failures, mutated, driver) =>
          if mutated then durabilityBarrier faults driver (answerOf failures 204)
          else (answerOf failures 204, driver)

def mkcol (emptyBody : Bool) : Answer × Driver :=
  if emptyBody = false then (.status 415, driver)
  else if path = [] then (.status 405, driver)
  else
    match statOrAbsent faults driver path with
    | (.error answer, driver) => (answer, driver)
    | (.ok (some _), driver) => (.status 405, driver)
    | (.ok none, driver) =>
      match requireCollection faults driver path.dropLast with
      | (.error answer, driver) => (answer, driver)
      | (.ok _, driver) =>
        if requireWritable table guard path true = false then (.status 423, driver)
        else
          match driver.mutate faults (FileTree.mkdir path) with
          | (.error code, driver) => (.status (statusForError code), driver)
          | (.ok _, driver) => durabilityBarrier faults driver (.status 201)

def checkSource (path destination : TreePath) (moving : Bool) (depth : Depth) :
    Except Answer Node × Driver :=
  if moving = true ∧ depth ≠ .infinity then (.error (.status 400), driver)
  else if moving = false ∧ depth = .one then (.error (.status 400), driver)
  else
    match statResource faults driver path with
    | (.error answer, driver) => (.error answer, driver)
    | (.ok stats, driver) =>
      if path = [] then (.error (.status 403), driver)
      else if destination = path then (.error (.status 403), driver)
      else
        -- A COPY of a link to a collection is refused.
        match (if moving = false ∧ stats.isDirectory = true then linkStat faults driver path
          else (.ok .directory, driver)) with
        | (.error answer, driver) => (.error answer, driver)
        | (.ok (.symlink _), driver) => (.error (.status 403), driver)
        | (.ok _, driver) =>
          if stats.isDirectory = true ∧ path <+: destination then
            (.error (.status 403), driver)
          else (.ok stats, driver)

/-- The checks on the destination: what exists there. -/
def checkDestination (path destination : TreePath) (moving overwrite : Bool) :
    Except Answer (Option Node) × Driver :=
  match requireCollection faults driver destination.dropLast with
  | (.error answer, driver) => (.error answer, driver)
  | (.ok _, driver) =>
    match statOrAbsent faults driver destination with
    | (.error answer, driver) => (.error answer, driver)
    | (.ok existing, driver) =>
      if moving = true ∧ requireWritable table guard path true = false then
        (.error (.status 423), driver)
      else if requireWritable table guard destination existing.isNone = false then
        (.error (.status 423), driver)
      else
        let locked := (if moving then lockedMembers table guard path else []) ++
          (if existing.isSome then lockedMembers table guard destination else [])
        if locked ≠ [] then (.error (.multistatus locked), driver)
        else if existing.isSome = true ∧ overwrite = false then (.error (.status 412), driver)
        else (.ok existing, driver)

/-- Remove what exists at the destination. -/
def clearDestination (destination : TreePath) : Option Node → Traversal
  | none => ([], false, driver)
  | some .directory => deleteTree faults levels driver destination
  | some _ =>
    match driver.mutate faults (FileTree.unlink destination) with
    | (.ok _, driver) => ([], true, driver)
    | (.error code, driver) =>
      if code = .enoent then ([], false, driver)
      else
        ([{ path := destination.render, collection := false
            status := statusForError code }], false, driver)

def copyOrMove (path destination : TreePath) (moving overwrite : Bool)
    (depth : Depth) : Answer × Driver :=
  match checkSource faults driver path destination moving depth with
  | (.error answer, driver) => (answer, driver)
  | (.ok stats, driver) =>
    match checkDestination faults table guard driver path destination moving overwrite with
    | (.error answer, driver) => (answer, driver)
    | (.ok existing, driver) =>
      match clearDestination faults levels driver destination existing with
      | ([], cleared, driver) =>
        if moving then
          match driver.mutate faults (FileTree.rename path destination) with
          | (.error code, driver) => (.status (statusForError code), driver)
          | (.ok _, driver) =>
            durabilityBarrier faults driver (.status (if existing.isSome then 204 else 201))
        else
          match copyTree faults levels driver path destination stats (depth == .infinity) with
          | (failures, copied, driver) =>
            if cleared || copied then
              durabilityBarrier faults driver
                (answerOf failures (if existing.isSome then 204 else 201))
            else (answerOf failures (if existing.isSome then 204 else 201), driver)
      | (failures, mutated, driver) =>
        if mutated then durabilityBarrier faults driver (.multistatus failures)
        else (.multistatus failures, driver)

/-- The `utimes` calls of an unblocked PROPPATCH, until one fails. -/
def setTimes (path : TreePath) : List (ℕ × Bool) → Driver → Except ErrorCode Unit × Driver
  | [], driver => (.ok (), driver)
  | (_, false) :: rest, driver => setTimes path rest driver
  | (_, true) :: rest, driver =>
    match driver.mutate faults (FileTree.utimes path) with
    | (.error code, driver) => (.error code, driver)
    | (.ok _, driver) => setTimes path rest driver

def proppatch (outcomes : List (ℕ × Bool)) : Answer × Driver :=
  match statResource faults driver path with
  | (.error answer, driver) => (answer, driver)
  | (.ok _, driver) =>
    if requireWritable table guard path false = false then (.status 423, driver)
    else if outcomes.any fun outcome => outcome.1 != 200 then (.multistatus [], driver)
    else
      match setTimes faults path outcomes driver with
      | (.error code, driver) => (.status (statusForError code), driver)
      | (.ok _, driver) => durabilityBarrier faults driver (.multistatus [])

def handle : DavRequest → Answer × Driver
  | .put path contentRange conditionals body =>
    put faults table guard driver path contentRange conditionals body
  | .delete path depth => delete faults table guard levels driver path depth
  | .mkcol path emptyBody => mkcol faults table guard driver path emptyBody
  | .copyOrMove path destination moving overwrite depth =>
    copyOrMove faults table guard levels driver path destination moving overwrite depth
  | .proppatch path outcomes => proppatch faults table guard driver path outcomes

end Handlers

end MountRs.WebDav
