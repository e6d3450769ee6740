import MountRs.Library.BTreeMap
import MountRs.Model.Path
import Mathlib.Data.String.Basic

/-! # The WebDAV lock table

`locks.rs` of the WebDAV transport. Every call but `remove` takes a clock reading
and first drops the locks that have expired at it. -/

namespace MountRs.WebDav

/-! ## Lock tokens -/

def lockTokenPrefix : String := "urn:uuid:"

def maxInjectedTokenBytes : ℕ := 1024

def maxLocks : ℕ := 4096

/-- `str::split_once(':')`. -/
def splitScheme : List Char → Option (List Char × List Char)
  | [] => none
  | c :: rest =>
    if c = ':' then some ([], rest)
    else (splitScheme rest).map fun parts => (c :: parts.1, parts.2)

def isHexDigit (c : Char) : Bool :=
  c.isDigit || ('a' ≤ c && c ≤ 'f') || ('A' ≤ c && c ≤ 'F')

def usableScheme : List Char → Bool
  | [] => false
  | c :: rest => c.isAlpha && rest.all fun d => d.isAlphanum || "+-.".toList.contains d

/-- The loop over the part after the colon: every `%` starts an escape. -/
def usableValue : List Char → Bool
  | [] => true
  | '%' :: a :: b :: rest => isHexDigit a && isHexDigit b && usableValue rest
  | c :: rest =>
    c != '%' && (c.isAlphanum || "-._~:/?[]@!$&'()*+,;=".toList.contains c) &&
      usableValue rest

/-- `usable_lock_token_uri`; `parses` says whether `Url::parse` accepts the token
without a fragment. -/
def usableLockTokenUri (parses : String → Bool) (token : String) : Bool :=
  match splitScheme token.toList with
  | none => false
  | some (scheme, value) =>
    usableScheme scheme &&
      !(scheme.map Char.toLower == "dav".toList && value == "no-lock".toList) &&
      usableValue value && parses token

/-! ## Scopes -/

inductive LockDepth
  | zero
  | infinity
  deriving DecidableEq

def canonicalPathInside (path parent : String) : Bool :=
  path == parent || (parent == "/" && path.toList.head? == some '/') ||
    (parent.toList.isPrefixOf path.toList && path.toList[parent.toList.length]? == some '/')

def canonicalLockCovers (lockPath : String) (depth : LockDepth) (path : String) : Bool :=
  lockPath == path || (depth == .infinity && canonicalPathInside path lockPath)

inductive ConflictPhase
  | covering
  | within
  deriving DecidableEq

def normalizedPathInside (path parent : String) : Bool :=
  canonicalPathInside (normalizePath path) (normalizePath parent)

/-- Depth zero compares the original spelling; infinity normalizes. -/
def lockCoversPath (lockPath : String) (depth : LockDepth) (path : String) : Bool :=
  lockPath == path || (depth == .infinity && normalizedPathInside path lockPath)

/-- The XML of a lock's owner element, which the table only stores. -/
inductive XmlNode
  | node (name ns text : String) (children : List XmlNode)

structure DavLock where
  token : String
  path : String
  collection : Bool
  depth : LockDepth
  exclusive : Bool
  owner : Option XmlNode
  timeoutSeconds : ℕ
  expiresAt : ℤ

inductive LockTimeout
  | seconds (count : ℕ)
  | infinite
  deriving DecidableEq

structure DavLockRequest where
  path : String
  collection : Bool
  depth : LockDepth
  exclusive : Bool
  owner : Option XmlNode
  timeout : Option LockTimeout

inductive DavLockGrant
  | granted (lock : DavLock)
  | conflict (lock : DavLock)
  | full

/-- The decision for one active lock on normalized paths. -/
def canonicalConflictCandidate (lockPath : String) (lockDepth : LockDepth) (lockExclusive : Bool)
    (expiresAt : ℤ) (requestPath : String) (requestDepth : LockDepth) (requestExclusive : Bool)
    (now : ℤ) (phase : ConflictPhase) : Bool :=
  decide (now < expiresAt) && (lockExclusive || requestExclusive) &&
    match phase with
    | .covering => canonicalLockCovers lockPath lockDepth requestPath
    | .within => requestDepth == .infinity && canonicalPathInside lockPath requestPath

def conflictCandidate (lock : DavLock) (path : String) (depth : LockDepth) (exclusive : Bool)
    (now : ℤ) (phase : ConflictPhase) : Bool :=
  if lock.expiresAt ≤ now ∨ ¬(lock.exclusive || exclusive) then false
  else if phase = .covering ∧ lock.path = path then true
  else if phase = .covering ∧ lock.depth = .zero then false
  else if phase = .within ∧ depth = .zero then false
  else
    canonicalConflictCandidate (normalizePath lock.path) lock.depth lock.exclusive lock.expiresAt
      (normalizePath path) depth exclusive now phase

/-! ## The table -/

/-- The options; `newToken` says whether a token generator is configured. -/
structure DavLockTableOptions where
  defaultTimeoutSeconds : ℕ := 600
  maxTimeoutSeconds : ℕ := 3600
  maxLocks : ℕ := WebDav.maxLocks
  newToken : Bool := false

/-- The values one `create` draws: the configured generator is called once, and
random UUIDs follow for as long as the token is taken. -/
structure TokenDraws where
  generated : String
  uuids : List String

structure DavLockTable where
  locks : BTreeMap String DavLock
  issued : BTreeSet String
  order : List String
  options : DavLockTableOptions

/-- Calculated in a wider type, then saturated to the largest `i64`. -/
def lockExpiration (now : ℤ) (timeoutSeconds : ℕ) : ℤ :=
  min (now + timeoutSeconds * 1000) (2 ^ 63 - 1)

namespace DavLockTable

def new (options : DavLockTableOptions) : DavLockTable :=
  { locks := ∅, issued := ∅, order := [], options }

variable (table : DavLockTable)

def sweep (now : ℤ) : DavLockTable :=
  { table with
    locks := table.locks.retain fun _ lock => decide (now < lock.expiresAt)
    order := table.order.filter fun token =>
      (table.locks.retain fun _ lock => decide (now < lock.expiresAt)).contains token }

/-- `order.iter().filter_map(|token| locks.get(token))`. -/
def listed : List DavLock := table.order.filterMap table.locks.get?

def size (now : ℤ) : ℕ × DavLockTable :=
  ((table.sweep now).locks.size, table.sweep now)

def covering (path : String) (now : ℤ) : List DavLock × DavLockTable :=
  ((table.sweep now).listed.filter fun lock => lockCoversPath lock.path lock.depth path,
    table.sweep now)

def within (path : String) (now : ℤ) : List DavLock × DavLockTable :=
  ((table.sweep now).listed.filter fun lock => normalizedPathInside lock.path path, table.sweep now)

def find (token : String) (now : ℤ) : Option DavLock × DavLockTable :=
  ((table.sweep now).locks.get? token, table.sweep now)

/-- The first covering lock in conflict, else for an infinite request the first one
below its path. -/
def conflict (path : String) (depth : LockDepth) (exclusive : Bool)
    (now : ℤ) : Option DavLock × DavLockTable :=
  let candidate := fun phase =>
    (table.sweep now).listed.find? fun lock =>
      conflictCandidate lock path depth exclusive now phase
  ((candidate .covering).or (if depth = .infinity then candidate .within else none),
    table.sweep now)

def grantedTimeout (options : DavLockTableOptions) : Option LockTimeout → ℕ
  | none => options.defaultTimeoutSeconds
  | some .infinite => options.maxTimeoutSeconds
  | some (.seconds seconds) => max (min seconds options.maxTimeoutSeconds) 1

/-- The tokens `create` tries, in order. -/
def candidates (options : DavLockTableOptions) (draws : TokenDraws) : List String :=
  (if options.newToken then [draws.generated] else []) ++
    draws.uuids.map fun uuid => lockTokenPrefix ++ uuid

/-- The condition of the loop that draws another token. -/
def taken (token : String) : Bool :=
  table.locks.contains token || (table.options.newToken && table.issued.contains token)

def grant (request : DavLockRequest) (now : ℤ) (token : String) : DavLock :=
  { token
    path := request.path
    collection := request.collection
    depth := request.depth
    exclusive := request.exclusive
    owner := request.owner
    timeoutSeconds := grantedTimeout table.options request.timeout
    expiresAt := lockExpiration now (grantedTimeout table.options request.timeout) }

def insertLock (lock : DavLock) : DavLockTable :=
  { table with
    issued := if table.options.newToken then table.issued.add lock.token else table.issued
    locks := table.locks.insert lock.token lock
    order := table.order ++ [lock.token] }

/-- `create`. No answer means that every token drawn so far is taken and the loop
goes on drawing. -/
def create (parses : String → Bool) (table : DavLockTable) (request : DavLockRequest) (now : ℤ)
    (draws : TokenDraws) : Option (DavLockGrant × DavLockTable) :=
  match table.conflict request.path request.depth request.exclusive now with
  | (some lock, table) => some (.conflict lock, table)
  | (none, table) =>
    match table.size now with
    | (count, table) =>
      if table.options.maxLocks ≤ count then some (.full, table)
      else if table.options.newToken ∧ maxLocks ≤ table.issued.size then
        some (.full, table)
      else if table.options.newToken ∧ (maxInjectedTokenBytes < draws.generated.utf8ByteSize ∨
          ¬usableLockTokenUri parses draws.generated) then
        some (.full, table)
      else
        ((candidates table.options draws).find? fun token => !table.taken token).map
          fun token =>
            (.granted (table.grant request now token),
              table.insertLock (table.grant request now token))

def refresh (token : String) (requested : Option LockTimeout) (now : ℤ) :
    Option DavLock × DavLockTable :=
  match table.find token now with
  | (none, table) => (none, table)
  | (some existing, table) =>
    let refreshed : DavLock :=
      { existing with
        timeoutSeconds := grantedTimeout table.options requested
        expiresAt := lockExpiration now (grantedTimeout table.options requested) }
    (some refreshed, { table with locks := table.locks.insert token refreshed })

def remove (token : String) : Bool × DavLockTable :=
  if table.locks.contains token then
    (true,
      { table with
        locks := table.locks.erase token
        order := table.order.filter fun entry => entry != token })
  else (false, table)

end DavLockTable

/-! ## Histories

A history is a table with what its calls have granted so far. -/

inductive LockCall
  | create (request : DavLockRequest) (now : ℤ) (draws : TokenDraws)
  | refresh (token : String) (requested : Option LockTimeout) (now : ℤ)
  | remove (token : String)
  | find (token : String) (now : ℤ)
  | covering (path : String) (now : ℤ)
  | within (path : String) (now : ℤ)
  | conflict (path : String) (depth : LockDepth) (exclusive : Bool) (now : ℤ)
  | size (now : ℤ)

/-- What a call shows of the table: a new grant, the locks it saw, or neither. -/
inductive LockAnswer
  | granted (lock : DavLock)
  | refreshed (lock : DavLock)
  | seen (locks : List DavLock)
  | silent

/-- `granted` lists the tokens of the locks granted by `create`, and `expiry` the
last expiry granted for a token. -/
structure LockHistory where
  table : DavLockTable
  granted : List String
  expiry : String → Option ℤ

/-- One call on the table; a `create` that keeps drawing does not return. -/
def LockCall.answer (parses : String → Bool) (table : DavLockTable) :
    LockCall → Option (LockAnswer × DavLockTable)
  | .create request now draws =>
    (table.create parses request now draws).map fun
      | (.granted lock, table) => (.granted lock, table)
      | (.conflict lock, table) => (.seen [lock], table)
      | (.full, table) => (.silent, table)
  | .refresh token requested now =>
    match table.refresh token requested now with
    | (some lock, table) => some (.refreshed lock, table)
    | (none, table) => some (.silent, table)
  | .remove token => some (.silent, (table.remove token).2)
  | .find token now => some (.seen (table.find token now).1.toList, (table.find token now).2)
  | .covering path now => some (.seen (table.covering path now).1, (table.covering path now).2)
  | .within path now => some (.seen (table.within path now).1, (table.within path now).2)
  | .conflict path depth exclusive now =>
    some (.seen (table.conflict path depth exclusive now).1.toList,
      (table.conflict path depth exclusive now).2)
  | .size now => some (.silent, (table.size now).2)

def LockHistory.record (history : LockHistory) (table : DavLockTable) : LockAnswer → LockHistory
  | .granted lock =>
    { table
      granted := history.granted ++ [lock.token]
      expiry := Function.update history.expiry lock.token (some lock.expiresAt) }
  | .refreshed lock =>
    { history with
      table
      expiry := Function.update history.expiry lock.token (some lock.expiresAt) }
  | .seen _ | .silent => { history with table }

/-- The clock reading of a call; `remove` takes none. -/
def LockCall.now : LockCall → Option ℤ
  | .create _ now _ | .refresh _ _ now | .find _ now | .covering _ now | .within _ now
  | .conflict _ _ _ now | .size now => some now
  | .remove _ => none

/-- A path in the spelling `normalize_path` gives it. -/
def Canonical (path : String) : Prop := normalizePath path = path

/-- Every path the call hands to the table is canonical. -/
def LockCall.Canonical : LockCall → Prop
  | .create request _ _ => WebDav.Canonical request.path
  | .covering path _ | .within path _ | .conflict path _ _ _ => WebDav.Canonical path
  | .refresh .. | .remove _ | .find .. | .size _ => True

/-- The histories of calls with canonical paths on a new table. -/
inductive LockRun (parses : String → Bool) (options : DavLockTableOptions) : LockHistory → Prop
  | start : LockRun parses options
      { table := .new options, granted := [], expiry := fun _ => none }
  | call {history : LockHistory} {call : LockCall} {answer : LockAnswer} {table : DavLockTable} :
      LockRun parses options history → call.Canonical →
      call.answer parses history.table = some (answer, table) →
      LockRun parses options (history.record table answer)

end MountRs.WebDav
