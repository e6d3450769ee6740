import MountRs.Library.BTreeMap
import MountRs.Library.Except
import Mathlib.Data.String.Basic

/-! # NFSv4.1 server state

The process-local tables of `v4.rs` and the operations on them. What an operation
asks of the file system (the current filehandle, `stat`, the driver's `open`) is a
parameter: the entry found, or the status of the failure. -/

namespace MountRs.Nfs

/-- The statuses the modelled operations answer; `filesystem` is the status of a
failed path or driver call. -/
inductive Status
  | inval
  | badOwner
  | staleClientid
  | seqMisordered
  | tooSmall
  | noSpc
  | badSession
  | clientidBusy
  | opNotInSession
  | grace
  | noGrace
  | badStateid
  | oldStateid
  | openMode
  | shareDenied
  | resource
  | locksHeld
  | lockNotSupp
  | filesystem (code : ℕ)
  deriving DecidableEq

def u32Max : ℕ := 2 ^ 32 - 1

def u64Max : ℕ := 2 ^ 64 - 1

/-! ## Identifiers -/

/-- The twelve bytes of `other` are read as one number. -/
structure Stateid where
  seqid : ℕ
  other : ℕ
  deriving DecidableEq

variable (stateid : Stateid)

def isZeroStateid : Bool := stateid.seqid == 0 && stateid.other == 0

def isInvalidStateid : Bool := stateid.seqid == u32Max && stateid.other == 0

def bumpStateidSeq (seqid : ℕ) : ℕ := if seqid = u32Max then 1 else seqid + 1

/-- The seed in the high four bytes, the token in the low eight. -/
def serverStateid (seqid seed token : ℕ) : Stateid := { seqid, other := seed * 2 ^ 64 + token }

def seededCounter (seed counter : ℕ) : ℕ := seed * 2 ^ 32 + counter % 2 ^ 32

/-- The seed, the tag of the write verifier and the counter, as one number. -/
def sessionId (seed verifierTag counter : ℕ) : ℕ :=
  seed * 2 ^ 96 + verifierTag * 2 ^ 64 + counter

def saturatingNext (counter : ℕ) : ℕ := max (min (counter + 1) u64Max) 1

inductive SeqidOrdering
  | less
  | equal
  | greater
  deriving DecidableEq

/-- Serial-number comparison: the half-range boundary counts as older. -/
def compareStateidSeqid (requested current : ℕ) : SeqidOrdering :=
  match (requested + 2 ^ 32 - current) % 2 ^ 32 with
  | 0 => .equal
  | distance => if 2 ^ 31 ≤ distance then .less else .greater

/-! ## Tables -/

structure ChannelAttrs where
  maxRequestSize : ℕ
  maxResponseSize : ℕ
  maxResponseSizeCached : ℕ
  maxOperations : ℕ
  maxRequests : ℕ
  deriving DecidableEq

inductive CreateSessionResult
  | failed (status : Status)
  | created (id sequence : ℕ) (fore back : ChannelAttrs)
  deriving DecidableEq

structure CreateSessionReplay where
  sequence : ℕ
  result : CreateSessionResult
  deriving DecidableEq

structure ClientState where
  owner : String
  verifier : String
  id : ℕ
  confirmed : Bool
  sequence : ℕ
  renewed : ℕ
  reclaimComplete : Bool
  createSessionReplay : Option CreateSessionReplay
  deriving DecidableEq

/-- The result of one operation of a compound; status zero is NFS4_OK, and `body` is
what the operation encodes after its status. -/
structure OpResult where
  opnum : ℕ
  status : ℕ
  body : List ℕ
  deriving DecidableEq

/-- The body of a compound reply, before its encoding. -/
structure Reply where
  status : ℕ
  tag : String
  results : List OpResult
  deriving DecidableEq

structure CachedReply where
  sequence : ℕ
  body : Reply
  credentials : String
  deriving DecidableEq

structure SessionState where
  id : ℕ
  clientid : ℕ
  nextSequence : List ℕ
  inFlight : List (Option ℕ)
  cached : List (Option CachedReply)
  maxOperations : ℕ
  maxCached : ℕ
  deriving DecidableEq

/-- `readHandle` and `writeHandle` say whether a backend handle of that mode is kept. -/
structure OpenState where
  stateid : Stateid
  clientid : ℕ
  handleId : ℕ
  fileId : ℕ
  readHandle : Bool
  writeHandle : Bool
  access : ℕ
  deny : ℕ
  owner : String
  deriving DecidableEq

inductive LockAccess
  | read
  | write
  deriving DecidableEq

structure LockRange where
  offset : ℕ
  length : ℕ
  lockType : LockAccess
  deriving DecidableEq

structure LockState where
  stateid : Stateid
  clientid : ℕ
  fileId : ℕ
  openOther : ℕ
  owner : String
  ranges : List LockRange
  deriving DecidableEq

/-- The tables behind the state mutex, and the pin counts of the handle table. -/
structure V4State where
  seed : ℕ
  nextClientid : ℕ
  nextSession : ℕ
  nextStateid : ℕ
  clients : BTreeMap ℕ ClientState
  owners : BTreeMap String ℕ
  sessions : BTreeMap ℕ SessionState
  opens : BTreeMap ℕ OpenState
  locks : BTreeMap ℕ LockState
  pins : ℕ → ℕ

/-- The options of the server that the operations read. -/
structure Server where
  requireReclaimComplete : Bool
  maxSessions : ℕ
  maxForeSlots : ℕ
  maxOperations : ℕ
  maxRequestSize : ℕ
  maxCachedResponseSize : ℕ
  maxOpensPerFile : ℕ
  maxLocksPerFile : ℕ
  leaseDuration : ℕ
  verifierTag : ℕ

/-- The identity a compound carries from its SEQUENCE, and the file its current
filehandle decodes to. -/
structure Cursor where
  clientid : Option ℕ
  current : Option ℕ

structure Entry where
  id : ℕ
  fileid : ℕ
  deriving DecidableEq

def V4State.start (seed : ℕ) : V4State :=
  { seed, nextClientid := 1, nextSession := 1, nextStateid := 1
    clients := ∅, owners := ∅, sessions := ∅, opens := ∅, locks := ∅
    pins := fun _ => 0 }

namespace V4State

variable (state : V4State)

def allocateStateid : Option (Stateid × V4State) :=
  if state.nextStateid = u64Max then none
  else
    some (serverStateid 1 state.seed state.nextStateid,
      { state with nextStateid := state.nextStateid + 1 })

def pin (id : ℕ) : V4State :=
  { state with pins := Function.update state.pins id (state.pins id + 1) }

def unpin (id : ℕ) : V4State :=
  { state with pins := Function.update state.pins id (state.pins id - 1) }

/-! ## Clients and sessions -/

/-- The flag bits EXCHANGE_ID accepts. -/
def exchgidArgMask : ℕ := 0x1 ||| 0x2 ||| 0x100 ||| 0x10000 ||| 0x20000 ||| 0x40000 ||| 0x40000000

/-- EXCHANGE_ID: a known owner with its verifier keeps its client id, any other request
replaces the owner's client by a new one. -/
def exchangeId (owner verifier : String) (flags stateProtect now : ℕ) :
    Except Status (ℕ × Bool) × V4State :=
  if flags ||| exchgidArgMask ≠ exchgidArgMask then (.error .inval, state)
  else if stateProtect ≠ 0 then (.error .inval, state)
  else if owner = "" then (.error .badOwner, state)
  else
    match (state.owners.get? owner).bind fun id =>
        (state.clients.get? id).bind fun client =>
          if client.verifier = verifier then some (id, client.confirmed) else none with
    | some known => (.ok known, state)
    | none =>
      let id := seededCounter state.seed state.nextClientid
      let remaining :=
        match state.owners.get? owner with
        | some previous => state.clients.erase previous
        | none => state.clients
      (.ok (id, false),
        { state with
          nextClientid := saturatingNext state.nextClientid
          owners := state.owners.insert owner id
          clients := remaining.insert id
            { owner, verifier, id, confirmed := false, sequence := 1, renewed := now
              reclaimComplete := false, createSessionReplay := none } })

def minResponseSize : ℕ := 128

def defaultMaxSlots : ℕ := 64

def maxCompoundOps : ℕ := 4096

def clamp (value low high : ℕ) : ℕ := max low (min value high)

/-- Remember the answer of a CREATE_SESSION and advance the client's sequence. -/
def rememberSession (clientid sequence : ℕ) (client : ClientState)
    (result : CreateSessionResult) : V4State :=
  { state with
    clients := state.clients.insert clientid
      { client with
        sequence := (client.sequence + 1) % 2 ^ 32
        createSessionReplay := some { sequence, result } } }

def createSession (server : Server) (state : V4State) (clientid sequence : ℕ)
    (fore back : ChannelAttrs) (now : ℕ) : CreateSessionResult × V4State :=
  match state.clients.get? clientid with
  | none => (.failed .staleClientid, state)
  | some client =>
    match client.createSessionReplay.filter fun replay => replay.sequence == sequence with
    | some replay => (replay.result, state)
    | none =>
      if client.sequence ≠ sequence then (.failed .seqMisordered, state)
      else if fore.maxResponseSize < minResponseSize then
        (.failed .tooSmall, state.rememberSession clientid sequence client (.failed .tooSmall))
      else if max server.maxSessions 1 ≤
          (state.sessions.values.filter fun session => session.clientid == clientid).length then
        (.failed .noSpc, state.rememberSession clientid sequence client (.failed .noSpc))
      else
        let id := sessionId state.seed server.verifierTag state.nextSession
        let maxForeSlots := clamp server.maxForeSlots 1 defaultMaxSlots
        let slots := clamp fore.maxRequests 1 maxForeSlots
        let maxOperations :=
          clamp fore.maxOperations 1 (clamp server.maxOperations 1 maxCompoundOps)
        let maxRequestSize := min (max server.maxRequestSize 1) u32Max
        let maxCachedResponseSize := min server.maxCachedResponseSize u32Max
        let maxCached := min fore.maxResponseSizeCached maxCachedResponseSize
        let session : SessionState :=
          { id, clientid, nextSequence := List.replicate slots 1
            inFlight := List.replicate slots none, cached := List.replicate slots none
            maxOperations, maxCached }
        let result : CreateSessionResult :=
          .created id sequence
            { maxRequestSize := min fore.maxRequestSize maxRequestSize
              maxResponseSize := min fore.maxResponseSize maxRequestSize
              maxResponseSizeCached := min fore.maxResponseSizeCached maxCached
              maxOperations, maxRequests := slots }
            { back with
              maxRequestSize := min back.maxRequestSize maxRequestSize
              maxResponseSize := min back.maxResponseSize maxRequestSize
              maxResponseSizeCached := min back.maxResponseSizeCached maxCachedResponseSize }
        (result,
          { state.rememberSession clientid sequence
              { client with confirmed := true, renewed := now } result with
            nextSession := saturatingNext state.nextSession
            sessions := state.sessions.insert id session })

def destroySession (id : ℕ) : Except Status Unit × V4State :=
  if state.sessions.contains id then
    (.ok (), { state with sessions := state.sessions.erase id })
  else (.error .badSession, state)

/-- DESTROY_CLIENTID refuses a client with sessions or locks. -/
def destroyClientid (clientid : ℕ) : Except Status Unit × V4State :=
  if state.sessions.values.any (fun session => session.clientid == clientid) ∨
      state.locks.values.any (fun lock => lock.clientid == clientid) then
    (.error .clientidBusy, state)
  else
    match state.clients.get? clientid with
    | some client =>
      (.ok (),
        { state with
          clients := state.clients.erase clientid
          owners := state.owners.erase client.owner })
    | none => (.error .staleClientid, state)

/-- One iteration of the expiry loop: the client goes with its sessions, locks, opens
and the pins of the opens. -/
def expireClient (clientid : ℕ) : V4State :=
  if state.clients.contains clientid then
    { state with
      clients := state.clients.erase clientid
      owners := state.owners.retain fun _ owner => owner != clientid
      sessions := state.sessions.retain fun _ session => session.clientid != clientid
      locks := state.locks.retain fun _ lock => lock.clientid != clientid
      opens := state.opens.retain fun _ opened => opened.clientid != clientid
      pins := fun id => state.pins id -
        (state.opens.values.filter fun opened =>
          opened.clientid == clientid && opened.handleId == id).length }
  else state

def expireExpiredClients (server : Server) (state : V4State) (now : ℕ) : V4State :=
  ((state.clients.entries.filter fun entry =>
    decide (server.leaseDuration ≤ now - entry.2.renewed)).map Prod.fst).foldl expireClient state

/-! ## Opens -/

def shareAccessRead : ℕ := 1

def shareAccessWrite : ℕ := 2

def shareAccessBoth : ℕ := 3

def shareDenyBoth : ℕ := 3

/-- The bits a share access may have besides the access itself. -/
def shareAccessWants : ℕ := 0xff00 ||| 0x10000 ||| 0x20000

def openAccessBits (value : ℕ) : Option ℕ :=
  if value &&& shareAccessBoth ≠ 0 ∧
      value ||| (shareAccessBoth ||| shareAccessWants) = shareAccessBoth ||| shareAccessWants then
    some (value &&& shareAccessBoth)
  else none

def validateStateid (cursor : Cursor)
    (requiredAccess : Option ℕ) : Except Status (Option OpenState) :=
  if isZeroStateid stateid then .ok none
  else if isInvalidStateid stateid then .error .badStateid
  else
    match state.opens.get? stateid.other with
    | none => .error .badStateid
    | some opened =>
      if cursor.clientid ≠ some opened.clientid then .error .badStateid
      else if stateid.seqid ≠ 0 ∧
          compareStateidSeqid stateid.seqid opened.stateid.seqid = .greater then
        .error .badStateid
      else if stateid.seqid ≠ 0 ∧
          compareStateidSeqid stateid.seqid opened.stateid.seqid = .less then
        .error .oldStateid
      else if ∃ access ∈ requiredAccess, opened.access &&& access = 0 then .error .openMode
      else if ∃ file ∈ cursor.current, file ≠ opened.fileId then .error .badStateid
      else .ok (some opened)

structure OpenArgs where
  shareAccess : ℕ
  shareDeny : ℕ
  owner : String
  deriving DecidableEq

/-- The checks of OPEN before it touches the file system: the access bits and client. -/
def admitOpen (server : Server) (state : V4State) (args : OpenArgs) (cursor : Cursor) :
    Except Status (ℕ × ℕ) :=
  match openAccessBits args.shareAccess with
  | none => .error .inval
  | some access =>
    if shareDenyBoth < args.shareDeny then .error .inval
    else
      match cursor.clientid with
      | none => .error .opNotInSession
      | some clientid =>
        match state.clients.get? clientid with
        | none => .error .staleClientid
        | some client =>
          if server.requireReclaimComplete ∧ ¬client.reclaimComplete then .error .grace
          else .ok (access, clientid)

/-- The share check: an open of the file by another owner denies the access, or has an
access that the request denies. -/
def shareConflict (fileid clientid access : ℕ) (args : OpenArgs) : Bool :=
  state.opens.values.any fun opened =>
    opened.fileId == fileid && !(opened.clientid == clientid && opened.owner == args.owner) &&
      (opened.deny &&& access != 0 || args.shareDeny &&& opened.access != 0)

/-- The open of the file by the same client and owner, if there is one. -/
def ownOpen (fileid clientid : ℕ) (args : OpenArgs) : Option (ℕ × OpenState) :=
  state.opens.entries.find? fun entry =>
    entry.2.clientid == clientid && entry.2.fileId == fileid && entry.2.owner == args.owner

def upgraded (opened : OpenState) (access : ℕ) (args : OpenArgs) : OpenState :=
  { opened with
    readHandle := opened.readHandle || access &&& shareAccessRead != 0
    writeHandle := opened.writeHandle || access &&& shareAccessWrite != 0
    access := opened.access ||| access
    deny := opened.deny ||| args.shareDeny
    stateid := { opened.stateid with seqid := bumpStateidSeq opened.stateid.seqid } }

def newOpen (entry : Entry) (clientid access : ℕ) (args : OpenArgs) : OpenState :=
  { stateid, clientid, handleId := entry.id, fileId := entry.fileid
    readHandle := access &&& shareAccessRead != 0
    writeHandle := access &&& shareAccessWrite != 0
    access, deny := args.shareDeny, owner := args.owner }

/-- The last section of OPEN: upgrade the owner's open of the file or insert a new one.
The caller pinned the entry before; a failure and an upgrade unpin it. -/
def placeOpen (server : Server) (state : V4State) (entry : Entry) (clientid access : ℕ)
    (args : OpenArgs) : Except Status Stateid × V4State :=
  match state.ownOpen entry.fileid clientid args with
  | some (key, opened) =>
    (.ok (upgraded opened access args).stateid,
      { state.unpin entry.id with
        opens := state.opens.insert key (upgraded opened access args) })
  | none =>
    if max server.maxOpensPerFile 1 ≤
        (state.opens.values.filter fun opened => opened.fileId == entry.fileid).length then
      (.error .resource, state.unpin entry.id)
    else
      match state.allocateStateid with
      | none => (.error .resource, state.unpin entry.id)
      | some (stateid, state) =>
        (.ok stateid,
          { state with
            opens := state.opens.insert stateid.other
              (newOpen stateid entry clientid access args) })

/-- OPEN with its critical sections run one after another, without another request between them.
`file` is what the file system part finds. -/
def openFile (server : Server) (state : V4State) (args : OpenArgs) (cursor : Cursor)
    (file : Except Status Entry) : Except Status Stateid × V4State :=
  match admitOpen server state args cursor with
  | .error status => (.error status, state)
  | .ok (access, clientid) =>
    match file with
    | .error status => (.error status, state)
    | .ok entry =>
      if (state.pin entry.id).shareConflict entry.fileid clientid access args then
        (.error .shareDenied, (state.pin entry.id).unpin entry.id)
      else (state.pin entry.id).placeOpen server entry clientid access args

/-- The second section of OPEN_DOWNGRADE. -/
def narrowOpen (access deny : ℕ) : Except Status Stateid × V4State :=
  match state.opens.get? stateid.other with
  | none => (.error .badStateid, state)
  | some opened =>
    if opened.access ||| access ≠ opened.access ∨ opened.deny ||| deny ≠ opened.deny then
      (.error .inval, state)
    else
      let narrowed : OpenState :=
        { opened with
          access
          deny
          stateid := { opened.stateid with seqid := bumpStateidSeq opened.stateid.seqid } }
      (.ok narrowed.stateid, { state with opens := state.opens.insert stateid.other narrowed })

def openDowngrade (shareAccess shareDeny : ℕ) (cursor : Cursor) : Except Status Stateid × V4State :=
  match openAccessBits shareAccess with
  | none => (.error .inval, state)
  | some access =>
    if shareDenyBoth < shareDeny then (.error .inval, state)
    else
      match state.validateStateid stateid cursor none with
      | .error status => (.error status, state)
      | .ok _ => state.narrowOpen stateid access shareDeny

/-- The second section of CLOSE: refused while a lock state of the open has ranges,
else the lock states of the open go with it. -/
def removeOpen : Except Status Unit × V4State :=
  match state.opens.get? stateid.other with
  | none => (.error .badStateid, state)
  | some opened =>
    let ofOpen : LockState → Bool := fun lock =>
      lock.clientid == opened.clientid && lock.fileId == opened.fileId &&
        lock.openOther == opened.stateid.other
    if state.locks.values.any (fun lock => ofOpen lock && !lock.ranges.isEmpty) then
      (.error .locksHeld, state)
    else
      (.ok (),
        { state.unpin opened.handleId with
          locks := state.locks.retain fun _ lock => !ofOpen lock
          opens := state.opens.erase stateid.other })

/-- CLOSE; `closing` is the failure of closing a backend handle, if any. -/
def closeOpen (cursor : Cursor) (closing : Option Status) : Except Status Unit × V4State :=
  match state.validateStateid stateid cursor none with
  | .error status => (.error status, state)
  | .ok _ =>
    match state.removeOpen stateid, closing with
    | (.ok (), state), some status => (.error status, state)
    | answer, _ => answer

end V4State

end MountRs.Nfs
