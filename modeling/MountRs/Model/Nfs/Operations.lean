import MountRs.Model.Nfs.Locks

/-! # Runs of NFSv4.1 operations

The operations that change the client, session, open and lock tables, and the lease expiry. Each
runs on its own: the critical sections of one OPEN, CLOSE, OPEN_DOWNGRADE or LOCK follow one
another, and no request comes between them. `Model.Nfs.Shares` interleaves the sections of the
first three. -/

namespace MountRs.Nfs

inductive Operation
  | exchangeId (owner verifier : String) (flags stateProtect now : ℕ)
  | createSession (clientid sequence : ℕ) (fore back : ChannelAttrs) (now : ℕ)
  | destroySession (id : ℕ)
  | destroyClientid (clientid : ℕ)
  | openFile (args : V4State.OpenArgs) (cursor : Cursor) (file : Except Status Entry)
  | openDowngrade (stateid : Stateid) (shareAccess shareDeny : ℕ) (cursor : Cursor)
  | close (stateid : Stateid) (cursor : Cursor) (closing : Option Status)
  | lock (request : LockRequest)
  | expire (now : ℕ)

def Operation.perform (server : Server) (state : V4State) : Operation → V4State
  | .exchangeId owner verifier flags stateProtect now =>
    (state.exchangeId owner verifier flags stateProtect now).2
  | .createSession clientid sequence fore back now =>
    (state.createSession server clientid sequence fore back now).2
  | .destroySession id => (state.destroySession id).2
  | .destroyClientid clientid => (state.destroyClientid clientid).2
  | .openFile args cursor file => (state.openFile server args cursor file).2
  | .openDowngrade stateid shareAccess shareDeny cursor =>
    (state.openDowngrade stateid shareAccess shareDeny cursor).2
  | .close stateid cursor closing => (state.closeOpen stateid cursor closing).2
  | .lock request => request.perform server state
  | .expire now => state.expireExpiredClients server now

/-- A client without sessions, opens and locks. -/
def V4State.Unused (state : V4State) (clientid : ℕ) : Prop :=
  (∀ session ∈ state.sessions.values, session.clientid ≠ clientid) ∧
    (∀ opened ∈ state.opens.values, opened.clientid ≠ clientid) ∧
    ∀ lock ∈ state.locks.values, lock.clientid ≠ clientid

/-- The client id whose record an accepted EXCHANGE_ID replaces. -/
def V4State.replaced (state : V4State) (owner verifier : String) (flags stateProtect : ℕ) :
    Option ℕ :=
  if flags ||| exchgidArgMask ≠ exchgidArgMask ∨ stateProtect ≠ 0 ∨ owner = "" then none
  else
    (state.owners.get? owner).filter fun previous =>
      (state.clients.get? previous).all fun client => client.verifier != verifier

end MountRs.Nfs
