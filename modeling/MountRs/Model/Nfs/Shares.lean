import MountRs.Model.Nfs.State

/-! # Concurrent share reservations

OPEN, OPEN_DOWNGRADE and CLOSE hold the state mutex several times. A request is a task
that runs one critical section a step, and tasks take their steps in any order. -/

namespace MountRs.Nfs

open V4State

inductive ShareRequest
  /-- OPEN; `file` is the entry the file system part finds, or its failure. -/
  | openFile (args : OpenArgs) (cursor : Cursor) (file : Except ℕ Entry)
  | openDowngrade (stateid : Stateid) (shareAccess shareDeny : ℕ) (cursor : Cursor)
  | close (stateid : Stateid) (cursor : Cursor)

/-- How far a request has come. -/
inductive SharePhase
  | start
  /-- OPEN has passed the checks of its client. -/
  | admitted (access clientid : ℕ)
  /-- OPEN has found no conflicting open. -/
  | checked (access clientid : ℕ) (entry : Entry)
  /-- OPEN_DOWNGRADE and CLOSE have validated their stateid. -/
  | validated (access : ℕ)
  | answered (answer : Except Status (Option Stateid))
  deriving DecidableEq

/-- The first section of OPEN_DOWNGRADE. -/
def validateDowngrade (state : V4State) (stateid : Stateid) (shareAccess shareDeny : ℕ)
    (cursor : Cursor) : SharePhase :=
  match openAccessBits shareAccess with
  | none => .answered (.error .inval)
  | some access =>
    if shareDenyBoth < shareDeny then .answered (.error .inval)
    else
      match state.validateStateid stateid cursor none with
      | .error status => .answered (.error status)
      | .ok _ => .validated access

/-- The next critical section of a request. -/
def ShareRequest.section (server : Server) (state : V4State) :
    ShareRequest → SharePhase → SharePhase × V4State
  | .openFile args cursor _, .start =>
    match state.admitOpen server args cursor with
    | .error status => (.answered (.error status), state)
    | .ok (access, clientid) => (.admitted access clientid, state)
  | .openFile args _ file, .admitted access clientid =>
    match file with
    | .error code => (.answered (.error (.filesystem code)), state)
    | .ok entry =>
      if (state.pin entry.id).shareConflict entry.fileid clientid access args then
        (.answered (.error .shareDenied), (state.pin entry.id).unpin entry.id)
      else (.checked access clientid entry, state.pin entry.id)
  | .openFile args _ _, .checked access clientid entry =>
    match state.placeOpen server entry clientid access args with
    | (answer, state) => (.answered (answer.map some), state)
  | .openDowngrade stateid shareAccess shareDeny cursor, .start =>
    (validateDowngrade state stateid shareAccess shareDeny cursor, state)
  | .openDowngrade stateid _ shareDeny _, .validated access =>
    match state.narrowOpen stateid access shareDeny with
    | (answer, state) => (.answered (answer.map some), state)
  | .close stateid cursor, .start =>
    match state.validateStateid stateid cursor none with
    | .error status => (.answered (.error status), state)
    | .ok _ => (.validated 0, state)
  | .close stateid _, .validated _ =>
    match state.removeOpen stateid with
    | (answer, state) => (.answered (answer.map fun _ => none), state)
  | _, phase => (phase, state)

structure ShareWorld where
  state : V4State
  phase : ℕ → SharePhase

/-- Task `i` runs its next section. -/
def ShareWorld.step (server : Server) (requests : ℕ → ShareRequest) (world : ShareWorld) (i : ℕ) :
    ShareWorld :=
  { state := ((requests i).section server world.state (world.phase i)).2
    phase := Function.update world.phase i
      ((requests i).section server world.state (world.phase i)).1 }

/-- A reservation of a file by an open owner, held by an open or asked for by an OPEN. -/
structure Reservation where
  file : ℕ
  clientid : ℕ
  owner : String
  access : ℕ
  deny : ℕ
  deriving DecidableEq

/-- Different owners reserve one file, and one's access meets the other's deny bits. -/
def Reservation.Clash (left right : Reservation) : Prop :=
  left.file = right.file ∧ ¬(left.clientid = right.clientid ∧ left.owner = right.owner) ∧
    (left.deny &&& right.access ≠ 0 ∨ right.deny &&& left.access ≠ 0)

instance (left right : Reservation) : Decidable (left.Clash right) :=
  inferInstanceAs (Decidable (_ ∧ _ ∧ _))

def OpenState.reservation (opened : OpenState) : Reservation :=
  { file := opened.fileId, clientid := opened.clientid, owner := opened.owner
    access := opened.access, deny := opened.deny }

def asked (args : OpenArgs) (access clientid : ℕ) (entry : Entry) : Reservation :=
  { file := entry.fileid, clientid, owner := args.owner, access, deny := args.shareDeny }

end MountRs.Nfs
