import MountRs.Library.BigEndian
import MountRs.Library.Except

/-! # Binary frames of the remote protocol

`binary.rs`. A stream is what is still to be read of it; a reader returns its value and the
rest. A writer returns what it writes; it meets no error of the stream. -/

namespace MountRs.Remote

open Except

abbrev Bytes := List UInt8

inductive FrameError
  | io
  | json
  | invalidLength

def MAX_IO_BYTES : ℕ := 1024 * 1024

def MAX_CONTROL_BYTES : ℕ := 8 * 1024 * 1024

def HEADER_BYTES : ℕ := 32

def IO_PREFIX_BYTES : ℕ := 18

def MAX_DRIVE_ID_BYTES : ℕ := 64

def MIN_IO_CONTROL_BYTES : ℕ := IO_PREFIX_BYTES + 1

def MAX_IO_CONTROL_BYTES : ℕ := IO_PREFIX_BYTES + MAX_DRIVE_ID_BYTES

/-! ## Headers -/

inductive Kind
  | control
  | read
  | write
  | readResult
  | writeResult
  | error
deriving DecidableEq

def Kind.byte : Kind → UInt8
  | .control => 0
  | .read => 1
  | .write => 2
  | .readResult => 3
  | .writeResult => 4
  | .error => 5

def Kind.ofByte (b : UInt8) : Option Kind :=
  [control, read, write, readResult, writeResult, error].find? fun kind => kind.byte == b

structure Header where
  kind : Kind
  requestId : UInt64
  controlLen : ℕ
  payloadLen : ℕ
  count : ℕ

def validLengths (kind : Kind) (id : UInt64) (control payload count : ℕ) : Bool :=
  if MAX_CONTROL_BYTES < control ∨ MAX_IO_BYTES < payload ∨ MAX_IO_BYTES < count then false
  else match kind with
    | .control => id = 0 ∧ 0 < control ∧ payload = 0 ∧ count = 0
    | .read => 0 < id ∧ (MIN_IO_CONTROL_BYTES ≤ control ∧ control ≤ MAX_IO_CONTROL_BYTES) ∧
        payload = 0
    | .write => 0 < id ∧ (MIN_IO_CONTROL_BYTES ≤ control ∧ control ≤ MAX_IO_CONTROL_BYTES) ∧
        count = 0
    | .readResult => 0 < id ∧ control = 0 ∧ count = payload
    | .writeResult => 0 < id ∧ control = 0 ∧ payload = 0
    | .error => 0 < id ∧ (1 ≤ control ∧ control ≤ 64) ∧ payload = 0 ∧ count = 0

/-- `b"MRB2"`. -/
def magic : Bytes := [77, 82, 66, 50]

/-- `bytes[start..stop]`. -/
def slice (bytes : Bytes) (start stop : ℕ) : Bytes := (bytes.drop start).take (stop - start)

def readExact (n : ℕ) (stream : Bytes) : Except FrameError (Bytes × Bytes) :=
  if n ≤ stream.length then .ok (stream.take n, stream.drop n) else .error .io

namespace Header

def new (kind : Kind) (requestId : UInt64) (controlLen payloadLen count : ℕ) :
    Except FrameError Header := do
  failIf (validLengths kind requestId controlLen payloadLen count = false) .invalidLength
  return ⟨kind, requestId, controlLen, payloadLen, count⟩

/-- The call of `new` with which every function that takes a header starts. -/
def check (h : Header) : Except FrameError Header :=
  new h.kind h.requestId h.controlLen h.payloadLen h.count

/-- The array that `encode` fills. -/
def layout (h : Header) : Bytes :=
  magic ++ [h.kind.byte] ++ [0, 0, 0] ++ toBeBytes 8 h.requestId.toNat ++
    toBeBytes 4 h.controlLen ++ toBeBytes 4 h.payloadLen ++ toBeBytes 4 h.count ++ [0, 0, 0, 0]

def encode (h : Header) : Except FrameError Bytes := do
  let _ ← h.check
  return h.layout

def decode (b : Bytes) : Except FrameError Header := do
  failIf (slice b 0 4 ≠ magic ∨ slice b 5 8 ≠ [0, 0, 0] ∨ slice b 28 32 ≠ [0, 0, 0, 0])
    .invalidLength
  let kind ← okOr (Kind.ofByte (b.getD 4 0)) .invalidLength
  new kind (.ofNat (fromBeBytes (slice b 8 16))) (fromBeBytes (slice b 16 20))
    (fromBeBytes (slice b 20 24)) (fromBeBytes (slice b 24 28))

def read (stream : Bytes) : Except FrameError (Header × Bytes) := do
  let (b, stream) ← readExact HEADER_BYTES stream
  return (← decode b, stream)

end Header

def emit (h : Header) (control data : Bytes) : Except FrameError Bytes := do
  let encoded ← h.encode
  failIf (control.length ≠ h.controlLen ∨ data.length ≠ h.payloadLen) .invalidLength
  return encoded ++ control ++ data

/-! ## Requests -/

structure IoRequest where
  driveId : Bytes
  handle : UInt64
  position : Option UInt64

def isAsciiUppercase (b : UInt8) : Bool := 65 ≤ b && b ≤ 90

def isAsciiDigit (b : UInt8) : Bool := 48 ≤ b && b ≤ 57

def isAsciiAlphanumeric (b : UInt8) : Bool :=
  isAsciiUppercase b || isAsciiDigit b || (97 ≤ b && b ≤ 122)

def validDriveId (bytes : Bytes) : Bool :=
  (1 ≤ bytes.length && bytes.length ≤ MAX_DRIVE_ID_BYTES) &&
    bytes.all fun b => isAsciiAlphanumeric b || [45, 95, 46].contains b

/-- The metadata that `write_request` fills. -/
def ioMetadata (request : IoRequest) : Bytes :=
  [.ofNat request.driveId.length, if request.position.isSome then 1 else 0] ++
    toBeBytes 8 request.handle.toNat ++ toBeBytes 8 (request.position.getD 0).toNat ++
    request.driveId

def writeRequest (id : UInt64) (request : IoRequest) (length : ℕ) (data : Option Bytes) :
    Except FrameError Bytes := do
  failIf (validDriveId request.driveId = false) .invalidLength
  let controlLen := IO_PREFIX_BYTES + request.driveId.length
  let header ← match data with
    | some b => Header.new .write id controlLen b.length 0
    | none => Header.new .read id controlLen 0 length
  emit header (ioMetadata request) (data.getD [])

def readIoMetadata (h : Header) (stream : Bytes) : Except FrameError (IoRequest × Bytes) := do
  let _ ← h.check
  failIf (h.kind ≠ .read ∧ h.kind ≠ .write) .invalidLength
  let (metadata, stream) ← readExact h.controlLen stream
  let flags := metadata.getD 1 0
  let position := fromBeBytes (slice metadata 10 18)
  let driveId := slice metadata IO_PREFIX_BYTES h.controlLen
  failIf (flags &&& ~~~1 ≠ 0 ∨ h.controlLen ≠ IO_PREFIX_BYTES + (metadata.getD 0 0).toNat ∨
    (flags = 0 ∧ position ≠ 0) ∨ validDriveId driveId = false) .invalidLength
  return ({
    driveId
    handle := .ofNat (fromBeBytes (slice metadata 2 10))
    position := if flags = 1 then some (.ofNat position) else none }, stream)

inductive Incoming (μ : Type)
  | control (message : μ)
  | read (requestId : UInt64) (request : IoRequest) (length : ℕ)
  | write (requestId : UInt64) (request : IoRequest) (data : Bytes)

/-- `parse` reads the JSON text of a control message. -/
def readBody {μ : Type} (parse : Bytes → Except FrameError μ) (h : Header) (stream : Bytes) :
    Except FrameError (Incoming μ × Bytes) := do
  let _ ← h.check
  failIf (h.kind ≠ .control ∧ h.kind ≠ .read ∧ h.kind ≠ .write) .invalidLength
  if h.kind = .control then
    let (b, stream) ← readExact h.controlLen stream
    return (.control (← parse b), stream)
  else
    let (request, stream) ← readIoMetadata h stream
    if h.kind = .read then return (.read h.requestId request h.count, stream)
    else
      let (data, stream) ← readExact h.payloadLen stream
      return (.write h.requestId request data, stream)

/-! ## Results -/

inductive IoResult
  | read (data : Bytes)
  | write (count : ℕ)

/-- An error is its code. -/
def writeResult (id : UInt64) : Except Bytes IoResult → Except FrameError Bytes
  | .ok (.read data) => do
    emit (← Header.new .readResult id 0 data.length data.length) [] data
  | .ok (.write count) => do emit (← Header.new .writeResult id 0 0 count) [] []
  | .error code => do
    failIf (code = [] ∨ 64 < code.length) .invalidLength
    emit (← Header.new .error id code.length 0 0) code []

/-- The result with the caller's buffer after it. -/
def readResult (id : UInt64) (read : Bool) (buffer : Bytes) (writeLimit : ℕ) (stream : Bytes) :
    Except FrameError ((Except Bytes ℕ × Bytes) × Bytes) := do
  let (h, stream) ← Header.read stream
  failIf (h.requestId ≠ id) .invalidLength
  if h.kind = .error then
    let (code, stream) ← readExact h.controlLen stream
    -- A code that is not UTF-8 fails here too: the bytes this admits are ASCII.
    failIf (code.all (fun b => isAsciiUppercase b || isAsciiDigit b) = false) .invalidLength
    return ((.error code, buffer), stream)
  else if read then
    failIf (h.kind ≠ .readResult ∨ buffer.length < h.payloadLen) .invalidLength
    let (data, stream) ← readExact h.payloadLen stream
    return ((.ok h.count, data ++ buffer.drop h.payloadLen), stream)
  else
    failIf (h.kind ≠ .writeResult ∨ writeLimit < h.count) .invalidLength
    return ((.ok h.count, buffer), stream)

end MountRs.Remote
