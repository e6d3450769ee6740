import Mathlib.Data.List.DropRight
import MountRs.Library.Except

/-! # Incremental aws-chunked decoder

`StreamingBodyDecoder` as the HTTP write path drives it: `feed` until the body ends, then
`finish`. A decoder that answered an error is dropped by its caller, so an error carries no
state. SHA-256, HMAC and the date format are parameters. Allocation is left out. -/

namespace MountRs.S3.Streaming

open Except (failIf okOr)

abbrev Bytes := List UInt8

/-- Decoded text, one character an entry. -/
abbrev Text := List Char

/-! ## Text -/

def isWhitespace (c : Char) : Bool :=
  let n := c.toNat
  (9 ≤ n && n ≤ 13) || n == 32 || n == 0x85 || n == 0xa0 || n == 0x1680 ||
    (0x2000 ≤ n && n ≤ 0x200a) || n == 0x2028 || n == 0x2029 || n == 0x202f || n == 0x205f ||
    n == 0x3000

def trim (text : Text) : Text := (text.dropWhile isWhitespace).rdropWhile isWhitespace

def toAsciiLowercase (text : Text) : Text := text.map Char.toLower

def eqIgnoreAsciiCase (left right : Text) : Bool := toAsciiLowercase left == toAsciiLowercase right

/-- `str::len`, the length in bytes. -/
def utf8Len (text : Text) : ℕ := (text.map Char.utf8Size).sum

def splitOnce (separator : Char) (text : Text) : Option (Text × Text) :=
  match text.dropWhile (· != separator) with
  | [] => none
  | _ :: after => some (text.takeWhile (· != separator), after)

def hexDigit (c : Char) : Option ℕ :=
  if '0' ≤ c ∧ c ≤ '9' then some (c.toNat - '0'.toNat)
  else if 'a' ≤ c ∧ c ≤ 'f' then some (c.toNat - 'a'.toNat + 10)
  else if 'A' ≤ c ∧ c ≤ 'F' then some (c.toNat - 'A'.toNat + 10)
  else none

def u64Max : ℕ := 2 ^ 64 - 1

/-- `u64::from_str_radix` over digits that are already valued. -/
def fromDigits (radix : ℕ) (digits : List (Option ℕ)) : Option ℕ :=
  if digits.isEmpty then none
  else digits.foldlM (fun value digit => do
    let digit ← digit
    if value * radix + digit ≤ u64Max then some (value * radix + digit) else none) 0

/-- `u64::from_str_radix(text, 16)`, which allows one leading plus sign. -/
def fromStrRadix16 (text : Text) : Option ℕ :=
  match text with
  | '+' :: digits => fromDigits 16 (digits.map hexDigit)
  | digits => fromDigits 16 (digits.map hexDigit)

def latin1 (bytes : Bytes) : Text := bytes.map fun byte => Char.ofNat byte.toNat

def findCrlf : Bytes → Option ℕ
  | first :: second :: rest =>
    if first = 13 ∧ second = 10 then some 0 else (findCrlf (second :: rest)).map (· + 1)
  | _ => none

/-! ## Request signature -/

structure HeaderEntry where
  name : Text
  value : Text
  deriving DecidableEq

structure CredentialScope where
  date : Text
  region : Text
  service : Text
  deriving DecidableEq

structure Credentials where
  secretAccessKey : Text
  deriving DecidableEq

structure VerifiedRequest where
  scope : CredentialScope
  timestampMs : ℤ
  signature : Text
  presigned : Bool
  deriving DecidableEq

/-- The functions of `sigv4` that compute a digest, a signature or a date. -/
structure Sigv4 where
  sha256Hex : Bytes → Text
  signChunk : Text → CredentialScope → Text → Text → Text → Text
  signTrailer : Text → CredentialScope → Text → Text → Text → Text
  formatAmzDate : ℤ → Text

structure ChunkSigning where
  credentials : Credentials
  verified : VerifiedRequest
  deriving DecidableEq

def streamingPayload : Text := "STREAMING-AWS4-HMAC-SHA256-PAYLOAD".toList

def streamingPayloadTrailer : Text := "STREAMING-AWS4-HMAC-SHA256-PAYLOAD-TRAILER".toList

def streamingUnsignedPayloadTrailer : Text := "STREAMING-UNSIGNED-PAYLOAD-TRAILER".toList

variable (headers : List HeaderEntry)

def headerValues (name : Text) : List Text :=
  (headers.filter fun header => eqIgnoreAsciiCase header.name name).map (·.value)

def headerValue (name : Text) : Option Text :=
  (headerValues headers name).head?

def headerList (name : Text) : Option Text :=
  let values := headerValues headers name
  if values.isEmpty then none else some (", ".toList.intercalate values)

def contentEncodingChunked : Bool :=
  (headerList headers "content-encoding".toList).any fun value =>
    (value.splitOn ',').any fun item => eqIgnoreAsciiCase (trim item) "aws-chunked".toList

def contentSha256Header : Text := "x-amz-content-sha256".toList

def decodedLengthHeader : Text := "x-amz-decoded-content-length".toList

def declaredTrailersHeader : Text := "x-amz-trailer".toList

def awsChunkedBody : Bool :=
  let streaming := (headerValue headers contentSha256Header).getD []
  contentEncodingChunked headers || streaming == streamingPayload ||
    streaming == streamingPayloadTrailer || streaming == streamingUnsignedPayloadTrailer

def maxSafeLength : ℕ := 9007199254740991

def decimalDigit (c : Char) : Option ℕ :=
  if '0' ≤ c ∧ c ≤ '9' then some (c.toNat - '0'.toNat) else none

def parseDeclaredLength (value : Text) : Option ℕ := do
  let value ← fromDigits 10 ((trim value).map decimalDigit)
  if value ≤ maxSafeLength then some value else none

/-! ## The decoder -/

inductive ErrorCode
  | incompleteBody
  | invalidRequest
  | invalidArgument
  | entityTooLarge
  | signatureDoesNotMatch
  deriving DecidableEq

/-- An error code with the message that replaces its usual one. -/
structure Failure where
  code : ErrorCode
  message : Option String
  deriving DecidableEq

def Failure.s3 (code : ErrorCode) : Failure := { code, message := none }

def errorWithMessage (code : ErrorCode) (message : String) : Failure :=
  { code, message := some message }

abbrev S3Result := Except Failure

inductive StreamingDecodeState
  | header
  | payload
  | payloadCr
  | payloadLf
  | trailer
  | epilogue
  | done
  deriving DecidableEq

structure StreamingBodyDecoder where
  encoded : Bytes
  state : StreamingDecodeState
  currentSize : ℕ
  currentRemaining : ℕ
  currentSignature : Option Text
  currentPayload : Bytes
  previousSignature : Option Text
  decodedLength : Option ℕ
  decoded : ℕ
  maxBodyBytes : ℕ
  signing : Option ChunkSigning
  declaredTrailers : List Text
  trailerBlock : Bytes
  seenTrailers : List Text
  deriving DecidableEq

def maxSignedChunkBytes : ℕ := 8 * 1024 * 1024
def maxChunkHeaderBytes : ℕ := 256
def maxTrailerBytes : ℕ := 16 * 1024
def maxStreamingFeedBytes : ℕ := 64 * 1024

def trailerSignatureHeader : Text := "x-amz-trailer-signature".toList

inductive DecodedSizeError
  | bodyTooLarge
  | declaredLengthExceeded
  deriving DecidableEq

def checkedDecodedTotal (decoded additional maxBodyBytes : ℕ) (decodedLength : Option ℕ) :
    Except DecodedSizeError ℕ :=
  let next := decoded + additional
  if u64Max < next then .error .bodyTooLarge
  else if maxBodyBytes < next then .error .bodyTooLarge
  else if decodedLength.any (· < next) then .error .declaredLengthExceeded
  else .ok next

def decodedSizeFailure : DecodedSizeError → Failure
  | .bodyTooLarge => .s3 .entityTooLarge
  | .declaredLengthExceeded => .s3 .incompleteBody

def decodedLengthOf : S3Result (Option ℕ) :=
  match headerValue headers decodedLengthHeader with
  | none => .ok none
  | some value => do
    let length ← okOr (parseDeclaredLength value) (.s3 .invalidArgument)
    return some length

/-- The trailers named by `x-amz-trailer`, each once. -/
def declaredTrailersOf (value : Text) : List Text :=
  (((value.splitOn ',').map trim).filter (· ≠ [])).foldl (fun names name =>
    let name := toAsciiLowercase name
    if names.contains name then names else names ++ [name]) []

def StreamingBodyDecoder.new (maxBodyBytes : ℕ)
    (verified : Option VerifiedRequest) (credentials : Option Credentials) :
    S3Result (Option StreamingBodyDecoder) := do
  if !awsChunkedBody headers then return none
  let streaming := (headerValue headers contentSha256Header).getD []
  let signedStreaming := streaming == streamingPayload || streaming == streamingPayloadTrailer
  let decodedLength ← decodedLengthOf headers
  let declaredTrailers :=
    ((headerValue headers declaredTrailersHeader).map declaredTrailersOf).getD []
  let signing := if signedStreaming then
      match credentials, verified with
      | some credentials, some verified =>
        if verified.presigned then none else some { credentials, verified }
      | _, _ => none
    else none
  return some
    { encoded := []
      state := .header
      currentSize := 0
      currentRemaining := 0
      currentSignature := none
      currentPayload := []
      previousSignature := signing.map (·.verified.signature)
      decodedLength
      decoded := 0
      maxBodyBytes
      signing
      declaredTrailers
      trailerBlock := []
      seenTrailers := [] }

def ensureTrailersPresent (declared seen : List Text) : S3Result Unit :=
  failIf (∃ name ∈ declared, name ∉ seen) (.s3 .invalidRequest)

/-- Sixty-four hexadecimal digits. -/
def isSignature (value : Text) : Bool := utf8Len value == 64 && value.all fun c => (hexDigit c).isSome

/-- The size and the signature that a chunk's header line gives. -/
def parseChunkHeader (line : Bytes) : S3Result (ℕ × Option Text) := do
  let fields := (latin1 line).splitOn ';'
  let sizeText := fields.headD []
  failIf (sizeText = [] ∨ 16 < utf8Len sizeText) (.s3 .invalidRequest)
  let size ← okOr (fromStrRadix16 sizeText) (.s3 .invalidRequest)
  let providedSignature := fields.tail.findSome? fun extension => do
    let (name, value) ← splitOnce '=' extension
    if eqIgnoreAsciiCase (trim name) "chunk-signature".toList then some (trim value) else none
  return (size, providedSignature)

def parseTrailerLine (line : Bytes) : S3Result (Text × Text) := do
  let (name, value) ← okOr (splitOnce ':' (latin1 line)) (.s3 .invalidRequest)
  return (toAsciiLowercase (trim name), trim value)

namespace StreamingBodyDecoder

variable (sigv4 : Sigv4)

variable (decoder : StreamingBodyDecoder)

def checkDecodedSize (additional : ℕ) : S3Result Unit :=
  match checkedDecodedTotal decoder.decoded additional decoder.maxBodyBytes
      decoder.decodedLength with
  | .ok _ => .ok ()
  | .error error => .error (decodedSizeFailure error)

def checkDecodedLength : S3Result Unit :=
  failIf (decoder.decodedLength.any (decoder.decoded ≠ ·)) (.s3 .incompleteBody)

def chunkSignature (signing : ChunkSigning) (previous payloadHash : Text) : Text :=
  sigv4.signChunk signing.credentials.secretAccessKey signing.verified.scope
    (sigv4.formatAmzDate signing.verified.timestampMs) previous payloadHash

def trailerSignature (signing : ChunkSigning) (previous trailerHash : Text) : Text :=
  sigv4.signTrailer signing.credentials.secretAccessKey signing.verified.scope
    (sigv4.formatAmzDate signing.verified.timestampMs) previous trailerHash

/-- The part of `finish_chunk` that checks the signature of a chunk and releases its payload. -/
def verifyChunk : S3Result (StreamingBodyDecoder × List Bytes) :=
  match decoder.signing with
  | none => .ok (decoder, [])
  | some signing => do
    let previous ← okOr decoder.previousSignature (.s3 .signatureDoesNotMatch)
    let expected := chunkSignature sigv4 signing previous (sigv4.sha256Hex decoder.currentPayload)
    -- A signed chunk has a signature: `consume_header` refuses a line without one.
    let provided := toAsciiLowercase (decoder.currentSignature.getD [])
    failIf (expected ≠ provided)
      (errorWithMessage .signatureDoesNotMatch "chunk signature does not match")
    let released := if decoder.currentSize ≠ 0 ∧ decoder.currentPayload ≠ []
      then [decoder.currentPayload] else []
    return ({ decoder with previousSignature := some expected }, released)

/-- The part of `finish_chunk` that chooses the next state; an empty chunk ends the payload. -/
def stateAfterChunk : S3Result StreamingDecodeState :=
  if decoder.currentSize = 0 then do
    decoder.checkDecodedLength
    return if decoder.declaredTrailers.isEmpty then .epilogue else .trailer
  else return .header

def finishChunk : S3Result (StreamingBodyDecoder × List Bytes) := do
  let (decoder, released) ← verifyChunk sigv4 decoder
  let state ← decoder.stateAfterChunk
  return ({ decoder with
    state
    currentSize := 0
    currentRemaining := 0
    currentSignature := none
    currentPayload := [] }, released)

/-- A signed chunk has to supply a signature. -/
def checkProvidedSignature (providedSignature : Option Text) : S3Result Unit :=
  if decoder.signing.isSome then do
    let signature ← okOr providedSignature (.s3 .signatureDoesNotMatch)
    failIf (!isSignature signature) (.s3 .invalidRequest)
  else return ()

/-- The checks of `consume_header` on what a header line gives. -/
def checkChunkHeader (size : ℕ) (providedSignature : Option Text) : S3Result Unit := do
  decoder.checkProvidedSignature providedSignature
  failIf (decoder.signing.isSome ∧ maxSignedChunkBytes < size) (.s3 .entityTooLarge)
  failIf (decoder.signing.isNone ∧ maxSafeLength < size) (.s3 .entityTooLarge)
  decoder.checkDecodedSize size

/-- What a step answers: nothing when it made no progress, otherwise the new decoder and the
payloads it released. -/
abbrev Progress := S3Result (Option (StreamingBodyDecoder × List Bytes))

def consumeHeader : Progress :=
  match findCrlf decoder.encoded with
  | none => do
    failIf (maxChunkHeaderBytes + 1 < decoder.encoded.length) (.s3 .invalidRequest)
    return none
  | some lineEnd => do
    failIf (maxChunkHeaderBytes < lineEnd) (.s3 .invalidRequest)
    let line := decoder.encoded.take lineEnd
    let (size, providedSignature) ← parseChunkHeader line
    decoder.checkChunkHeader size providedSignature
    let decoder := { decoder with
      encoded := decoder.encoded.drop (lineEnd + 2)
      currentSize := size
      currentRemaining := size
      currentSignature := providedSignature
      currentPayload := [] }
    if size = 0 then
      let (decoder, _) ← finishChunk sigv4 decoder
      return some (decoder, [])
    else return some ({ decoder with state := .payload }, [])

def consumePayload : Progress :=
  if decoder.encoded = [] then .ok none
  else
    let take := min decoder.currentRemaining decoder.encoded.length
    match checkedDecodedTotal decoder.decoded take decoder.maxBodyBytes decoder.decodedLength with
    | .error error => .error (decodedSizeFailure error)
    | .ok next =>
      let bytes := decoder.encoded.take take
      let remaining := decoder.currentRemaining - take
      let next := { decoder with
        encoded := decoder.encoded.drop take
        currentPayload := if decoder.signing.isSome then decoder.currentPayload ++ bytes
          else decoder.currentPayload
        currentRemaining := remaining
        decoded := next
        state := if remaining = 0 then .payloadCr else decoder.state }
      .ok (some (next, if decoder.signing.isSome then [] else [bytes]))

def consumePayloadCr : Progress :=
  match decoder.encoded with
  | [] => .ok none
  | byte :: rest => do
    failIf (byte ≠ 13) (.s3 .invalidRequest)
    return some ({ decoder with encoded := rest, state := .payloadLf }, [])

def consumePayloadLf : Progress :=
  match decoder.encoded with
  | [] => .ok none
  | byte :: rest => do
    failIf (byte ≠ 10) (.s3 .invalidRequest)
    let (decoder, released) ← finishChunk sigv4 { decoder with encoded := rest }
    return some (decoder, released)

/-- The trailer line that carries the signature of those before it. -/
def consumeTrailerSignature (value : Text) : Progress := do
  let signing ← okOr decoder.signing (.s3 .invalidRequest)
  failIf (!isSignature value) (.s3 .invalidRequest)
  ensureTrailersPresent decoder.declaredTrailers decoder.seenTrailers
  let previous ← okOr decoder.previousSignature (.s3 .signatureDoesNotMatch)
  let expected := trailerSignature sigv4 signing previous (sigv4.sha256Hex decoder.trailerBlock)
  failIf (expected ≠ toAsciiLowercase value)
    (errorWithMessage .signatureDoesNotMatch "trailer signature does not match")
  return some ({ decoder with state := .epilogue }, [])

def consumeTrailer : Progress :=
  match findCrlf decoder.encoded with
  | none => do
    failIf (maxTrailerBytes - decoder.trailerBlock.length + 1 < decoder.encoded.length)
      (.s3 .entityTooLarge)
    return none
  | some lineEnd => do
    failIf (0 < lineEnd ∧ maxTrailerBytes - decoder.trailerBlock.length < lineEnd + 1)
      (.s3 .entityTooLarge)
    let rawLine := decoder.encoded.take lineEnd
    let decoder := { decoder with encoded := decoder.encoded.drop (lineEnd + 2) }
    if rawLine = [] then
      failIf decoder.signing.isSome (.s3 .invalidRequest)
      ensureTrailersPresent decoder.declaredTrailers decoder.seenTrailers
      return some ({ decoder with state := .epilogue }, [])
    else
      let (name, value) ← parseTrailerLine rawLine
      if name = trailerSignatureHeader then consumeTrailerSignature sigv4 decoder value
      else
        failIf (name = [] ∨ name ∉ decoder.declaredTrailers ∨ name ∈ decoder.seenTrailers)
          (.s3 .invalidRequest)
        failIf (maxTrailerBytes < decoder.trailerBlock.length + rawLine.length + 1)
          (.s3 .entityTooLarge)
        return some ({ decoder with
          trailerBlock := decoder.trailerBlock ++ rawLine ++ [10]
          seenTrailers := decoder.seenTrailers ++ [name] }, [])

def consumeEpilogue : Progress :=
  match decoder.encoded with
  | [] => .ok none
  | [first] => do
    failIf (first ≠ 13) (.s3 .incompleteBody)
    return none
  | [first, second] => do
    failIf (first ≠ 13) (.s3 .incompleteBody)
    failIf (second ≠ 10) (.s3 .incompleteBody)
    decoder.checkDecodedLength
    return some ({ decoder with encoded := [], state := .done }, [])
  | _ => .error (.s3 .incompleteBody)

def consumeDone : Progress := do
  failIf (decoder.encoded ≠ []) (.s3 .incompleteBody)
  return none

/-- One iteration of the loop in `consume_encoded`. -/
def consume : Progress :=
  match decoder.state with
  | .header => consumeHeader sigv4 decoder
  | .payload => consumePayload decoder
  | .payloadCr => consumePayloadCr decoder
  | .payloadLf => consumePayloadLf sigv4 decoder
  | .trailer => consumeTrailer sigv4 decoder
  | .epilogue => consumeEpilogue decoder
  | .done => consumeDone decoder

/-- At most `fuel` iterations of the loop in `consume_encoded`. -/
def consumeLoop : ℕ → StreamingBodyDecoder → S3Result (StreamingBodyDecoder × List Bytes)
  | 0, decoder => .ok (decoder, [])
  | fuel + 1, decoder =>
    match consume sigv4 decoder with
    | .error error => .error error
    | .ok none => .ok (decoder, [])
    | .ok (some (decoder, released)) => do
      let (decoder, more) ← consumeLoop fuel decoder
      return (decoder, released ++ more)

/-- Every iteration that makes progress takes a byte, so the loop ends by itself. -/
def consumeEncoded : S3Result (StreamingBodyDecoder × List Bytes) :=
  consumeLoop sigv4 (decoder.encoded.length + 1) decoder

def pendingEncodedLimit : ℕ :=
  match decoder.state with
  | .header => maxChunkHeaderBytes + 2
  | .payload => min decoder.currentRemaining maxStreamingFeedBytes
  | .payloadCr | .payloadLf => 1
  | .trailer => maxTrailerBytes - decoder.trailerBlock.length + 2
  | .epilogue => 2
  | .done => 0

/-- The loop of `feed`; an iteration takes at least one byte, so `bytes.length` is fuel enough. -/
def feedLoop : ℕ → StreamingBodyDecoder → Bytes → S3Result (StreamingBodyDecoder × List Bytes)
  | 0, decoder, _ => .ok (decoder, [])
  | fuel + 1, decoder, bytes =>
    if bytes = [] then .ok (decoder, [])
    else do
      failIf (decoder.state = .done) (.s3 .incompleteBody)
      let available := decoder.pendingEncodedLimit - decoder.encoded.length
      failIf (available = 0) (.s3 .invalidRequest)
      let take := min bytes.length available
      let (decoder, released) ←
        consumeEncoded sigv4 { decoder with encoded := decoder.encoded ++ bytes.take take }
      let (decoder, more) ← feedLoop fuel decoder (bytes.drop take)
      return (decoder, released ++ more)

/-- The part of `feed` after the window of bytes has been cut. -/
def feedBytes (bytes : Bytes) : S3Result (StreamingBodyDecoder × List Bytes) :=
  if bytes = [] then consumeEncoded sigv4 decoder else feedLoop sigv4 bytes.length decoder bytes

/-- The decoder after the call, the number of bytes taken from `bytes`, and the payloads. -/
def feed (bytes : Bytes) : S3Result (StreamingBodyDecoder × ℕ × List Bytes) := do
  failIf (decoder.state = .done ∧ bytes ≠ []) (.s3 .incompleteBody)
  let consumed := min bytes.length maxStreamingFeedBytes
  let bytes := bytes.take consumed
  let (decoder, released) ← feedBytes sigv4 decoder bytes
  return (decoder, consumed, released)

/-- The body may end after its last trailer line when it is not signed. -/
def finishTrailers : S3Result StreamingBodyDecoder :=
  if decoder.state = .trailer ∧ decoder.encoded = [] then do
    failIf decoder.signing.isSome (.s3 .incompleteBody)
    ensureTrailersPresent decoder.declaredTrailers decoder.seenTrailers
    return { decoder with state := .epilogue }
  else return decoder

def finish : S3Result (StreamingBodyDecoder × List Bytes) := do
  let decoder ← decoder.finishTrailers
  if decoder.state = .epilogue ∧ decoder.encoded = [] then
    decoder.checkDecodedLength
    return ({ decoder with state := .done }, [])
  else
    failIf (¬ (decoder.state = .done ∧ decoder.encoded = [])) (.s3 .incompleteBody)
    return (decoder, [])

/-- A sequence of `feed` calls that all answered `Ok`: the decoder after them, the bytes they
took and the payloads they returned. -/
def feedAll : StreamingBodyDecoder → List Bytes → S3Result (StreamingBodyDecoder × Bytes × List Bytes)
  | decoder, [] => .ok (decoder, [], [])
  | decoder, bytes :: rest => do
    let (decoder, consumed, released) ← feed sigv4 decoder bytes
    let (decoder, taken, more) ← feedAll decoder rest
    return (decoder, bytes.take consumed ++ taken, released ++ more)

end StreamingBodyDecoder

end MountRs.S3.Streaming
