import MountRs.Model.S3.Streaming

/-! # Signed bodies and how far a decoder has read one

A signed body is a sequence of chunks, each with a header line that supplies a signature, a
terminating empty chunk and, when trailers are declared, their lines and a signature line.
What the decoder has taken is always such a sequence up to the place it has reached, and
what it has released is the payloads of the complete chunks. -/

namespace MountRs.S3.Streaming

open Except List Option StreamingBodyDecoder

/-! ## Signed bodies -/

def crlf : Bytes := [13, 10]

/-- A chunk as it stands in the body. -/
structure Chunk where
  line : Bytes
  payload : Bytes
  deriving DecidableEq

def Chunk.frame (chunk : Chunk) : Bytes := chunk.line ++ crlf ++ chunk.payload ++ crlf

def frames (chunks : List Chunk) : Bytes := chunks.flatMap Chunk.frame

def payloads (chunks : List Chunk) : List Bytes := chunks.map Chunk.payload

section Chain

variable (sigv4 : Sigv4) (signing : ChunkSigning)

def nextSignature (previous : Text) (payload : Bytes) : Text :=
  StreamingBodyDecoder.chunkSignature sigv4 signing previous (sigv4.sha256Hex payload)

def Signed (previous : Text) (line payload : Bytes) : Prop :=
  ∃ supplied, parseChunkHeader line = .ok (payload.length, some supplied) ∧
    toAsciiLowercase supplied = nextSignature sigv4 signing previous payload

def Authentic : Text → List Chunk → Prop
  | _, [] => True
  | previous, chunk :: chunks =>
    chunk.payload ≠ [] ∧ Signed sigv4 signing previous chunk.line chunk.payload ∧
      Authentic (nextSignature sigv4 signing previous chunk.payload) chunks

/-- The signature that a chunk after these ones follows. -/
def lastSignature (seed : Text) (chunks : List Chunk) : Text :=
  chunks.foldl (fun previous chunk => nextSignature sigv4 signing previous chunk.payload) seed

def Names (lines : List Bytes) (names : List Text) : Prop :=
  List.Forall₂ (fun line name => ∃ value, parseTrailerLine line = .ok (name, value)) lines names

def trailerLines (lines : List Bytes) : Bytes := lines.flatMap (· ++ crlf)

def signedTrailers (lines : List Bytes) : Bytes := lines.flatMap (· ++ [10])

/-- `bytes` are trailers among which every declared one stands, and a line with the signature
that covers them all; nothing when no trailer is declared. -/
def SignedTrailers (previous : Text) (declared : List Text) (bytes : Bytes) : Prop :=
  (declared = [] ∧ bytes = []) ∨
    ∃ lines names line value, bytes = trailerLines lines ++ line ++ crlf ∧ Names lines names ∧
      (∀ name ∈ declared, name ∈ names) ∧
      parseTrailerLine line = .ok (trailerSignatureHeader, value) ∧
      toAsciiLowercase value = StreamingBodyDecoder.trailerSignature sigv4 signing previous
        (sigv4.sha256Hex (signedTrailers lines))

theorem authentic_append (seed : Text) (chunks : List Chunk) (chunk : Chunk) :
    Authentic sigv4 signing seed (chunks ++ [chunk]) ↔
      Authentic sigv4 signing seed chunks ∧ chunk.payload ≠ [] ∧
        Signed sigv4 signing (lastSignature sigv4 signing seed chunks) chunk.line
          chunk.payload := by
  induction chunks generalizing seed with
  | nil => simp [Authentic, lastSignature]
  | cons _ _ ih =>
    simp only [cons_append, Authentic, ih]
    simp only [lastSignature, foldl_cons]
    tauto

@[simp] theorem lastSignature_append (seed : Text) (chunks : List Chunk) (chunk : Chunk) :
    lastSignature sigv4 signing seed (chunks ++ [chunk]) =
      nextSignature sigv4 signing (lastSignature sigv4 signing seed chunks) chunk.payload := by
  simp [lastSignature]

end Chain

@[simp] theorem frames_append (chunks : List Chunk) (chunk : Chunk) :
    frames (chunks ++ [chunk]) = frames chunks ++ chunk.frame := by
  simp [frames]

@[simp] theorem payloads_append (chunks : List Chunk) (chunk : Chunk) :
    payloads (chunks ++ [chunk]) = payloads chunks ++ [chunk.payload] := by
  simp [payloads]

theorem Names.append {lines : List Bytes} {names : List Text} {line : Bytes} {name value : Text}
    (hnames : Names lines names) (hline : parseTrailerLine line = .ok (name, value)) :
    Names (lines ++ [line]) (names ++ [name]) :=
  rel_append hnames (.cons ⟨value, hline⟩ .nil)

/-! ## What a successful step says -/

theorem findCrlf_eq_some {bytes : Bytes} {position : ℕ} (h : findCrlf bytes = some position) :
    bytes = bytes.take position ++ crlf ++ bytes.drop (position + 2) := by
  induction bytes generalizing position with
  | nil => simp [findCrlf] at h
  | cons first rest ih =>
    cases rest with
    | nil => simp [findCrlf] at h
    | cons second rest =>
      rw [findCrlf] at h
      split at h
      · rename_i hcrlf
        obtain ⟨rfl, rfl⟩ := hcrlf
        cases h
        simp [crlf]
      · rw [map_eq_some_iff] at h
        obtain ⟨_, hposition, rfl⟩ := h
        have htail := ih hposition
        simp only [take_succ_cons, drop_succ_cons, cons_append] at htail ⊢
        rw [← htail]

theorem checkedDecodedTotal_eq_ok {decoded additional maxBodyBytes next : ℕ}
    {decodedLength : Option ℕ}
    (h : checkedDecodedTotal decoded additional maxBodyBytes decodedLength = .ok next) :
    next = decoded + additional ∧ next ≤ maxBodyBytes ∧ ∀ n ∈ decodedLength, next ≤ n := by
  simp only [checkedDecodedTotal] at h
  split at h
  · cases h
  · split at h
    · cases h
    · split at h
      · cases h
      · rename_i hmax hdeclared
        cases h
        refine ⟨rfl, by omega, ?_⟩
        intro n hn
        rw [mem_def] at hn
        subst hn
        simpa using hdeclared

namespace StreamingBodyDecoder

variable {sigv4 : Sigv4} {signing : ChunkSigning} {decoder next : StreamingBodyDecoder}
  {released : List Bytes}

theorem checkDecodedLength_eq_ok (h : decoder.checkDecodedLength = .ok ()) :
    ∀ n ∈ decoder.decodedLength, decoder.decoded = n := by
  intro n hn
  rw [mem_def] at hn
  simp only [checkDecodedLength, failIf_eq_ok, hn] at h
  simpa using h

variable (hsigning : decoder.signing = some signing)
include hsigning

theorem verifyChunk_eq_ok (h : verifyChunk sigv4 decoder = .ok (next, released)) :
    ∃ previous, decoder.previousSignature = some previous ∧
      nextSignature sigv4 signing previous decoder.currentPayload =
        toAsciiLowercase (decoder.currentSignature.getD []) ∧ next = { decoder with
        previousSignature := some (nextSignature sigv4 signing previous decoder.currentPayload) } ∧
      released = if decoder.currentSize ≠ 0 ∧ decoder.currentPayload ≠ []
        then [decoder.currentPayload] else [] := by
  simp only [verifyChunk, hsigning, bind_eq_ok, okOr_eq_ok, failIf_eq_ok,
    pure_eq_ok, Prod.mk.injEq, not_not] at h
  obtain ⟨previous, hprevious, -, hequal, hnext, hreleased⟩ := h
  refine ⟨previous, hprevious, hequal, ?_, hreleased.symm⟩
  rw [hsigning]
  exact hnext.symm

/-- What `finish_chunk` leaves of a decoder, apart from the state it goes to. -/
def chunkFinished (decoder : StreamingBodyDecoder) (signature : Text)
    (state : StreamingDecodeState) : StreamingBodyDecoder :=
  { decoder with
    previousSignature := some signature
    state
    currentSize := 0
    currentRemaining := 0
    currentSignature := none
    currentPayload := [] }

theorem finishChunk_eq_ok (h : finishChunk sigv4 decoder = .ok (next, released)) :
    ∃ previous state, decoder.previousSignature = some previous ∧
      nextSignature sigv4 signing previous decoder.currentPayload =
        toAsciiLowercase (decoder.currentSignature.getD []) ∧ next = decoder.chunkFinished
        (nextSignature sigv4 signing previous decoder.currentPayload) state ∧
      (released = if decoder.currentSize ≠ 0 ∧ decoder.currentPayload ≠ []
        then [decoder.currentPayload] else []) ∧ if decoder.currentSize = 0 then
        (∀ n ∈ decoder.decodedLength, decoder.decoded = n) ∧
          state = if decoder.declaredTrailers.isEmpty then .epilogue else .trailer
      else state = .header := by
  simp only [finishChunk, bind_eq_ok, Prod.exists, pure_eq_ok, Prod.mk.injEq] at h
  obtain ⟨_, _, hverified, state, hstate, rfl, rfl⟩ := h
  obtain ⟨previous, hprevious, hequal, rfl, hreleased⟩ := verifyChunk_eq_ok hsigning hverified
  refine ⟨previous, state, hprevious, hequal, rfl, hreleased, ?_⟩
  unfold stateAfterChunk at hstate
  by_cases hsize : decoder.currentSize = 0
  · rw [if_pos hsize] at hstate ⊢
    simp only [bind_eq_ok, pure_eq_ok] at hstate
    obtain ⟨⟨⟩, hlength, rfl⟩ := hstate
    exact ⟨checkDecodedLength_eq_ok hlength, rfl⟩
  · rw [if_neg hsize] at hstate ⊢
    rw [pure_eq_ok] at hstate
    exact hstate.symm

theorem checkChunkHeader_eq_ok {size : ℕ} {provided : Option Text}
    (h : decoder.checkChunkHeader size provided = .ok ()) :
    ∃ supplied, provided = some supplied := by
  simp only [checkChunkHeader, checkProvidedSignature, hsigning, isSome_some, if_true,
    bind_eq_ok, okOr_eq_ok] at h
  obtain ⟨-, ⟨supplied, hsupplied, -⟩, -⟩ := h
  exact ⟨supplied, hsupplied⟩

omit hsigning

/-! ## The invariant -/

structure Inside (sigv4 : Sigv4) (signing : ChunkSigning) (decoder : StreamingBodyDecoder)
    (chunks : List Chunk) (line : Bytes) : Prop where
  header : ∃ supplied, decoder.currentSignature = some supplied ∧
    parseChunkHeader line = .ok (decoder.currentSize, some supplied)
  size : decoder.currentSize = decoder.currentPayload.length + decoder.currentRemaining
  nonempty : decoder.currentSize ≠ 0
  previous : decoder.previousSignature =
    some (lastSignature sigv4 signing signing.verified.signature chunks)
  decoded : decoder.decoded = (payloads chunks).flatten.length + decoder.currentPayload.length

structure Terminated (sigv4 : Sigv4) (signing : ChunkSigning) (decoder : StreamingBodyDecoder)
    (chunks : List Chunk) (line : Bytes) : Prop where
  signed : Signed sigv4 signing
    (lastSignature sigv4 signing signing.verified.signature chunks) line []
  previous : decoder.previousSignature = some (nextSignature sigv4 signing
    (lastSignature sigv4 signing signing.verified.signature chunks) [])
  decoded : decoder.decoded = (payloads chunks).flatten.length
  declared : ∀ n ∈ decoder.decodedLength, (payloads chunks).flatten.length = n

/-- The signature of the terminating chunk, which a trailer signature follows. -/
def terminalSignature (sigv4 : Sigv4) (signing : ChunkSigning) (chunks : List Chunk) : Text :=
  nextSignature sigv4 signing (lastSignature sigv4 signing signing.verified.signature chunks) []

/-- `consumed` is what the decoder has taken after the complete chunks. -/
def Position (sigv4 : Sigv4) (signing : ChunkSigning) (decoder : StreamingBodyDecoder)
    (chunks : List Chunk) (consumed : Bytes) : Prop :=
  match decoder.state with
  | .header =>
    consumed = [] ∧ decoder.decoded = (payloads chunks).flatten.length ∧ decoder.previousSignature =
        some (lastSignature sigv4 signing signing.verified.signature chunks) ∧
      decoder.trailerBlock = [] ∧ decoder.seenTrailers = []
  | .payload =>
    ∃ line, consumed = line ++ crlf ++ decoder.currentPayload ∧
      Inside sigv4 signing decoder chunks line ∧
      decoder.trailerBlock = [] ∧ decoder.seenTrailers = []
  | .payloadCr =>
    ∃ line, consumed = line ++ crlf ++ decoder.currentPayload ∧
      Inside sigv4 signing decoder chunks line ∧ decoder.currentRemaining = 0 ∧
      decoder.trailerBlock = [] ∧ decoder.seenTrailers = []
  | .payloadLf =>
    ∃ line, consumed = line ++ crlf ++ decoder.currentPayload ++ [13] ∧
      Inside sigv4 signing decoder chunks line ∧ decoder.currentRemaining = 0 ∧
      decoder.trailerBlock = [] ∧ decoder.seenTrailers = []
  | .trailer =>
    ∃ line lines, consumed = line ++ crlf ++ trailerLines lines ∧
      Terminated sigv4 signing decoder chunks line ∧
      Names lines decoder.seenTrailers ∧ decoder.trailerBlock = signedTrailers lines
  | .epilogue =>
    ∃ line trailers, consumed = line ++ crlf ++ trailers ∧
      Terminated sigv4 signing decoder chunks line ∧
      SignedTrailers sigv4 signing (terminalSignature sigv4 signing chunks)
        decoder.declaredTrailers trailers
  | .done =>
    ∃ line trailers, consumed = line ++ crlf ++ trailers ++ crlf ∧
      Terminated sigv4 signing decoder chunks line ∧
      SignedTrailers sigv4 signing (terminalSignature sigv4 signing chunks)
        decoder.declaredTrailers trailers

/-- `stream` has been fed, and `released` has been returned. -/
structure Reading (sigv4 : Sigv4) (signing : ChunkSigning) (decoder : StreamingBodyDecoder)
    (stream : Bytes) (released : List Bytes) (chunks : List Chunk) (consumed : Bytes) : Prop where
  signed : decoder.signing = some signing
  stream : stream = frames chunks ++ consumed ++ decoder.encoded
  released : released = payloads chunks
  authentic : Authentic sigv4 signing signing.verified.signature chunks
  position : Position sigv4 signing decoder chunks consumed
  body : decoder.decoded ≤ decoder.maxBodyBytes
  declared : ∀ n ∈ decoder.decodedLength, decoder.decoded ≤ n

/-- The part of a decoder that no call changes. -/
def SameRequest (decoder next : StreamingBodyDecoder) : Prop :=
  next.signing = decoder.signing ∧ next.maxBodyBytes = decoder.maxBodyBytes ∧
    next.decodedLength = decoder.decodedLength ∧
    next.declaredTrailers = decoder.declaredTrailers

theorem SameRequest.refl (decoder : StreamingBodyDecoder) : SameRequest decoder decoder :=
  ⟨rfl, rfl, rfl, rfl⟩

variable {first second third : StreamingBodyDecoder}

theorem SameRequest.trans (h : SameRequest first second) (h' : SameRequest second third) :
    SameRequest first third := by
  obtain ⟨hsigning, hbody, hlength, htrailers⟩ := h
  obtain ⟨hsigning', hbody', hlength', htrailers'⟩ := h'
  exact ⟨hsigning'.trans hsigning, hbody'.trans hbody, hlength'.trans hlength,
    htrailers'.trans htrailers⟩

/-- A step from `decoder` to `next` keeps the invariant and releases `more`. -/
def Keeps (sigv4 : Sigv4) (signing : ChunkSigning) (decoder next : StreamingBodyDecoder)
    (more : List Bytes) : Prop :=
  SameRequest decoder next ∧ ∀ stream released chunks consumed,
    Reading sigv4 signing decoder stream released chunks consumed → ∃ chunks' consumed',
        Reading sigv4 signing next stream (released ++ more) chunks' consumed'

theorem Keeps.refl : Keeps sigv4 signing decoder decoder [] := by
  refine ⟨.refl decoder, ?_⟩
  intro stream released chunks consumed h
  exact ⟨chunks, consumed, by simpa using h⟩

variable {more : List Bytes}

theorem Keeps.trans {later : List Bytes} (h : Keeps sigv4 signing first second more)
    (h' : Keeps sigv4 signing second third later) :
    Keeps sigv4 signing first third (more ++ later) := by
  refine ⟨h.1.trans h'.1, ?_⟩
  intro stream released chunks consumed hreading
  obtain ⟨_, _, hsecond⟩ := h.2 stream released chunks consumed hreading
  obtain ⟨chunks'', consumed'', hthird⟩ := h'.2 _ _ _ _ hsecond
  exact ⟨chunks'', consumed'', by simpa using hthird⟩

theorem keeps_within (hsame : SameRequest decoder next)
    (hbody : decoder.decoded ≤ decoder.maxBodyBytes → next.decoded ≤ next.maxBodyBytes)
    (hdeclared : (∀ n ∈ decoder.decodedLength, decoder.decoded ≤ n) →
      ∀ n ∈ next.decodedLength, next.decoded ≤ n)
    (h : ∀ chunks consumed, Position sigv4 signing decoder chunks consumed → ∃ consumed',
      consumed ++ decoder.encoded = consumed' ++ next.encoded ∧
        Position sigv4 signing next chunks consumed') : Keeps sigv4 signing decoder next [] := by
  refine ⟨hsame, ?_⟩
  intro stream released chunks consumed hreading
  obtain ⟨consumed', hmoved, hposition⟩ := h chunks consumed hreading.position
  refine ⟨chunks, consumed', hsame.1.trans hreading.signed, ?_, by simpa using hreading.released,
    hreading.authentic, hposition, hbody hreading.body, hdeclared hreading.declared⟩
  rw [hreading.stream, append_assoc, append_assoc, hmoved]

end StreamingBodyDecoder

end MountRs.S3.Streaming
