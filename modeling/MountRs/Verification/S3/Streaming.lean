import MountRs.Verification.S3.Decoder

/-! # Signed streaming releases only authenticated bytes -/

namespace MountRs.S3.Streaming

open Except List Option StreamingBodyDecoder

namespace StreamingBodyDecoder

variable {sigv4 : Sigv4} {signing : ChunkSigning} {decoder next : StreamingBodyDecoder}
  {released more : List Bytes}

variable (hsigning : decoder.signing = some signing)

/-! ## Feeding a body -/

theorem keeps_consumeLoop (fuel : ℕ) (hsigning : decoder.signing = some signing)
    (h : consumeLoop sigv4 fuel decoder = .ok (next, released)) :
    Keeps sigv4 signing decoder next released := by
  induction fuel generalizing decoder released with
  | zero =>
    simp only [consumeLoop, ok.injEq, Prod.mk.injEq] at h
    obtain ⟨rfl, rfl⟩ := h
    exact .refl
  | succ fuel ih =>
    rw [consumeLoop] at h
    split at h
    · cases h
    · simp only [ok.injEq, Prod.mk.injEq] at h
      obtain ⟨rfl, rfl⟩ := h
      exact .refl
    · rename_i middle first hstep
      simp only [bind_eq_ok, Prod.exists, pure_eq_ok, Prod.mk.injEq] at h
      obtain ⟨_, _, hloop, rfl, rfl⟩ := h
      have hfirst := keeps_consume hsigning hstep
      exact hfirst.trans (ih (hfirst.1.1.trans hsigning) hloop)

variable {stream consumed : Bytes} {chunks : List Chunk}

theorem Reading.extend (h : Reading sigv4 signing decoder stream released chunks consumed)
    (bytes : Bytes) :
    Reading sigv4 signing { decoder with encoded := decoder.encoded ++ bytes }
      (stream ++ bytes) released chunks consumed := by
  refine ⟨h.signed, ?_, h.released, h.authentic, ?_, h.body, h.declared⟩
  · rw [h.stream]
    simp
  · have hposition := h.position
    cases hstate : decoder.state <;> simp only [Position, hstate] at hposition ⊢
    case header => exact hposition
    case payload | payloadCr | payloadLf =>
      obtain ⟨line, hconsumed, hinside, hrest⟩ := hposition
      exact ⟨line, hconsumed, { hinside with }, hrest⟩
    case trailer | epilogue | done =>
      obtain ⟨line, rest, hconsumed, hterminated, hrest⟩ := hposition
      exact ⟨line, rest, hconsumed, { hterminated with }, hrest⟩

/-- A call that takes `bytes` keeps the invariant and releases `more`. -/
def Feeds (sigv4 : Sigv4) (signing : ChunkSigning) (decoder next : StreamingBodyDecoder)
    (bytes : Bytes) (more : List Bytes) : Prop :=
  SameRequest decoder next ∧ ∀ stream released chunks consumed,
    Reading sigv4 signing decoder stream released chunks consumed → ∃ chunks' consumed',
        Reading sigv4 signing next (stream ++ bytes) (released ++ more) chunks' consumed'

theorem Feeds.nil_of_keeps (h : Keeps sigv4 signing decoder next more) :
    Feeds sigv4 signing decoder next [] more := by
  refine ⟨h.1, ?_⟩
  intro stream released chunks consumed hreading
  rw [append_nil]
  exact h.2 stream released chunks consumed hreading

variable {bytes : Bytes}

theorem Feeds.of_keeps
    (h : Keeps sigv4 signing { decoder with encoded := decoder.encoded ++ bytes } next more) :
    Feeds sigv4 signing decoder next bytes more := by
  refine ⟨h.1, ?_⟩
  intro stream released chunks consumed hreading
  exact h.2 _ released chunks consumed (hreading.extend bytes)

theorem Feeds.trans {later : Bytes} {released : List Bytes}
    (h : Feeds sigv4 signing first second bytes more)
    (h' : Feeds sigv4 signing second third later released) :
    Feeds sigv4 signing first third (bytes ++ later) (more ++ released) := by
  refine ⟨h.1.trans h'.1, ?_⟩
  intro stream earlier chunks consumed hreading
  obtain ⟨_, _, hsecond⟩ := h.2 stream earlier chunks consumed hreading
  obtain ⟨chunks'', consumed'', hthird⟩ := h'.2 _ _ _ _ hsecond
  refine ⟨chunks'', consumed'', ?_⟩
  simpa only [append_assoc] using hthird

theorem feeds_feedLoop (fuel : ℕ) (hfuel : bytes.length ≤ fuel)
    (hsigning : decoder.signing = some signing)
    (h : feedLoop sigv4 fuel decoder bytes = .ok (next, released)) :
    Feeds sigv4 signing decoder next bytes released := by
  induction fuel generalizing decoder bytes released with
  | zero =>
    have hbytes : bytes = [] := length_eq_zero_iff.mp (Nat.le_zero.mp hfuel)
    simp only [feedLoop, ok.injEq, Prod.mk.injEq] at h
    obtain ⟨rfl, rfl⟩ := h
    rw [hbytes]
    exact .nil_of_keeps .refl
  | succ fuel ih =>
    rw [feedLoop] at h
    split at h
    · rename_i hbytes
      simp only [ok.injEq, Prod.mk.injEq] at h
      obtain ⟨rfl, rfl⟩ := h
      rw [hbytes]
      exact .nil_of_keeps .refl
    · rename_i hbytes
      simp only [bind_eq_ok, failIf_eq_ok, Prod.exists, pure_eq_ok, Prod.mk.injEq] at h
      obtain ⟨⟨⟩, -, ⟨⟩, havailable, middle, first, hconsume, last, more, hrest, rfl, rfl⟩ := h
      set take := min bytes.length (decoder.pendingEncodedLimit - decoder.encoded.length)
        with htake
      have hpositive : 0 < bytes.length := length_pos_iff.mpr hbytes
      have hfirst : Feeds sigv4 signing decoder middle (bytes.take take) first :=
        .of_keeps (keeps_consumeLoop _ hsigning hconsume)
      have hlast : Feeds sigv4 signing middle last (bytes.drop take) more := by
        refine ih ?_ (hfirst.1.1.trans hsigning) hrest
        rw [length_drop]
        omega
      have := hfirst.trans hlast
      rwa [take_append_drop] at this

include hsigning in
theorem feeds_feed {consumed : ℕ} (h : feed sigv4 decoder bytes = .ok (next, consumed, released)) :
    Feeds sigv4 signing decoder next (bytes.take consumed) released := by
  simp only [feed, bind_eq_ok, Prod.exists, pure_eq_ok, Prod.mk.injEq] at h
  obtain ⟨⟨⟩, -, last, more, hfeed, rfl, rfl, rfl⟩ := h
  unfold feedBytes at hfeed
  split at hfeed
  · rename_i hbytes
    rw [hbytes]
    exact .nil_of_keeps (keeps_consumeLoop _ hsigning hfeed)
  · exact feeds_feedLoop _ le_rfl hsigning hfeed

theorem feeds_feedAll {feeds : List Bytes} {taken : Bytes}
    (hsigning : decoder.signing = some signing)
    (h : feedAll sigv4 decoder feeds = .ok (next, taken, released)) :
    Feeds sigv4 signing decoder next taken released := by
  induction feeds generalizing decoder taken released with
  | nil =>
    simp only [feedAll, ok.injEq, Prod.mk.injEq] at h
    obtain ⟨rfl, rfl, rfl⟩ := h
    exact .nil_of_keeps .refl
  | cons _ _ ih =>
    simp only [feedAll, bind_eq_ok, Prod.exists, pure_eq_ok, Prod.mk.injEq] at h
    obtain ⟨_, _, _, hfeed, _, _, _, hrest, rfl, rfl, rfl⟩ := h
    have hfirst := feeds_feed hsigning hfeed
    exact hfirst.trans (ih (hfirst.1.1.trans hsigning) hrest)

/-! ## A whole body -/

def declaredLength (headers : List HeaderEntry) : Option ℕ :=
  (headerValue headers decodedLengthHeader).bind parseDeclaredLength

/-- The trailers that the request declares. -/
def declaredTrailerNames (headers : List HeaderEntry) : List Text :=
  ((headerValue headers declaredTrailersHeader).map declaredTrailersOf).getD []

variable {headers : List HeaderEntry}

theorem decodedLengthOf_eq_ok {length : Option ℕ} (h : decodedLengthOf headers = .ok length) :
    length = declaredLength headers := by
  unfold decodedLengthOf at h
  unfold declaredLength
  cases hvalue : headerValue headers decodedLengthHeader with
  | none =>
    rw [hvalue] at h
    cases h
    rfl
  | some =>
    simp only [hvalue, bind_eq_ok, okOr_eq_ok, pure_eq_ok] at h
    obtain ⟨_, hparsed, rfl⟩ := h
    exact hparsed.symm

variable {maxBodyBytes : ℕ} {verified : Option VerifiedRequest} {credentials : Option Credentials}

theorem new_eq_some
    (h : new headers maxBodyBytes verified credentials = .ok (some decoder)) :
    decoder.maxBodyBytes = maxBodyBytes ∧ decoder.decodedLength = declaredLength headers ∧
      decoder.declaredTrailers = declaredTrailerNames headers ∧ decoder.encoded = [] ∧
      decoder.state = .header ∧ decoder.decoded = 0 ∧
      decoder.previousSignature = decoder.signing.map (·.verified.signature) ∧
      decoder.trailerBlock = [] ∧ decoder.seenTrailers = [] := by
  unfold new at h
  split at h
  · rw [pure_eq_ok] at h
    cases h
  · simp only [bind_eq_ok, pure_eq_ok, some.injEq] at h
    obtain ⟨_, hlength, rfl⟩ := h
    exact ⟨rfl, decodedLengthOf_eq_ok hlength, rfl, rfl, rfl, rfl, rfl, rfl, rfl⟩

theorem finish_eq_ok (hsigning : decoder.signing = some signing)
    (h : decoder.finish = .ok (next, released)) :
    released = [] ∧ decoder.encoded = [] ∧ (decoder.state = .epilogue ∨ decoder.state = .done) := by
  simp only [finish, bind_eq_ok] at h
  obtain ⟨ready, hready, h⟩ := h
  have hsame : ready = decoder := by
    unfold finishTrailers at hready
    split at hready
    · simp [hsigning, bind_eq_ok] at hready
    · rw [pure_eq_ok] at hready
      exact hready.symm
  subst hsame
  split at h
  · rename_i hepilogue
    simp only [bind_eq_ok, pure_eq_ok, Prod.mk.injEq] at h
    obtain ⟨-, -, -, rfl⟩ := h
    exact ⟨rfl, hepilogue.2, .inl hepilogue.1⟩
  · simp only [bind_eq_ok, failIf_eq_ok, not_not, pure_eq_ok, Prod.mk.injEq] at h
    obtain ⟨-, hdone, -, rfl⟩ := h
    exact ⟨rfl, hdone.2, .inr hdone.1⟩

theorem reading_new
    (h : new headers maxBodyBytes verified credentials = .ok (some decoder))
    (hsigning : decoder.signing = some signing) :
    Reading sigv4 signing decoder [] [] [] [] := by
  obtain ⟨-, -, -, hencoded, hstate, hdecoded, hprevious, hblock, hseen⟩ := new_eq_some h
  refine ⟨hsigning, by simp [hencoded, frames], rfl, trivial, ?_, by omega, ?_⟩
  · simp only [Position, hstate, true_and]
    refine ⟨hdecoded, ?_, hblock, hseen⟩
    rw [hprevious, hsigning]
    rfl
  · intro n _
    omega

section

variable (h : Reading sigv4 signing decoder stream released chunks consumed)
include h

theorem Reading.released_le : released.flatten.length ≤ decoder.decoded := by
  rw [h.released]
  have hposition := h.position
  cases hstate : decoder.state <;> simp only [Position, hstate] at hposition
  case header => omega
  case payload | payloadCr | payloadLf =>
    obtain ⟨_, -, hinside, -⟩ := hposition
    have := hinside.decoded
    omega
  case trailer | epilogue | done =>
    obtain ⟨_, _, -, hterminated, -⟩ := hposition
    exact hterminated.decoded.ge

/-- A body that `finish` accepts has ended with a verified empty chunk and verified trailers. -/
theorem Reading.finish_ok (hfinish : decoder.finish = .ok (next, more)) :
    more = [] ∧ ∃ line trailers ending,
      consumed ++ decoder.encoded = line ++ crlf ++ trailers ++ ending ∧
      (ending = [] ∨ ending = crlf) ∧ Terminated sigv4 signing decoder chunks line ∧
      SignedTrailers sigv4 signing (terminalSignature sigv4 signing chunks)
        decoder.declaredTrailers trailers := by
  obtain ⟨rfl, hencoded, hstate⟩ := finish_eq_ok h.signed hfinish
  have hposition := h.position
  refine ⟨rfl, ?_⟩
  rw [hencoded]
  rcases hstate with hstate | hstate <;> simp only [Position, hstate] at hposition
  · obtain ⟨line, trailers, rfl, hterminated, htrailers⟩ := hposition
    exact ⟨line, trailers, [], rfl, .inl rfl, hterminated, htrailers⟩
  · obtain ⟨line, trailers, rfl, hterminated, htrailers⟩ := hposition
    exact ⟨line, trailers, crlf, by simp, .inr rfl, hterminated, htrailers⟩

end

end StreamingBodyDecoder

open StreamingBodyDecoder

/-- A decoder of a signed body has taken, however the body was split into calls, complete
chunks signed in a chain from the request's signature and some bytes after them, and has
released exactly the payloads of those chunks, within both limits. When `finish` accepts, the
bytes after the chunks are the empty chunk, signed in the same chain, and the signed
trailers. -/
theorem streaming_releases_authenticated (sigv4 : Sigv4) {headers : List HeaderEntry}
    {maxBodyBytes : ℕ} {verified : Option VerifiedRequest} {credentials : Option Credentials}
    {decoder next : StreamingBodyDecoder} {signing : ChunkSigning} {feeds : List Bytes}
    {taken : Bytes} {released : List Bytes}
    (hnew : StreamingBodyDecoder.new headers maxBodyBytes verified credentials =
      .ok (some decoder)) (hsigning : decoder.signing = some signing)
    (hfeed : feedAll sigv4 decoder feeds = .ok (next, taken, released)) :
    ∃ chunks rest, taken = frames chunks ++ rest ∧ released = payloads chunks ∧
      Authentic sigv4 signing signing.verified.signature chunks ∧
      released.flatten.length ≤ maxBodyBytes ∧
      (∀ n ∈ declaredLength headers, released.flatten.length ≤ n) ∧
      ∀ last more, next.finish = .ok (last, more) →
        more = [] ∧ (∀ n ∈ declaredLength headers, released.flatten.length = n) ∧
        ∃ line trailers ending, rest = line ++ crlf ++ trailers ++ ending ∧
          (ending = [] ∨ ending = crlf) ∧
          Signed sigv4 signing
            (lastSignature sigv4 signing signing.verified.signature chunks) line [] ∧
          SignedTrailers sigv4 signing (terminalSignature sigv4 signing chunks)
            (declaredTrailerNames headers) trailers := by
  obtain ⟨hbody, hlength, htrailers, -⟩ := new_eq_some hnew
  obtain ⟨⟨-, hbody', hlength', htrailers'⟩, hfeeds⟩ := feeds_feedAll hsigning hfeed
  obtain ⟨chunks, consumed, hreading⟩ := hfeeds _ _ _ _ (reading_new hnew hsigning)
  simp only [List.nil_append] at hreading
  have hreleased := hreading.released_le
  refine ⟨chunks, consumed ++ next.encoded, ?_, hreading.released, hreading.authentic, ?_, ?_, ?_⟩
  · rw [hreading.stream, List.append_assoc]
  · have := hreading.body
    omega
  · intro n hn
    have := hreading.declared n (by rw [hlength', hlength]; exact hn)
    omega
  · intro last more hfinish
    obtain ⟨hmore, line, trailers, ending, hrest, hending, hterminated, hsigned⟩ :=
      hreading.finish_ok hfinish
    refine ⟨hmore, ?_, line, trailers, ending, hrest, hending, hterminated.signed, ?_⟩
    · intro n hn
      rw [hreading.released]
      exact hterminated.declared n (by rw [hlength', hlength]; exact hn)
    · rw [← htrailers, ← htrailers']
      exact hsigned

/-! ## A body with two chunks, a trailer and their signatures -/

/-- Functions under which each link of the chain has a signature of its own, and everything else
another one. -/
def tableSigv4 : Sigv4 where
  sha256Hex bytes := bytes.map fun b => Char.ofNat b.toNat
  signChunk _ _ _ previous hash := List.replicate 64 <|
    if previous = [] ∧ hash = ['x'] then 'a'
    else if previous = List.replicate 64 'a' ∧ hash = ['y', 'z'] then 'b'
    else if previous = List.replicate 64 'b' ∧ hash = [] then 'c' else 'f'
  signTrailer _ _ _ previous hash := List.replicate 64 <|
    if previous = List.replicate 64 'c' ∧ hash = "k:v\n".toList then 'd' else 'f'
  formatAmzDate _ := []

def sampleHeaders : List HeaderEntry :=
  [{ name := contentSha256Header, value := streamingPayloadTrailer },
    { name := decodedLengthHeader, value := "3".toList },
    { name := declaredTrailersHeader, value := "k".toList }]

def sampleSigning : ChunkSigning where
  credentials := { secretAccessKey := [] }
  verified := { scope := ⟨[], [], []⟩, timestampMs := 0, signature := [], presigned := false }

/-- The decoder of a request with the headers above. -/
def sampleDecoder : StreamingBodyDecoder where
  encoded := []
  state := .header
  currentSize := 0
  currentRemaining := 0
  currentSignature := none
  currentPayload := []
  previousSignature := some []
  decodedLength := some 3
  decoded := 0
  maxBodyBytes := 8
  signing := some sampleSigning
  declaredTrailers := [['k']]
  trailerBlock := []
  seenTrailers := []

def asciiBytes (text : Text) : Bytes := text.map fun c => UInt8.ofNat c.toNat

/-- A chunk header with this size digit and sixty-four times this digit as its signature. -/
def sampleLine (size digit : Char) : Bytes :=
  asciiBytes (size :: ";chunk-signature=".toList ++ List.replicate 64 digit)

/-- Chunks of one and of two bytes, the empty chunk, the trailer and its signature. -/
def sampleBody : Bytes :=
  sampleLine '1' 'a' ++ crlf ++ [120] ++ crlf ++ sampleLine '2' 'b' ++ crlf ++ [121, 122] ++ crlf ++
    sampleLine '0' 'c' ++ crlf ++ asciiBytes "k:v".toList ++ crlf ++
    asciiBytes ("x-amz-trailer-signature:".toList ++ List.replicate 64 'd') ++ crlf

theorem sampleDecoder_new : new sampleHeaders 8 (some sampleSigning.verified)
      (some sampleSigning.credentials) = .ok (some sampleDecoder) := by
  decide +kernel

theorem streaming_releases_authenticated_sample :
    ∃ next, feedAll tableSigv4 sampleDecoder [sampleBody.take 90, sampleBody.drop 90] =
        .ok (next, sampleBody, [[120], [121, 122]]) ∧
      (∃ last, next.finish = .ok (last, [])) ∧
      ∃ chunks rest, sampleBody = frames chunks ++ rest ∧ [[120], [121, 122]] = payloads chunks ∧
        Authentic tableSigv4 sampleSigning [] chunks ∧
        ∃ line trailers ending, rest = line ++ crlf ++ trailers ++ ending ∧
          SignedTrailers tableSigv4 sampleSigning
            (terminalSignature tableSigv4 sampleSigning chunks)
            (declaredTrailerNames sampleHeaders) trailers := by
  have hfeed : feedAll tableSigv4 sampleDecoder [sampleBody.take 90, sampleBody.drop 90] =
      .ok ({ sampleDecoder with
        state := .epilogue
        previousSignature := some (List.replicate 64 'c')
        decoded := 3
        trailerBlock := asciiBytes "k:v\n".toList
        seenTrailers := [['k']] }, sampleBody, [[120], [121, 122]]) := by
    decide +kernel
  obtain ⟨chunks, rest, htaken, hreleased, hauthentic, -, -, hfinish⟩ :=
    streaming_releases_authenticated tableSigv4 sampleDecoder_new rfl hfeed
  obtain ⟨-, -, line, trailers, ending, hrest, -, -, htrailers⟩ := hfinish _ [] rfl
  exact ⟨_, hfeed, ⟨_, rfl⟩, chunks, rest, htaken, hreleased, hauthentic, line, trailers, ending,
    hrest, htrailers⟩

/-- A signature supplied in upper case is accepted: the payload is released although, however
the body is cut, the supplied text is not the computed signature. -/
theorem upper_case_signature_releases : ∃ next taken, feedAll tableSigv4 sampleDecoder
        [sampleLine '1' 'A' ++ crlf ++ [120] ++ crlf] = .ok (next, taken, [[120]]) ∧
      ∀ line rest, taken = Chunk.frame ⟨line, [120]⟩ ++ rest →
        ∀ size supplied, parseChunkHeader line = .ok (size, some supplied) →
          supplied ≠ nextSignature tableSigv4 sampleSigning
            sampleSigning.verified.signature [120] := by
  refine ⟨{ sampleDecoder with previousSignature := some (List.replicate 64 'a'), decoded := 1 },
    sampleLine '1' 'A' ++ crlf ++ [120] ++ crlf, by decide +kernel, ?_⟩
  intro line rest htaken size supplied hparse
  -- The header line is a beginning of the body, so there are finitely many to look at.
  have hline : line = (sampleLine '1' 'A' ++ crlf ++ [120] ++ crlf).take line.length := by
    rw [htaken, Chunk.frame]
    simp
  have hlength : line.length < 88 := by
    have := congrArg List.length htaken
    simp [Chunk.frame, crlf, sampleLine, asciiBytes] at this
    omega
  have hall : ∀ n < 88, ∀ size supplied,
      parseChunkHeader ((sampleLine '1' 'A' ++ crlf ++ [120] ++ crlf).take n) =
        .ok (size, some supplied) →
      supplied ≠ List.replicate 64 'a' := by
    intro n hn size supplied hparse
    have hchecked : ∀ n < 88,
        (parseChunkHeader ((sampleLine '1' 'A' ++ crlf ++ [120] ++ crlf).take n)).toOption.bind
          Prod.snd ≠ some (List.replicate 64 'a') := by
      decide +kernel
    have := hchecked n hn
    rw [hparse] at this
    simpa [Except.toOption] using this
  have hnext : nextSignature tableSigv4 sampleSigning sampleSigning.verified.signature [120] =
      List.replicate 64 'a' := by
    decide +kernel
  rw [hline] at hparse
  rw [hnext]
  exact hall line.length hlength size supplied hparse

end MountRs.S3.Streaming
