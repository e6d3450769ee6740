import MountRs.Verification.S3.Chunks

/-! # The steps of the decoder

Each step of the decoder of a signed body keeps its place in the body. -/

namespace MountRs.S3.Streaming

open Except List Option StreamingBodyDecoder

namespace StreamingBodyDecoder

variable {sigv4 : Sigv4} {signing : ChunkSigning} {decoder next : StreamingBodyDecoder}
  {released more : List Bytes}

variable (hsigning : decoder.signing = some signing)

/-- The decoder after the header line of a chunk with this size and signature. -/
def opened (decoder : StreamingBodyDecoder) (lineEnd size : ℕ) (provided : Option Text) :
    StreamingBodyDecoder :=
  { decoder with
    encoded := decoder.encoded.drop (lineEnd + 2)
    currentSize := size
    currentRemaining := size
    currentSignature := provided
    currentPayload := [] }

theorem consumeHeader_eq_some (h : consumeHeader sigv4 decoder = .ok (some (next, released))) :
    released = [] ∧ ∃ lineEnd size provided, findCrlf decoder.encoded = some lineEnd ∧
      parseChunkHeader (decoder.encoded.take lineEnd) = .ok (size, provided) ∧
      decoder.checkChunkHeader size provided = .ok () ∧
      if size = 0 then ∃ ignored,
        finishChunk sigv4 (decoder.opened lineEnd size provided) = .ok (next, ignored)
      else next = { decoder.opened lineEnd size provided with state := .payload } := by
  unfold consumeHeader at h
  split at h
  · simp only [bind_eq_ok, pure_eq_ok, reduceCtorEq, and_false, exists_false] at h
  · rename_i lineEnd hline
    simp only [bind_eq_ok, Prod.exists] at h
    obtain ⟨⟨⟩, -, size, provided, hparse, ⟨⟩, hcheck, h⟩ := h
    by_cases hsize : size = 0
    · rw [if_pos hsize] at h
      simp only [bind_eq_ok, Prod.exists, pure_eq_ok, some.injEq, Prod.mk.injEq] at h
      obtain ⟨_, ignored, hfinish, rfl, rfl⟩ := h
      refine ⟨rfl, lineEnd, size, provided, hline, hparse, hcheck, ?_⟩
      rw [if_pos hsize]
      exact ⟨ignored, hfinish⟩
    · rw [if_neg hsize] at h
      simp only [pure_eq_ok, some.injEq, Prod.mk.injEq] at h
      obtain ⟨rfl, rfl⟩ := h
      refine ⟨rfl, lineEnd, size, provided, hline, hparse, hcheck, ?_⟩
      rw [if_neg hsize]
      rfl

include hsigning in
theorem keeps_terminal {lineEnd : ℕ} {supplied : Text} {ignored : List Bytes}
    (hstate : decoder.state = .header) (hline : findCrlf decoder.encoded = some lineEnd)
    (hparse : parseChunkHeader (decoder.encoded.take lineEnd) = .ok (0, some supplied))
    (hfinish : finishChunk sigv4 (decoder.opened lineEnd 0 (some supplied)) = .ok (next, ignored)) :
    Keeps sigv4 signing decoder next [] := by
  have hsigned : (decoder.opened lineEnd 0 (some supplied)).signing = some signing := hsigning
  obtain ⟨previous, state, hprevious, hequal, rfl, -, hafter⟩ := finishChunk_eq_ok hsigned hfinish
  obtain ⟨hlength, hstate'⟩ := hafter
  refine keeps_within ⟨rfl, rfl, rfl, rfl⟩ id id fun chunks consumed hposition => ?_
  simp only [Position, hstate] at hposition
  obtain ⟨rfl, hdecoded, hlast, hblock, hseen⟩ := hposition
  have hprevious' : previous = lastSignature sigv4 signing signing.verified.signature chunks :=
    some.inj (hprevious.symm.trans hlast)
  subst hprevious'
  refine ⟨decoder.encoded.take lineEnd ++ crlf, findCrlf_eq_some hline, ?_⟩
  have hterminated : Terminated sigv4 signing
      ((decoder.opened lineEnd 0 (some supplied)).chunkFinished
        (terminalSignature sigv4 signing chunks) state) chunks (decoder.encoded.take lineEnd) := by
    refine ⟨⟨supplied, hparse, hequal.symm⟩, rfl, hdecoded, ?_⟩
    intro n hn
    rw [← hdecoded]
    exact hlength n hn
  change state = if decoder.declaredTrailers.isEmpty then .epilogue else .trailer at hstate'
  by_cases hdeclared : decoder.declaredTrailers.isEmpty
  · rw [if_pos hdeclared] at hstate'
    subst hstate'
    exact ⟨_, [], (append_nil _).symm, hterminated, .inl ⟨List.isEmpty_iff.mp hdeclared, rfl⟩⟩
  · rw [if_neg hdeclared] at hstate'
    subst hstate'
    refine ⟨_, [], by simp [trailerLines], hterminated, ?_, hblock⟩
    change Names [] decoder.seenTrailers
    rw [hseen]
    exact .nil

include hsigning in
theorem keeps_consumeHeader (hstate : decoder.state = .header)
    (h : consumeHeader sigv4 decoder = .ok (some (next, released))) :
    Keeps sigv4 signing decoder next released := by
  obtain ⟨rfl, lineEnd, size, _, hline, hparse, hcheck, h⟩ := consumeHeader_eq_some h
  obtain ⟨supplied, rfl⟩ := checkChunkHeader_eq_ok hsigning hcheck
  by_cases hsize : size = 0
  · rw [if_pos hsize] at h
    subst hsize
    obtain ⟨_, hfinish⟩ := h
    exact keeps_terminal hsigning hstate hline hparse hfinish
  · rw [if_neg hsize] at h
    subst h
    refine keeps_within ⟨rfl, rfl, rfl, rfl⟩ id id fun chunks consumed hposition => ?_
    simp only [Position, hstate] at hposition
    obtain ⟨rfl, hdecoded, hlast, hblock, hseen⟩ := hposition
    refine ⟨decoder.encoded.take lineEnd ++ crlf, findCrlf_eq_some hline,
      decoder.encoded.take lineEnd, (append_nil _).symm, ?_, hblock, hseen⟩
    exact
      { header := ⟨supplied, rfl, hparse⟩
        size := (Nat.zero_add size).symm
        nonempty := hsize
        previous := hlast
        decoded := hdecoded }

/-- The decoder after `take` bytes of a payload, with `decoded` bytes counted. -/
def payloadTaken (decoder : StreamingBodyDecoder) (take decoded : ℕ) : StreamingBodyDecoder :=
  { decoder with
    encoded := decoder.encoded.drop take
    currentPayload := if decoder.signing.isSome
      then decoder.currentPayload ++ decoder.encoded.take take else decoder.currentPayload
    currentRemaining := decoder.currentRemaining - take
    decoded
    state := if decoder.currentRemaining - take = 0 then .payloadCr else decoder.state }

theorem consumePayload_eq_some (h : consumePayload decoder = .ok (some (next, released))) :
    let take := min decoder.currentRemaining decoder.encoded.length
    decoder.encoded ≠ [] ∧
      (released = if decoder.signing.isSome then [] else [decoder.encoded.take take]) ∧
      next = decoder.payloadTaken take (decoder.decoded + take) ∧
      decoder.decoded + take ≤ decoder.maxBodyBytes ∧
      ∀ n ∈ decoder.decodedLength, decoder.decoded + take ≤ n := by
  unfold consumePayload at h
  by_cases hencoded : decoder.encoded = []
  · rw [if_pos hencoded] at h
    cases h
  · rw [if_neg hencoded] at h
    cases htotal : checkedDecodedTotal decoder.decoded
        (min decoder.currentRemaining decoder.encoded.length) decoder.maxBodyBytes
        decoder.decodedLength with
    | error error =>
      simp only [htotal] at h
      cases h
    | ok total =>
      obtain ⟨rfl, hbody, hdeclared⟩ := checkedDecodedTotal_eq_ok htotal
      simp only [htotal, ok.injEq, some.injEq, Prod.mk.injEq] at h
      exact ⟨hencoded, h.2.symm, h.1.symm, hbody, hdeclared⟩

include hsigning in
theorem keeps_consumePayload (hstate : decoder.state = .payload)
    (h : consumePayload decoder = .ok (some (next, released))) :
    Keeps sigv4 signing decoder next released := by
  obtain ⟨-, hreleased, rfl, hbody, hdeclared⟩ := consumePayload_eq_some h
  set take := min decoder.currentRemaining decoder.encoded.length with htake
  rw [hsigning, isSome_some, if_pos rfl] at hreleased
  subst hreleased
  refine keeps_within ⟨rfl, rfl, rfl, rfl⟩ (fun _ => hbody) (fun _ => hdeclared)
    fun chunks consumed hposition => ?_
  simp only [Position, hstate] at hposition
  obtain ⟨line, rfl, hinside, hblock, hseen⟩ := hposition
  have hpayload : (decoder.payloadTaken take (decoder.decoded + take)).currentPayload =
      decoder.currentPayload ++ decoder.encoded.take take := by
    simp [payloadTaken, hsigning]
  have hlength : (decoder.encoded.take take).length = take := by
    rw [length_take]
    omega
  have hinside' : Inside sigv4 signing (decoder.payloadTaken take (decoder.decoded + take))
      chunks line := by
    refine ⟨hinside.header, ?_, hinside.nonempty, hinside.previous, ?_⟩
    · have hsize := hinside.size
      rw [hpayload, length_append, hlength]
      change decoder.currentSize =
        decoder.currentPayload.length + take + (decoder.currentRemaining - take)
      omega
    · have hdecoded := hinside.decoded
      rw [hpayload, length_append, hlength]
      change decoder.decoded + take = _
      omega
  refine ⟨line ++ crlf ++ (decoder.currentPayload ++ decoder.encoded.take take),
    by simp [payloadTaken], ?_⟩
  rw [← hpayload]
  by_cases hzero : decoder.currentRemaining - take = 0
  · have hnext : (decoder.payloadTaken take (decoder.decoded + take)).state = .payloadCr :=
      if_pos hzero
    simp only [Position, hnext]
    exact ⟨line, rfl, hinside', hzero, hblock, hseen⟩
  · have hnext : (decoder.payloadTaken take (decoder.decoded + take)).state = .payload :=
      (if_neg hzero).trans hstate
    simp only [Position, hnext]
    exact ⟨line, rfl, hinside', hblock, hseen⟩

theorem keeps_consumePayloadCr (hstate : decoder.state = .payloadCr)
    (h : consumePayloadCr decoder = .ok (some (next, released))) :
    Keeps sigv4 signing decoder next released := by
  unfold consumePayloadCr at h
  split at h
  · cases h
  · rename_i byte rest hencoded
    simp only [bind_eq_ok, failIf_eq_ok, pure_eq_ok, some.injEq, Prod.mk.injEq, not_not] at h
    obtain ⟨-, rfl, rfl, rfl⟩ := h
    refine keeps_within ⟨rfl, rfl, rfl, rfl⟩ id id fun chunks consumed hposition => ?_
    simp only [Position, hstate] at hposition
    obtain ⟨line, rfl, hinside, hremaining, hblock, hseen⟩ := hposition
    exact ⟨line ++ crlf ++ decoder.currentPayload ++ [13], by simp [hencoded], line, rfl,
      { hinside with }, hremaining, hblock, hseen⟩

include hsigning in
theorem keeps_consumePayloadLf (hstate : decoder.state = .payloadLf)
    (h : consumePayloadLf sigv4 decoder = .ok (some (next, released))) :
    Keeps sigv4 signing decoder next released := by
  unfold consumePayloadLf at h
  split at h
  · cases h
  · rename_i byte rest hencoded
    simp only [bind_eq_ok, failIf_eq_ok, pure_eq_ok, some.injEq,
      Prod.mk.injEq, Prod.exists, not_not] at h
    obtain ⟨-, rfl, _, _, hfinish, rfl, rfl⟩ := h
    have hsigned : ({ decoder with encoded := rest } : StreamingBodyDecoder).signing =
      some signing := hsigning
    obtain ⟨previous, _, hprevious, hequal, rfl, hreleased, hafter⟩ :=
      finishChunk_eq_ok hsigned hfinish
    refine ⟨⟨rfl, rfl, rfl, rfl⟩, ?_⟩
    intro stream released chunks consumed hreading
    have hposition := hreading.position
    simp only [Position, hstate] at hposition
    obtain ⟨line, rfl, hinside, hremaining, hblock, hseen⟩ := hposition
    have hlength : decoder.currentSize = decoder.currentPayload.length := by
      have := hinside.size
      omega
    have hpayload : decoder.currentPayload ≠ [] := by
      intro hnil
      have := hinside.nonempty
      simp [hnil] at hlength
      exact this hlength
    rw [if_pos ⟨hinside.nonempty, hpayload⟩] at hreleased
    rw [if_neg hinside.nonempty] at hafter
    subst hafter hreleased
    have hprevious' : previous = lastSignature sigv4 signing signing.verified.signature chunks := by
      have hsame : decoder.previousSignature = some previous := hprevious
      rw [hinside.previous] at hsame
      exact (some.inj hsame).symm
    subst hprevious'
    obtain ⟨supplied, hcurrent, hparse⟩ := hinside.header
    refine ⟨chunks ++ [⟨line, decoder.currentPayload⟩], [], hreading.signed, ?_, ?_, ?_, ?_,
      hreading.body, hreading.declared⟩
    · rw [hreading.stream, hencoded]
      simp [chunkFinished, Chunk.frame, crlf]
    · rw [hreading.released]
      simp
    · rw [authentic_append]
      refine ⟨hreading.authentic, hpayload, supplied, ?_, ?_⟩
      · rw [hparse, hlength]
      · rw [hequal]
        simp [hcurrent]
    · refine ⟨rfl, ?_, ?_, hblock, hseen⟩
      · have := hinside.decoded
        simpa [chunkFinished] using this
      · simp [chunkFinished]

theorem ensureTrailersPresent_eq_ok {declared seen : List Text}
    (h : ensureTrailersPresent declared seen = .ok ()) : ∀ name ∈ declared, name ∈ seen := by
  simp only [ensureTrailersPresent, failIf_eq_ok, not_exists, not_and, not_not] at h
  exact h

include hsigning in
theorem consumeTrailerSignature_eq_some {value : Text}
    (h : consumeTrailerSignature sigv4 decoder value = .ok (some (next, released))) :
    released = [] ∧ next = { decoder with state := .epilogue } ∧
      (∀ name ∈ decoder.declaredTrailers, name ∈ decoder.seenTrailers) ∧
      ∃ previous, decoder.previousSignature = some previous ∧
        toAsciiLowercase value = trailerSignature sigv4 signing previous
          (sigv4.sha256Hex decoder.trailerBlock) := by
  simp only [consumeTrailerSignature, hsigning, bind_eq_ok, okOr_eq_ok,
    failIf_eq_ok, pure_eq_ok, some.injEq, Prod.mk.injEq, not_not,
    exists_eq_left'] at h
  obtain ⟨⟨⟩, -, ⟨⟩, hpresent, previous, hprevious, ⟨⟩, hequal, hnext, hreleased⟩ := h
  refine ⟨hreleased.symm, ?_, ensureTrailersPresent_eq_ok hpresent, previous, hprevious,
    hequal.symm⟩
  rw [hsigning]
  exact hnext.symm

def lineTaken (decoder : StreamingBodyDecoder) (lineEnd : ℕ) : StreamingBodyDecoder :=
  { decoder with encoded := decoder.encoded.drop (lineEnd + 2) }

include hsigning in
theorem consumeTrailer_eq_some (h : consumeTrailer sigv4 decoder = .ok (some (next, released))) :
    ∃ lineEnd name value, findCrlf decoder.encoded = some lineEnd ∧
      parseTrailerLine (decoder.encoded.take lineEnd) = .ok (name, value) ∧
      ((name = trailerSignatureHeader ∧ consumeTrailerSignature sigv4
          (decoder.lineTaken lineEnd) value = .ok (some (next, released))) ∨
        (released = [] ∧ next = { decoder.lineTaken lineEnd with
          trailerBlock := decoder.trailerBlock ++ decoder.encoded.take lineEnd ++ [10]
          seenTrailers := decoder.seenTrailers ++ [name] })) := by
  unfold consumeTrailer at h
  split at h
  · simp only [bind_eq_ok, pure_eq_ok, reduceCtorEq, and_false, exists_false] at h
  · rename_i lineEnd hline
    simp only [bind_eq_ok] at h
    obtain ⟨⟨⟩, -, h⟩ := h
    split at h
    · -- A signed body has no empty trailer line.
      simp [hsigning, bind_eq_ok, failIf_eq_ok] at h
    · simp only [bind_eq_ok, Prod.exists] at h
      obtain ⟨name, value, hparse, h⟩ := h
      refine ⟨lineEnd, name, value, hline, hparse, ?_⟩
      split at h
      · rename_i hname
        exact .inl ⟨hname, h⟩
      · simp only [bind_eq_ok, pure_eq_ok, some.injEq, Prod.mk.injEq] at h
        obtain ⟨⟨⟩, -, ⟨⟩, -, rfl, rfl⟩ := h
        exact .inr ⟨rfl, rfl⟩

include hsigning in
theorem keeps_consumeTrailer (hstate : decoder.state = .trailer)
    (h : consumeTrailer sigv4 decoder = .ok (some (next, released))) :
    Keeps sigv4 signing decoder next released := by
  obtain ⟨lineEnd, _, value, hline, hparse, h⟩ := consumeTrailer_eq_some hsigning h
  rcases h with ⟨rfl, h⟩ | ⟨rfl, rfl⟩
  · have hsigned : (decoder.lineTaken lineEnd).signing = some signing := hsigning
    obtain ⟨rfl, rfl, hpresent, previous, hprevious, hequal⟩ :=
      consumeTrailerSignature_eq_some hsigned h
    refine keeps_within ⟨rfl, rfl, rfl, rfl⟩ id id fun chunks consumed hposition => ?_
    simp only [Position, hstate] at hposition
    obtain ⟨line, lines, rfl, hterminated, hnames, hblock⟩ := hposition
    refine ⟨line ++ crlf ++ (trailerLines lines ++ decoder.encoded.take lineEnd ++ crlf), ?_, line,
      _, rfl, { hterminated with }, .inr ⟨lines, decoder.seenTrailers, _, value, rfl, hnames,
        hpresent, hparse, ?_⟩⟩
    · conv_lhs => rw [findCrlf_eq_some hline]
      simp [lineTaken]
    · have hprevious' : previous = terminalSignature sigv4 signing chunks :=
        some.inj (hprevious.symm.trans hterminated.previous)
      rw [hequal, hprevious', ← hblock]
      rfl
  · refine keeps_within ⟨rfl, rfl, rfl, rfl⟩ id id fun chunks consumed hposition => ?_
    simp only [Position, hstate] at hposition
    obtain ⟨line, lines, rfl, hterminated, hnames, hblock⟩ := hposition
    refine ⟨line ++ crlf ++ trailerLines (lines ++ [decoder.encoded.take lineEnd]), ?_, ?_⟩
    · conv_lhs => rw [findCrlf_eq_some hline]
      simp [lineTaken, trailerLines]
    · simp only [Position, lineTaken, hstate]
      exact ⟨line, lines ++ [decoder.encoded.take lineEnd], rfl, { hterminated with },
        hnames.append hparse, by simp [hblock, signedTrailers]⟩

theorem keeps_consumeEpilogue (hstate : decoder.state = .epilogue)
    (h : consumeEpilogue decoder = .ok (some (next, released))) :
    Keeps sigv4 signing decoder next released := by
  unfold consumeEpilogue at h
  split at h
  · cases h
  · simp only [bind_eq_ok, pure_eq_ok, reduceCtorEq, and_false, exists_false] at h
  · rename_i first second hencoded
    simp only [bind_eq_ok, failIf_eq_ok, pure_eq_ok, some.injEq, Prod.mk.injEq, not_not] at h
    obtain ⟨-, rfl, -, rfl, -, -, rfl, rfl⟩ := h
    refine keeps_within ⟨rfl, rfl, rfl, rfl⟩ id id fun chunks consumed hposition => ?_
    simp only [Position, hstate] at hposition
    obtain ⟨line, trailers, rfl, hterminated, htrailers⟩ := hposition
    exact ⟨line ++ crlf ++ trailers ++ crlf, by simp [hencoded, crlf], line, trailers, rfl,
      { hterminated with }, htrailers⟩
  · cases h

include hsigning in
theorem keeps_consume (h : consume sigv4 decoder = .ok (some (next, released))) :
    Keeps sigv4 signing decoder next released := by
  unfold consume at h
  split at h
  · rename_i hstate
    exact keeps_consumeHeader hsigning hstate h
  · rename_i hstate
    exact keeps_consumePayload hsigning hstate h
  · rename_i hstate
    exact keeps_consumePayloadCr hstate h
  · rename_i hstate
    exact keeps_consumePayloadLf hsigning hstate h
  · rename_i hstate
    exact keeps_consumeTrailer hsigning hstate h
  · rename_i hstate
    exact keeps_consumeEpilogue hstate h
  · simp only [consumeDone, bind_eq_ok, pure_eq_ok, reduceCtorEq, and_false, exists_false] at h

end StreamingBodyDecoder

end MountRs.S3.Streaming
