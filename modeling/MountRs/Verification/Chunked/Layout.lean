import MountRs.Library.AsyncLogic
import MountRs.Verification.Chunked.Extents

/-! # Reading and rewriting file layouts

A rewritten layout has the old bytes with the input laid over them, whatever happens
to the rest of the world while its blocks are read and written. -/

namespace MountRs.Chunked

open Discipline Except List Nat Option

variable {content : BlockId → List UInt8}

/-- The blocks hold this content. -/
def HasContent (content : BlockId → List UInt8) (world : World) : Prop := world.content = content

/-! ## Buffers -/

variable {buffer bytes : List UInt8} {offset : ℕ}

theorem length_copyFromSlice (h : offset + bytes.length ≤ buffer.length) :
    (copyFromSlice buffer offset bytes).length = buffer.length := by
  simp only [copyFromSlice, length_append, length_take, length_drop]
  omega

variable {k : ℕ}

theorem getD_copyFromSlice (h : offset + bytes.length ≤ buffer.length) :
    (copyFromSlice buffer offset bytes).getD k 0 =
      if offset ≤ k ∧ k < offset + bytes.length then bytes.getD (k - offset) 0
      else buffer.getD k 0 := by
  simp only [copyFromSlice, getD_eq_getElem?_getD, append_assoc]
  have htake : (buffer.take offset).length = offset := by
    rw [length_take]
    omega
  by_cases hlow : k < offset
  · rw [getElem?_append_left (by omega), getElem?_take_of_lt hlow, if_neg (by omega)]
  · rw [getElem?_append_right (by omega), htake]
    by_cases hmid : k < offset + bytes.length
    · rw [getElem?_append_left (by omega), if_pos (by omega)]
    · rw [getElem?_append_right (by omega), if_neg (by omega), getElem?_drop]
      congr 2
      omega

variable {count : ℕ}

theorem getD_slice {from' : ℕ} (h : k < count) :
    ((bytes.drop from').take count).getD k 0 = bytes.getD (from' + k) 0 := by
  simp only [getD_eq_getElem?_getD]
  rw [getElem?_take_of_lt h, getElem?_drop]

/-! ## Blocks -/

theorem blocksGet_observes (block : BlockId) :
    Observes (HasContent content) (blocksGet block) fun bytes => bytes = content block := by
  apply observes_atomic
  · intro answer world
    cases answer.fault <;> rfl
  · intro answer world hworld bytes hbytes
    cases hfault : answer.fault with
    | none =>
      simp only [hfault, Except.ok.injEq] at hbytes
      rw [← hbytes, hworld]
    | refuse | lose => simp [hfault] at hbytes

theorem blocksPut_observes (bytes : List UInt8) :
    Observes (HasContent content) (blocksPut bytes) fun block =>
      content block = bytes ∧ block ≠ "" := by
  apply observes_atomic
  · intro answer world
    cases answer.fault <;> rfl
  · intro answer world hworld block hblock
    cases hfault : answer.fault with
    | none =>
      simp only [hfault] at hblock
      split_ifs at hblock with hstored
      cases hblock
      exact ⟨hworld ▸ hstored.1, hstored.2⟩
    | refuse | lose => simp [hfault] at hblock

/-! ## Reading -/

variable {fileSize position length : ℕ} {path syscall : String} {extent : BlockExtent} {stop : ℕ}

theorem readExtent_observes {visited : List BlockExtent}
    (hgood : GoodExtents (visited ++ [extent]) fileSize) (hstop : stop = position + length)
    (hlength : buffer.length = length)
    (hbuffer : ∀ k < length, buffer.getD k 0 = byteOf content visited (position + k)) :
    Observes (HasContent content) (readExtent fileSize position stop path syscall buffer extent)
      fun result => result.length = length ∧
        ∀ k < length, result.getD k 0 = byteOf content (visited ++ [extent]) (position + k) := by
  have hwithin := hgood.within extent (by simp)
  unfold readExtent
  refine observes_lift_bind fun extentEnd hend => ?_
  simp only [okOr_eq_ok, checkedAdd_eq_some] at hend
  obtain ⟨-, rfl⟩ := hend
  dsimp only
  split_ifs with hempty
  · refine observes_pure.mpr ⟨hlength, fun k hk => ?_⟩
    rw [hbuffer k hk, byteOf_append_singleton hgood.apart, if_neg]
    simp only [covers]
    omega
  · refine observes_bind (observes_orElse (blocksGet_observes extent.block) fun e =>
      observes_fail) ?_
    intro bytes hbytes
    refine observes_lift_bind fun sourceOffset hsource => ?_
    simp only [okOr_eq_ok, checkedAdd_eq_some] at hsource
    obtain ⟨-, hsource⟩ := hsource
    refine observes_lift_bind fun sourceEnd hsourceEnd => ?_
    simp only [okOr_eq_ok, checkedAdd_eq_some] at hsourceEnd
    obtain ⟨-, hsourceEnd⟩ := hsourceEnd
    split_ifs with hshort
    · exact observes_fail
    · push Not at hshort
      obtain ⟨hbytesLength, hroom⟩ := hshort
      generalize hstart : max position extent.fileOffset = start at *
      generalize hcopy : min (min stop (extent.fileOffset + extent.length)) fileSize = copyEnd at *
      have hslice : ((bytes.drop sourceOffset).take (copyEnd - start)).length = copyEnd - start := by
        simp only [length_take, length_drop]
        omega
      refine observes_pure.mpr ⟨?_, fun k hk => ?_⟩
      · rw [length_copyFromSlice (by omega), hlength]
      · rw [getD_copyFromSlice (by omega), hslice, byteOf_append_singleton hgood.apart]
        by_cases hcovers : covers extent (position + k)
        · have hin : start - position ≤ k ∧ k < start - position + (copyEnd - start) := by
            simp only [covers] at hcovers
            omega
          rw [if_pos hin, if_pos hcovers, getD_slice (by omega), hbytes, extentByte]
          congr 1
          simp only [covers] at hcovers
          omega
        · have hout : ¬ (start - position ≤ k ∧ k < start - position + (copyEnd - start)) := by
            simp only [covers] at hcovers
            omega
          rw [if_neg hout, if_neg hcovers, hbuffer k hk]

variable {layout : FileLayout}

theorem readLayoutInto_observes (hgood : GoodExtents layout.extents fileSize) :
    Observes (HasContent content) (readLayoutInto layout fileSize position length path syscall)
      fun bytes => bytes.length = length ∧
        ∀ k < length, bytes.getD k 0 = byteOf content layout.extents (position + k) := by
  unfold readLayoutInto
  refine observes_lift_bind fun stop hstop => ?_
  simp only [okOr_eq_ok, checkedAdd_eq_some] at hstop
  refine observes_foldlM (I := fun visited (buffer : List UInt8) => buffer.length = length ∧
    ∀ k < length, buffer.getD k 0 = byteOf content visited (position + k)) ?_ ?_
  · intro visited buffer extent hinit hbuffer
    have hsub : (visited ++ [extent]).Sublist layout.extents := hinit.sublist
    exact readExtent_observes (hgood.sublist hsub) hstop.2.symm hbuffer.1 hbuffer.2
  · refine ⟨by simp, fun k hk => ?_⟩
    simp [byteOf, getD_eq_getElem?_getD, hk]

theorem readExtent_delivers
    (hbacked : extent.blockOffset + extent.length ≤ (content extent.block).length)
    (hfile : extent.fileOffset + extent.length ≤ U64_MAX)
    (hblock : extent.blockOffset + extent.length ≤ U64_MAX) (hstop : stop = position + length)
    (hlength : buffer.length = length) :
    Delivers (fun answer => answer.fault = .none) (HasContent content)
      (readExtent fileSize position stop path syscall buffer extent)
      fun result => result.length = length := by
  unfold readExtent
  refine delivers_lift_bind (okOr_eq_ok.mpr (checkedAdd_eq_some.mpr ⟨hfile, rfl⟩)) ?_
  dsimp only
  split_ifs with hempty
  · exact delivers_pure.mpr hlength
  · have hget : Delivers (fun answer => answer.fault = .none) (HasContent content)
        (blocksGet extent.block) fun bytes => bytes = content extent.block := by
      refine delivers_atomic fun answer world hfault hworld => ⟨_, ?_, rfl⟩
      simp only [hfault]
      rw [← hworld]
    refine delivers_bind (delivers_orElse hget) ?_
    rintro _ rfl
    refine delivers_lift_bind (okOr_eq_ok.mpr (checkedAdd_eq_some.mpr ⟨by omega, rfl⟩)) ?_
    refine delivers_lift_bind (okOr_eq_ok.mpr (checkedAdd_eq_some.mpr ⟨by omega, rfl⟩)) ?_
    rw [if_neg (by omega)]
    refine delivers_pure.mpr ?_
    rw [length_copyFromSlice, hlength]
    simp only [length_take, length_drop]
    omega

theorem readLayoutInto_bytes {byte : ℕ → UInt8} (hgood : GoodExtents layout.extents fileSize)
    (hbytes : ∀ offset, byteOf content layout.extents offset = byte offset) :
    Observes (HasContent content) (readLayoutInto layout fileSize position length path syscall)
      fun bytes => bytes = (range length).map fun k => byte (position + k) := by
  refine observes_mono (readLayoutInto_observes hgood) ?_
  rintro _ ⟨hlength, hget⟩
  apply ext_getElem (by simpa using hlength)
  intro k hk _
  have := hget k (by omega)
  rw [getD_eq_getElem?_getD, getElem?_eq_getElem hk, getD_some, hbytes] at this
  simpa using this

theorem readLayoutInto_delivers (hgood : GoodExtents layout.extents fileSize)
    (hbacked : Backed content layout.extents) (hend : position + length ≤ U64_MAX) :
    Delivers (fun answer => answer.fault = .none) (HasContent content)
      (readLayoutInto layout fileSize position length path syscall)
      fun bytes => bytes.length = length := by
  unfold readLayoutInto
  refine delivers_lift_bind (okOr_eq_ok.mpr (checkedAdd_eq_some.mpr ⟨hend, rfl⟩)) ?_
  refine delivers_foldlM ?_ (by simp)
  intro buffer extent hmem hlength
  exact readExtent_delivers (hbacked extent hmem) (hgood.fileBounded extent hmem)
    (hgood.blockBounded extent hmem) rfl hlength

/-! ## Rewriting -/

def writtenByte (content : BlockId → List UInt8) (extents : List BlockExtent) (position : ℕ)
    (input : List UInt8) (offset : ℕ) : UInt8 :=
  if position ≤ offset ∧ offset < position + input.length then input.getD (offset - position) 0
  else byteOf content extents offset

variable {chunkStart chunkLength : ℕ} {extents : List BlockExtent} {chunk : List UInt8}

theorem filled_chunk {input : List UInt8} (hlength : chunk.length = chunkLength)
    (hmeets : max position chunkStart ≤ min (position + input.length) (chunkStart + chunkLength))
    (hchunk : chunkStart < position ∨ position + input.length < chunkStart + chunkLength →
      ∀ k < chunkLength, chunk.getD k 0 = byteOf content extents (chunkStart + k)) :
    let writeStart := max position chunkStart
    let count := min (position + input.length) (chunkStart + chunkLength) - writeStart
    let filled := copyFromSlice chunk (writeStart - chunkStart)
      ((input.drop (writeStart - position)).take count)
    filled.length = chunkLength ∧ ∀ k < chunkLength,
      filled.getD k 0 = writtenByte content extents position input (chunkStart + k) := by
  intro writeStart count filled
  have hslice : ((input.drop (writeStart - position)).take count).length = count := by
    simp only [length_take, length_drop]
    omega
  have hfits : writeStart - chunkStart + ((input.drop (writeStart - position)).take count).length
      ≤ chunk.length := by
    rw [hslice]
    omega
  refine ⟨by rw [length_copyFromSlice hfits, hlength], fun k hk => ?_⟩
  rw [getD_copyFromSlice hfits, hslice, writtenByte]
  by_cases hin : position ≤ chunkStart + k ∧ chunkStart + k < position + input.length
  · rw [if_pos hin, if_pos (by omega), getD_slice (by omega)]
    congr 1
    omega
  · rw [if_neg hin, if_neg (by omega), hchunk (by omega) k hk]

variable {layout : FileLayout} {oldSize position newSize size : ℕ} {input : List UInt8}
  {path : String}

theorem oldChunk_observes {inputEnd : ℕ} (hgood : GoodExtents layout.extents oldSize) :
    Observes (HasContent content)
      (oldChunk layout oldSize position inputEnd chunkStart chunkLength path)
      fun chunk => chunk.length = chunkLength ∧
        (chunkStart < position ∨ inputEnd < chunkStart + chunkLength →
          ∀ k < chunkLength, chunk.getD k 0 = byteOf content layout.extents (chunkStart + k)) := by
  unfold oldChunk
  split_ifs with hpartial
  · exact observes_mono (readLayoutInto_observes hgood) fun chunk h => ⟨h.1, fun _ => h.2⟩
  · exact observes_pure.mpr ⟨by simp, fun h => absurd h hpartial⟩

theorem putChunk_observes (hlength : chunk.length = chunkLength)
    (hend : chunkStart + chunkLength ≤ U64_MAX) :
    Observes (HasContent content) (putChunk chunkStart chunkLength path chunk)
      fun replacement => (∀ r, replacement = some r → r.fileOffset = chunkStart ∧
          r.fileOffset + r.length = chunkStart + chunkLength ∧ r.block ≠ "" ∧
          chunkStart + chunkLength ≤ U64_MAX ∧ r.blockOffset + r.length ≤ U64_MAX) ∧
        (∀ offset, chunkStart ≤ offset ∧ offset < chunkStart + chunkLength →
          replacementByte content replacement offset = chunk.getD (offset - chunkStart) 0) ∧
        Backed content replacement.toList := by
  unfold putChunk
  split_ifs with hany
  · refine observes_bind (observes_orElse (blocksPut_observes chunk) fun _ => observes_fail) ?_
    intro block hblock
    refine observes_pure.mpr ⟨fun r hr => ?_, fun offset _ => ?_, ?_⟩
    · cases hr
      exact ⟨rfl, rfl, hblock.2, hend, by simp; omega⟩
    · simp [replacementByte, extentByte, hblock.1]
    · simp [Backed, hblock.1, hlength]
  · refine observes_pure.mpr ⟨by simp, fun offset hin => ?_, by simp [Backed]⟩
    have hzero : ∀ byte ∈ chunk, byte = 0 := by simpa using hany
    have hlt : offset - chunkStart < chunk.length := by omega
    rw [getD_eq_getElem?_getD, getElem?_eq_getElem hlt, getD_some]
    exact (hzero _ (getElem_mem hlt)).symm

theorem rewriteChunk_observes {index : ℕ} (hgood : GoodExtents layout.extents oldSize)
    (hextents : GoodExtents extents newSize)
    (hmeets : index * size < position + input.length ∧ position < index * size + size)
    (hend : position + input.length ≤ newSize) :
    Observes (HasContent content)
      (rewriteChunk layout oldSize position input newSize path size extents index)
      fun result => GoodExtents result newSize ∧ (Backed content extents → Backed content result) ∧
        (∀ offset, index * size ≤ offset ∧ offset < min newSize (index * size + size) →
          byteOf content result offset = writtenByte content layout.extents position input offset) ∧
        ∀ other offset, ¬ (index * size ≤ offset ∧ offset < min newSize (index * size + size)) →
          byteOf other result offset = byteOf other extents offset := by
  unfold rewriteChunk
  refine observes_lift_bind fun chunkStart hstart => ?_
  simp only [okOr_eq_ok, checkedMul_eq_some] at hstart
  obtain ⟨-, rfl⟩ := hstart
  refine observes_lift_bind fun remaining hremaining => ?_
  simp only [okOr_eq_ok, checkedSub_eq_some] at hremaining
  obtain ⟨hle, rfl⟩ := hremaining
  refine observes_lift_bind fun chunkEnd hchunkEnd => ?_
  simp only [okOr_eq_ok, checkedAdd_eq_some] at hchunkEnd
  obtain ⟨hbound, rfl⟩ := hchunkEnd
  generalize index * size = chunkStart at *
  generalize hchunkLength : min (newSize - chunkStart) size = chunkLength at *
  refine observes_bind (oldChunk_observes hgood) ?_
  intro chunk hchunk
  dsimp only
  split_ifs with hbounds
  · exact observes_fail
  · obtain ⟨hfilledLength, hfilled⟩ := filled_chunk hchunk.1 (by omega) hchunk.2
    refine observes_bind (putChunk_observes hfilledLength hbound) ?_
    intro replacement hreplacement
    refine observes_lift.mpr fun result hresult => ?_
    obtain ⟨hresultGood, hresultByte, hresultBacked⟩ :=
      replaceExtentRange_spec hextents le_rfl (by omega) hreplacement.1 hresult
    refine ⟨hresultGood, fun h => hresultBacked content h hreplacement.2.2, fun offset hin => ?_,
      fun other offset hout => ?_⟩
    · have hin' : chunkStart ≤ offset ∧ offset < chunkStart + chunkLength := by omega
      rw [hresultByte, if_pos hin', hreplacement.2.1 offset hin', hfilled _ (by omega)]
      congr 1
      omega
    · rw [hresultByte, if_neg (by omega)]

theorem fixedChunkSize_pos {config : ChunkerConfig} (h : fixedChunkSize config = .ok (some size)) :
    0 < size := by
  simp only [fixedChunkSize] at h
  split_ifs at h with halgorithm
  · simp [pure_eq_ok] at h
  · simp only [bind_eq_ok, okOr_eq_ok, failIf_eq_ok, pure_eq_ok, some.injEq] at h
    obtain ⟨_, hchunker, _, hfound, -, -, rfl⟩ := h
    simp only [fromConfig, bind_eq_ok, okOr_eq_ok, failIf_eq_ok] at hchunker
    obtain ⟨-, -, -, -, _, hdeclared, hnew⟩ := hchunker
    rw [hfound] at hdeclared
    simp only [filter_some] at hdeclared
    split_ifs at hdeclared
    cases hdeclared
    simp only [FixedSizeChunker.new] at hnew
    split_ifs at hnew with hpos
    exact hpos

theorem range_prefix {first c : ℕ} {visited : List ℕ}
    (h : visited ++ [c] <+: range' first count) :
    c = first + visited.length ∧ visited.length < count := by
  obtain ⟨_, hrest⟩ := h
  have hlength := congrArg length hrest
  simp only [length_append, length_singleton, length_range'] at hlength
  have hget := congrArg (fun l => l[visited.length]?) hrest
  simp only [append_assoc, getElem?_append_right (Nat.le_refl _), Nat.sub_self,
    singleton_append, getElem?_cons_zero] at hget
  rw [getElem?_range' (by omega), Nat.one_mul, some.injEq] at hget
  omega

/-- The new layout has the new bytes, and outside of the chunks that the input meets every
byte stays where it was. -/
theorem rewriteLayout_observes (hgood : GoodExtents layout.extents oldSize)
    (hsize : oldSize ≤ newSize) (hend : position + input.length ≤ newSize) :
    Observes (HasContent content) (rewriteLayout layout oldSize position input newSize path)
      fun result => result.chunker = layout.chunker ∧ GoodExtents result.extents newSize ∧
        (Backed content layout.extents → Backed content result.extents) ∧
        (∀ offset, byteOf content result.extents offset =
          writtenByte content layout.extents position input offset) ∧
        ∀ size, fixedChunkSize layout.chunker = .ok (some size) → ∀ offset,
          offset / size < position / size ∨ (position + input.length - 1) / size < offset / size →
          blockAt result.extents offset = blockAt layout.extents offset := by
  unfold rewriteLayout
  refine observes_lift_bind fun chunkSize hchunkSize => ?_
  cases chunkSize with
  | none => exact observes_lift_bind fun _ _ => observes_fail
  | some size =>
    have hpos := fixedChunkSize_pos hchunkSize
    refine observes_lift_bind fun inputEnd hinputEnd => ?_
    simp only [okOr_eq_ok, checkedAdd_eq_some] at hinputEnd
    obtain ⟨-, rfl⟩ := hinputEnd
    split_ifs with hempty
    · exact observes_halted
    dsimp only
    have hfirst := div_mul_le_self position size
    have hfirst' := lt_div_mul_add hpos (a := position)
    have hlast := div_mul_le_self (position + input.length - 1) size
    have hlast' := lt_div_mul_add hpos (a := position + input.length - 1)
    have hmono : position / size ≤ (position + input.length - 1) / size + 1 := by
      have := Nat.div_le_div_right (c := size) (show position - 1 ≤ position + input.length - 1 by omega)
      have := Nat.div_le_div_right (c := size) (show position ≤ position - 1 + size by omega)
      rw [add_div_right _ hpos] at this
      omega
    generalize hfirstEq : position / size = first at *
    generalize hlastEq : (position + input.length - 1) / size = last at *
    -- After some chunks, the bytes up to the next chunk are the new ones.
    refine observes_bind (observes_foldlM (I := fun visited extents =>
      GoodExtents extents newSize ∧ (Backed content layout.extents → Backed content extents) ∧
      (∀ offset, first * size ≤ offset ∧ offset < min newSize ((first + visited.length) * size) →
        byteOf content extents offset = writtenByte content layout.extents position input offset) ∧
      ∀ other offset, ¬ (first * size ≤ offset ∧
          offset < min newSize ((first + visited.length) * size)) →
        byteOf other extents offset = byteOf other layout.extents offset) ?_ ?_) ?_
    · rintro visited _ _ hinit ⟨hextents, hbacked, hinside, houtside⟩
      obtain ⟨rfl, hcount⟩ := range_prefix hinit
      have hbelow : (first + visited.length) * size ≤ last * size :=
        mul_le_mul_right _ (by omega)
      have habove : first * size ≤ (first + visited.length) * size :=
        mul_le_mul_right _ (by omega)
      have hnext : (first + (visited ++ [first + visited.length]).length) * size =
          (first + visited.length) * size + size := by
        simp only [length_append, length_singleton]
        ring
      refine observes_mono (rewriteChunk_observes hgood hextents ⟨by omega, by omega⟩ hend) ?_
      rintro _ ⟨hresult, hresultBacked, hresultIn, hresultOut⟩
      refine ⟨hresult, fun h => hresultBacked (hbacked h), fun offset hin => ?_,
        fun other offset hout => ?_⟩
      · rw [hnext] at hin
        by_cases hchunk : (first + visited.length) * size ≤ offset
        · exact hresultIn offset (by omega)
        · rw [hresultOut content offset (by omega), hinside offset (by omega)]
      · rw [hnext] at hout
        rw [hresultOut other offset (by omega), houtside other offset (by omega)]
    · refine ⟨hgood.mono hsize, fun h => h, fun offset hin => ?_, fun _ _ _ => rfl⟩
      simp only [length_nil, add_zero] at hin
      omega
    · rintro _ ⟨hextents, hbacked, hinside, houtside⟩
      have hcount : first + (last + 1 - first) = last + 1 := by omega
      rw [length_range', hcount, add_mul, one_mul] at hinside houtside
      refine observes_pure.mpr ⟨rfl, hextents, hbacked, fun offset => ?_, ?_⟩
      · by_cases hin : first * size ≤ offset ∧ offset < min newSize (last * size + size)
        · exact hinside offset hin
        · rw [houtside content offset hin, writtenByte, if_neg (by omega)]
      · intro size' hsize' offset hout
        cases hchunkSize.symm.trans hsize'
        refine blockAt_eq fun other => houtside other offset ?_
        have hoffset := div_mul_le_self offset size
        have hoffset' := lt_div_mul_add hpos (a := offset)
        rw [hfirstEq, hlastEq] at hout
        rcases hout with hlt | hlt
        · have := mul_le_mul_right size hlt
          rw [succ_mul] at this
          omega
        · have := mul_le_mul_right size hlt
          rw [succ_mul] at this
          omega

/-! ## Whole files -/

/-- A rewritten layout validates for the new size. Reading it gives the old bytes with the
input laid over them, and succeeds wherever the old blocks are as long as the old layout says.
Outside of the chunks that the write meets every byte comes from the same place. -/
theorem rewrite_layout_overlays (layout : FileLayout) (oldSize position newSize : ℕ)
    (input : List UInt8) (path : String) (content : BlockId → List UInt8)
    (hvalid : validateFileLayout layout oldSize = .ok ()) (hsize : oldSize ≤ newSize)
    (hend : position + input.length ≤ newSize) :
    Observes (HasContent content) (rewriteLayout layout oldSize position input newSize path)
      fun result => validateFileLayout result newSize = .ok () ∧
        (∀ start length path syscall, Observes (HasContent content)
          (readLayoutInto result newSize start length path syscall) fun bytes => bytes =
            (List.range length).map fun k =>
              writtenByte content layout.extents position input (start + k)) ∧
        (Backed content layout.extents → ∀ start length path syscall, start + length ≤ U64_MAX →
          Delivers (fun answer => answer.fault = .none) (HasContent content)
            (readLayoutInto result newSize start length path syscall) fun bytes => bytes =
              (List.range length).map fun k =>
                writtenByte content layout.extents position input (start + k)) ∧
        ∀ size, fixedChunkSize layout.chunker = .ok (some size) → ∀ offset,
          offset / size < position / size ∨ (position + input.length - 1) / size < offset / size →
          blockAt result.extents offset = blockAt layout.extents offset := by
  obtain ⟨hchunker, hgood⟩ := validateFileLayout_eq_ok.mp hvalid
  refine observes_mono (rewriteLayout_observes hgood hsize hend) ?_
  rintro result ⟨hsame, hresult, hbacked, hbytes, hblocks⟩
  have hread : ∀ start length path syscall, Observes (HasContent content)
      (readLayoutInto result newSize start length path syscall) fun bytes => bytes =
        (List.range length).map fun k =>
          writtenByte content layout.extents position input (start + k) := by
    intro start length path syscall
    exact readLayoutInto_bytes hresult hbytes
  refine ⟨validateFileLayout_eq_ok.mpr ⟨hsame ▸ hchunker, hresult⟩, hread, ?_, hblocks⟩
  intro hold start length path syscall hbound
  exact (readLayoutInto_delivers hresult (hbacked hold) hbound).and_observes
    (hread start length path syscall)

def fourBytes : ChunkerConfig := FixedSizeChunker.config ⟨4, by decide⟩

/-- Three chunks of four bytes. The first and the last one are full, and a block reaches into
the one between them from either side. -/
def gapped : FileLayout :=
  { chunker := fourBytes, extents := [⟨0, "left", 0, 5⟩, ⟨7, "right", 1, 5⟩] }

def gappedContent (block : BlockId) : List UInt8 :=
  if block = "left" then [1, 2, 3, 4, 5] else if block = "right" then [0, 8, 9, 10, 11, 12]
  else [5, 6, 7, 8]

/-- A write between two blocks. -/
theorem rewrite_layout_overlays_gapped : validateFileLayout gapped 12 = .ok () ∧
      Observes (HasContent gappedContent) (rewriteLayout gapped 12 5 [6, 7] 12 "/f") fun result =>
        validateFileLayout result 12 = .ok () ∧
          Delivers (fun answer => answer.fault = .none) (HasContent gappedContent)
            (readLayoutInto result 12 0 12 "/f" "read")
            (fun bytes => bytes = [1, 2, 3, 4, 5, 6, 7, 8, 9, 10, 11, 12]) ∧
          blockAt result.extents 3 = some ("left", 3) ∧
          blockAt result.extents 8 = some ("right", 2) := by
  have hvalid : validateFileLayout gapped 12 = .ok () := by decide +kernel
  have hbacked : Backed gappedContent gapped.extents := by unfold Backed; decide
  refine ⟨hvalid, observes_mono (rewrite_layout_overlays gapped 12 5 12 [6, 7] "/f" gappedContent
    hvalid le_rfl (by decide)) ?_⟩
  rintro result ⟨hresult, -, hdelivers, hblocks⟩
  refine ⟨hresult, hdelivers hbacked 0 12 "/f" "read" (by decide), ?_, ?_⟩
  · exact hblocks 4 rfl 3 (by decide)
  · exact hblocks 4 rfl 8 (by decide)

end MountRs.Chunked
