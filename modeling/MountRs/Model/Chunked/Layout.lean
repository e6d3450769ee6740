import MountRs.Model.Chunked.World

/-! # File layouts

Extents of immutable blocks. A range that no extent covers is a hole and reads as
zeros. -/

namespace MountRs.Chunked

open Except (failIf okOr)

/-! ## Editing extents -/

def trimExtents (extents : List BlockExtent) (length : ℕ) : Result (List BlockExtent) :=
  extents.foldlM (fun retained extent => do
    let stop ← okOr (checkedAdd extent.fileOffset extent.length)
      ((FsError.new .eio).withMessage "file extent range overflow")
    if length ≤ extent.fileOffset then return retained
    let extent := if length < stop then { extent with length := length - extent.fileOffset }
      else extent
    if 0 < extent.length then return retained ++ [extent] else return retained) []

def keepOutside (start stop : ℕ) (extent : BlockExtent) : Result (List BlockExtent) := do
  let extentEnd ← okOr (checkedAdd extent.fileOffset extent.length)
    ((FsError.new .eio).withMessage "file extent range overflow")
  if extentEnd ≤ start ∨ stop ≤ extent.fileOffset then return [extent]
  let before := if extent.fileOffset < start then
      [{ extent with length := start - extent.fileOffset }] else []
  if stop < extentEnd then do
    let blockOffset ← okOr (checkedAdd extent.blockOffset (stop - extent.fileOffset))
      ((FsError.new .eio).withMessage "block range overflow")
    return before ++
      [{ fileOffset := stop, block := extent.block, blockOffset, length := extentEnd - stop }]
  else return before

/-- Insert after the extents with the same or a smaller offset: a stable sort moves
the replacement, which stands last, to this place. -/
def insertExtent (extent : BlockExtent) : List BlockExtent → List BlockExtent
  | [] => [extent]
  | head :: rest =>
    if head.fileOffset ≤ extent.fileOffset then head :: insertExtent extent rest
    else extent :: head :: rest

/-- `sort_by_key(|extent| extent.file_offset)`, which is stable. -/
def sortExtents (extents : List BlockExtent) : List BlockExtent :=
  extents.foldl (fun sorted extent => insertExtent extent sorted) []

def replaceExtentRange (extents : List BlockExtent) (start stop : ℕ)
    (replacement : Option BlockExtent) : Result (List BlockExtent) := do
  failIf (stop ≤ start)
    ((FsError.new .einval).withMessage "invalid extent replacement range")
  let kept ← extents.foldlM (fun kept extent => do return kept ++ (← keepOutside start stop extent)) []
  return sortExtents (kept ++ replacement.toList)

/-! ## Reading -/

/-- Overwrite the bytes from an offset on. -/
def copyFromSlice (buffer : List UInt8) (offset : ℕ) (bytes : List UInt8) : List UInt8 :=
  buffer.take offset ++ bytes ++ buffer.drop (offset + bytes.length)

/-- One iteration of the extent loop; the state is the buffer. -/
def readExtent (fileSize position stop : ℕ) (path syscall : String) (buffer : List UInt8)
    (extent : BlockExtent) : Call (List UInt8) := do
  let extentEnd ← okOr (checkedAdd extent.fileOffset extent.length)
    (errorWithPath .eio syscall path)
  let start := max position extent.fileOffset
  let copyEnd := min (min stop extentEnd) fileSize
  if copyEnd ≤ start then return buffer
  let bytes ← (blocksGet extent.block).orElse fun e =>
    Async.fail (withContext e syscall (some path))
  let sourceOffset ← okOr (checkedAdd extent.blockOffset (start - extent.fileOffset))
    (errorWithPath .eio syscall path)
  let sourceEnd ← okOr (checkedAdd sourceOffset (copyEnd - start))
    (errorWithPath .eio syscall path)
  let destination := start - position
  if bytes.length < sourceEnd ∨ buffer.length < destination + (copyEnd - start) then
    Async.fail ((errorWithPath .eio syscall path).withMessage
      "block extent exceeds immutable block length")
  else
    return copyFromSlice buffer destination ((bytes.drop sourceOffset).take (copyEnd - start))

/-- The bytes of a file from a position on. -/
def readLayoutInto (layout : FileLayout) (fileSize position length : ℕ) (path syscall : String) :
    Call (List UInt8) := do
  let stop ← okOr (checkedAdd position length) (errorWithPath .efbig syscall path)
  layout.extents.foldlM (readExtent fileSize position stop path syscall) (List.replicate length 0)

/-! ## Writing -/

def fixedChunkSize (config : ChunkerConfig) : Result (Option ℕ) := do
  if config.algorithm ≠ "fixed-size" then return none
  let chunker ← fromConfig config
  let size ← okOr (config.parameters.get? "chunk_size")
    ((FsError.new .einval).withMessage "invalid chunk_size")
  failIf (chunker.config ≠ config)
    ((FsError.new .eproto).withMessage "chunker configuration mismatch")
  return some size

/-- The bytes that a chunk starts from. Existing bytes are read only when the input
leaves part of the resulting chunk untouched. -/
def oldChunk (layout : FileLayout) (oldSize position inputEnd chunkStart chunkLength : ℕ)
    (path : String) : Call (List UInt8) :=
  if chunkStart < position ∨ inputEnd < chunkStart + chunkLength then
    readLayoutInto layout oldSize chunkStart chunkLength path "write"
  else return List.replicate chunkLength 0

/-- Store a chunk; one of zeros only becomes a hole. -/
def putChunk (chunkStart chunkLength : ℕ) (path : String) (chunk : List UInt8) :
    Call (Option BlockExtent) :=
  if chunk.any (fun byte => byte != 0) then do
    let block ← (blocksPut chunk).orElse fun e => Async.fail (withContext e "block-put" (some path))
    return some { fileOffset := chunkStart, block, blockOffset := 0, length := chunkLength }
  else return none

/-- One iteration of the chunk loop; the state is the list of extents. -/
def rewriteChunk (layout : FileLayout) (oldSize position : ℕ) (input : List UInt8)
    (newSize : ℕ) (path : String) (size : ℕ) (extents : List BlockExtent) (index : ℕ) :
    Call (List BlockExtent) := do
  let tooLarge := errorWithPath .efbig "write" path
  let inputEnd := position + input.length
  let chunkStart ← okOr (checkedMul index size) tooLarge
  let remaining ← okOr (checkedSub newSize chunkStart) tooLarge
  let chunkLength := min remaining size
  let chunkEnd ← okOr (checkedAdd chunkStart chunkLength) tooLarge
  let chunk ← oldChunk layout oldSize position inputEnd chunkStart chunkLength path
  let writeStart := max position chunkStart
  let writeEnd := min inputEnd chunkEnd
  let destination := writeStart - chunkStart
  let source := writeStart - position
  let count := writeEnd - writeStart
  if chunk.length < destination + count ∨ input.length < source + count then
    Async.fail ((errorWithPath .eio "write" path).withMessage "chunk write range exceeds buffer")
  else do
    let chunk := copyFromSlice chunk destination ((input.drop source).take count)
    let replacement ← putChunk chunkStart chunkLength path chunk
    replaceExtentRange extents chunkStart chunkEnd replacement

def rewriteLayout (layout : FileLayout) (oldSize position : ℕ) (input : List UInt8)
    (newSize : ℕ) (path : String) : Call FileLayout := do
  match ← fixedChunkSize layout.chunker with
  | some size => do
    let inputEnd ← okOr (checkedAdd position input.length)
      (errorWithPath .efbig "write" path)
    -- `input_end - 1` underflows for an empty input at the start of a file.
    if inputEnd = 0 then Async.halted
    else do
      let first := position / size
      let last := (inputEnd - 1) / size
      let extents ← (List.range' first (last + 1 - first)).foldlM
        (rewriteChunk layout oldSize position input newSize path size) layout.extents
      return { chunker := layout.chunker, extents }
  | none => do
    -- `from_config` knows no other algorithm, so what follows it in the source never runs.
    let _ ← fromConfig layout.chunker
    Async.fail (errorWithPath .eio "write" path)

end MountRs.Chunked
