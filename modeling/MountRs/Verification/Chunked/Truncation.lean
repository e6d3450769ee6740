import MountRs.Model.Chunked.Operations
import MountRs.Verification.Chunked.Layout

/-! # Truncating and writing a file

After any truncations and writes a byte is what was last written to it since it was cut off. -/

namespace MountRs.Chunked

open Discipline Except

def LayoutEdit.byteAt (offset : ℕ) (old : UInt8) : LayoutEdit → UInt8
  | .truncate length => if offset < length then old else 0
  | .write position input =>
    if position ≤ offset ∧ offset < position + input.length then input.getD (offset - position) 0
    else old

/-- The byte last written to an offset since the last truncation that cut it off: zero if
there was none since that, and the first byte if nothing touched the offset. -/
def lastWritten (edits : List LayoutEdit) (first : UInt8) (offset : ℕ) : UInt8 :=
  edits.foldl (LayoutEdit.byteAt offset) first

structure Edited (content : BlockId → List UInt8) (layout : FileLayout) (edits : List LayoutEdit)
    (file : FileLayout × ℕ) : Prop where
  chunker : file.1.chunker = layout.chunker
  good : GoodExtents file.1.extents file.2
  backed : Backed content layout.extents → Backed content file.1.extents
  bytes : ∀ offset, byteOf content file.1.extents offset =
    lastWritten edits (byteOf content layout.extents offset) offset

variable {content : BlockId → List UInt8} {layout : FileLayout} {edits : List LayoutEdit}
  {file : FileLayout × ℕ} {path : String}

theorem lastWritten_append (edit : LayoutEdit) (first : UInt8) (offset : ℕ) :
    lastWritten (edits ++ [edit]) first offset =
      edit.byteAt offset (lastWritten edits first offset) := by
  simp [lastWritten]

theorem truncateLayout_edited {length : ℕ} {cut : FileLayout}
    (hfile : Edited content layout edits file)
    (h : truncateLayout file.1 file.2 length = .ok cut) :
    Edited content layout (edits ++ [.truncate length]) (cut, length) := by
  obtain ⟨hchunker, hgood, hbacked, hbytes⟩ := hfile
  unfold truncateLayout at h
  split_ifs at h with hshrinks
  · obtain ⟨_, hextents, h⟩ := bind_eq_ok.mp h
    obtain rfl := pure_eq_ok.mp h
    obtain ⟨hcut, hcutBacked, hcutBytes⟩ := trimExtents_spec hgood hextents
    refine ⟨hchunker, hcut, fun h => hcutBacked (hbacked h), fun offset => ?_⟩
    rw [lastWritten_append, ← hbytes]
    exact hcutBytes offset
  · obtain rfl := pure_eq_ok.mp h
    refine ⟨hchunker, hgood.mono (by omega), hbacked, fun offset => ?_⟩
    rw [lastWritten_append, ← hbytes, LayoutEdit.byteAt]
    split_ifs with hoffset
    · rfl
    · exact byteOf_of_size_le hgood (by omega)

theorem editLayout_observes (hfile : Edited content layout edits file) (edit : LayoutEdit) :
    Observes (HasContent content) (editLayout path file edit)
      (Edited content layout (edits ++ [edit])) := by
  cases edit with
  | truncate =>
    refine observes_lift_bind fun cut hcut => ?_
    exact observes_pure.mpr (truncateLayout_edited hfile hcut)
  | write =>
    obtain ⟨hchunker, hgood, hbacked, hbytes⟩ := hfile
    refine observes_lift_bind fun stop hstop => ?_
    simp only [okOr_eq_ok, checkedAdd_eq_some] at hstop
    obtain ⟨-, rfl⟩ := hstop
    split_ifs with hempty
    · refine observes_pure.mpr ⟨hchunker, hgood, hbacked, fun offset => ?_⟩
      rw [List.isEmpty_iff] at hempty
      rw [lastWritten_append, hbytes, LayoutEdit.byteAt, hempty, if_neg (by simp)]
    · refine observes_bind (rewriteLayout_observes hgood (le_max_left _ _) (le_max_right _ _)) ?_
      rintro _ ⟨hsame, hresult, hresultBacked, hresultBytes, -⟩
      refine observes_pure.mpr ⟨hsame.trans hchunker, hresult,
        fun h => hresultBacked (hbacked h), fun offset => ?_⟩
      rw [lastWritten_append, ← hbytes]
      exact hresultBytes offset

/-- A file that was truncated and written in any way validates, can be truncated to any length,
and reads everywhere as what was last written since it was cut off. -/
theorem edited_file_reads_last_written (layout : FileLayout) (size : ℕ) (edits : List LayoutEdit)
    (path : String) (content : BlockId → List UInt8)
    (hvalid : validateFileLayout layout size = .ok ()) :
    Observes (HasContent content) (edits.foldlM (editLayout path) (layout, size)) fun file =>
      validateFileLayout file.1 file.2 = .ok () ∧
      (∀ length, ∃ cut, truncateLayout file.1 file.2 length = .ok cut) ∧
      (∀ start length path syscall, Observes (HasContent content)
        (readLayoutInto file.1 file.2 start length path syscall) fun bytes => bytes =
          (List.range length).map fun k =>
            lastWritten edits (byteOf content layout.extents (start + k)) (start + k)) ∧
      (Backed content layout.extents → ∀ start length path syscall, start + length ≤ U64_MAX →
        Delivers (fun answer => answer.fault = .none) (HasContent content)
          (readLayoutInto file.1 file.2 start length path syscall) fun bytes => bytes =
            (List.range length).map fun k =>
              lastWritten edits (byteOf content layout.extents (start + k)) (start + k)) := by
  obtain ⟨hchunker, hgood⟩ := validateFileLayout_eq_ok.mp hvalid
  have hedited : Observes (HasContent content) (edits.foldlM (editLayout path) (layout, size))
      (Edited content layout edits) :=
    observes_foldlM (I := Edited content layout)
      (fun _ _ edit _ hfile => editLayout_observes hfile edit) ⟨rfl, hgood, id, fun _ => rfl⟩
  refine observes_mono hedited fun file hfile => ?_
  have hread : ∀ start length path syscall, Observes (HasContent content)
      (readLayoutInto file.1 file.2 start length path syscall) fun bytes => bytes =
        (List.range length).map fun k =>
          lastWritten edits (byteOf content layout.extents (start + k)) (start + k) :=
    fun _ _ _ _ => readLayoutInto_bytes hfile.good hfile.bytes
  refine ⟨validateFileLayout_eq_ok.mpr ⟨hfile.chunker ▸ hchunker, hfile.good⟩, fun length => ?_,
    hread, fun hbacked start length path syscall hbound => ?_⟩
  · unfold truncateLayout
    split_ifs
    · obtain ⟨trimmed, htrimmed⟩ := trimExtents_total hfile.good length
      exact ⟨_, bind_eq_ok.mpr ⟨trimmed, htrimmed, rfl⟩⟩
    · exact ⟨_, rfl⟩
  · exact (readLayoutInto_delivers hfile.good (hfile.backed hbacked) hbound).and_observes
      (hread start length path syscall)

/-- A file of one hole in chunks of four bytes. -/
def hole : FileLayout := { chunker := fourBytes, extents := [] }

/-- A byte that was written and cut off does not come back with the length of the file. -/
theorem cut_byte_stays_hidden : validateFileLayout hole 3 = .ok () ∧
      Observes (HasContent fun _ => [0, 0, 7])
        ([.write 2 [7], .truncate 1, .truncate 3].foldlM (editLayout "/f") (hole, 3)) fun file =>
          Observes (HasContent fun _ => [0, 0, 7])
            (readLayoutInto file.1 file.2 0 3 "/f" "read") fun bytes => bytes = [0, 0, 0] := by
  have hvalid : validateFileLayout hole 3 = .ok () := by decide +kernel
  refine ⟨hvalid, observes_mono (edited_file_reads_last_written hole 3
    [.write 2 [7], .truncate 1, .truncate 3] "/f" (fun _ => [0, 0, 7]) hvalid) fun file h => ?_⟩
  exact h.2.2.1 0 3 "/f" "read"

end MountRs.Chunked
