import MountRs.Model.Chunked.Layout

/-! # What a list of extents says about the bytes of a file

The byte at an offset comes from the extent that covers it; an offset that no extent
covers is a hole. -/

namespace MountRs.Chunked

open Except List

/-! ## Bytes -/

def covers (extent : BlockExtent) (offset : ℕ) : Prop :=
  extent.fileOffset ≤ offset ∧ offset < extent.fileOffset + extent.length

instance (extent : BlockExtent) (offset : ℕ) : Decidable (covers extent offset) :=
  inferInstanceAs (Decidable (_ ∧ _))

def extentByte (content : BlockId → List UInt8) (extent : BlockExtent) (offset : ℕ) : UInt8 :=
  (content extent.block).getD (extent.blockOffset + (offset - extent.fileOffset)) 0

def byteOf (content : BlockId → List UInt8) (extents : List BlockExtent) (offset : ℕ) : UInt8 :=
  match extents.find? fun extent => decide (covers extent offset) with
  | some extent => extentByte content extent offset
  | none => 0

def blockAt (extents : List BlockExtent) (offset : ℕ) : Option (BlockId × ℕ) :=
  (extents.find? fun extent => decide (covers extent offset)).map fun extent =>
    (extent.block, extent.blockOffset + (offset - extent.fileOffset))

/-- The blocks are as long as the extents say. -/
def Backed (content : BlockId → List UInt8) (extents : List BlockExtent) : Prop :=
  ∀ extent ∈ extents, extent.blockOffset + extent.length ≤ (content extent.block).length

def before (a b : BlockExtent) : Prop := a.fileOffset + a.length ≤ b.fileOffset

/-- Extents of named blocks in order that do not overlap and stay within a file of a size. -/
structure GoodExtents (extents : List BlockExtent) (size : ℕ) : Prop where
  apart : extents.Pairwise before
  positive : ∀ extent ∈ extents, 0 < extent.length
  within : ∀ extent ∈ extents, extent.fileOffset + extent.length ≤ size
  named : ∀ extent ∈ extents, extent.block ≠ ""
  fileBounded : ∀ extent ∈ extents, extent.fileOffset + extent.length ≤ U64_MAX
  blockBounded : ∀ extent ∈ extents, extent.blockOffset + extent.length ≤ U64_MAX

variable {content : BlockId → List UInt8} {extents : List BlockExtent} {size : ℕ} {size' : ℕ}

theorem GoodExtents.mono (h : GoodExtents extents size) (hle : size ≤ size') :
    GoodExtents extents size' :=
  { h with within := fun e he => (h.within e he).trans hle }

theorem GoodExtents.sublist {part : List BlockExtent} (h : GoodExtents extents size)
    (hsub : part.Sublist extents) : GoodExtents part size :=
  ⟨h.apart.sublist hsub, fun e he => h.positive e (hsub.subset he),
    fun e he => h.within e (hsub.subset he), fun e he => h.named e (hsub.subset he),
    fun e he => h.fileBounded e (hsub.subset he), fun e he => h.blockBounded e (hsub.subset he)⟩

/-! ## Validation -/

variable {fileSize : ℕ} {extent : BlockExtent} {previous : Option ℕ}

theorem validateFileExtent_eq_ok {next : Option ℕ} :
    validateFileExtent fileSize previous extent = .ok next ↔
      (0 < extent.length ∧ extent.block ≠ "" ∧ extent.fileOffset + extent.length ≤ U64_MAX ∧
        extent.blockOffset + extent.length ≤ U64_MAX ∧
        extent.fileOffset + extent.length ≤ fileSize ∧ ∀ stop ∈ previous, stop ≤ extent.fileOffset) ∧
      next = some (extent.fileOffset + extent.length) := by
  have hafter : ¬ (previous.any fun stop => decide (extent.fileOffset < stop)) = true ↔
      ∀ stop ∈ previous, stop ≤ extent.fileOffset := by
    cases previous <;> simp
  simp only [validateFileExtent, bind_eq_ok, failIf_eq_ok, okOr_eq_ok,
    checkedAdd_eq_some, pure_eq_ok, hafter, not_lt]
  constructor
  · rintro ⟨-, hlength, -, hname, _, ⟨hfile, rfl⟩, -, ⟨hblock, -⟩, -, hsize, -, hafter, rfl⟩
    exact ⟨⟨Nat.pos_of_ne_zero hlength, hname, hfile, hblock, hsize, hafter⟩, rfl⟩
  · rintro ⟨⟨hlength, hname, hfile, hblock, hsize, hafter⟩, rfl⟩
    exact ⟨(), hlength.ne', (), hname, _, ⟨hfile, rfl⟩, _, ⟨hblock, rfl⟩, (), hsize, (), hafter, rfl⟩

theorem foldlM_validateFileExtent :
    (∃ last, extents.foldlM (validateFileExtent fileSize) previous = .ok last) ↔
      GoodExtents extents fileSize ∧ ∀ stop ∈ previous, ∀ e ∈ extents, stop ≤ e.fileOffset := by
  induction extents generalizing previous with
  | nil => simpa [pure_eq_ok] using (⟨.nil, by simp, by simp, by simp, by simp, by simp⟩ :
      GoodExtents [] fileSize)
  | cons extent rest ih =>
    simp only [foldlM_cons, bind_eq_ok, validateFileExtent_eq_ok]
    constructor
    · rintro ⟨last, _, ⟨⟨hpos, hname, hfile, hblock, hsize, hprevious⟩, rfl⟩, hrest⟩
      obtain ⟨hgood, hafter⟩ := ih.mp ⟨last, hrest⟩
      have hafter : ∀ e ∈ rest, before extent e := fun e he => hafter _ rfl e he
      refine ⟨⟨pairwise_cons.mpr ⟨hafter, hgood.apart⟩, ?_, ?_, ?_, ?_, ?_⟩, ?_⟩
      · simpa [hpos] using hgood.positive
      · simpa [hsize] using hgood.within
      · simpa [hname] using hgood.named
      · simpa [hfile] using hgood.fileBounded
      · simpa [hblock] using hgood.blockBounded
      · intro stop hstop e he
        rcases mem_cons.mp he with rfl | he
        · exact hprevious stop hstop
        · have := hprevious stop hstop
          have := hafter e he
          unfold before at this
          omega
    · rintro ⟨hgood, hprevious⟩
      have hmem : extent ∈ extent :: rest := mem_cons_self
      obtain ⟨last, hlast⟩ : ∃ last, rest.foldlM (validateFileExtent fileSize)
          (some (extent.fileOffset + extent.length)) = .ok last := by
        refine ih.mpr ⟨hgood.sublist (sublist_cons_self extent rest), ?_⟩
        intro stop hstop e he
        cases hstop
        exact (pairwise_cons.mp hgood.apart).1 e he
      exact ⟨last, _, ⟨⟨hgood.positive _ hmem, hgood.named _ hmem, hgood.fileBounded _ hmem,
        hgood.blockBounded _ hmem, hgood.within _ hmem, fun stop hstop => hprevious stop hstop _ hmem⟩,
        rfl⟩, hlast⟩

theorem validateFileExtents_eq_ok :
    validateFileExtents extents fileSize = .ok () ↔ GoodExtents extents fileSize := by
  simp only [validateFileExtents, bind_eq_ok, pure_eq_ok, and_true]
  rw [foldlM_validateFileExtent]
  simp

theorem validateFileLayout_eq_ok {layout : FileLayout} : validateFileLayout layout size = .ok () ↔
      (∃ chunker, fromConfig layout.chunker = .ok chunker) ∧ GoodExtents layout.extents size := by
  simp only [validateFileLayout, bind_eq_ok, validateFileExtents_eq_ok]
  exact ⟨fun ⟨chunker, hchunker, h⟩ => ⟨⟨chunker, hchunker⟩, h⟩,
    fun ⟨⟨chunker, hchunker⟩, h⟩ => ⟨chunker, hchunker, h⟩⟩

/-! ## Which byte counts -/

variable {offset : ℕ}

theorem not_covers_of_before {a b : BlockExtent} (h : before a b) (hb : covers b offset) :
    ¬ covers a offset := by
  simp only [covers, before] at *
  omega

theorem byteOf_of_mem (hapart : extents.Pairwise before) (hmem : extent ∈ extents)
    (hcovers : covers extent offset) :
    byteOf content extents offset = extentByte content extent offset := by
  induction extents with
  | nil => cases hmem
  | cons _ _ ih =>
    obtain ⟨hhead, hrest⟩ := pairwise_cons.mp hapart
    rcases mem_cons.mp hmem with rfl | hmem
    · simp [byteOf, hcovers]
    · have hnot := not_covers_of_before (hhead extent hmem) hcovers
      have hfind := ih hrest hmem
      simpa [byteOf, find?_cons, hnot] using hfind

theorem byteOf_of_hole (h : ∀ extent ∈ extents, ¬ covers extent offset) :
    byteOf content extents offset = 0 := by
  have hnone : extents.find? (fun extent => decide (covers extent offset)) = none := by
    simpa using h
  simp [byteOf, hnone]

theorem byteOf_append_singleton (hapart : (extents ++ [extent]).Pairwise before) (offset : ℕ) :
    byteOf content (extents ++ [extent]) offset =
      if covers extent offset then extentByte content extent offset
      else byteOf content extents offset := by
  split_ifs with h
  · exact byteOf_of_mem hapart (by simp) h
  · simp only [byteOf, find?_append]
    cases extents.find? fun extent => decide (covers extent offset) with
    | some e => simp
    | none => simp [h]

variable {extents' : List BlockExtent}

theorem byteOf_congr (hapart : extents.Pairwise before) (hapart' : extents'.Pairwise before)
    (hfrom : ∀ e ∈ extents, covers e offset →
      ∃ e' ∈ extents', covers e' offset ∧ extentByte content e' offset = extentByte content e offset)
    (hto : ∀ e' ∈ extents', covers e' offset → ∃ e ∈ extents, covers e offset) :
    byteOf content extents' offset = byteOf content extents offset := by
  by_cases h : ∃ e ∈ extents, covers e offset
  · obtain ⟨e, he, hcovers⟩ := h
    obtain ⟨e', he', hcovers', hbyte⟩ := hfrom e he hcovers
    rw [byteOf_of_mem hapart he hcovers, byteOf_of_mem hapart' he' hcovers', hbyte]
  · push Not at h
    rw [byteOf_of_hole h, byteOf_of_hole fun e' he' hcovers => by
      obtain ⟨e, he, hcov⟩ := hto e' he' hcovers
      exact h e he hcov]

theorem byteOf_eq_blockAt (content : BlockId → List UInt8) (extents : List BlockExtent)
    (offset : ℕ) : byteOf content extents offset =
      (blockAt extents offset).elim 0 fun place => (content place.1).getD place.2 0 := by
  unfold byteOf blockAt
  cases extents.find? fun extent => decide (covers extent offset) <;> rfl

theorem blockAt_eq (h : ∀ content, byteOf content extents' offset = byteOf content extents offset) :
    blockAt extents' offset = blockAt extents offset := by
  -- A content with a single nonzero byte tells one place from all others.
  have hmark : ∀ place : BlockId × ℕ, ∀ other : Option (BlockId × ℕ),
      (other.elim 0 fun q => ((if q.1 = place.1 then .replicate place.2 0 ++ [1] else []) :
        List UInt8).getD q.2 0) = (1 : UInt8) ↔ other = some place := by
    rintro ⟨block, index⟩ (_ | ⟨block', index'⟩)
    · simp
    · by_cases hblock : block' = block
      · rcases lt_trichotomy index' index with hlt | rfl | hgt
        · simp [hblock, getD_eq_getElem?_getD, getElem?_append_left, hlt, hlt.ne]
        · simp [hblock, getD_eq_getElem?_getD]
        · simp [hblock, getD_eq_getElem?_getD, hgt.ne', getElem?_append_right, hgt.le,
            Nat.sub_ne_zero_of_lt hgt]
      · simp [hblock]
  simp only [byteOf_eq_blockAt] at h
  cases hplace : blockAt extents offset with
  | some place =>
    have hbyte := h fun block => if block = place.1 then .replicate place.2 0 ++ [1] else []
    exact (hmark place _).mp (hbyte.trans ((hmark place _).mpr hplace))
  | none =>
    cases hplace' : blockAt extents' offset with
    | none => rfl
    | some place =>
      have hbyte := h fun block => if block = place.1 then .replicate place.2 0 ++ [1] else []
      rw [(hmark place _).mpr hplace', hplace] at hbyte
      cases hbyte

/-! ## Cutting a range out of extents -/

def outside (start stop : ℕ) (extent : BlockExtent) : List BlockExtent :=
  let extentEnd := extent.fileOffset + extent.length
  if extentEnd ≤ start ∨ stop ≤ extent.fileOffset then [extent]
  else
    (if extent.fileOffset < start then
      [{ extent with length := start - extent.fileOffset }] else []) ++
    (if stop < extentEnd then
      [{ fileOffset := stop, block := extent.block
         blockOffset := extent.blockOffset + (stop - extent.fileOffset), length := extentEnd - stop }]
      else [])

variable {start stop : ℕ}

theorem keepOutside_eq {pieces : List BlockExtent} (h : keepOutside start stop extent = .ok pieces) :
    pieces = outside start stop extent := by
  simp only [keepOutside, bind_eq_ok, okOr_eq_ok, checkedAdd_eq_some] at h
  obtain ⟨_, ⟨-, rfl⟩, h⟩ := h
  simp only [outside]
  split_ifs at h ⊢ with houtside hbefore hafter
  all_goals simp only [bind_eq_ok, okOr_eq_ok, checkedAdd_eq_some, pure_eq_ok] at h
  · exact h.symm
  · obtain ⟨_, ⟨-, rfl⟩, h⟩ := h
    exact h.symm
  · simpa using h.symm
  · obtain ⟨_, ⟨-, rfl⟩, h⟩ := h
    exact h.symm
  · simpa using h.symm

/-- What is known of a piece that `outside` leaves of an extent. -/
structure Piece (content : BlockId → List UInt8) (start stop : ℕ) (extent piece : BlockExtent) :
    Prop where
  positive : 0 < piece.length
  lower : extent.fileOffset ≤ piece.fileOffset
  upper : piece.fileOffset + piece.length ≤ extent.fileOffset + extent.length
  clear : piece.fileOffset + piece.length ≤ start ∨ stop ≤ piece.fileOffset
  block : piece.block = extent.block
  stop : piece.blockOffset + piece.length ≤ extent.blockOffset + extent.length
  byte : ∀ offset, covers piece offset → extentByte content piece offset =
    extentByte content extent offset

theorem piece_of_mem {piece : BlockExtent} (hlt : start < stop) (hpositive : 0 < extent.length)
    (h : piece ∈ outside start stop extent) :
    Piece content start stop extent piece := by
  simp only [outside] at h
  split_ifs at h with houtside hbefore hafter
  all_goals simp only [mem_append, mem_singleton, not_mem_nil,
    append_nil, nil_append] at h
  · subst h
    exact ⟨hpositive, le_rfl, le_rfl, houtside, rfl, le_rfl, fun _ _ => rfl⟩
  · rcases h with rfl | rfl
    · refine ⟨by simp; omega, le_rfl, by simp; omega, .inl (by simp; omega), rfl, by simp; omega,
        fun _ _ => rfl⟩
    · refine ⟨by simp; omega, by simp; omega, by simp; omega, .inr le_rfl, rfl, by simp; omega, ?_⟩
      intro offset hcovers
      simp only [covers] at hcovers
      simp only [extentByte]
      congr 1
      omega
  · subst h
    refine ⟨by simp; omega, le_rfl, by simp; omega, .inl (by simp; omega), rfl, by simp; omega,
      fun _ _ => rfl⟩
  · subst h
    refine ⟨by simp; omega, by simp; omega, by simp; omega, .inr le_rfl, rfl, by simp; omega, ?_⟩
    intro offset hcovers
    simp only [covers] at hcovers
    simp only [extentByte]
    congr 1
    omega

theorem exists_piece (hcovers : covers extent offset) (hout : ¬ (start ≤ offset ∧ offset < stop)) :
    ∃ piece ∈ outside start stop extent, covers piece offset := by
  simp only [outside, covers] at *
  split_ifs with houtside hbefore hafter
  · exact ⟨extent, by simp, hcovers⟩
  · by_cases hlow : offset < start
    · exact ⟨_, mem_append_left _ (mem_singleton_self _), by simp; omega⟩
    · exact ⟨_, mem_append_right _ (mem_singleton_self _), by simp; omega⟩
  · exact ⟨_, mem_append_left _ (mem_singleton_self _), by simp; omega⟩
  · exact ⟨_, mem_append_right _ (mem_singleton_self _), by simp; omega⟩
  · exfalso
    omega

section

variable (hlt : start < stop)
include hlt

theorem outside_apart (extent : BlockExtent) : (outside start stop extent).Pairwise before := by
  simp only [outside]
  split_ifs with houtside hbefore hafter <;> simp [before]
  omega

theorem flatMap_outside_apart (hapart : extents.Pairwise before)
    (hpositive : ∀ e ∈ extents, 0 < e.length) :
    (extents.flatMap (outside start stop)).Pairwise before := by
  induction extents with
  | nil => simp
  | cons head rest ih =>
    obtain ⟨hhead, hrest⟩ := pairwise_cons.mp hapart
    rw [flatMap_cons, pairwise_append]
    refine ⟨outside_apart hlt head, ih hrest fun e he => hpositive e (by simp [he]), ?_⟩
    intro a ha b hb
    obtain ⟨e, he, hb⟩ := mem_flatMap.mp hb
    have hpa : Piece (fun _ => []) start stop head a := piece_of_mem hlt (hpositive head (by simp)) ha
    have hpb : Piece (fun _ => []) start stop e b :=
      piece_of_mem hlt (hpositive e (by simp [he])) hb
    have hbefore := hhead e he
    have hupper := hpa.upper
    have hlower := hpb.lower
    simp only [before] at *
    omega

section

variable (hgood : GoodExtents extents size)
include hgood

theorem cut_good : GoodExtents (extents.flatMap (outside start stop)) size := by
  have hpiece : ∀ e ∈ extents.flatMap (outside start stop),
      ∃ o ∈ extents, Piece (fun _ => []) start stop o e := by
    intro e he
    obtain ⟨o, ho, he⟩ := mem_flatMap.mp he
    exact ⟨o, ho, piece_of_mem hlt (hgood.positive o ho) he⟩
  refine ⟨flatMap_outside_apart hlt hgood.apart hgood.positive, ?_, ?_, ?_, ?_, ?_⟩ <;>
    intro e he <;> obtain ⟨o, ho, hpiece⟩ := hpiece e he
  · exact hpiece.positive
  · exact hpiece.upper.trans (hgood.within o ho)
  · exact hpiece.block ▸ hgood.named o ho
  · exact hpiece.upper.trans (hgood.fileBounded o ho)
  · exact hpiece.stop.trans (hgood.blockBounded o ho)

theorem cut_backed (h : Backed content extents) :
    Backed content (extents.flatMap (outside start stop)) := by
  intro e he
  obtain ⟨o, ho, he⟩ := mem_flatMap.mp he
  have hpiece : Piece content start stop o e := piece_of_mem hlt (hgood.positive o ho) he
  rw [hpiece.block]
  exact hpiece.stop.trans (h o ho)

theorem cut_clear : ∀ e ∈ extents.flatMap (outside start stop),
      e.fileOffset + e.length ≤ start ∨ stop ≤ e.fileOffset := by
  intro e he
  obtain ⟨o, ho, he⟩ := mem_flatMap.mp he
  exact (piece_of_mem hlt (hgood.positive o ho) he : Piece (fun _ => []) start stop o e).clear

theorem byteOf_cut (offset : ℕ) : byteOf content (extents.flatMap (outside start stop)) offset =
      if start ≤ offset ∧ offset < stop then 0 else byteOf content extents offset := by
  split_ifs with hin
  · apply byteOf_of_hole
    intro e he hcovers
    have hclear := cut_clear hlt hgood e he
    simp only [covers] at hcovers
    omega
  · refine byteOf_congr hgood.apart (cut_good hlt hgood).apart ?_ ?_
    · intro e he hcovers
      obtain ⟨piece, hmem, hcov⟩ := exists_piece hcovers hin
      exact ⟨piece, mem_flatMap.mpr ⟨e, he, hmem⟩, hcov,
        (piece_of_mem hlt (hgood.positive e he) hmem).byte offset hcov⟩
    · intro e he hcovers
      obtain ⟨o, ho, he⟩ := mem_flatMap.mp he
      have hpiece : Piece content start stop o e := piece_of_mem hlt (hgood.positive o ho) he
      have hlower := hpiece.lower
      have hupper := hpiece.upper
      simp only [covers] at *
      exact ⟨o, ho, by omega⟩

end

end

theorem foldlM_keepOutside {kept : List BlockExtent}
    (h : extents.foldlM (fun kept extent => do return kept ++ (← keepOutside start stop extent))
      [] = .ok kept) : kept = extents.flatMap (outside start stop) := by
  have hinv := foldlM_invariant
    (fun visited (kept : List BlockExtent) => kept = visited.flatMap (outside start stop)) ?_
    extents [] [] kept rfl h
  · simpa using hinv
  · intro visited kept extent kept' hkept hstep
    obtain ⟨_, hpieces, hstep⟩ := bind_eq_ok.mp hstep
    rw [pure_eq_ok] at hstep
    rw [← hstep, hkept, keepOutside_eq hpieces]
    simp

/-! ## Sorting -/

theorem mem_insertExtent {e : BlockExtent} :
    e ∈ insertExtent extent extents ↔ e = extent ∨ e ∈ extents := by
  induction extents with
  | nil => simp [insertExtent]
  | cons _ _ ih =>
    simp only [insertExtent]
    split_ifs
    · simp only [mem_cons, ih]
      tauto
    · simp

theorem forall_insertExtent {P : BlockExtent → Prop} (h : P extent) (hrest : ∀ e ∈ extents, P e) :
    ∀ e ∈ insertExtent extent extents, P e := by
  intro e he
  rcases mem_insertExtent.mp he with rfl | he
  · exact h
  · exact hrest e he

theorem insertExtent_last (h : ∀ e ∈ extents, e.fileOffset ≤ extent.fileOffset) :
    insertExtent extent extents = extents ++ [extent] := by
  induction extents with
  | nil => rfl
  | cons head rest ih =>
    rw [insertExtent, if_pos (h head (by simp)), ih fun e he => h e (by simp [he])]
    rfl

theorem sortExtents_append (extents : List BlockExtent) (extent : BlockExtent) :
    sortExtents (extents ++ [extent]) = insertExtent extent (sortExtents extents) := by
  simp [sortExtents]

theorem sortExtents_of_apart (h : extents.Pairwise before) : sortExtents extents = extents := by
  induction extents using List.reverseRecOn with
  | nil => rfl
  | append_singleton init last ih =>
    obtain ⟨hinit, -, hlast⟩ := pairwise_append.mp h
    rw [sortExtents_append, ih hinit, insertExtent_last]
    intro e he
    have hbefore := hlast e he last (by simp)
    simp only [before] at hbefore
    omega

theorem insertExtent_apart (hpositive : 0 < extent.length) (hapart : extents.Pairwise before)
    (hlengths : ∀ e ∈ extents, 0 < e.length)
    (hclear : ∀ e ∈ extents, before e extent ∨ before extent e) :
    (insertExtent extent extents).Pairwise before := by
  induction extents with
  | nil => simp [insertExtent]
  | cons head rest ih =>
    obtain ⟨hhead, hrest⟩ := pairwise_cons.mp hapart
    have hheadClear := hclear head (by simp)
    simp only [insertExtent]
    split_ifs with hle
    · refine pairwise_cons.mpr ⟨?_, ih hrest (fun e he => hlengths e (by simp [he]))
        fun e he => hclear e (by simp [he])⟩
      intro e he
      rcases mem_insertExtent.mp he with rfl | he
      · simp only [before] at *
        omega
      · exact hhead e he
    · refine pairwise_cons.mpr ⟨?_, hapart⟩
      have hbefore : before extent head := by
        have hlength := hlengths head (by simp)
        simp only [before] at *
        omega
      intro e he
      rcases mem_cons.mp he with rfl | he
      · exact hbefore
      · have hnext := hhead e he
        simp only [before] at *
        omega

/-! ## Replacing a range -/

def replacementByte (content : BlockId → List UInt8) (replacement : Option BlockExtent)
    (offset : ℕ) : UInt8 :=
  match replacement with
  | some extent => extentByte content extent offset
  | none => 0

theorem replaceExtentRange_spec {replacement : Option BlockExtent}
    (hgood : GoodExtents extents size) (hsize : size ≤ size') (hstop : stop ≤ size')
    (hrange : ∀ r, replacement = some r → r.fileOffset = start ∧ r.fileOffset + r.length = stop ∧
      r.block ≠ "" ∧ stop ≤ U64_MAX ∧ r.blockOffset + r.length ≤ U64_MAX)
    (h : replaceExtentRange extents start stop replacement = .ok extents') :
    GoodExtents extents' size' ∧ (∀ content offset, byteOf content extents' offset =
        if start ≤ offset ∧ offset < stop then replacementByte content replacement offset
        else byteOf content extents offset) ∧
      ∀ content, Backed content extents → Backed content replacement.toList →
        Backed content extents' := by
  simp only [replaceExtentRange, bind_eq_ok, failIf_eq_ok, not_le, pure_eq_ok] at h
  obtain ⟨-, hlt, kept, hkept, rfl⟩ := h
  obtain rfl := foldlM_keepOutside hkept
  have hkept := (cut_good hlt hgood).mono hsize
  have hclear := cut_clear hlt hgood
  have hbacked : ∀ content, Backed content extents →
      Backed content (extents.flatMap (outside start stop)) := fun content => cut_backed hlt hgood
  have hbyte : ∀ content offset, byteOf content (extents.flatMap (outside start stop)) offset =
      if start ≤ offset ∧ offset < stop then 0 else byteOf content extents offset :=
    fun content => byteOf_cut hlt hgood
  generalize extents.flatMap (outside start stop) = kept at *
  cases replacement with
  | none =>
    rw [Option.toList_none, append_nil, sortExtents_of_apart hkept.apart]
    exact ⟨hkept, hbyte, fun content h _ => hbacked content h⟩
  | some r =>
    obtain ⟨hstart, hend, hname, hfile, hblock⟩ := hrange r rfl
    have hr : 0 < r.length := by omega
    have hapart : (insertExtent r kept).Pairwise before := by
      apply insertExtent_apart hr hkept.apart hkept.positive
      intro e he
      have hout := hclear e he
      simp only [before]
      omega
    rw [Option.toList_some, sortExtents_append, sortExtents_of_apart hkept.apart]
    refine ⟨⟨hapart, forall_insertExtent hr hkept.positive,
      forall_insertExtent (by omega) hkept.within, forall_insertExtent hname hkept.named,
      forall_insertExtent (by omega) hkept.fileBounded,
      forall_insertExtent hblock hkept.blockBounded⟩, fun content offset => ?_,
      fun content h hr => forall_insertExtent (hr r (by simp)) (hbacked content h)⟩
    · split_ifs with hin
      · have hcovers : covers r offset := by
          simp only [covers]
          omega
        exact byteOf_of_mem hapart (mem_insertExtent.mpr (.inl rfl)) hcovers
      · have hnot : ¬ covers r offset := by
          simp only [covers]
          omega
        have hsame := hbyte content offset
        rw [if_neg hin] at hsame
        rw [← hsame]
        refine byteOf_congr hkept.apart hapart ?_ ?_
        · intro e he hcovers
          exact ⟨e, mem_insertExtent.mpr (.inr he), hcovers, rfl⟩
        · intro e he hcovers
          rcases mem_insertExtent.mp he with rfl | he
          · exact absurd hcovers hnot
          · exact ⟨e, he, hcovers⟩

/-! ## Truncation -/

variable {trimmed : List BlockExtent} {length : ℕ}

section

variable (hgood : GoodExtents extents size)
include hgood

theorem trimExtents_eq (h : trimExtents extents length = .ok trimmed) :
    trimmed = extents.flatMap (outside length (size + length + 1)) := by
  have hinv := foldlM_invariant (fun visited (trimmed : List BlockExtent) => visited <+: extents →
      trimmed = visited.flatMap (outside length (size + length + 1))) ?_
    extents [] [] trimmed (fun _ => rfl) h
  · simpa using hinv
  · intro visited trimmed extent trimmed' htrimmed hstep hinit
    have hmem : extent ∈ extents := hinit.subset (by simp)
    have hpositive := hgood.positive extent hmem
    have hwithin := hgood.within extent hmem
    have hvisited := htrimmed ((prefix_append visited [extent]).trans hinit)
    simp only [bind_eq_ok, okOr_eq_ok, checkedAdd_eq_some] at hstep
    obtain ⟨_, ⟨-, rfl⟩, hstep⟩ := hstep
    rw [flatMap_append, flatMap_singleton, ← hvisited]
    simp only [outside]
    split_ifs at hstep ⊢ <;> simp only [pure_eq_ok] at hstep <;>
      first
      | (exfalso; omega)
      | (exfalso; simp at *; omega)
      | simpa using hstep.symm

theorem byteOf_of_size_le (hoffset : size ≤ offset) : byteOf content extents offset = 0 := by
  apply byteOf_of_hole
  intro e he hcovers
  have hwithin := hgood.within e he
  simp only [covers] at hcovers
  omega

theorem trimExtents_total (length : ℕ) : ∃ trimmed, trimExtents extents length = .ok trimmed := by
  refine foldlM_exists (fun _ _ => True) ?_ trivial
  intro visited trimmed extent hinit _
  have hbound := hgood.fileBounded extent (hinit.subset (by simp))
  have hstop : checkedAdd extent.fileOffset extent.length =
      some (extent.fileOffset + extent.length) := checkedAdd_eq_some.mpr ⟨hbound, rfl⟩
  simp only [hstop, Except.okOr, ok_bind, and_true]
  split_ifs <;> exact ⟨_, rfl⟩

theorem trimExtents_spec (h : trimExtents extents length = .ok trimmed) :
    GoodExtents trimmed length ∧ (Backed content extents → Backed content trimmed) ∧
      ∀ offset, byteOf content trimmed offset =
        if offset < length then byteOf content extents offset else 0 := by
  obtain rfl := trimExtents_eq hgood h
  have hlt : length < size + length + 1 := by omega
  have hcut := cut_good hlt hgood
  refine ⟨{ hcut with within := ?_ }, cut_backed hlt hgood, ?_⟩
  · intro e he
    have hwithin := hcut.within e he
    have hclear := cut_clear hlt hgood e he
    have hpositive := hcut.positive e he
    omega
  · intro offset
    rw [byteOf_cut hlt hgood]
    by_cases hoffset : offset < length
    · simp [hoffset, Nat.not_le.mpr hoffset]
    · by_cases hbeyond : offset < size + length + 1
      · simp [hoffset, Nat.not_lt.mp hoffset, hbeyond]
      · have hhole : byteOf content extents offset = 0 := byteOf_of_size_le hgood (by omega)
        simp [hoffset, hbeyond, hhole]

end

end MountRs.Chunked
