import MountRs.Model.FoundationDb.Keys
import Mathlib.Data.List.GetD
import Mathlib.Data.List.Lex

/-! # Isolation of FoundationDB volumes -/

namespace MountRs.FoundationDb

open Except List

/-- The keys from `start` to `stop` without `stop`; keys are compared byte by byte. -/
def InRange (start stop key : List UInt8) : Prop :=
  ¬ List.Lex (· < ·) key start ∧ List.Lex (· < ·) key stop

/-! ## Ends of ranges -/

theorem InRange.append {q start stop key : List UInt8} (h : InRange (q ++ start) (q ++ stop) key) :
    ∃ rest, key = q ++ rest ∧ InRange start stop rest := by
  induction q generalizing key with
  | nil => exact ⟨key, rfl, h⟩
  | cons a q ih =>
    obtain ⟨hstart, hstop⟩ := h
    cases hstop with
    | nil => exact absurd .nil hstart
    | rel hlt => exact absurd (.rel hlt) hstart
    | cons hstop =>
      obtain ⟨rest, rfl, hrest⟩ := ih ⟨fun hlt => hstart (.cons hlt), hstop⟩
      exact ⟨rest, rfl, hrest⟩

theorem not_lex_append (key rest : List UInt8) : ¬ List.Lex (· < ·) (key ++ rest) key := by
  induction key with
  | nil => exact nofun
  | cons b key ih =>
    intro h
    cases h with
    | rel hlt => exact absurd hlt (UInt8.lt_irrefl b)
    | cons h => exact ih h

theorem starts_of_not_lex {b : UInt8} {key : List UInt8} (h : ¬ List.Lex (· < ·) key [b])
    (hle : ∀ c rest, key = c :: rest → c.toNat ≤ b.toNat) : [b] <+: key := by
  cases key with
  | nil => exact absurd .nil h
  | cons c rest =>
    have hlt : ¬ c < b := fun hlt => h (.rel hlt)
    rw [UInt8.lt_iff_toNat_lt] at hlt
    have heq : c = b := UInt8.toNat_inj.1 (le_antisymm (hle c rest rfl) (not_lt.1 hlt))
    exact ⟨rest, by rw [heq]; rfl⟩

/-- One step of the loop: the last byte is raised, or it is 255 and does not bound the keys. -/
theorem rangeEndLoop_exact {bytes : List UInt8} {n : ℕ} (hn : n ≤ bytes.length)
    (h : ∃ b ∈ bytes.take n, b ≠ 255) : ∃ stop, rangeEndLoop bytes n = .ok stop ∧
      ∀ key, InRange (bytes.take n) stop key ↔ bytes.take n <+: key := by
  induction n with
  | zero => simp at h
  | succ n ih =>
    have hget : bytes.getD n 255 = bytes[n] := getD_eq_getElem _ _ hn
    rw [take_succ_eq_append_getElem hn] at h ⊢
    rw [rangeEndLoop, hget]
    generalize bytes[n] = b at h ⊢
    split_ifs with hb
    · refine ⟨_, rfl, fun key => ⟨fun hkey => ?_, ?_⟩⟩
      · obtain ⟨rest, rfl, hstart, hend⟩ := hkey.append
        refine (prefix_append_right_inj _).2 (starts_of_not_lex hstart ?_)
        rintro c rest rfl
        cases hend with
        | rel hlt =>
          rw [UInt8.lt_iff_toNat_lt, UInt8.toNat_add] at hlt
          exact Nat.lt_succ_iff.1 (hlt.trans_le (Nat.mod_le _ _))
        | cons h => cases h
      · rintro ⟨rest, rfl⟩
        refine ⟨not_lex_append _ _, ?_⟩
        rw [append_assoc]
        refine .append_left _ (.rel ?_) _
        have hne : b.toNat ≠ 255 := fun h => hb (UInt8.toNat_inj.1 h)
        have hlt := b.toNat_lt
        rw [UInt8.lt_iff_toNat_lt, UInt8.toNat_add]
        exact (Nat.lt_succ_self _).trans_eq (Nat.mod_eq_of_lt (by simp; omega)).symm
    · rw [not_not] at hb
      subst hb
      obtain ⟨c, hmem, hne⟩ := h
      rw [mem_append, mem_singleton] at hmem
      obtain ⟨stop, hstop, hexact⟩ := ih (by omega) ⟨c, hmem.resolve_right hne, hne⟩
      refine ⟨stop, hstop, fun key => ⟨fun hkey => ?_, fun hkey => ⟨?_, ?_⟩⟩⟩
      · have hrange : InRange (bytes.take n) stop key :=
          ⟨fun hlt => hkey.1 (.append_right _ _ hlt), hkey.2⟩
        obtain ⟨rest, rfl⟩ := (hexact key).1 hrange
        refine (prefix_append_right_inj _).2 (starts_of_not_lex (fun hlt => ?_) ?_)
        · exact hkey.1 (.append_left _ hlt _)
        · exact fun c _ _ => Nat.le_of_lt_succ c.toNat_lt
      · obtain ⟨rest, rfl⟩ := hkey
        exact not_lex_append _ _
      · exact ((hexact key).2 ((prefix_append _ _).trans hkey)).2

/-- A start with a byte below 255 has a range end, and its range holds exactly its extensions. -/
theorem rangeEnd_exact {bytes : List UInt8} (h : ∃ b ∈ bytes, b ≠ 255) :
    ∃ stop, rangeEnd bytes = .ok stop ∧ ∀ key, InRange bytes stop key ↔ bytes <+: key := by
  rw [rangeEnd]
  simpa using rangeEndLoop_exact le_rfl (by simpa using h)

/-! ## Volumes -/

variable {keys other : Keyspace}

theorem Keyspace.Produces.key {bytes : List UInt8} (h : keys.Produces bytes) :
    keys.volumePrefix ++ [0] <+: bytes := by
  cases h with
  | chunk | block | inode | inodeToken =>
    exact ((prefix_append _ _).trans (prefix_append _ _))
  | _ => exact prefix_append _ _

/-- The volume prefix is what stands before a key's first NUL. -/
theorem takeWhile_key {p key : List UInt8} (hp : 0 ∉ p) (h : p ++ [0] <+: key) :
    key.takeWhile (· ≠ 0) = p := by
  obtain ⟨rest, rfl⟩ := h
  rw [append_assoc, takeWhile_append_of_pos fun b hb => ?_]
  · simp
  · simpa using ne_of_mem_of_not_mem hb hp

theorem not_mem_of_validatePrefix {p : List UInt8} (h : validatePrefix p = .ok ()) : 0 ∉ p := by
  simp only [validatePrefix, bind_eq_ok, failIf_eq_ok] at h
  obtain ⟨-, -, -, hnul, -⟩ := h
  exact hnul

/-- The end of a range is exact, every key of a volume has one, and neither the keys of a volume
nor the ranges that it reads or clears, from a key or from a later start up to the end of the
key's range, hold a key of another volume. -/
theorem volumes_isolated :
    (∀ bytes : List UInt8, (∃ b ∈ bytes, b ≠ 255) →
      ∃ stop, rangeEnd bytes = .ok stop ∧ ∀ key, InRange bytes stop key ↔ bytes <+: key) ∧
    ∀ keys other : Keyspace, validatePrefix keys.volumePrefix = .ok () →
      validatePrefix other.volumePrefix = .ok () → keys.volumePrefix ≠ other.volumePrefix →
      ∀ k x, keys.Produces k → other.Produces x → k ≠ x ∧
        ∃ stop, rangeEnd k = .ok stop ∧ ∀ start, k <+: start → ¬ InRange start stop x := by
  refine ⟨fun _ => rangeEnd_exact, fun keys other hkeys hother hne k x hk hx => ?_⟩
  have hdisjoint : ¬ k <+: x := fun hprefix => hne <|
    (takeWhile_key (not_mem_of_validatePrefix hkeys) (hk.key.trans hprefix)).symm.trans
      (takeWhile_key (not_mem_of_validatePrefix hother) hx.key)
  have hzero : ∃ b ∈ k, b ≠ 255 := ⟨0, hk.key.subset (by simp), by decide⟩
  obtain ⟨stop, hstop, hexact⟩ := rangeEnd_exact hzero
  refine ⟨fun h => hdisjoint (h ▸ List.prefix_rfl), stop, hstop, ?_⟩
  rintro start ⟨rest, rfl⟩ hrange
  exact hdisjoint ((hexact x).1 ⟨fun hlt => hrange.1 (.append_right _ rest hlt), hrange.2⟩)

/-- The name of one volume begins with that of the other one. -/
theorem volumes_isolated_nested :
    let keys : Keyspace := ⟨asBytes "vol"⟩
    let other : Keyspace := ⟨asBytes "volume"⟩
    (∃ stop, rangeEnd [118, 255] = .ok stop ∧ InRange [118, 255] stop [118, 255, 0]) ∧
    validatePrefix keys.volumePrefix = .ok () ∧ validatePrefix other.volumePrefix = .ok () ∧
    keys.volumePrefix <+: other.volumePrefix ∧ keys.chunks ≠ metadataChunkKey other.chunks 7 ∧
    ∃ stop, rangeEnd keys.chunks = .ok stop ∧
      ¬ InRange keys.chunks stop (metadataChunkKey other.chunks 7) := by
  intro keys other
  obtain ⟨hexact, hisolated⟩ := volumes_isolated
  have hkeys : validatePrefix keys.volumePrefix = .ok () := by decide +kernel
  have hother : validatePrefix other.volumePrefix = .ok () := by decide +kernel
  obtain ⟨stop, hstop, hrange⟩ := hexact [118, 255] ⟨118, by simp, by decide⟩
  obtain ⟨hne, stop', hstop', hrange'⟩ :=
    hisolated keys other hkeys hother (by decide) _ _ .chunks (.chunk 7)
  exact ⟨⟨stop, hstop, (hrange _).2 (by decide)⟩, hkeys, hother, by decide, hne, stop', hstop',
    hrange' _ prefix_rfl⟩

end MountRs.FoundationDb
