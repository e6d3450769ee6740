import MountRs.Model.Versioned.Historical
import MountRs.Library.AsyncRelation
import MountRs.Verification.Chunked.Layout
import MountRs.Verification.Chunked.Resolution

/-! # A version reads like the live namespace -/

namespace MountRs.Versioned

open Except Chunked

/-- The node of an entry, or the error for a missing one. -/
def found (syscall : String) (entry : Result Chunked.Entry) : Result InodeId := do
  let entry ← entry
  okOr entry.node (errorWithPath .enoent syscall entry.path)

/-- The same inode or an error with the same code. -/
def Alike (a b : Result InodeId) : Prop := a.mapError FsError.code = b.mapError FsError.code

variable {ns : Namespace} {followFinal : Bool} {syscall : String}

theorem resolveSegments_alike {normalized : String} {follow : String → Result InodeId}
    {walk : String → Result Chunked.Entry}
    (hfollow : ∀ path, Alike (follow path) (found syscall (walk path))) (segments : List String) :
    ∀ current seen, segments ≠ [] →
      Alike (resolveSegments ns followFinal syscall normalized follow current seen segments)
        (found syscall (walkSegments ns followFinal syscall normalized walk current seen
          segments)) := by
  induction segments with
  | nil =>
    intro _ _ h
    exact absurd rfl h
  | cons name rest ih =>
    intro current seen _
    rw [walkSegments_cons, resolveSegments]
    unfold walkComponent
    cases ns.nodes.get? current with
    | none => rfl
    | some node =>
      simp only [okOr, ok_bind]
      cases node.data with
      | directory entries =>
        dsimp only
        cases entries.find? fun entry => entry.name == name with
        | none => split_ifs <;> rfl
        | some entry =>
          simp only [ok_bind]
          cases ns.nodes.get? entry.inode with
          | none => rfl
          | some child =>
            -- An empty target is refused by both; any other one is followed by both.
            have hlink : ∀ target rest, Alike
                (do failIf (target = "") (errorWithPath .enoent syscall normalized)
                    follow (rewriteLink seen rest target))
                (found syscall do
                  failIf (target = "") (errorWithPath .enoent syscall normalized)
                  walk (rewriteLink seen rest target)) := by
              intro target rest
              unfold failIf
              split_ifs
              · rfl
              · exact hfollow _
            simp only [ok_bind]
            cases child.data with
            | symlink target =>
              cases rest with
              | nil =>
                cases followFinal with
                | true => exact hlink target []
                | false => rfl
              | cons next rest => exact hlink target (next :: rest)
            | _ =>
              cases rest with
              | nil => rfl
              | cons => exact ih _ _ (by simp)
      | _ => rfl

theorem resolveDepth_alike (depth : ℕ) : ∀ path,
    Alike (resolveDepth ns followFinal syscall depth path)
      (found syscall (walkDepth ns followFinal syscall depth path)) := by
  induction depth with
  | zero => exact fun _ => rfl
  | succ depth ih =>
    intro path
    simp only [resolveDepth, walkDepth]
    split_ifs with hroot
    · rfl
    · apply resolveSegments_alike ih
      intro hnil
      rw [normalizePath_eq, ← splitPath_normalizePath, hnil] at hroot
      exact hroot rfl

/-- A path leads to the same inode in a version as in the live namespace, or fails with the same
error code. -/
theorem resolve_namespace_agrees (ns : Namespace) (path : String) (followFinal : Bool)
    (syscall : String) :
    (resolveNamespace ns path followFinal syscall).mapError FsError.code =
      (Chunked.resolve ns path followFinal syscall).mapError FsError.code :=
  resolveDepth_alike _ path

open Chunked (blocksGet readExtent readLayoutInto withContext length_copyFromSlice)

/-- The same bytes, as many as `count`, after the same requests to the block store, or errors with
the same code. -/
def ReadsAlike (count : ℕ) (p q : Chunked.Call (List UInt8)) : Prop :=
  Async.Alike (fun e e' : FsError => e.code = e'.code) (fun bytes => bytes.length = count) p q

variable {size start stop : ℕ} {path : String} {buffer : List UInt8} {extent : BlockExtent}

theorem readExtent_alike (hstop : stop ≤ size) (hlength : buffer.length = stop - start) :
    ReadsAlike (stop - start) (readLayoutExtent start stop path buffer extent)
      (readExtent size start stop path "read" buffer extent) := by
  refine .bind (.okOr rfl fun _ _ => trivial) fun extentEnd _ => ?_
  dsimp only
  rw [show min (min stop extentEnd) size = min stop extentEnd by omega]
  split_ifs with hempty
  · exact .ok hlength
  · have hget : Async.Alike (fun e e' : FsError => e.code = e'.code) (fun _ => True)
        ((blocksGet extent.block).orElse fun e => .fail ((e.withSyscall "read").withPath path))
        ((blocksGet extent.block).orElse fun e => .fail (withContext e "read" (some path))) := by
      apply Async.Alike.orElse
      exact fun _ => rfl
    refine hget.bind fun bytes _ => ?_
    refine .bind (.okOr rfl fun _ _ => trivial) fun blockOffset _ => ?_
    refine .bind (.okOr rfl fun _ h => h) fun blockEnd hend => ?_
    obtain ⟨-, rfl⟩ := checkedAdd_eq_some.1 hend
    split_ifs with hshort hboth hboth
    · exact .error rfl
    · exact absurd (.inl hshort) hboth
    · rcases hboth with hboth | hboth <;> omega
    · refine .ok ((length_copyFromSlice ?_).trans hlength)
      rw [List.length_take, List.length_drop]
      omega

theorem readExtent_eq_error {e : FsError}
    (h : readExtent size start stop path "read" buffer extent = .done (.error e)) :
    e.code = .eio := by
  unfold readExtent at h
  rcases Async.bind_eq_error h with h | ⟨extentEnd, -, h⟩
  · rw [Async.okOr_eq_error h]
    rfl
  · dsimp only at h
    split_ifs at h
    · cases h
    · rcases Async.bind_eq_error h with h | ⟨_, h, -⟩ <;> cases h

/-- A live read that fails before its first request fails with `EIO`. -/
theorem readExtents_eq_error {e : FsError} {extents : List BlockExtent}
    (h : extents.foldlM (readExtent size start stop path "read") buffer = .done (.error e)) :
    e.code = .eio := by
  induction extents generalizing buffer with
  | nil => cases h
  | cons _ _ ih =>
    rw [List.foldlM_cons] at h
    rcases Async.bind_eq_error h with h | ⟨_, -, h⟩
    · exact readExtent_eq_error h
    · exact ih h

/-- A version reads like the live file unless the end of the buffer is beyond `u64::MAX`. -/
theorem historical_read_agrees_iff (layout : FileLayout) (size start length : ℕ) (path : String) :
    ReadsAlike (min length (size - start)) (readLayout layout size start length path)
        (readAt layout size start length path) ↔
      size ≤ start ∨ length = 0 ∨ start + length ≤ U64_MAX := by
  have hcount : (if size ≤ start then 0 else min length (size - start)) = min length (size - start) := by
    split_ifs <;> omega
  by_cases hnone : size ≤ start ∨ length = 0
  · have hzero : min length (size - start) = 0 := by omega
    simp only [readLayout, readAt, if_pos hnone, hzero, ite_self, lt_irrefl, if_false]
    exact iff_of_true (.ok rfl) (by tauto)
  · simp only [readLayout, readAt, if_neg hnone, hcount,
      if_pos (show 0 < min length (size - start) by omega)]
    by_cases hfits : start + length ≤ U64_MAX
    · refine iff_of_true ?_ (.inr (.inr hfits))
      have hend : start + min length (size - start) = min (start + length) size := by omega
      rw [readLayoutInto, checkedAdd, if_pos hfits, checkedAdd, if_pos (by omega), hend,
        show min length (size - start) = min (start + length) size - start by omega]
      exact .foldlM (fun _ hb _ => readExtent_alike (by omega) hb) (by simp)
    · refine iff_of_false ?_ (by tauto)
      rw [checkedAdd, if_neg hfits]
      generalize hlive : readLayoutInto layout size start _ path "read" = live
      intro halike
      cases halike with
      | error hcode =>
        rcases Async.bind_eq_error hlive with h | ⟨_, -, h⟩
        · cases Async.okOr_eq_error h
          cases hcode
        · rw [readExtents_eq_error h] at hcode
          cases hcode

/-- Reads of eleven bytes from ten bytes before the end of the largest file. -/
theorem read_near_u64_max_differs :
    let holes : FileLayout := { chunker := FixedSizeChunker.config ⟨4096, by decide⟩, extents := [] }
    validateFileLayout holes U64_MAX = .ok () ∧
      readLayout holes U64_MAX (U64_MAX - 10) 11 "/f" = .done (.error (FsError.new .eoverflow)) ∧
      readAt holes U64_MAX (U64_MAX - 10) 11 "/f" = .done (.ok (List.replicate 10 0)) :=
  ⟨by decide +kernel, rfl, rfl⟩

end MountRs.Versioned
