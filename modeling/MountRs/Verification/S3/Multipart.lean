import Mathlib.Data.List.Forall2
import Mathlib.Data.List.Induction
import Mathlib.Tactic.SplitIfs
import MountRs.Model.S3.Multipart

/-! # Completion of a multipart upload

A completion reads each part twice: a `stat` for its ETag and, later, its content. What it
publishes is what it checked as long as no part upload renames onto a part in between. -/

namespace MountRs.S3

open Function List UploadWorld Option

/-! ## The directory -/

namespace Directory

theorem get?_erase (files : Directory) (name name' : FileName) :
    (files.erase name).get? name' = if name' = name then none else files.get? name' := by
  unfold Directory.get? Directory.erase
  rw [find?_filter]
  split_ifs with h
  · subst h
    have hnone : files.find? (fun entry => decide (decide (entry.1 ≠ name') = true ∧
        decide (entry.1 = name') = true)) = none := by
      rw [find?_eq_none]
      intro entry _
      simp
    rw [hnone]
    rfl
  · congr 2
    funext entry
    by_cases hentry : entry.1 = name'
    · simp [hentry, h]
    · simp [hentry]

theorem get?_put (files : Directory) (name name' : FileName) (file : PartFile) :
    (files.put name file).get? name' = if name' = name then some file else files.get? name' := by
  have herase := get?_erase files name name'
  unfold Directory.put
  unfold Directory.get? at herase ⊢
  rw [find?_append]
  split_ifs at herase ⊢ with h
  · subst h
    rw [map_eq_none_iff] at herase
    rw [herase]
    simp
  · have hsingle : find? (fun entry => decide (entry.1 = name')) [(name, file)] = none := by
      simp [Ne.symm h]
    rw [hsingle, or_none]
    exact herase

end Directory

namespace UploadWorld

theorem get?_erase (world : UploadWorld) (name name' : FileName) :
    (world.erase name).get? name' = if name' = name then none else world.get? name' := by
  unfold get? erase
  cases world.directory with
  | none => simp
  | some files => simpa using Directory.get?_erase files name name'

variable {name : FileName}

theorem get?_put_of_ne (world : UploadWorld) {name' : FileName} (file : PartFile) (h : name' ≠ name) :
    (world.put name file).get? name' = world.get? name' := by
  unfold get? put
  cases world.directory with
  | none => rfl
  | some files => simpa [h] using Directory.get?_put files name name' file

theorem get?_put_eq_some (world : UploadWorld) {file file' : PartFile}
    (h : (world.put name file).get? name = some file') : file' = file := by
  unfold get? put at h
  cases hdir : world.directory with
  | none => simp [hdir] at h
  | some => simpa [hdir, Directory.get?_put, eq_comm] using h

end UploadWorld

/-! ## Moves that add no part -/

/-- A step of request `i`: the other requests stay where they are, no part appears or
changes, and a removed directory stays away. -/
structure Shrinks (i : ℕ) (world next : UploadWorld) : Prop where
  others : ∀ j, j ≠ i → next.phase j = world.phase j ∧ next.published j = world.published j
  parts : ∀ number file, next.get? (.part number) = some file →
    world.get? (.part number) = some file
  directory : world.directory = none → next.directory = none
  history : next.history = world.history

namespace Shrinks

variable {i : ℕ} {world next : UploadWorld}

theorem refl (i : ℕ) (world : UploadWorld) : Shrinks i world world :=
  ⟨fun _ _ => ⟨rfl, rfl⟩, fun _ _ h => h, fun h => h, rfl⟩

theorem setPhase (h : Shrinks i world next) (phase : UploadPhase) :
    Shrinks i world (next.setPhase i phase) := by
  refine ⟨?_, h.parts, h.directory, h.history⟩
  intro j hj
  exact ⟨(update_of_ne hj _ _).trans (h.others j hj).1, (h.others j hj).2⟩

theorem phase (world : UploadWorld) (i : ℕ) (phase : UploadPhase) :
    Shrinks i world (world.setPhase i phase) :=
  (refl i world).setPhase phase

theorem erase (h : Shrinks i world next) (name : FileName) : Shrinks i world (next.erase name) := by
  refine ⟨h.others, ?_, ?_, h.history⟩
  · intro number file hget
    rw [get?_erase] at hget
    split_ifs at hget
    exact h.parts number file hget
  · intro hnone
    simp [UploadWorld.erase, h.directory hnone]

theorem put (h : Shrinks i world next) {name : FileName} (file : PartFile)
    (hname : ∀ number, FileName.part number ≠ name) : Shrinks i world (next.put name file) := by
  refine ⟨h.others, ?_, ?_, h.history⟩
  · intro number file' hget
    rw [get?_put_of_ne _ _ (hname number)] at hget
    exact h.parts number file' hget
  · intro hnone
    simp [UploadWorld.put, h.directory hnone]

theorem uploadStep (world : UploadWorld) (i number : ℕ) (file : PartFile) (streaming : Bool)
    (outcome : UploadOutcome) (hp : world.phase i ≠ .unfinalized) :
    Shrinks i world (world.uploadStep i number file streaming outcome) := by
  unfold UploadWorld.uploadStep
  split
  · split_ifs <;> exact phase ..
  · split_ifs <;> exact phase ..
  · split_ifs
    · exact ((refl i world).put _ (fun number => by simp)).setPhase _
    · exact phase ..
  · split_ifs <;> exact phase ..
  · rename_i hu
    exact absurd hu hp
  · exact phase ..
  · exact refl i world

end Shrinks

/-! ## What a completion has read -/

/-- The part uploads that stood at the paths of the parts, with the ETags asked for. -/
def Matches (world : UploadWorld) (parts : List (ℕ × String)) (files : List PartFile) : Prop :=
  List.Forall₂ (fun part file => file.etag = part.2 ∧ (part.1, file) ∈ world.history) parts files

/-- A part that is still there is the one that was checked. -/
def Stable (world : UploadWorld) (parts : List (ℕ × String)) (files : List PartFile) : Prop :=
  List.Forall₂ (fun part file => ∀ found, world.get? (.part part.1) = some found → found = file)
    parts files

def contents (files : List PartFile) : List UInt8 := files.flatMap PartFile.content

def sizesOf (files : List PartFile) : List ℕ := files.map fun file => file.content.length

/-- What holds of a completion in each phase, from its first check under the marker on. -/
def Assembled (world : UploadWorld) (i : ℕ) (parts : List (ℕ × String)) : UploadPhase → Prop
  | .checking sizes => ∃ files, Matches world (parts.take sizes.length) files ∧
      sizes = sizesOf files ∧ Stable world (parts.take sizes.length) files
  | .opening sizes => ∃ files, Matches world parts files ∧ sizes = sizesOf files ∧
      Stable world parts files
  | .copying sizes index data => ∃ files, Matches world parts files ∧ sizes = sizesOf files ∧
      data = contents (files.take index) ∧ Stable world (parts.drop index) (files.drop index)
  | .publishing data => ∃ files, Matches world parts files ∧ data = contents files
  | .renamed | .listing | .removing _ | .settling | .done true =>
    ∃ files, Matches world parts files ∧ world.published i = some (contents files)
  | _ => True

/-- The completion has checked the part and not opened it yet. -/
def Vulnerable (requests : ℕ → UploadRequest) (world : UploadWorld) (i number : ℕ) : Prop :=
  ∃ parts, requests i = .complete parts ∧
    match world.phase i with
    | .checking sizes => number ∈ (parts.take sizes.length).map Prod.fst
    | .opening _ => number ∈ parts.map Prod.fst
    | .copying _ index _ => number ∈ (parts.drop index).map Prod.fst
    | _ => False

/-- Every part in the directory is recorded, and every completion has read what it says. -/
structure Consistent (requests : ℕ → UploadRequest) (world : UploadWorld) : Prop where
  recorded : ∀ number file, world.get? (.part number) = some file → (number, file) ∈ world.history
  assembled : ∀ i parts, requests i = .complete parts → Assembled world i parts (world.phase i)

section Steps

variable {requests : ℕ → UploadRequest} {world next : UploadWorld} {parts : List (ℕ × String)}
  {files : List PartFile}

theorem Matches.mono (h : Matches world parts files) (hh : ∀ e ∈ world.history, e ∈ next.history) :
    Matches next parts files :=
  .imp (fun _ _ hm => ⟨hm.1, hh _ hm.2⟩) h

theorem Stable.mono (h : Stable world parts files)
    (hp : ∀ number ∈ parts.map Prod.fst, ∀ file, next.get? (.part number) = some file →
      world.get? (.part number) = some file) : Stable next parts files := by
  induction h with
  | nil => exact .nil
  | cons hhead _ ih =>
    refine .cons ?_ (ih ?_)
    · intro found hfound
      exact hhead found (hp _ (by simp) found hfound)
    · intro number hnumber
      exact hp number (by simp only [map_cons, mem_cons]; exact .inr hnumber)

variable {i : ℕ}

theorem Assembled.frame (hrequest : requests i = .complete parts)
    (h : Assembled world i parts (world.phase i)) (hh : ∀ e ∈ world.history, e ∈ next.history)
    (hpub : next.published i = world.published i)
    (hparts : ∀ number, Vulnerable requests world i number → ∀ file,
      next.get? (.part number) = some file → world.get? (.part number) = some file) :
    Assembled next i parts (world.phase i) := by
  have hv : ∀ number, (match world.phase i with
      | .checking sizes => number ∈ (parts.take sizes.length).map Prod.fst
      | .opening _ => number ∈ parts.map Prod.fst
      | .copying _ index _ => number ∈ (parts.drop index).map Prod.fst
      | _ => False) → Vulnerable requests world i number :=
    fun number hm => ⟨parts, hrequest, hm⟩
  cases hp : world.phase i with
  | checking | opening =>
    rw [hp] at h hv
    obtain ⟨files, hm, hs, hst⟩ := h
    exact ⟨files, hm.mono hh, hs, hst.mono fun number hn => hparts number (hv number hn)⟩
  | copying =>
    rw [hp] at h hv
    obtain ⟨files, hm, hs, hd, hst⟩ := h
    exact ⟨files, hm.mono hh, hs, hd, hst.mono fun number hn => hparts number (hv number hn)⟩
  | publishing =>
    rw [hp] at h
    obtain ⟨files, hm, hd⟩ := h
    exact ⟨files, hm.mono hh, hd⟩
  | renamed | listing | removing | settling =>
    rw [hp] at h
    obtain ⟨files, hm, hd⟩ := h
    exact ⟨files, hm.mono hh, hpub.trans hd⟩
  | done ok =>
    rw [hp] at h
    cases ok with
    | false => trivial
    | true =>
      obtain ⟨files, hm, hd⟩ := h
      exact ⟨files, hm.mono hh, hpub.trans hd⟩
  | _ => trivial

/-! ## What a completion reads -/

variable {index size : ℕ} {part : ℕ × String}

theorem checkPart_eq_some (h : world.checkPart parts index part = some size) :
    ∃ file, world.get? (.part part.1) = some file ∧ file.etag = part.2 ∧
      size = file.content.length := by
  unfold checkPart at h
  split at h
  · cases h
  · split at h
    · cases h
    · rename_i file hget
      split_ifs at h with hetag hsize
      exact ⟨file, hget, not_not.1 hetag, (some.inj h).symm⟩

@[simp] theorem setPhase_phase (i : ℕ) (phase : UploadPhase) :
    (world.setPhase i phase).phase i = phase :=
  update_self _ _ _

variable {sizes : List ℕ}

theorem Assembled.check (hr : ∀ number file, world.get? (.part number) = some file →
      (number, file) ∈ world.history) (h : Assembled world i parts (.checking sizes))
    (hpart : parts[sizes.length]? = some part)
    (hcheck : world.checkPart parts sizes.length part = some size) :
    Assembled world i parts (.checking (sizes ++ [size])) := by
  obtain ⟨files, hm, hs, hst⟩ := h
  obtain ⟨file, hget, hetag, hsize⟩ := checkPart_eq_some hcheck
  have htake : parts.take (sizes ++ [size]).length = parts.take sizes.length ++ [part] := by
    rw [length_append, length_singleton, take_add_one, hpart]
    rfl
  refine ⟨files ++ [file], ?_, ?_, ?_⟩
  · rw [htake]
    exact rel_append hm (.cons ⟨hetag, hr _ _ hget⟩ .nil)
  · rw [hs, hsize]
    simp [sizesOf]
  · rw [htake]
    refine rel_append hst (.cons ?_ .nil)
    intro found hfound
    exact some.inj (hfound.symm.trans hget)

variable {data : List UInt8} {file : PartFile}

theorem Assembled.copy (h : Assembled world i parts (.copying sizes index data))
    (hpart : parts[index]? = some part) (hsize : sizes[index]? = some size)
    (hget : world.get? (.part part.1) = some file) :
    Assembled world i parts (.copying sizes (index + 1) (data ++ file.content.take size)) := by
  obtain ⟨files, hm, hs, hd, hst⟩ := h
  have hlen : parts.length = files.length := hm.length_eq
  have hindex : index < parts.length := (List.getElem?_eq_some_iff.1 hpart).1
  have hfile : index < files.length := hlen ▸ hindex
  rw [drop_eq_getElem_cons hindex, drop_eq_getElem_cons hfile] at hst
  obtain ⟨hsame, hrest⟩ := forall₂_cons.1 hst
  have hp : parts[index] = part := (List.getElem?_eq_some_iff.1 hpart).2
  rw [hp] at hsame
  have hread : file = files[index] := hsame file hget
  have hlength : size = file.content.length := by
    rw [hs, sizesOf, getElem?_map, getElem?_eq_getElem hfile] at hsize
    rw [hread]
    exact (some.inj hsize).symm
  refine ⟨files, hm, hs, ?_, hrest⟩
  rw [hlength, take_length, hd, take_add_one, getElem?_eq_getElem hfile, ← hread]
  simp only [contents, toList_some, flatMap_append, flatMap_singleton]

theorem Assembled.copied (h : Assembled world i parts (.copying sizes index data))
    (hend : parts[index]? = none ∨ sizes[index]? = none) :
    Assembled world i parts (.publishing data) := by
  obtain ⟨files, hm, hs, hd, hst⟩ := h
  have hlen : parts.length = files.length := hm.length_eq
  refine ⟨files, hm, ?_⟩
  have hindex : files.length ≤ index := by
    rcases hend with hend | hend
    · rw [getElem?_eq_none_iff] at hend
      omega
    · rw [getElem?_eq_none_iff, hs, sizesOf, length_map] at hend
      exact hend
  rw [hd, take_of_length_le hindex]

variable {outcome : UploadOutcome}

theorem consistent_rename {number : ℕ} {phase : UploadPhase} (h : Consistent requests world)
    (hrequest : ∀ parts, requests i ≠ .complete parts)
    (hrace : ∀ j, ¬ Vulnerable requests world j number) :
    Consistent requests
      { ((world.erase (.partStaging i)).put (.part number) file).setPhase i phase with
        history := world.history ++ [(number, file)] } := by
  have hget : ∀ number', number' ≠ number →
      ((world.erase (.partStaging i)).put (.part number) file).get? (.part number') =
        world.get? (.part number') := by
    intro number' hne
    rw [get?_put_of_ne _ _ (by simpa using hne), get?_erase,
      if_neg (by simp)]
  refine ⟨?_, ?_⟩
  · intro number' file' hfile
    by_cases hne : number' = number
    · subst hne
      rw [get?_put_eq_some _ hfile]
      exact mem_append_right _ (mem_singleton_self _)
    · exact mem_append_left _ (h.recorded number' file' ((hget number' hne).symm.trans hfile))
  · intro j parts hcomplete
    have hj : j ≠ i := by
      rintro rfl
      exact hrequest parts hcomplete
    have hphase : (update world.phase i phase) j = world.phase j :=
      update_of_ne hj _ _
    simp only [setPhase, put, erase, hphase]
    refine (h.assembled j parts hcomplete).frame hcomplete
      (fun _ he => mem_append_left _ he) rfl ?_
    intro number' hv file' hfile
    have hne : number' ≠ number := by
      rintro rfl
      exact hrace j hv
    exact (hget number' hne).symm.trans hfile

/-! ## One completion at a time -/

/-- The completion has created the marker and has not failed. -/
def UploadPhase.Finalizing : UploadPhase → Prop
  | .claimed | .checking _ | .opening _ | .copying .. | .publishing _ | .renamed | .listing
  | .removing _ | .settling => True
  | _ => False

/-- A part upload whose `rename` succeeds renames onto a part that no completion has checked
and not yet opened, and a completion that creates the marker does so while no other completion
that has created it is still running. -/
def Orderly (requests : ℕ → UploadRequest) (world : UploadWorld) : UploadMove → Prop
  | .run i outcome =>
    (∀ number file streaming, requests i = .uploadPart number file streaming →
      world.phase i = .unfinalized → outcome.ok = true → world.get? (.partStaging i) ≠ none →
      ∀ j, ¬ Vulnerable requests world j number) ∧
    (∀ parts, requests i = .complete parts → world.phase i = .marking → outcome.ok = true →
      world.directory ≠ none → world.get? .marker = none →
      ∀ j parts', j ≠ i → requests j = .complete parts' → ¬ (world.phase j).Finalizing)
  | _ => True

/-- What a step of a completion does to its own phase: it becomes one that has created
the marker only from there or by creating it in an existing directory, ends well only
after the barrier, and reaches the barrier only with the directory gone. -/
structure Advances (world next : UploadWorld) (i : ℕ) : Prop where
  finalizing : (next.phase i).Finalizing →
    (world.phase i).Finalizing ∨ world.phase i = .marking ∧ world.directory ≠ none
  done : next.phase i = .done true → world.phase i = .settling ∨ world.phase i = .done true
  settling : next.phase i = .settling → next.directory = none ∨ world.phase i = .settling

def IsCompletion (requests : ℕ → UploadRequest) (i : ℕ) : Prop :=
  ∃ parts, requests i = .complete parts

/-! ## Steps -/

/-- A step of request `i` that adds no part. A completion has read what its new phase says. -/
structure Progress (requests : ℕ → UploadRequest) (world next : UploadWorld) (i : ℕ) : Prop where
  shrinks : Shrinks i world next
  assembled : ∀ parts, requests i = .complete parts → Consistent requests world →
    Assembled next i parts (next.phase i)
  advances : IsCompletion requests i → Advances world next i

theorem Consistent.at {phase : UploadPhase} (h : Consistent requests world)
    (hp : world.phase i = phase) (hrequest : requests i = .complete parts) :
    Assembled world i parts phase :=
  hp ▸ h.assembled i parts hrequest

namespace Progress

theorem refl : Progress requests world world i :=
  ⟨.refl i world, fun parts hrequest h => h.assembled i parts hrequest,
    fun _ => ⟨.inl, .inr, .inr⟩⟩

theorem of_other (hs : Shrinks i world next) (hother : ¬ IsCompletion requests i) :
    Progress requests world next i :=
  ⟨hs, fun parts hrequest => absurd ⟨parts, hrequest⟩ hother, fun hi => absurd hi hother⟩

variable {phase : UploadPhase}

theorem idle (hs : Shrinks i world next) (hf : ¬ phase.Finalizing) (hd : phase ≠ .done true) :
    Progress requests world (next.setPhase i phase) i := by
  refine ⟨hs.setPhase phase, fun parts _ _ => ?_, fun _ => ⟨?_, ?_, ?_⟩⟩ <;> rw [setPhase_phase]
  · cases phase with
    | done ok =>
      cases ok with
      | false => trivial
      | true => exact absurd rfl hd
    | _ => first | trivial | exact absurd trivial hf
  · exact fun h => absurd h hf
  · exact fun h => absurd h hd
  · rintro rfl
    exact absurd trivial hf

section

variable (hs : Shrinks i world next) (hf : (world.phase i).Finalizing)
include hs hf

theorem advance (hd : phase ≠ .done true) (hsettling : phase ≠ .settling)
    (ha : ∀ parts, requests i = .complete parts → Consistent requests world →
      Assembled (next.setPhase i phase) i parts phase) :
    Progress requests world (next.setPhase i phase) i := by
  refine ⟨hs.setPhase phase, fun parts hrequest h => ?_, fun _ => ⟨fun _ => .inl hf, ?_, ?_⟩⟩ <;>
    rw [setPhase_phase]
  · exact ha parts hrequest h
  · exact fun h => absurd h hd
  · exact fun h => absurd h hsettling

theorem settle (hdir : next.directory = none)
    (ha : ∀ parts, requests i = .complete parts → Consistent requests world →
      Assembled (next.setPhase i .settling) i parts .settling) :
    Progress requests world (next.setPhase i .settling) i := by
  refine ⟨hs.setPhase _, fun parts hrequest h => ?_, fun _ => ⟨fun _ => .inl hf, ?_, fun _ => .inl hdir⟩⟩
  · rw [setPhase_phase]
    exact ha parts hrequest h
  · simp

end

theorem cleanStep : Progress requests world (world.cleanStep i outcome) i := by
  unfold UploadWorld.cleanStep
  split
  · refine .idle ?_ id (by simp)
    split_ifs
    · exact (Shrinks.refl i world).erase _
    · exact .refl i world
  · exact .idle (.refl i world) id (by simp)
  · exact .refl

theorem claimStep (request : UploadRequest) {granted : UploadPhase}
    (hgranted : IsCompletion requests i → granted = .claimed) :
    Progress requests world (world.claimStep i request granted outcome) i := by
  have hput : Shrinks i world (world.put .marker emptyFile) :=
    (Shrinks.refl i world).put _ fun number => by simp
  unfold UploadWorld.claimStep
  split
  · split_ifs <;> exact .idle (.refl i world) id (by simp)
  · rename_i hp
    split_ifs with hopen hclosed
    · refine ⟨hput.setPhase granted, fun parts hrequest _ => ?_, fun hi => ?_⟩
      · rw [setPhase_phase, hgranted ⟨parts, hrequest⟩]
        trivial
      · rw [hgranted hi]
        exact ⟨fun _ => .inr ⟨hp, isSome_iff_ne_none.1 hopen.2.1⟩, by simp, by simp⟩
    · exact .idle hput id (by simp)
    · exact .idle (.refl i world) id (by simp)
  · exact .refl

theorem removeStep {unsettled : UploadPhase}
    (hunsettled : IsCompletion requests i → ∃ names, unsettled = .cleaning names) :
    Progress requests world (world.removeStep i unsettled outcome) i := by
  unfold UploadWorld.removeStep
  split
  · rename_i hp
    have hf : (world.phase i).Finalizing := by rw [hp]; exact trivial
    split
    · rename_i hdir
      exact .settle (.refl i world) hf hdir fun _ hrequest h => h.at hp hrequest
    · split_ifs
      · exact .advance (.refl i world) hf (by simp) (by simp) fun _ hrequest h => h.at hp hrequest
      · exact .idle (.refl i world) id (by simp)
  · rename_i hp
    have hf : (world.phase i).Finalizing := by rw [hp]; exact trivial
    split_ifs
    · exact .advance ((Shrinks.refl i world).erase _) hf (by simp) (by simp)
        fun _ hrequest h => h.at hp hrequest
    · exact .idle (.refl i world) id (by simp)
  · rename_i hp
    have hf : (world.phase i).Finalizing := by rw [hp]; exact trivial
    split
    · rename_i hdir
      exact .settle (.refl i world) hf hdir fun _ hrequest h => h.at hp hrequest
    · split_ifs
      · have hs : Shrinks i world { world with directory := none } :=
          ⟨fun _ _ => ⟨rfl, rfl⟩, fun _ _ hget => by simp [get?] at hget,
            fun _ => rfl, rfl⟩
        exact settle hs hf rfl fun _ hrequest h => h.at hp hrequest
      · exact .idle (.refl i world) id (by simp)
    · exact .idle (.refl i world) id (by simp)
  · rename_i hp
    refine ⟨.phase .., fun parts hrequest h => ?_, fun _ => ?_⟩
    · rw [setPhase_phase]
      split_ifs
      · exact h.at hp hrequest
      · obtain ⟨names, rfl⟩ := hunsettled ⟨parts, hrequest⟩
        trivial
    · exact ⟨fun _ => .inl (by rw [hp]; exact trivial), fun _ => .inl hp, fun _ => .inr hp⟩
  · exact .refl

theorem assembleStep (hrequest : requests i = .complete parts) :
    Progress requests world (world.assembleStep i parts outcome) i := by
  have hadvance : ∀ {phase next}, Shrinks i world next → (world.phase i).Finalizing →
      phase ≠ .done true → phase ≠ .settling →
      (Consistent requests world → Assembled (next.setPhase i phase) i parts phase) →
      Progress requests world (next.setPhase i phase) i := by
    refine fun hs hf hd hsettling ha => .advance hs hf hd hsettling fun parts' hrequest' h => ?_
    cases hrequest.symm.trans hrequest'
    exact ha h
  have hrefl := Shrinks.refl i world
  unfold UploadWorld.assembleStep
  split
  case h_7 => exact .refl
  all_goals
    rename_i hp
    have hf : (world.phase i).Finalizing := by rw [hp]; exact trivial
  · split_ifs
    · exact hadvance hrefl hf (by simp) (by simp) fun _ =>
        ⟨[], by simp [Matches], rfl, by simp [Stable]⟩
    · exact .idle hrefl id (by simp)
  · split
    · rename_i hend
      split_ifs
      · refine hadvance hrefl hf (by simp) (by simp) fun h => ?_
        obtain ⟨files, hm, hs, hst⟩ := h.at hp hrequest
        rw [getElem?_eq_none_iff] at hend
        rw [take_of_length_le hend] at hm hst
        exact ⟨files, hm, hs, hst⟩
      · exact .idle hrefl id (by simp)
    · rename_i part hpart
      split
      · rename_i size hcheck
        split_ifs
        · exact hadvance hrefl hf (by simp) (by simp) fun h =>
            (h.at hp hrequest).check h.recorded hpart hcheck
        · exact .idle hrefl id (by simp)
      · exact .idle hrefl id (by simp)
  · split_ifs
    · refine hadvance hrefl hf (by simp) (by simp) fun h => ?_
      obtain ⟨files, hm, hs, hst⟩ := h.at hp hrequest
      exact ⟨files, hm, hs, rfl, hst⟩
    · exact .idle hrefl id (by simp)
  · rename_i sizes index data
    split
    · rename_i part size hpart hsize
      split
      · rename_i file hget
        split_ifs
        · exact hadvance hrefl hf (by simp) (by simp) fun h =>
            (h.at hp hrequest).copy hpart hsize hget
        · exact .idle hrefl id (by simp)
      · exact .idle hrefl id (by simp)
    · rename_i hend
      refine hadvance hrefl hf (by simp) (by simp) fun h => (h.at hp hrequest).copied ?_
      cases hpart : parts[index]? with
      | none => exact .inl rfl
      | some part =>
        cases hsize : sizes[index]? with
        | none => exact .inr rfl
        | some size => exact (hend part size hpart hsize).elim
  · rename_i data
    split_ifs
    · have hs : Shrinks i world { world.erase (.completion i) with
          object := some data, published := update world.published i (some data) } :=
        { hrefl.erase (.completion i) with others := fun j hj => ⟨rfl, update_of_ne hj _ _⟩ }
      refine hadvance hs hf (by simp) (by simp) fun h => ?_
      obtain ⟨files, hm, hd⟩ := h.at hp hrequest
      exact ⟨files, hm, by rw [hd]; exact update_self _ _ _⟩
    · exact .idle hrefl id (by simp)
  · split_ifs
    · exact hadvance hrefl hf (by simp) (by simp) fun h => h.at hp hrequest
    · exact .idle hrefl id (by simp)

theorem completeStep (hrequest : requests i = .complete parts) :
    Progress requests world (world.completeStep i parts outcome) i := by
  unfold UploadWorld.completeStep
  split
  · refine .idle (.refl i world) ?_ ?_ <;> split_ifs <;> simp [UploadPhase.Finalizing]
  · split
    · refine .idle (.refl i world) ?_ ?_ <;> split_ifs <;> simp [UploadPhase.Finalizing]
    · split_ifs <;> exact .idle (.refl i world) id (by simp)
  · split_ifs
    · exact .idle ((Shrinks.refl i world).put _ fun number => by simp) id (by simp)
    · exact .idle (.refl i world) id (by simp)
  · exact claimStep _ fun _ => rfl
  · exact claimStep _ fun _ => rfl
  · exact removeStep fun _ => ⟨_, rfl⟩
  · exact removeStep fun _ => ⟨_, rfl⟩
  · exact removeStep fun _ => ⟨_, rfl⟩
  · exact cleanStep
  · exact assembleStep hrequest

theorem abortStep (hother : ¬ IsCompletion requests i) :
    Progress requests world (world.abortStep i outcome) i := by
  unfold UploadWorld.abortStep
  split
  · exact of_other (.phase ..) hother
  · exact claimStep _ fun hi => absurd hi hother
  · exact claimStep _ fun hi => absurd hi hother
  · exact cleanStep
  · exact removeStep fun hi => absurd hi hother

end Progress

/-- The rename that ends the upload of a part. -/
def UploadWorld.renamePart (world : UploadWorld) (i number : ℕ) (file : PartFile) : UploadWorld :=
  { ((world.erase (.partStaging i)).put (.part number) file).setPhase i .settling with
    history := world.history ++ [(number, file)] }

theorem step_cases : Progress requests world (world.step requests i outcome) i ∨
    ¬ IsCompletion requests i ∧ ∃ number file streaming staged,
      requests i = .uploadPart number file streaming ∧ world.phase i = .unfinalized ∧
      outcome.ok = true ∧ world.get? (.partStaging i) = some staged ∧
      world.step requests i outcome = world.renamePart i number staged := by
  unfold step
  cases hrequest : requests i with
  | complete => exact .inl (.completeStep hrequest)
  | abort => exact .inl (.abortStep fun ⟨_, hi⟩ => by rw [hrequest] at hi; cases hi)
  | uploadPart number file streaming =>
    have hother : ¬ IsCompletion requests i := fun ⟨_, hi⟩ => by rw [hrequest] at hi; cases hi
    dsimp only
    split
    · exact .inl .cleanStep
    · by_cases hp : world.phase i = .unfinalized
      · unfold uploadStep
        simp only [hp]
        split
        · split_ifs with hok
          · exact .inr ⟨hother, number, file, streaming, _, rfl, trivial, hok, ‹_›, rfl⟩
          · exact .inl (.of_other (.phase ..) hother)
        · exact .inl (.of_other (.phase ..) hother)
      · exact .inl (.of_other (.uploadStep world i number file streaming outcome hp) hother)

theorem Consistent.progress (h : Consistent requests world) (hp : Progress requests world next i) :
    Consistent requests next := by
  have hs := hp.shrinks
  refine ⟨?_, ?_⟩
  · intro number file hget
    rw [hs.history]
    exact h.recorded number file (hs.parts number file hget)
  · intro j parts hrequest
    by_cases hj : j = i
    · subst hj
      exact hp.assembled parts hrequest h
    · rw [(hs.others j hj).1]
      exact (h.assembled j parts hrequest).frame hrequest (by simp [hs.history])
        (hs.others j hj).2 fun number _ => hs.parts number

variable {move : UploadMove}

theorem Consistent.apply (h : Consistent requests world) (ho : Orderly requests world move) :
    Consistent requests (world.apply requests move) := by
  cases move with
  | reap name =>
    refine ⟨?_, ?_⟩
    · intro number file hget
      rw [apply, get?_erase] at hget
      split_ifs at hget
      exact h.recorded number file hget
    · intro j parts hrequest
      have hf : Assembled (world.erase name) j parts (world.phase j) := by
        refine (h.assembled j parts hrequest).frame hrequest (fun _ he => he) rfl ?_
        intro number _ file hget
        rw [get?_erase] at hget
        split_ifs at hget
        exact hget
      exact hf
  | reapDirectory =>
    simp only [apply]
    split_ifs
    · refine ⟨fun _ _ hget => by simp [get?] at hget, ?_⟩
      intro j parts hrequest
      have hf : Assembled { world with directory := none } j parts (world.phase j) :=
        (h.assembled j parts hrequest).frame hrequest (fun _ he => he) rfl
          fun _ _ _ hget => by simp [get?] at hget
      exact hf
    · exact h
  | run i outcome =>
    rw [apply]
    rcases step_cases with
      hp | ⟨hother, number, file, streaming, staged, hrequest, hp, hok, hstaged, hstep⟩
    · exact h.progress hp
    · rw [hstep]
      exact consistent_rename h (fun parts hi => hother ⟨parts, hi⟩)
        (ho.1 number file streaming hrequest hp hok (by simp [hstaged]))

/-- At most one completion has created the marker or ended well, and one that ended well
left no directory. -/
structure Exclusive (requests : ℕ → UploadRequest) (world : UploadWorld) : Prop where
  one : ∀ i j, IsCompletion requests i → IsCompletion requests j →
    (world.phase i).Finalizing → (world.phase j).Finalizing → i = j
  gone : ∀ i, IsCompletion requests i →
    world.phase i = .settling ∨ world.phase i = .done true → world.directory = none
  last : ∀ i j, IsCompletion requests i → IsCompletion requests j →
    world.phase i = .done true → ¬ (world.phase j).Finalizing
  sole : ∀ i j, IsCompletion requests i → IsCompletion requests j →
    world.phase i = .done true → world.phase j = .done true → i = j

/-- The completion has created the marker and has not failed since. -/
def UploadPhase.Marked (phase : UploadPhase) : Prop := phase.Finalizing ∨ phase = .done true

theorem Exclusive.alone {j : ℕ} (h : Exclusive requests world) (hi : IsCompletion requests i)
    (hj : IsCompletion requests j) (hmi : (world.phase i).Marked) (hmj : (world.phase j).Marked) :
    i = j := by
  rcases hmi with hmi | hmi
  · rcases hmj with hmj | hmj
    · exact h.one i j hi hj hmi hmj
    · exact absurd hmi (h.last j i hj hi hmj)
  · rcases hmj with hmj | hmj
    · exact absurd hmj (h.last i j hi hj hmi)
    · exact h.sole i j hi hj hmi hmj

theorem Exclusive.of_alone (h : ∀ i j, IsCompletion requests i → IsCompletion requests j →
      (world.phase i).Marked → (world.phase j).Marked → i = j)
    (hgone : ∀ i, IsCompletion requests i →
      world.phase i = .settling ∨ world.phase i = .done true → world.directory = none) :
    Exclusive requests world where
  one i j hi hj hfi hfj := h i j hi hj (.inl hfi) (.inl hfj)
  gone := hgone
  last i j hi hj hdone hf := by
    cases h i j hi hj (.inr hdone) (.inl hf)
    rw [hdone] at hf
    exact hf
  sole i j hi hj hdi hdj := h i j hi hj (.inr hdi) (.inr hdj)

variable (h : Exclusive requests world)
include h

theorem Exclusive.frame (hp : ∀ i, IsCompletion requests i → next.phase i = world.phase i)
    (hd : world.directory = none → next.directory = none) : Exclusive requests next := by
  refine .of_alone (fun i j hi hj => ?_) fun i hi => ?_
  · rw [hp i hi, hp j hj]
    exact h.alone hi hj
  · rw [hp i hi]
    exact fun hphase => hd (h.gone i hi hphase)

theorem Exclusive.progress (hp : Progress requests world next i)
    (hmarking : IsCompletion requests i → world.phase i = .marking → (next.phase i).Finalizing →
      ∀ j parts', j ≠ i → requests j = .complete parts' → ¬ (world.phase j).Finalizing) :
    Exclusive requests next := by
  have hs := hp.shrinks
  by_cases hi : IsCompletion requests i
  case neg =>
    refine h.frame (fun j hj => (hs.others j ?_).1) hs.directory
    rintro rfl
    exact hi hj
  have ha := hp.advances hi
  -- The completion that moves is alone with the marker, and none has ended well before.
  have halone : (next.phase i).Marked →
      ∀ j, IsCompletion requests j → j ≠ i → ¬ (world.phase j).Marked := by
    rintro hm j ⟨parts', hj⟩ hne hmj
    have hold : ¬ (world.phase i).Marked := fun hm => hne (h.alone ⟨parts', hj⟩ hi hmj hm)
    rcases hm with hf | hd
    · obtain ⟨hm, hdir⟩ := (ha.finalizing hf).resolve_left fun hf => hold (.inl hf)
      rcases hmj with hmj | hmj
      · exact hmarking hi hm hf j parts' hne hj hmj
      · exact hdir (h.gone j ⟨parts', hj⟩ (.inr hmj))
    · rcases ha.done hd with hsettling | hdone
      · exact hold (.inl (by rw [hsettling]; exact trivial))
      · exact hold (.inr hdone)
  refine .of_alone (fun j k hj hk hmj hmk => ?_) fun j hj hphase => ?_
  · by_contra hne
    by_cases hji : j = i
    · subst hji
      rw [(hs.others k (Ne.symm hne)).1] at hmk
      exact halone hmj k hk (.symm hne) hmk
    · rw [(hs.others j hji).1] at hmj
      by_cases hki : k = i
      · subst hki
        exact halone hmk j hj hji hmj
      · rw [(hs.others k hki).1] at hmk
        exact hne (h.alone hj hk hmj hmk)
  · by_cases hji : j = i
    · subst hji
      rcases hphase with hsettling | hdone
      · rcases ha.settling hsettling with hdir | hold
        · exact hdir
        · exact hs.directory (h.gone j hj (.inl hold))
      · exact hs.directory (h.gone j hj (ha.done hdone))
    · rw [(hs.others j hji).1] at hphase
      exact hs.directory (h.gone j hj hphase)

omit h in
/-- A completion gets past the marker only by creating it. -/
theorem created_of_finalizing {parts : List (ℕ × String)} (hrequest : requests i = .complete parts)
    (hp : world.phase i = .marking)
    (hf : ((world.step requests i outcome).phase i).Finalizing) :
    outcome.ok = true ∧ world.directory ≠ none ∧ world.get? .marker = none := by
  simp only [step, hrequest, completeStep, hp, claimStep] at hf
  split_ifs at hf with hcreated
  · exact ⟨hcreated.1, Option.isSome_iff_ne_none.1 hcreated.2.1, hcreated.2.2⟩
  · exact ⟨hcreated.1, Option.isSome_iff_ne_none.1 hcreated.2.1, hcreated.2.2⟩
  · simp [setPhase, UploadPhase.Finalizing] at hf

theorem Exclusive.apply (ho : Orderly requests world move) :
    Exclusive requests (world.apply requests move) := by
  cases move with
  | reap =>
    refine h.frame (fun _ _ => rfl) ?_
    intro hnone
    simp [apply, erase, hnone]
  | reapDirectory =>
    simp only [apply]
    split_ifs
    · exact h.frame (fun _ _ => rfl) fun _ => rfl
    · exact h
  | run i outcome =>
    rw [apply]
    rcases step_cases with hp | ⟨hother, number, _, _, staged, -, -, -, -, hstep⟩
    · refine h.progress hp ?_
      rintro ⟨parts, hi⟩ hmarking hf
      obtain ⟨hok, hdir, hmarker⟩ := created_of_finalizing hi hmarking hf
      exact ho.2 parts hi hmarking hok hdir hmarker
    · rw [hstep]
      refine h.frame (fun j hj => update_of_ne ?_ _ _) ?_
      · rintro rfl
        exact hother hj
      · intro hnone
        simp [renamePart, setPhase, put, erase, hnone]

end Steps

/-! ## Runs -/

section

variable (requests : ℕ → UploadRequest) (files : Directory) (object : Option (List UInt8))

theorem consistent_start : Consistent requests (start files object) := by
  refine ⟨?_, fun _ _ _ => trivial⟩
  intro number file hget
  obtain ⟨entry, hentry, rfl⟩ := map_eq_some_iff.1 hget
  have hname : entry.1 = .part number := by simpa using find?_some hentry
  refine mem_filterMap.2 ⟨entry, mem_of_find?_eq_some hentry, ?_⟩
  simp [hname]

theorem exclusive_start : Exclusive requests (start files object) := by
  refine ⟨fun _ _ _ _ h => h.elim, ?_, nofun, nofun⟩
  rintro i - (h | h) <;> cases h

theorem upload_run_append (moves : List UploadMove) (move : UploadMove) :
    run requests files object (moves ++ [move]) =
      (run requests files object moves).apply requests move := by
  simp [run]

theorem orderly_run (moves : List UploadMove)
    (h : ∀ before move after, moves = before ++ move :: after →
      Orderly requests (run requests files object before) move) :
    Consistent requests (run requests files object moves) ∧
      Exclusive requests (run requests files object moves) := by
  induction moves using reverseRecOn with
  | nil => exact ⟨consistent_start requests files object, exclusive_start requests files object⟩
  | append_singleton moves move ih =>
    rw [upload_run_append]
    have ho := h moves move [] rfl
    obtain ⟨hc, he⟩ := ih fun before move' after hm =>
      h before move' (after ++ [move]) (by rw [hm]; simp)
    exact ⟨hc.apply ho, he.apply ho⟩

end

/-- In every orderly run, a completion that answers 200 published the contents, in the
order of its request, of part uploads with the ETags it lists, and at most one completion
answers 200. -/
theorem multipart_completion_integrity (requests : ℕ → UploadRequest) (files : Directory)
    (object : Option (List UInt8)) (moves : List UploadMove)
    (h : ∀ before move after, moves = before ++ move :: after →
      Orderly requests (UploadWorld.run requests files object before) move) :
    (∀ i parts, requests i = .complete parts →
      (UploadWorld.run requests files object moves).phase i = .done true →
      ∃ found, Matches (UploadWorld.run requests files object moves) parts found ∧
        (UploadWorld.run requests files object moves).published i = some (contents found)) ∧
    (∀ i j parts parts', requests i = .complete parts → requests j = .complete parts' →
      (UploadWorld.run requests files object moves).phase i = .done true →
      (UploadWorld.run requests files object moves).phase j = .done true → i = j) := by
  obtain ⟨hc, he⟩ := orderly_run requests files object moves h
  refine ⟨?_, ?_⟩
  · intro i parts hrequest hdone
    have ha := hc.assembled i parts hrequest
    rw [hdone] at ha
    exact ha
  · intro i j parts parts' hi hj
    exact he.sole i j ⟨parts, hi⟩ ⟨parts', hj⟩

/-! ## The two races -/

def oldPart : PartFile := { content := [1], etag := "old" }

def newPart : PartFile := { content := [2], etag := "new" }

def sampleUpload : Directory := [(.manifest, UploadWorld.emptyFile), (.part 1, oldPart)]

/-- A move whose driver calls succeed. -/
def UploadMove.succeed (i : ℕ) : UploadMove := .run i { ok := true, closed := true, order := [] }

/-- An upload of the part again, and completions that list the old part. -/
def racingUploads (i : ℕ) : UploadRequest :=
  if i = 0 then .uploadPart 1 newPart true else .complete [(1, "old")]

/-- The part upload makes its last check before the completion creates the marker, and
renames before it opens the part: eleven steps of the completion are in between. -/
def replacedPart : UploadWorld :=
  UploadWorld.run racingUploads sampleUpload none
    ((List.replicate 4 0 ++ List.replicate 10 1 ++ [0] ++ List.replicate 11 1).map
      UploadMove.succeed)

/-- Two completions; the directory of the upload is listed with the marker first. -/
def overlappingCompletions : UploadWorld :=
  UploadWorld.run (fun _ => .complete [(1, "old")]) sampleUpload none
    ((List.replicate 3 1 ++ List.replicate 14 0).map UploadMove.succeed ++
      [.run 0 { ok := true, closed := true, order := [.marker, .manifest, .part 1] }] ++
      ([0] ++ List.replicate 18 1 ++ List.replicate 5 0).map UploadMove.succeed)

/-- The completion answers 200 with the content of a part it did not list; and two
completions answer 200, as the second one creates the marker that the first one has just
unlinked. -/
theorem completion_publishes_replaced_part : (replacedPart.phase 1 = .done true ∧
      ¬ ∃ found, Matches replacedPart [(1, "old")] found ∧
        replacedPart.published 1 = some (contents found)) ∧
    overlappingCompletions.phase 0 = .done true ∧ overlappingCompletions.phase 1 = .done true := by
  refine ⟨⟨by decide +kernel, ?_⟩, by decide +kernel, by decide +kernel⟩
  rintro ⟨_, hm, hp⟩
  obtain ⟨_, _, ⟨hetag, hmem⟩, hrest, rfl⟩ := List.forall₂_cons_left_iff.1 hm
  cases hrest
  have hhistory : replacedPart.history = [(1, oldPart), (1, newPart)] := by decide +kernel
  have hpublished : replacedPart.published 1 = some [2] := by decide +kernel
  rw [hhistory] at hmem
  rw [hpublished] at hp
  rcases List.mem_pair.1 hmem with hold | hnew
  · cases hold
    revert hp
    decide
  · cases hnew
    revert hetag
    decide

/-- Two completions that list the old part, and an upload of the part again. -/
def contendingUploads : ℕ → UploadRequest
  | 0 | 1 => .complete [(1, "old")]
  | 2 => .uploadPart 1 newPart true
  | _ => .abort

/-- Both completions come to the marker, the first one creates it, and the second one is refused.
The part upload made its last check before, and renames when the part was copied. -/
def contendingMoves : List UploadMove :=
  (List.replicate 4 2 ++ List.replicate 5 1 ++ List.replicate 11 0 ++ List.replicate 3 1 ++ [2, 2] ++
    List.replicate 9 0).map UploadMove.succeed

def contended (k : ℕ) : UploadWorld :=
  UploadWorld.run contendingUploads sampleUpload none (contendingMoves.take k)

theorem contended_rename : ∀ k < contendingMoves.length,
    contendingMoves[k]? = some (.succeed 2) → (contended k).phase 2 = .unfinalized →
    (contended k).phase 0 = .copying [1] 1 [1] ∧ (contended k).phase 1 = .done false := by
  decide +kernel

theorem contended_marker : ∀ k < contendingMoves.length, ∀ i < 2,
    contendingMoves[k]? = some (.succeed i) → (contended k).phase i = .marking →
    (contended k).get? .marker = none → (contended k).phase (1 - i) = .marking := by
  decide +kernel

theorem contended_orderly (k : ℕ) (hk : k < contendingMoves.length) (i : ℕ)
    (hmove : contendingMoves[k]? = some (.succeed i)) :
    Orderly contendingUploads (contended k) (.succeed i) := by
  refine ⟨?_, ?_⟩
  · rintro number file streaming hrequest hp - - j ⟨parts, hj, hv⟩
    rcases i with _ | _ | _ | i <;> cases hrequest
    obtain ⟨hzero, hone⟩ := contended_rename k hk hmove hp
    rcases j with _ | _ | _ | j <;> cases hj
    · simp [hzero] at hv
    · simp [hone] at hv
  · rintro parts hrequest hp - - hmarker j parts' hne hj
    have hphase := fun hi => contended_marker k hk i hi hmove hp hmarker
    have hi : i < 2 := by rcases i with _ | _ | _ | i <;> cases hrequest <;> decide
    have hj : j = 1 - i := by rcases j with _ | _ | _ | j <;> cases hj <;> omega
    rw [hj, hphase hi]
    exact id

theorem multipart_completion_integrity_contended :
    (contended 34).published 0 = some [1] ∧ (contended 34).phase 0 = .done true ∧
      (contended 34).phase 1 = .done false ∧ (contended 34).phase 2 = .done true ∧
      ∃ found, Matches (contended 34) [(1, "old")] found ∧
        (contended 34).published 0 = some (contents found) := by
  have hdone : (contended 34).phase 0 = .done true := by decide +kernel
  refine ⟨by decide +kernel, hdone, by decide +kernel, by decide +kernel, ?_⟩
  refine (multipart_completion_integrity contendingUploads sampleUpload none
    contendingMoves ?_).1 0 _ rfl hdone
  intro before move after hmoves
  have hbefore : before = contendingMoves.take before.length := by rw [hmoves]; simp
  have hmove : contendingMoves[before.length]? = some move := by rw [hmoves]; simp
  obtain ⟨i, -, rfl⟩ := List.mem_map.1 (List.mem_of_getElem? hmove)
  rw [hbefore]
  exact contended_orderly before.length (by rw [hmoves]; simp) i hmove

end MountRs.S3
