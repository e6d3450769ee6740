import MountRs.Library.AsyncLogic
import MountRs.Model.Versioned.Coordinator
import MountRs.Verification.Storage.Validation
import MountRs.Verification.Versioned.Memory

/-! # Publications and their versions

Over any run of provider calls and coordinator calls, the record of created versions
agrees with the index of the store. A publication identity creates one version, as
long as it is not published again after that version was deleted. -/

namespace MountRs.Versioned

open Memory MetadataState Except Discipline BTreeMap VersionedOptions

/-! ## The record and the store -/

structure Consistent (world : VersionedWorld) : Prop where
  issued : ∀ operationId info, (operationId, info) ∈ world.created →
    info.id.sequence < world.metadata.nextVersion
  valid : ∀ operationId info, (operationId, info) ∈ world.created →
    info.validateForVolume world.metadata.volumeId = .ok ()
  stored : ∀ id info, world.metadata.versions.get? id = some info →
    info.id = id ∧ ∃ operationId, (operationId, info) ∈ world.created
  indexed : ∀ operationId info, (operationId, info) ∈ world.created →
    world.metadata.versions.contains info.id = true →
    world.metadata.operations.get? operationId = some info.id
  committed : ∀ operationId id, world.metadata.operations.get? operationId = some id →
    ∃ info, world.metadata.versions.get? id = some info ∧ (operationId, info) ∈ world.created
  ids : (world.created.map fun entry => entry.2.id).Nodup
  once : world.reused = [] → (world.created.map Prod.fst).Nodup

theorem consistent_new (volumeId : VolumeId) : Consistent (VersionedWorld.new volumeId) := by
  constructor <;> simp [VersionedWorld.new, new]

namespace Consistent

variable {world : VersionedWorld} {operationId : PublicationId} {info : VersionInfo}

theorem get?_of_created (h : Consistent world) (hcreated : (operationId, info) ∈ world.created)
    (hstored : world.metadata.versions.contains info.id = true) :
    world.metadata.versions.get? info.id = some info := by
  obtain ⟨_, hother⟩ := mem_keys_iff.mp (contains_iff.mp hstored)
  obtain ⟨hid, _, hmem⟩ := h.stored _ _ hother
  have heq := List.inj_on_of_nodup_map h.ids hmem hcreated hid
  rw [hother, (Prod.mk.inj heq).2]

variable {metadata : MetadataState}

section

variable (h : Consistent world)
include h

theorem of_sameTimeline (hsame : SameTimeline world.metadata metadata) :
    Consistent { world with metadata } := by
  obtain ⟨hversions, hoperations, hnext, hvolume⟩ := hsame
  constructor
  · simpa only [hnext] using h.issued
  · simpa only [hvolume] using h.valid
  · simpa only [hversions] using h.stored
  · simpa only [hversions, hoperations] using h.indexed
  · simpa only [hversions, hoperations] using h.committed
  · exact h.ids
  · exact h.once

theorem id_fresh {id : VersionId} (hid : id.sequence = world.metadata.nextVersion) :
    ∀ operationId info, (operationId, info) ∈ world.created → info.id ≠ id := by
  intro operationId info hmem heq
  have hlt := h.issued operationId info hmem
  rw [heq, hid] at hlt
  exact Nat.lt_irrefl _ hlt

theorem contains_fresh {id : VersionId} (hid : id.sequence = world.metadata.nextVersion) :
    world.metadata.versions.contains id = false := by
  by_contra hcontains
  obtain ⟨info, hinfo⟩ := mem_keys_iff.mp (contains_iff.mp (Bool.not_eq_false _ ▸ hcontains))
  obtain ⟨hinfoId, operationId, hmem⟩ := h.stored _ _ hinfo
  exact h.id_fresh hid operationId info hmem hinfoId

theorem retired_of_uncommitted (hnone : world.metadata.operations.get? operationId = none)
    (hused : operationId ∈ world.created.map Prod.fst) : world.retired operationId = true := by
  obtain ⟨⟨_, info⟩, hmem, rfl⟩ := List.mem_map.mp hused
  refine List.any_eq_true.mpr ⟨_, hmem, ?_⟩
  cases hcontains : world.metadata.versions.contains info.id with
  | false => simp
  | true =>
    have hindexed := h.indexed _ _ hmem hcontains
    rw [hnone] at hindexed
    cases hindexed

end

variable {publication : VersionPublication} {info : VersionInfo}

theorem create (h : Consistent world)
    {reused : List PublicationId} (hcreates : Creates world.metadata publication info metadata)
    (hnone : world.metadata.operations.get? publication.operationId = none)
    (hreused : reused = [] → world.reused = [] ∧ world.retired publication.operationId = false) :
    Consistent
      { metadata, reused, created := world.created ++ [(publication.operationId, info)] } := by
  have hsequence : info.id.sequence = world.metadata.nextVersion := by rw [hcreates.id_eq]
  have hfresh := h.id_fresh hsequence
  have habsent := h.contains_fresh hsequence
  constructor
  · intro operationId other hmem
    simp only [hcreates.nextVersion]
    rcases List.mem_append.mp hmem with hmem | hmem
    · exact Nat.lt_succ_of_lt (h.issued operationId other hmem)
    · obtain ⟨-, rfl⟩ := Prod.mk.inj (List.mem_singleton.mp hmem)
      omega
  · intro operationId other hmem
    simp only [hcreates.volumeId]
    rcases List.mem_append.mp hmem with hmem | hmem
    · exact h.valid operationId other hmem
    · obtain ⟨-, rfl⟩ := Prod.mk.inj (List.mem_singleton.mp hmem)
      exact hcreates.valid
  · intro id other hother
    simp only [hcreates.versions, get?_insert] at hother
    split_ifs at hother with hid
    · cases hother
      exact ⟨hid.symm, publication.operationId, by simp⟩
    · obtain ⟨hotherId, operationId, hmem⟩ := h.stored id other hother
      exact ⟨hotherId, operationId, List.mem_append_left _ hmem⟩
  · intro operationId other hmem hcontains
    simp only [hcreates.operations, get?_insert]
    rcases List.mem_append.mp hmem with hmem | hmem
    · have hne : other.id ≠ info.id := hfresh operationId other hmem
      have hold : world.metadata.versions.contains other.id = true := by
        simpa only [contains, hcreates.versions, get?_insert_of_ne _ _ hne]
          using hcontains
      have hindexed := h.indexed operationId other hmem hold
      have hop : operationId ≠ publication.operationId := by
        rintro rfl
        rw [hnone] at hindexed
        cases hindexed
      rw [if_neg hop]
      exact hindexed
    · obtain ⟨rfl, rfl⟩ := Prod.mk.inj (List.mem_singleton.mp hmem)
      rw [if_pos rfl]
  · intro operationId id hid
    simp only [hcreates.operations, get?_insert] at hid
    simp only [hcreates.versions, get?_insert]
    split_ifs at hid with hop
    · cases hid
      exact ⟨info, by rw [if_pos rfl], by simp [hop]⟩
    · obtain ⟨other, hother, hmem⟩ := h.committed operationId id hid
      have hne : id ≠ info.id := by
        rintro rfl
        simp [contains, hother] at habsent
      exact ⟨other, by rw [if_neg hne]; exact hother, List.mem_append_left _ hmem⟩
  · rw [List.map_append, List.map_singleton]
    refine List.nodup_append'.mpr ⟨h.ids, List.nodup_singleton _, ?_⟩
    intro id hid hid'
    obtain ⟨⟨operationId, other⟩, hmem, rfl⟩ := List.mem_map.mp hid
    exact hfresh operationId other hmem (List.mem_singleton.mp hid')
  · intro hempty
    obtain ⟨hreused, hretired⟩ := hreused hempty
    rw [List.map_append, List.map_singleton]
    refine List.nodup_append'.mpr ⟨h.once hreused, List.nodup_singleton _, ?_⟩
    intro operationId hused hop
    rw [List.mem_singleton.mp hop] at hused
    rw [h.retired_of_uncommitted hnone hused] at hretired
    cases hretired

theorem delete (h : Consistent world) {nowMs : ℕ} {id : VersionId}
    (hdeletes : Deletes nowMs world.metadata id metadata) :
    Consistent { world with metadata } := by
  constructor
  · simpa only [hdeletes.nextVersion] using h.issued
  · simpa only [hdeletes.volumeId] using h.valid
  · intro other info hinfo
    simp only [hdeletes.versions, get?_erase] at hinfo
    split_ifs at hinfo
    exact h.stored other info hinfo
  · intro operationId info hmem hcontains
    simp only [contains, hdeletes.versions, get?_erase] at hcontains
    split_ifs at hcontains with hid
    · simp at hcontains
    · simp only [hdeletes.operations, get?_retain_eq_some, decide_eq_true_eq]
      exact ⟨h.indexed operationId info hmem hcontains, hid⟩
  · intro operationId other hother
    simp only [hdeletes.operations, get?_retain_eq_some, decide_eq_true_eq] at hother
    obtain ⟨info, hinfo, hmem⟩ := h.committed operationId other hother.1
    refine ⟨info, ?_, hmem⟩
    simp only [hdeletes.versions, get?_erase_of_ne _ hother.2]
    exact hinfo
  · exact h.ids
  · exact h.once

end Consistent
/-! ## What a run keeps -/

/-- The record grows, and a version that was created and deleted stays away. -/
structure Extends (world next : VersionedWorld) : Prop where
  created : world.created <+: next.created
  issued : world.metadata.nextVersion ≤ next.metadata.nextVersion
  gone : ∀ id : VersionId, id.sequence < world.metadata.nextVersion →
    world.metadata.versions.contains id = false → next.metadata.versions.contains id = false

namespace Extends

variable {world next last : VersionedWorld}

theorem refl (world : VersionedWorld) : Extends world world :=
  ⟨List.prefix_rfl, Nat.le_refl _, fun _ _ h => h⟩

theorem trans (h : Extends world next) (h' : Extends next last) : Extends world last :=
  ⟨h.created.trans h'.created, h.issued.trans h'.issued,
    fun id hid habsent => h'.gone id (hid.trans_le h.issued) (h.gone id hid habsent)⟩

theorem mem_created (h : Extends world next) {entry : PublicationId × VersionInfo}
    (hmem : entry ∈ world.created) : entry ∈ next.created :=
  h.created.subset hmem

variable {metadata : MetadataState}

theorem of_sameTimeline (h : SameTimeline world.metadata metadata) :
    Extends world { world with metadata } :=
  ⟨List.prefix_rfl, h.nextVersion.ge, fun _ _ habsent => by simpa only [h.versions] using habsent⟩

theorem of_creates
    {reused : List PublicationId} (h : Creates world.metadata publication info metadata) :
    Extends world
      { metadata, reused, created := world.created ++ [(publication.operationId, info)] } := by
  refine ⟨List.prefix_append _ _, ?_, ?_⟩
  · simp only [h.nextVersion]
    exact Nat.le_succ _
  · intro id hid habsent
    have hne : id ≠ info.id := by
      rintro rfl
      simp only [h.id_eq] at hid
      exact Nat.lt_irrefl _ hid
    simpa only [contains, h.versions, get?_insert_of_ne _ _ hne] using habsent

theorem of_deletes {nowMs : ℕ} {deleted : VersionId}
    (h : Deletes nowMs world.metadata deleted metadata) :
    Extends world { world with metadata } := by
  refine ⟨List.prefix_rfl, h.nextVersion.ge, ?_⟩
  intro id _ habsent
  simp only [contains, h.versions, get?_erase]
  split_ifs
  · rfl
  · exact habsent

end Extends

/-- Any task may be dropped after any of its calls. -/
def timeline : Discipline VersionedWorld where
  inv := Consistent
  mono := Extends
  rely _ := Extends
  fresh _ _ := True
  cancels := True
  mono_refl := Extends.refl
  mono_trans := Extends.trans
  rely_refl _ := Extends.refl
  rely_trans := Extends.trans
  fresh_stable _ _ := trivial

/-! ## Provider calls -/

section Calls

variable {i : ℕ} {world : VersionedWorld} {α : Type} {next : VersionedWorld}

theorem move_of (hconsistent : Consistent next) (hextends : Extends world next) :
    timeline.Move i world next :=
  ⟨hconsistent, hextends, fun _ _ => hextends⟩

theorem wp_provider {f : Reading → MetadataState → Result (α × MetadataState)}
    (hf : ∀ reading state a next, f reading state = .ok (a, next) →
      SameTimeline state next ∨ ∃ id, Deletes reading.nowMs state id next) :
    timeline.wp i (provider f) (fun _ _ => True) (fun _ => True) world := by
  refine wp_atomic (fun t _ hinv reading => ?_) fun _ _ _ => trivial
  split
  · rename_i a metadata hok
    refine ⟨?_, trivial⟩
    rcases hf reading t.metadata a metadata hok with hsame | ⟨id, hdeletes⟩
    · exact move_of (.of_sameTimeline hinv hsame) (.of_sameTimeline hsame)
    · exact move_of (.delete hinv hdeletes) (.of_deletes hdeletes)
  · exact ⟨.refl hinv, trivial⟩

theorem wp_query {f : MetadataState → Result α} {Q : Except FsError α → VersionedWorld → Prop}
    (hf : ∀ t, Extends world t → Consistent t → Q (f t.metadata) t) :
    timeline.wp i (query f) Q (fun _ => True) world :=
  wp_atomic (fun t hrely hinv _ => ⟨.refl hinv, hf t hrely hinv⟩)
    (fun _ _ _ => trivial)

theorem wp_acquireWriter {owner : String} {ttlMs : ℕ} :
    timeline.wp i (acquireWriter owner ttlMs) (fun _ _ => True) (fun _ => True) world :=
  wp_provider fun _ _ _ _ h => .inl (acquireWriter_timeline h)

variable {lease : WriterLease}

theorem wp_releaseWriter :
    timeline.wp i (releaseWriter lease) (fun _ _ => True) (fun _ => True) world :=
  wp_provider fun _ _ _ _ h => .inl (releaseWriter_timeline h)

theorem wp_deleteVersion {id : VersionId} :
    timeline.wp i (deleteVersion lease id) (fun _ _ => True) (fun _ => True) world :=
  wp_provider fun _ _ _ _ h => .inr ⟨id, deleteVersion_eq_ok h⟩

theorem wp_blocksFlush : timeline.wp i blocksFlush (fun _ _ => True) (fun _ => True) world :=
  wp_atomic (fun _ _ hinv _ => ⟨.refl hinv, trivial⟩) (fun _ _ _ => trivial)

variable {operationId : PublicationId}

theorem findPublication_eq_some (h : Consistent world)
    (hfound : world.metadata.findPublication operationId = .ok (some info)) :
    (operationId, info) ∈ world.created := by
  unfold MetadataState.findPublication at hfound
  split at hfound
  · cases hfound
  · rename_i id hid
    simp only [bind_eq_ok, okOr_eq_ok, pure_eq_ok, Option.some.injEq] at hfound
    obtain ⟨_, hversion, -, -, rfl⟩ := hfound
    obtain ⟨_, hother, hmem⟩ := h.committed operationId id hid
    rw [hversion] at hother
    cases hother
    exact hmem

/-- The record has the version that a lookup found. -/
def Found (operationId : PublicationId) (result : Except FsError (Option VersionInfo))
    (world : VersionedWorld) : Prop :=
  ∀ info, result = .ok (some info) → (operationId, info) ∈ world.created

theorem wp_findPublication :
    timeline.wp i (findPublication operationId) (Found operationId) (fun _ => True) world :=
  wp_query fun _ _ hinv _ hfound => findPublication_eq_some hinv hfound

/-- The version of a successful call is recorded under the identity and has its payload. -/
def Committed (operationId : PublicationId) (accepts : VersionInfo → Prop)
    (result : Except FsError VersionInfo) (world : VersionedWorld) : Prop :=
  ∀ info, result = .ok info → (operationId, info) ∈ world.created ∧ accepts info

theorem Committed.mono {accepts : VersionInfo → Prop} {result : Except FsError VersionInfo}
    (h : Committed operationId accepts result world) (hextends : Extends world next) :
    Committed operationId accepts result next :=
  fun info hok => ⟨hextends.mem_created (h info hok).1, (h info hok).2⟩

theorem wp_publishVersion : timeline.wp i (publishVersion lease publication)
      (Committed publication.operationId fun info => publication.matchesCommitted info = true)
      (fun _ => True) world := by
  refine wp_atomic (fun t _ hinv reading => ?_) fun _ _ _ => trivial
  have hinv : Consistent t := hinv
  -- The record of reused identities has no part in the other facts.
  have hreused : ∀ reused, (reused = [] → t.reused = []) →
      Consistent { t with reused } ∧ Extends t { t with reused } := by
    intro reused himp
    refine ⟨?_, List.prefix_rfl, Nat.le_refl _, fun _ _ habsent => habsent⟩
    exact { hinv with once := fun hempty => hinv.once (himp hempty) }
  dsimp only
  split
  · rename_i info metadata hok
    rcases publishVersion_eq_ok hok with ⟨id, hid, hinfo, hmatches, rfl⟩ | ⟨hnone, hcreates⟩
    · obtain ⟨hinfoId, -⟩ := hinv.stored id info hinfo
      obtain ⟨_, hother, hmem⟩ := hinv.committed _ _ hid
      rw [hinfo] at hother
      cases hother
      have hcontains : t.metadata.versions.contains info.id = true := by
        simp [contains, hinfoId, hinfo]
      simp only [hcontains, if_true]
      obtain ⟨hconsistent, hextends⟩ := hreused
        (if t.retired publication.operationId then t.reused ++ [publication.operationId]
          else t.reused) (by split_ifs <;> simp)
      refine ⟨move_of hconsistent hextends, ?_⟩
      intro result hresult
      cases hresult
      exact ⟨hmem, hmatches⟩
    · have hsequence : info.id.sequence = t.metadata.nextVersion := by rw [hcreates.id_eq]
      simp only [hinv.contains_fresh hsequence]
      refine ⟨move_of (hinv.create hcreates hnone ?_) (.of_creates hcreates), ?_⟩
      · split_ifs with hretired
        · simp
        · intro hempty
          exact ⟨hempty, by simpa using hretired⟩
      · intro result hresult
        cases hresult
        exact ⟨by simp, hcreates.same_payload⟩
  · obtain ⟨hconsistent, hextends⟩ := hreused
      (if t.retired publication.operationId then t.reused ++ [publication.operationId]
        else t.reused) (by split_ifs <;> simp)
    exact ⟨move_of hconsistent hextends, fun _ hfalse => by cases hfalse⟩

end Calls

/-! ## Coordinator calls -/

section Coordinator

variable {i : ℕ} {world : VersionedWorld} {options : VersionedOptions}
  {operationId : PublicationId} {accepts : VersionInfo → Prop}

theorem Committed.error {e : FsError} : Committed operationId accepts (.error e) world :=
  nofun

theorem Committed.imp {accepts' : VersionInfo → Prop} {result : Except FsError VersionInfo}
    (h : Committed operationId accepts result world) (himp : ∀ info, accepts info → accepts' info) :
    Committed operationId accepts' result world :=
  fun info hok => ⟨(h info hok).1, himp info (h info hok).2⟩

variable {α : Type} {Q : Except FsError α → VersionedWorld → Prop}

theorem wp_extends {p : Task α}
    (h : timeline.wp i p Q (fun _ => True) world) :
    timeline.wp i p (fun result t => Q result t ∧ Extends world t) (fun _ => True) world :=
  wp_frame (P := Extends world) (fun hrely _ hP => .trans hP hrely)
    (fun hmove hP => .trans hP hmove.mono) h (.refl world)

variable {f : α → Task VersionInfo}

/-- A failure commits nothing, so only what follows a result is left to show. -/
theorem wp_then {p : Task α} (h : timeline.wp i p Q (fun _ => True) world)
    (hok : ∀ a t, Q (.ok a) t →
      timeline.wp i (f a) (Committed operationId accepts) (fun _ => True) t) :
    timeline.wp i (p >>= f) (Committed operationId accepts) (fun _ => True) world :=
  wp_bind h hok fun _ _ _ => .error

theorem wp_read {read : MetadataState → Result α}
    (hok : ∀ a t, timeline.wp i (f a) (Committed operationId accepts) (fun _ => True) t) :
    timeline.wp i (query read >>= f) (Committed operationId accepts) (fun _ => True) world :=
  wp_then (wp_query (Q := fun _ _ => True) fun _ _ _ => trivial) fun a t _ => hok a t

theorem wp_check {result : Result α}
    (hok : ∀ a, timeline.wp i (f a) (Committed operationId accepts) (fun _ => True) world) :
    timeline.wp i ((liftM result : Task α) >>= f) (Committed operationId accepts)
      (fun _ => True) world :=
  wp_lift_bind (fun a _ => hok a) fun _ _ => .error

variable {lease : WriterLease}

theorem wp_finishLease {result : Result α}
    (h : ∀ t, Extends world t → Q result t) (herror : ∀ e t, Q (.error e) t) :
    timeline.wp i (finishLease lease result) Q (fun _ => True) world := by
  refine wp_attempt_bind (wp_extends wp_releaseWriter) ?_
  rintro _ t ⟨-, hextends⟩
  cases result with
  | error e => exact wp_fail.mpr (herror e t)
  | ok =>
    exact wp_lift_bind (fun _ _ => wp_pure.mpr (h t hextends))
      fun e _ => herror e t

theorem wp_finishLease_committed {result : Result VersionInfo}
    (h : Committed operationId accepts result world) :
    timeline.wp i (finishLease lease result) (Committed operationId accepts) (fun _ => True)
      world :=
  wp_finishLease (fun _ hextends => h.mono hextends) (fun _ _ => .error)

variable {publication : VersionPublication}

theorem wp_publishWithLease : timeline.wp i (publishWithLease lease publication)
      (Committed publication.operationId fun info => publication.matchesCommitted info = true)
      (fun _ => True) world := by
  refine wp_read fun volume t => ?_
  refine wp_check fun _ => ?_
  exact wp_then wp_blocksFlush fun _ _ _ => wp_publishVersion

def IsSnapshot (options : VersionedOptions) (info : VersionInfo) : Prop :=
  info.kind = .snapshot ∧ info.blockStoreId = options.blockStoreId

variable {info : VersionInfo} {revision : ℕ} {head : Option VersionHead}

theorem isSnapshot_of_capture {ns : Namespace}
    (h : (options.capture operationId revision ns head).matchesCommitted info = true) :
    IsSnapshot options info := by
  obtain ⟨-, -, -, hblocks, hkind, -, -⟩ := matchesCommitted_iff.mp h
  exact ⟨hkind.symm, hblocks.symm⟩

theorem wp_snapshotWithLease : timeline.wp i (options.snapshotWithLease lease operationId)
      (Committed operationId (IsSnapshot options)) (fun _ => True) world := by
  refine wp_read fun loaded t => ?_
  refine wp_check fun _ => ?_
  refine wp_check fun ns => ?_
  refine wp_read fun head t => ?_
  exact wp_mono wp_publishWithLease
    (fun _ _ hcommitted => hcommitted.imp fun _ => isSnapshot_of_capture) fun _ h => h

variable {existing : VersionInfo}

theorem committed_sameSnapshot (h : (operationId, existing) ∈ world.created) :
    Committed operationId (IsSnapshot options) (options.sameSnapshot existing) world := by
  intro info hok
  simp only [sameSnapshot, bind_eq_ok, failIf_eq_ok,
    pure_eq_ok, not_or, not_not] at hok
  obtain ⟨-, hsame, rfl⟩ := hok
  exact ⟨h, hsame⟩

theorem wp_snapshotUnderLease : timeline.wp i (options.snapshotUnderLease lease operationId)
      (Committed operationId (IsSnapshot options)) (fun _ => True) world := by
  refine wp_then wp_findPublication fun found t hfound => ?_
  cases found with
  | some existing => exact wp_lift.mpr (committed_sameSnapshot (hfound existing rfl))
  | none => exact wp_snapshotWithLease

theorem wp_snapshotWithPublicationId : timeline.wp i (options.snapshotWithPublicationId operationId)
      (Committed operationId (IsSnapshot options)) (fun _ => True) world := by
  refine wp_then wp_findPublication fun found t hfound => ?_
  cases found with
  | some existing => exact wp_lift.mpr (committed_sameSnapshot (hfound existing rfl))
  | none =>
    refine wp_then wp_acquireWriter fun lease _ _ => ?_
    exact wp_attempt_bind wp_snapshotUnderLease
      fun _ _ hcommitted => wp_finishLease_committed hcommitted

/-- The payload of the publication is that of the version, up to the kind under which
older releases committed namespace publications. -/
def SamePayload (publication : VersionPublication) (info : VersionInfo) : Prop :=
  publication.matchesCommitted info = true ∨
    publication.kind = .namespacePublication ∧ VersionedOptions.legacyMatch publication info = true

/-- A reconciled version is recorded under the identity and has the payload. -/
def Reconciled (publication : VersionPublication)
    (result : Except FsError (Option VersionInfo)) (world : VersionedWorld) : Prop :=
  ∀ info, result = .ok (some info) →
    (publication.operationId, info) ∈ world.created ∧ SamePayload publication info

theorem wp_reconcileCommitted :
    timeline.wp i (reconcileCommitted publication) (Reconciled publication)
      (fun _ => True) world := by
  refine wp_query fun t _ hinv info hok => ?_
  simp only [MetadataState.reconcilePublication, bind_eq_ok] at hok
  obtain ⟨-, -, found, hfound, hok⟩ := hok
  cases found with
  | none => cases hok
  | some =>
    simp only [bind_eq_ok, failIf_eq_ok, pure_eq_ok, Option.some.injEq] at hok
    obtain ⟨-, hmatches, rfl⟩ := hok
    exact ⟨findPublication_eq_some hinv hfound, .inl (by simpa using hmatches)⟩

theorem wp_reconcilePublication :
    timeline.wp i (reconcilePublication publication) (Reconciled publication)
      (fun _ => True) world := by
  unfold VersionedOptions.reconcilePublication
  split_ifs with hkind
  · refine wp_bind wp_findPublication (fun found t hfound => ?_)
      fun _ _ _ info hfalse => by cases hfalse
    cases found with
    | none => exact wp_reconcileCommitted
    | some existing =>
      dsimp only
      split_ifs with hlegacy
      · rw [wp_pure]
        intro info hinfo
        cases hinfo
        exact ⟨hfound existing rfl, .inr ⟨hkind, hlegacy⟩⟩
      · exact wp_reconcileCommitted
  · exact wp_reconcileCommitted

theorem wp_publishPublication : timeline.wp i (options.publishPublication publication)
      (Committed publication.operationId (SamePayload publication)) (fun _ => True) world := by
  refine wp_check fun _ => ?_
  refine wp_check fun _ => ?_
  refine wp_read fun volume t => ?_
  refine wp_check fun _ => ?_
  refine wp_then wp_reconcilePublication fun found t hfound => ?_
  cases found with
  | some existing =>
    rw [wp_pure]
    intro info hinfo
    cases hinfo
    exact hfound existing rfl
  | none =>
    refine wp_then wp_blocksFlush fun _ _ _ => ?_
    refine wp_then wp_acquireWriter fun lease _ _ => ?_
    exact wp_attempt_bind wp_publishWithLease
      fun _ _ hcommitted => wp_finishLease_committed (hcommitted.imp fun _ => .inl)

def IsRestore (options : VersionedOptions) (id : VersionId) (info : VersionInfo) : Prop :=
  info.kind = .restore ∧ info.restoredFrom = some id ∧ info.blockStoreId = options.blockStoreId

theorem isRestore_of_restoration {selected : VersionInfo}
    (h : SamePayload (options.restoration operationId revision selected head) info) :
    IsRestore options selected.id info := by
  rcases h with h | ⟨hkind, -⟩
  · obtain ⟨-, hsource, -, hblocks, hkind, -, -⟩ := matchesCommitted_iff.mp h
    exact ⟨hkind.symm, hsource.symm, hblocks.symm⟩
  · cases hkind

variable {id : VersionId}

theorem committed_sameRestore (h : (operationId, existing) ∈ world.created) :
    Committed operationId (IsRestore options id) (options.sameRestore id existing) world := by
  intro info hok
  simp only [sameRestore, bind_eq_ok, failIf_eq_ok,
    pure_eq_ok, not_or, not_not] at hok
  obtain ⟨-, hsame, rfl⟩ := hok
  exact ⟨h, hsame⟩

theorem id_of_loadVersion (h : Consistent world)
    (hload : world.metadata.loadVersion id = .ok info) : info.id = id := by
  simp only [loadVersion, bind_eq_ok, okOr_eq_ok, pure_eq_ok] at hload
  obtain ⟨-, -, version, hversion, -, -, rfl⟩ := hload
  exact (h.stored id version hversion).1

theorem wp_restoreWithPublicationId :
    timeline.wp i (options.restoreWithPublicationId id operationId)
      (Committed operationId (IsRestore options id)) (fun _ => True) world := by
  refine wp_then wp_findPublication fun found t hfound => ?_
  cases found with
  | some existing => exact wp_lift.mpr (committed_sameRestore (hfound existing rfl))
  | none =>
    refine wp_then (wp_query (Q := fun result _ => ∀ info, result = .ok info → info.id = id)
        fun _ _ hinv _ hload => id_of_loadVersion hinv hload)
      fun selected t hselected => ?_
    refine wp_check fun _ => ?_
    refine wp_read fun loaded t => ?_
    refine wp_check fun _ => ?_
    refine wp_read fun head t => ?_
    refine wp_mono wp_publishPublication (fun _ _ hcommitted => ?_) fun _ h => h
    rw [← hselected selected rfl]
    exact hcommitted.imp fun _ => isRestore_of_restoration

end Coordinator

/-! ## Requests -/

def Request.accepts : Request → VersionInfo → Prop
  | .publishVersion _ publication, info => publication.matchesCommitted info = true
  | .snapshot options _, info => IsSnapshot options info
  | .reconcile publication, info => SamePayload publication info
  | .publishPublication _ publication, info => SamePayload publication info
  | .restore options id _, info => IsRestore options id info
  | _, _ => True

/-- A version that a request returns was created for the identity of the request and
has its payload. -/
def Answered (request : Request) (result : Except FsError Response) (world : VersionedWorld) :
    Prop :=
  ∀ operationId info, request.operationId = some operationId →
    result = .ok (.version info) ∨ result = .ok (.found (some info)) →
    (operationId, info) ∈ world.created ∧ request.accepts info

section Programs

variable {i : ℕ} {world : VersionedWorld} {request : Request}

theorem Answered.error {e : FsError} : Answered request (.error e) world := by
  rintro _ _ _ (h | h) <;> cases h

theorem Answered.of_none {result : Except FsError Response} (h : request.operationId = none) :
    Answered request result world := by
  intro _ _ hsome
  rw [h] at hsome
  cases hsome

variable {operationId : PublicationId}

theorem Answered.version (hid : request.operationId = some operationId)
    (h : Committed operationId request.accepts (.ok info) world) :
    Answered request (.ok (.version info)) world := by
  rintro other found hother (hfound | hfound)
  · rw [hid] at hother
    cases hother
    cases hfound
    exact h info rfl
  · cases hfound

theorem Answered.found {result : Option VersionInfo} (hid : request.operationId = some operationId)
    (h : ∀ info, result = some info → (operationId, info) ∈ world.created ∧ request.accepts info) :
    Answered request (.ok (.found result)) world := by
  rintro other found hother (hfound | hfound)
  · cases hfound
  · rw [hid] at hother
    cases hother
    cases hfound
    exact h found rfl

theorem wp_unrelated {α : Type} {p : Task α} {f : α → Response}
    (h : timeline.wp i p (fun _ _ => True) (fun _ => True) world)
    (hid : request.operationId = none) :
    timeline.wp i (do return f (← p)) (Answered request) (fun _ => True) world :=
  wp_bind h (fun _ _ _ => wp_pure.mpr (.of_none hid)) (fun _ _ _ => .error)

theorem wp_program (request : Request) :
    timeline.wp i request.program (Answered request) (fun _ => True) world := by
  cases request with
  | acquireWriter => exact wp_unrelated wp_acquireWriter rfl
  | renewWriter =>
    exact wp_unrelated (wp_provider fun _ _ _ _ h => .inl (renewWriter_timeline h)) rfl
  | releaseWriter => exact wp_unrelated (f := fun _ => .unit) wp_releaseWriter rfl
  | publish =>
    exact wp_unrelated (wp_provider fun _ _ _ _ h => .inl (publish_timeline h)) rfl
  | publishVersion =>
    exact wp_bind wp_publishVersion
      (fun _ _ h => wp_pure.mpr (.version rfl h)) fun _ _ _ => .error
  | findPublication =>
    refine wp_bind wp_findPublication
      (fun _ _ h => wp_pure.mpr (.found rfl ?_)) fun _ _ _ => .error
    rintro info rfl
    exact ⟨h info rfl, trivial⟩
  | deleteVersion => exact wp_unrelated (f := fun _ => .unit) wp_deleteVersion rfl
  | openViewPin =>
    exact wp_unrelated (wp_provider fun _ _ _ _ h => .inl (openViewPin_timeline h)) rfl
  | renewViewPin =>
    exact wp_unrelated (wp_provider fun _ _ _ _ h => .inl (renewViewPin_timeline h)) rfl
  | closeViewPin =>
    exact wp_unrelated (f := fun _ => .unit)
      (wp_provider fun _ _ _ _ h => .inl (closeViewPin_timeline h)) rfl
  | snapshot =>
    exact wp_bind wp_snapshotWithPublicationId
      (fun _ _ h => wp_pure.mpr (.version rfl h)) fun _ _ _ => .error
  | reconcile =>
    refine wp_bind wp_reconcilePublication
      (fun _ _ h => wp_pure.mpr (.found rfl ?_)) fun _ _ _ => .error
    rintro info rfl
    exact h info rfl
  | publishPublication =>
    exact wp_bind wp_publishPublication
      (fun _ _ h => wp_pure.mpr (.version rfl h)) fun _ _ _ => .error
  | restore =>
    exact wp_bind wp_restoreWithPublicationId
      (fun _ _ h => wp_pure.mpr (.version rfl h)) fun _ _ _ => .error
  | delete =>
    refine wp_unrelated (f := fun _ => .unit) ?_ rfl
    refine wp_bind wp_acquireWriter (fun lease _ _ => ?_) fun _ _ _ => trivial
    exact wp_attempt_bind wp_deleteVersion
      fun _ _ _ => wp_finishLease (fun _ _ => trivial) (fun _ _ => trivial)

end Programs

/-! ## Runs -/

variable (volumeId : VolumeId) (requests : ℕ → Request)

theorem service_sound :
    Discipline.Sound timeline (service requests) fun task => Answered (requests task) where
  stable := by
    intro task result s t hrely _ h operationId info hid hresult
    exact ⟨Extends.mem_created hrely (h operationId info hid hresult).1,
      (h operationId info hid hresult).2⟩
  arrive := fun _ _ _ hinv _ => ⟨.refl hinv, wp_program _⟩
  disturb := fun disturbance => disturbance.elim

theorem startPool_safe :
    Discipline.Safe timeline (fun task => Answered (requests task)) (startPool volumeId) where
  inv := consistent_new volumeId
  task := by
    intro i p hp
    simp [startPool] at hp
  fresh := fun _ _ => trivial

theorem run_safe (schedule : List (Event Reading Unit Empty)) :
    Discipline.Safe timeline (fun task => Answered (requests task))
      ((startPool volumeId).run (service requests) schedule) :=
  ((startPool_safe volumeId requests).run (service_sound requests) schedule fun _ _ _ => trivial).1

theorem run_extends (earlier later : List (Event Reading Unit Empty)) :
    Extends ((startPool volumeId).run (service requests) earlier).shared
      ((startPool volumeId).run (service requests) (earlier ++ later)).shared := by
  have hrun := ((run_safe volumeId requests earlier).run (service_sound requests) later
    fun _ _ _ => trivial).2
  unfold Pool.run at hrun ⊢
  rw [List.foldl_append]
  exact hrun

/-- A publication with a committed identity returns the committed version or is
rejected; it does not need the lease and does not look at the head. -/
theorem Consistent.publishVersion_retry {world : VersionedWorld} (h : Consistent world)
    {operationId : PublicationId}
    (hcreated : (operationId, info) ∈ world.created)
    (hstored : world.metadata.versions.contains info.id = true) (nowMs : ℕ) (lease : WriterLease)
    (hid : publication.operationId = operationId) :
    world.metadata.publishVersion nowMs lease publication =
      if publication.matchesCommitted info then .ok (info, world.metadata)
      else .error (((FsError.new .eexist).withSyscall "publish version").withMessage
        "publication id was reused with a different payload") := by
  have hindexed := h.indexed operationId info hcreated hstored
  have hget := h.get?_of_created hcreated hstored
  have hvalid := h.valid operationId info hcreated
  rw [← hid] at hindexed
  simp only [MetadataState.publishVersion, hindexed, hget, hvalid, Except.okOr, ok_bind]
  cases hmatches : publication.matchesCommitted info <;> rfl

theorem Consistent.findPublication_retry {world : VersionedWorld} (h : Consistent world)
    {operationId : PublicationId} (hcreated : (operationId, info) ∈ world.created)
    (hstored : world.metadata.versions.contains info.id = true) :
    world.metadata.findPublication operationId = .ok (some info) := by
  simp only [MetadataState.findPublication, h.indexed operationId info hcreated hstored,
    h.get?_of_created hcreated hstored, h.valid operationId info hcreated, Except.okOr, ok_bind]
  rfl

/-- What a call has left to do after its first step, and the store then. -/
def firstStep {α : Type} (task : Task α) (reading : Reading) (world : VersionedWorld) :
    Task α × VersionedWorld :=
  match task with
  | .step _ act next _ => (next reading world, act reading world)
  | task => (task, world)

/-- The retry of a coordinator ends with its first step, which changes nothing: its answer is the
committed version, or a rejection if that was not made by the same call. -/
def Retries (world : VersionedWorld) (operationId : PublicationId) (info : VersionInfo) : Prop :=
  (∀ (options : VersionedOptions) reading,
    firstStep (options.snapshotWithPublicationId operationId) reading world =
      (.done (options.sameSnapshot info), world)) ∧
  (∀ (options : VersionedOptions) id reading,
    firstStep (options.restoreWithPublicationId id operationId) reading world =
      (.done (options.sameRestore id info), world)) ∧
  ∀ publication, publication.operationId = operationId →
    publication.validate world.metadata.volumeId = .ok () →
    world.metadata.reconcilePublication publication =
      if publication.matchesCommitted info then .ok (some info)
      else .error (((FsError.new .eexist).withSyscall "reconcile publication").withMessage
        "publication id was reused with a different payload")

theorem Consistent.retries {world : VersionedWorld} (h : Consistent world)
    {operationId : PublicationId} (hcreated : (operationId, info) ∈ world.created)
    (hstored : world.metadata.versions.contains info.id = true) :
    Retries world operationId info := by
  have hfind := h.findPublication_retry hcreated hstored
  refine ⟨fun options reading => ?_, fun options id reading => ?_, ?_⟩
  · change (Async.bind (.done (world.metadata.findPublication operationId)) _, world) = _
    rw [hfind]
    rfl
  · change (Async.bind (.done (world.metadata.findPublication operationId)) _, world) = _
    rw [hfind]
    rfl
  · rintro publication rfl hvalid
    simp only [MetadataState.reconcilePublication, hvalid, hfind, ok_bind]
    cases hmatches : publication.matchesCommitted info <;> rfl

/-- While no identity is published again after its version was deleted: every identity
creates at most one version; a retry of a publication whose version still exists,
at the provider or by a coordinator, returns that version, or is rejected without effect if its
payload differs; every version that a call returns was created for the identity of the call and has its
payload; version identities are never issued twice, and a deleted one never comes
back. -/
theorem publication_creates_one_version (schedule : List (Event Reading Unit Empty))
    (hreused : ((startPool volumeId).run (service requests) schedule).shared.reused = []) :
    let pool := (startPool volumeId).run (service requests) schedule
    (pool.shared.created.map Prod.fst).Nodup ∧
      (∀ operationId info, (operationId, info) ∈ pool.shared.created →
        pool.shared.metadata.versions.contains info.id = true →
        ∀ nowMs lease publication, publication.operationId = operationId →
          pool.shared.metadata.publishVersion nowMs lease publication =
            if publication.matchesCommitted info then .ok (info, pool.shared.metadata)
            else .error (((FsError.new .eexist).withSyscall "publish version").withMessage
              "publication id was reused with a different payload")) ∧
      (∀ operationId info, (operationId, info) ∈ pool.shared.created →
        pool.shared.metadata.versions.contains info.id = true →
        Retries pool.shared operationId info) ∧
      (∀ task result, pool.answer task = some result →
        Answered (requests task) result pool.shared) ∧
      (pool.shared.created.map fun entry => entry.2.id).Nodup ∧
      ∀ operationId info, (operationId, info) ∈ pool.shared.created →
        pool.shared.metadata.versions.contains info.id = false → ∀ later,
          ((startPool volumeId).run (service requests)
            (schedule ++ later)).shared.metadata.versions.contains info.id = false := by
  intro pool
  have hsafe := run_safe volumeId requests schedule
  have hinv : Consistent pool.shared := hsafe.inv
  refine ⟨hinv.once hreused, ?_, fun _ _ => hinv.retries, ?_, hinv.ids, ?_⟩
  · intro operationId info hmem hstored nowMs lease publication hid
    exact hinv.publishVersion_retry hmem hstored nowMs lease hid
  · intro task result hanswer
    exact hsafe.answer hanswer
  · intro operationId info hmem hgone later
    exact (run_extends volumeId requests schedule later).gone info.id
      (hinv.issued operationId info hmem) hgone

/-- A version never changes, and one that was deleted stays away; the index of the identities
has exactly the versions that are stored, each under the identity it was created for. -/
theorem versions_are_immutable (earlier later : List (Event Reading Unit Empty)) :
    let before := ((startPool volumeId).run (service requests) earlier).shared
    let after := ((startPool volumeId).run (service requests) (earlier ++ later)).shared
    (∀ id info, before.metadata.versions.get? id = some info →
      ∀ info', after.metadata.versions.get? id = some info' → info' = info) ∧
    (∀ id : VersionId, id.sequence < before.metadata.nextVersion →
      before.metadata.versions.contains id = false →
      after.metadata.versions.contains id = false) ∧
    ∀ operationId id, after.metadata.operations.get? operationId = some id ↔
      ∃ info, after.metadata.versions.get? id = some info ∧ (operationId, info) ∈ after.created := by
  intro before after
  have hbefore : Consistent before := (run_safe volumeId requests earlier).inv
  have hafter : Consistent after := (run_safe volumeId requests (earlier ++ later)).inv
  have hextends := run_extends volumeId requests earlier later
  refine ⟨fun id info hinfo info' hinfo' => ?_, hextends.gone, fun operationId id => ?_⟩
  · obtain ⟨rfl, _, hmem⟩ := hbefore.stored id info hinfo
    obtain ⟨hid, _, hmem'⟩ := hafter.stored _ info' hinfo'
    exact (Prod.mk.inj
      (List.inj_on_of_nodup_map hafter.ids hmem' (hextends.mem_created hmem) hid)).2
  · refine ⟨hafter.committed operationId id, ?_⟩
    rintro ⟨info, hinfo, hmem⟩
    obtain ⟨rfl, -⟩ := hafter.stored id info hinfo
    exact hafter.indexed operationId info hmem (contains_iff.2 (mem_keys_iff.2 ⟨info, hinfo⟩))

/-! ## Snapshots of an empty filesystem -/

def sampleOptions : VersionedOptions :=
  { owner := "versions", leaseTtlMs := 30000, viewTtlMs := 60000, blockStoreId := "blocks" }

def sampleLease : WriterLease := { owner := "seed", fence := 1, expiresAtMs := 1000 }

/-- The filesystem is published, snapshots `a` and `b` are taken, the version of `a`
is deleted, and `a` is retried. -/
def sampleRequests : ℕ → Request
  | 0 => .acquireWriter "seed" 1000
  | 1 => .publish 0 sampleLease emptyRoot
  | 2 => .releaseWriter sampleLease
  | 3 => .snapshot sampleOptions "a"
  | 4 => .snapshot sampleOptions "b"
  | 5 => .delete sampleOptions ⟨"volume", 1⟩
  | _ => .snapshot sampleOptions "a"

/-- One request after the other, each with all the steps it may need. -/
def inTurn (tasks : ℕ) : List (Event Reading Unit Empty) :=
  (List.range tasks).flatMap fun task =>
    .spawn () :: List.replicate 9 (.run task { nowMs := 0, laterMs := 0, flush := none })

/-- The retry of `a` creates a second version. -/
theorem deleted_publication_creates_again :
    ((startPool "volume").run (service sampleRequests) (inTurn 7)).shared.created.map
      (fun entry => (entry.1, entry.2.id.sequence)) = [("a", 1), ("b", 2), ("a", 3)] := by
  decide +kernel

/-- The version of `a` is deleted, and the snapshot `b` may be retried. -/
theorem publication_creates_one_version_deleted :
    let world := ((startPool "volume").run (service sampleRequests) (inTurn 6)).shared
    (world.created.map Prod.fst).Nodup ∧
      world.metadata.versions.contains ⟨"volume", 1⟩ = false ∧
      ∃ info, ("b", info) ∈ world.created ∧ info.id = ⟨"volume", 2⟩ ∧ Retries world "b" info := by
  intro world
  have hcreated : ("b", (⟨"volume", 2⟩ : VersionId)) ∈
      world.created.map fun entry => (entry.1, entry.2.id) := by decide +kernel
  obtain ⟨⟨_, info⟩, hmem, hentry⟩ := List.mem_map.1 hcreated
  obtain ⟨rfl, hid⟩ := Prod.mk.inj hentry
  have hstored : ((startPool "volume").run (service sampleRequests)
      (inTurn 6)).shared.metadata.versions.contains info.id = true := by
    rw [hid]
    decide +kernel
  obtain ⟨honce, -, hretries, -⟩ :=
    publication_creates_one_version "volume" sampleRequests (inTurn 6) (by decide +kernel)
  exact ⟨honce, by decide +kernel, info, hmem, hid, hretries _ _ hmem hstored⟩

end MountRs.Versioned
