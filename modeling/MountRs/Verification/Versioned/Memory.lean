import MountRs.Model.Versioned.Memory

/-! # What the calls of the memory provider do

One lemma for each call says what a success changes; a failed call changes nothing. -/

namespace MountRs.Memory.MetadataState

open Except

variable {state next : MetadataState} {nowMs : ℕ}

/-! ## Leases and the current namespace -/

variable {lease : WriterLease} {u : Unit}

theorem validateLease_eq_ok (h : validateLease state lease nowMs = .ok u) :
    ∃ current, state.lease = some current ∧ nowMs < current.expiresAtMs ∧
      toPublicLease current = lease := by
  simp only [validateLease, bind_eq_ok, failIf_eq_ok, okOr_eq_ok, not_or, not_not, not_le] at h
  obtain ⟨current, hcurrent, -, hlive, howner, hfence, hexpiry⟩ := h
  refine ⟨current, hcurrent, hlive, ?_⟩
  cases lease
  simp_all [toPublicLease]

variable {ttlMs : ℕ} {owner : String}

theorem acquireWriter_eq_ok (h : state.acquireWriter nowMs owner ttlMs = .ok (lease, next)) :
    ∃ granted : LeaseState, granted.fence = state.lastFence + 1 ∧ lease = toPublicLease granted ∧
      next = { state with lastFence := state.lastFence + 1, lease := some granted } := by
  simp only [acquireWriter, bind_eq_ok, pure_eq_ok, okOr_eq_ok,
    checkedAdd_eq_some, Prod.mk.injEq] at h
  obtain ⟨-, -, _, -, _, -, -, -, -, ⟨-, rfl⟩, rfl, rfl⟩ := h
  exact ⟨_, rfl, rfl, rfl⟩

variable {renewed : WriterLease}

theorem renewWriter_eq_ok (h : state.renewWriter nowMs lease ttlMs = .ok (renewed, next)) :
    ∃ current granted : LeaseState, state.lease = some current ∧ toPublicLease current = lease ∧
      granted.fence = current.fence ∧ renewed = toPublicLease granted ∧
      next = { state with lease := some granted } := by
  simp only [renewWriter, bind_eq_ok, pure_eq_ok, Prod.mk.injEq] at h
  obtain ⟨-, -, expiresAtMs, -, _, hvalid, rfl, rfl⟩ := h
  obtain ⟨current, hcurrent, -, rfl⟩ := validateLease_eq_ok hvalid
  exact ⟨current, ⟨current.owner, current.fence, expiresAtMs⟩, hcurrent, rfl, rfl, rfl, rfl⟩

theorem releaseWriter_eq_ok (h : state.releaseWriter nowMs lease = .ok (u, next)) :
    next = { state with lease := none } := by
  simp only [releaseWriter, bind_eq_ok, pure_eq_ok, Prod.mk.injEq] at h
  obtain ⟨-, -, -, rfl⟩ := h
  rfl

variable {expectedRevision revision : ℕ} {ns : Namespace}

theorem publish_eq_ok (h : state.publish nowMs expectedRevision lease ns = .ok (revision, next)) :
    (∃ current, state.lease = some current ∧ toPublicLease current = lease) ∧
      state.revision = expectedRevision ∧ revision = state.revision + 1 ∧
      next = { state with ns := some ns, revision := state.revision + 1 } := by
  simp only [publish, bind_eq_ok, pure_eq_ok, failIf_eq_ok, okOr_eq_ok,
    checkedAdd_eq_some, Prod.mk.injEq, not_not] at h
  obtain ⟨_, hvalid, -, hrevision, -, ⟨-, rfl⟩, rfl, rfl⟩ := h
  obtain ⟨current, hcurrent, -, hlease⟩ := validateLease_eq_ok hvalid
  exact ⟨⟨current, hcurrent, hlease⟩, hrevision, rfl, rfl⟩

/-! ## Calls that leave the versions alone -/

/-- The versions, their publications and the counter of version numbers. -/
structure SameTimeline (state next : MetadataState) : Prop where
  versions : next.versions = state.versions
  operations : next.operations = state.operations
  nextVersion : next.nextVersion = state.nextVersion
  volumeId : next.volumeId = state.volumeId

theorem SameTimeline.refl (state : MetadataState) : SameTimeline state state := ⟨rfl, rfl, rfl, rfl⟩

theorem acquireWriter_timeline (h : state.acquireWriter nowMs owner ttlMs = .ok (lease, next)) :
    SameTimeline state next := by
  simp only [acquireWriter, bind_eq_ok, pure_eq_ok, Prod.mk.injEq] at h
  obtain ⟨-, -, -, -, -, -, -, -, -, -, -, rfl⟩ := h
  exact ⟨rfl, rfl, rfl, rfl⟩

theorem renewWriter_timeline (h : state.renewWriter nowMs lease ttlMs = .ok (renewed, next)) :
    SameTimeline state next := by
  simp only [renewWriter, bind_eq_ok, pure_eq_ok, Prod.mk.injEq] at h
  obtain ⟨-, -, -, -, -, -, -, rfl⟩ := h
  exact ⟨rfl, rfl, rfl, rfl⟩

theorem releaseWriter_timeline (h : state.releaseWriter nowMs lease = .ok (u, next)) :
    SameTimeline state next := by
  simp only [releaseWriter, bind_eq_ok, pure_eq_ok, Prod.mk.injEq] at h
  obtain ⟨-, -, -, rfl⟩ := h
  exact ⟨rfl, rfl, rfl, rfl⟩

theorem publish_timeline (h : state.publish nowMs expectedRevision lease ns = .ok (revision, next)) :
    SameTimeline state next := by
  simp only [publish, bind_eq_ok, pure_eq_ok, Prod.mk.injEq] at h
  obtain ⟨-, -, -, -, -, -, -, rfl⟩ := h
  exact ⟨rfl, rfl, rfl, rfl⟩

variable {request : ReadLeaseRequest} {pin : ReadLease}

theorem openViewPin_eq_ok {id : VersionId}
    (h : state.openViewPin nowMs id request = .ok (pin, next)) :
    state.versions.contains id = true ∧ nowMs < pin.expiresAtMs ∧ pin.version = id ∧
      pin.viewId = state.volumeId ++ "-view-" ++ toString (state.nextReadFence + 1) ∧
      next = { state with
        nextReadFence := state.nextReadFence + 1, pins := state.pins.insert pin.viewId pin } := by
  simp only [openViewPin, ReadLeaseRequest.validate, bind_eq_ok, pure_eq_ok,
    failIf_eq_ok, okOr_eq_ok, checkedAdd_eq_some, Prod.mk.injEq] at h
  obtain ⟨_, ⟨-, -, -, -, -, hpos, rfl⟩, -, hhas, -, ⟨-, rfl⟩, -, ⟨-, rfl⟩, rfl, rfl⟩ := h
  refine ⟨?_, ?_, rfl, rfl, rfl⟩
  · simpa using (not_or.mp hhas).2
  · simpa using Nat.pos_of_ne_zero hpos

variable {lease : ReadLease}

theorem renewViewPin_eq_ok {renewed : ReadLease}
    (h : state.renewViewPin nowMs lease request = .ok (renewed, next)) :
    state.pins.get? lease.viewId = some lease ∧ nowMs < lease.expiresAtMs ∧
      nowMs < renewed.expiresAtMs ∧ renewed = { lease with expiresAtMs := renewed.expiresAtMs } ∧
      next = { state with pins := state.pins.insert lease.viewId renewed } := by
  simp only [renewViewPin, ReadLeaseRequest.validate, validateReadLease, bind_eq_ok,
    pure_eq_ok, failIf_eq_ok, okOr_eq_ok, checkedAdd_eq_some,
    Prod.mk.injEq] at h
  obtain ⟨ttlMs, ⟨-, -, -, -, -, hpos, rfl⟩, current, hcurrent, -, ⟨-, hlive, hsame⟩, -, -, -,
    ⟨-, rfl⟩, rfl, rfl⟩ := h
  simp only [not_or, not_not] at hsame
  obtain ⟨hvolume, hversion, hview, howner, hfence, hexpiry⟩ := hsame
  have heq : current = lease := by
    cases current
    cases lease
    simp_all
  subst heq
  exact ⟨hcurrent, by omega, by simpa using Nat.pos_of_ne_zero hpos, rfl, rfl⟩

variable {laterMs : ℕ}

theorem closeViewPin_eq_ok (h : state.closeViewPin nowMs laterMs lease = .ok (u, next)) :
    (state.pins.get? lease.viewId = none ∧ next = state) ∨
      (state.pins.get? lease.viewId = some lease ∧
        next = { state with pins := state.pins.erase lease.viewId }) := by
  unfold closeViewPin at h
  split at h
  · rename_i hnone
    simp only [pure_eq_ok, Prod.mk.injEq] at h
    exact .inl ⟨hnone, h.2.symm⟩
  · rename_i current hcurrent
    right
    split_ifs at h with hexact
    · simp only [pure_eq_ok, Prod.mk.injEq] at h
      exact ⟨hexact.1 ▸ hcurrent, h.2.symm⟩
    · simp only [validateReadLease, bind_eq_ok, pure_eq_ok, failIf_eq_ok,
        Prod.mk.injEq, not_or, not_not] at h
      obtain ⟨-, ⟨-, -, hvolume, hversion, hview, howner, hfence, hexpiry⟩, -, rfl⟩ := h
      have heq : current = lease := by
        cases current
        cases lease
        simp_all
      exact ⟨heq ▸ hcurrent, rfl⟩

theorem openViewPin_timeline {id : VersionId}
    (h : state.openViewPin nowMs id request = .ok (pin, next)) : SameTimeline state next := by
  obtain ⟨-, -, -, -, rfl⟩ := openViewPin_eq_ok h
  exact ⟨rfl, rfl, rfl, rfl⟩

theorem renewViewPin_timeline {renewed : ReadLease}
    (h : state.renewViewPin nowMs lease request = .ok (renewed, next)) :
    SameTimeline state next := by
  obtain ⟨-, -, -, -, rfl⟩ := renewViewPin_eq_ok h
  exact ⟨rfl, rfl, rfl, rfl⟩

theorem closeViewPin_timeline (h : state.closeViewPin nowMs laterMs lease = .ok (u, next)) :
    SameTimeline state next := by
  rcases closeViewPin_eq_ok h with ⟨-, rfl⟩ | ⟨-, rfl⟩
  · exact .refl _
  · exact ⟨rfl, rfl, rfl, rfl⟩

/-! ## Calls that change the versions -/

variable {publication : VersionPublication} {info : VersionInfo}

theorem matchesCommitted_iff : publication.matchesCommitted info = true ↔
      publication.expectedParent = info.parent ∧
        publication.restoredFrom = info.restoredFrom ∧ publication.forkedFrom = info.forkedFrom ∧
        publication.blockStoreId = info.blockStoreId ∧ publication.kind = info.kind ∧
        publication.durable = info.durable ∧ publication.ns = info.ns :=
  decide_eq_true_iff

structure Creates (state : MetadataState) (publication : VersionPublication) (info : VersionInfo)
    (next : MetadataState) : Prop where
  id_eq : info.id = ⟨state.volumeId, state.nextVersion⟩
  valid : info.validateForVolume state.volumeId = .ok ()
  same_payload : publication.matchesCommitted info = true
  versions : next.versions = state.versions.insert info.id info
  operations : next.operations = state.operations.insert publication.operationId info.id
  nextVersion : next.nextVersion = state.nextVersion + 1
  volumeId : next.volumeId = state.volumeId
  pins : next.pins = state.pins
  head : next.head = some info.id

variable {lease : WriterLease}

structure Publishes (state : MetadataState) (lease : WriterLease) (publication : VersionPublication)
    (next : MetadataState) : Prop where
  current : ∃ current, state.lease = some current ∧ toPublicLease current = lease
  expected : state.revision = publication.expectedRevision
  ns : next.ns = some publication.ns
  revision : next.revision = state.revision + 1
  lease : next.lease = state.lease
  lastFence : next.lastFence = state.lastFence

section

variable (h : state.createVersion nowMs lease publication = .ok (info, next))
include h

theorem createVersion_publishes : Publishes state lease publication next := by
  simp only [createVersion, VersionId.new, bind_eq_ok, pure_eq_ok,
    failIf_eq_ok, okOr_eq_ok, checkedAdd_eq_some, Prod.mk.injEq, not_not] at h
  obtain ⟨-, -, -, -, _, hvalid, -, hrevision, -, -, -, -, -, ⟨-, -, rfl⟩, -, -, -, ⟨-, rfl⟩, -,
    ⟨-, rfl⟩, rfl, rfl⟩ := h
  obtain ⟨current, hcurrent, -, hlease⟩ := validateLease_eq_ok hvalid
  exact ⟨⟨current, hcurrent, hlease⟩, hrevision, rfl, rfl, rfl, rfl⟩

theorem createVersion_eq_ok : Creates state publication info next := by
  simp only [createVersion, VersionId.new, bind_eq_ok, pure_eq_ok,
    failIf_eq_ok, okOr_eq_ok, checkedAdd_eq_some, Prod.mk.injEq] at h
  obtain ⟨_, hpublication, -, hdurable, -, -, -, -, -, -, -, hparent, id, ⟨-, -, rfl⟩, _, hinfo, -,
    ⟨-, rfl⟩, -, ⟨-, rfl⟩, rfl, rfl⟩ := h
  refine ⟨rfl, ?_, ?_, rfl, rfl, rfl, rfl, rfl, rfl⟩
  · simp only [VersionPublication.validate, bind_eq_ok, failIf_eq_ok] at hpublication
    obtain ⟨-, -, -, -, -, -, -, hparents, hsources⟩ := hpublication
    simp only [VersionInfo.validateForVolume, bind_eq_ok, failIf_eq_ok]
    refine ⟨(), by simp [versionOf], (), hinfo, ?_⟩
    rw [forM_eq_ok]
    intro reference hreference
    rw [failIf_eq_ok, not_not]
    rcases List.mem_append.mp hreference with hmem | hmem
    · have hsome := Option.mem_toList.mp hmem
      simp only [versionOf] at hsome
      simpa [hsome] using hparents
    · have hsome := Option.mem_toList.mp hmem
      simp only [versionOf] at hsome
      simpa [hsome] using hsources
  · exact matchesCommitted_iff.mpr ⟨rfl, rfl, rfl, rfl, rfl, by simpa [versionOf] using hdurable, rfl⟩

end

theorem publishVersion_eq_ok (h : state.publishVersion nowMs lease publication = .ok (info, next)) :
    (∃ id, state.operations.get? publication.operationId = some id ∧
        state.versions.get? id = some info ∧ publication.matchesCommitted info = true ∧
        next = state) ∨
      (state.operations.get? publication.operationId = none ∧
        Creates state publication info next) := by
  unfold publishVersion at h
  split at h
  · rename_i id hid
    simp only [bind_eq_ok, pure_eq_ok, failIf_eq_ok, okOr_eq_ok, Prod.mk.injEq] at h
    obtain ⟨_, hexisting, -, -, -, hmatches, rfl, rfl⟩ := h
    exact .inl ⟨id, hid, hexisting, by simpa using hmatches, rfl⟩
  · rename_i hnone
    exact .inr ⟨hnone, createVersion_eq_ok h⟩

theorem publishVersion_lastFence
    (h : state.publishVersion nowMs lease publication = .ok (info, next)) :
    next.lastFence = state.lastFence := by
  unfold publishVersion at h
  split at h
  · simp only [bind_eq_ok, pure_eq_ok, Prod.mk.injEq] at h
    obtain ⟨-, -, -, -, -, -, -, rfl⟩ := h
    rfl
  · exact (createVersion_publishes h).lastFence

/-- A version was deleted that is not the head and that no live pin keeps. -/
structure Deletes (nowMs : ℕ) (state : MetadataState) (id : VersionId) (next : MetadataState) :
    Prop where
  present : state.versions.contains id = true
  unpinned : ∀ view pin, state.pins.get? view = some pin → pin.version = id →
    pin.expiresAtMs ≤ nowMs
  not_head : state.head ≠ some id
  versions : next.versions = state.versions.erase id
  operations : next.operations = state.operations.retain fun _ other => decide (other ≠ id)
  nextVersion : next.nextVersion = state.nextVersion
  volumeId : next.volumeId = state.volumeId
  pins : next.pins = state.pins
  head : next.head = state.head
  nextReadFence : next.nextReadFence = state.nextReadFence
  ns : next.ns = state.ns
  revision : next.revision = state.revision
  lease : next.lease = state.lease
  lastFence : next.lastFence = state.lastFence

theorem deleteVersion_eq_ok {id : VersionId}
    (h : state.deleteVersion nowMs lease id = .ok (u, next)) : Deletes nowMs state id next := by
  simp only [deleteVersion, bind_eq_ok, pure_eq_ok, failIf_eq_ok, Prod.mk.injEq] at h
  obtain ⟨-, -, -, -, -, hhead, -, hpins, -, hpresent, -, rfl⟩ := h
  refine ⟨by simpa using hpresent, ?_, hhead, rfl, rfl, rfl, rfl, rfl, rfl, rfl, rfl, rfl, rfl, rfl⟩
  intro view pin hpin hversion
  have hmem : pin ∈ state.pins.values := BTreeMap.mem_values_iff.mpr ⟨view, hpin⟩
  by_contra hlive
  exact hpins (List.any_eq_true.mpr ⟨pin, hmem, by simpa using ⟨hversion, by omega⟩⟩)

end MountRs.Memory.MetadataState
