import MountRs.Model.Versioned.View
import MountRs.Verification.Versioned.Memory

/-! # Pins over time

A pin that is live has been live ever since it was issued: only a live pin is renewed,
and a fence is issued once. -/

namespace MountRs.Versioned

open Memory Except BTreeMap MetadataState ViewSetup.StoreCall Nat Moment

def viewName (volumeId : VolumeId) (fence : ℕ) : String := volumeId ++ "-view-" ++ toString fence

theorem viewName_injective {volumeId : VolumeId} {fence other : ℕ}
    (h : viewName volumeId fence = viewName volumeId other) : fence = other := by
  have hrepr : fence.repr = other.repr := by simpa [viewName] using h
  have hdigits : toDigits 10 fence = toDigits 10 other := by
    simpa using congrArg String.toList hrepr
  have hvalue := congrArg (fun digits => ofDigitChars 10 digits 0) hdigits
  simpa [ofDigitChars_toDigits] using hvalue

namespace Moment

variable (moment : Moment)

def entry (id : String) : Option ReadLease := moment.metadata.pins.get? id

/-- An unexpired pin keeps a version. -/
def Live (id : String) (version : VersionId) : Prop :=
  ∃ pin, moment.entry id = some pin ∧ pin.version = version ∧ moment.clockMs < pin.expiresAtMs

/-- A pin is absent or has expired. -/
def Gone (id : String) : Prop :=
  ∀ pin, moment.entry id = some pin → pin.expiresAtMs ≤ moment.clockMs

/-- A version exists, and every attempt to delete it is refused. -/
def Protects (version : VersionId) : Prop :=
  moment.metadata.versions.contains version = true ∧
    ∀ lease, ∃ e, moment.metadata.deleteVersion moment.clockMs lease version = .error e

def Issued (id : String) : Prop :=
  ∃ fence ≤ moment.metadata.nextReadFence, id = viewName moment.metadata.volumeId fence

/-- Pins have names that were issued, and live pins keep versions that exist. -/
structure WellKept : Prop where
  named : ∀ id pin, moment.entry id = some pin → moment.Issued id
  kept : ∀ id pin, moment.entry id = some pin → moment.clockMs < pin.expiresAtMs →
    moment.metadata.versions.contains pin.version = true

variable {moment}

theorem Live.protects {id : String} {version : VersionId} (h : moment.Live id version)
    (hkept : moment.WellKept) : moment.Protects version := by
  obtain ⟨pin, hentry, rfl, hlive⟩ := h
  refine ⟨hkept.kept id pin hentry hlive, fun lease => ?_⟩
  cases hdelete : moment.metadata.deleteVersion moment.clockMs lease pin.version with
  | error e => exact ⟨e, rfl⟩
  | ok =>
    have := (deleteVersion_eq_ok hdelete).unpinned id pin hentry rfl
    omega

theorem gone_of_none {id : String} (h : moment.entry id = none) : moment.Gone id := by
  intro pin hpin
  rw [h] at hpin
  cases hpin

end Moment

/-! ## One moment after another -/

/-- What every call and every tick of the clock keeps. -/
structure Follows (s t : Moment) : Prop where
  wellKept : s.WellKept → t.WellKept
  issued : ∀ {id}, s.Issued id → t.Issued id
  back : ∀ {id version}, s.Issued id → t.Live id version → s.Live id version
  none : ∀ {id}, s.Issued id → s.entry id = none → t.entry id = none

theorem Follows.refl (s : Moment) : Follows s s := ⟨id, id, fun _ h => h, fun _ h => h⟩

variable {s t : Moment}

theorem Follows.trans {u : Moment} (h : Follows s t) (h' : Follows t u) : Follows s u where
  wellKept hs := h'.wellKept (h.wellKept hs)
  issued hid := h'.issued (h.issued hid)
  back hid hlive := h.back hid (h'.back (h.issued hid) hlive)
  none hid hnone := h'.none (h.issued hid) (h.none hid hnone)

theorem Follows.gone (h : Follows s t) {id : String} (hid : s.Issued id) (hs : s.Gone id) :
    t.Gone id := by
  intro pin hpin
  by_contra hlive
  obtain ⟨before, hbefore, _, hbeforeLive⟩ := h.back hid ⟨pin, hpin, rfl, not_le.mp hlive⟩
  exact absurd (hs before hbefore) (not_le.mpr hbeforeLive)

theorem follows_of_pins (hclock : s.clockMs ≤ t.clockMs) (hpins : t.metadata.pins = s.metadata.pins)
    (hfence : t.metadata.nextReadFence = s.metadata.nextReadFence)
    (hvolume : t.metadata.volumeId = s.metadata.volumeId)
    (hversions : ∀ id pin, s.entry id = some pin → s.clockMs < pin.expiresAtMs →
      s.metadata.versions.contains pin.version = true →
      t.metadata.versions.contains pin.version = true) : Follows s t := by
  have hentry : ∀ id, t.entry id = s.entry id := fun id => by simp only [entry, hpins]
  have hissued : ∀ id, t.Issued id ↔ s.Issued id := fun id => by
    simp only [Moment.Issued, hfence, hvolume]
  refine ⟨fun hs => ⟨fun id pin hpin => ?_, fun id pin hpin hlive => ?_⟩, (hissued _).mpr, ?_, ?_⟩
  · rw [hentry] at hpin
    exact (hissued id).mpr (hs.named id pin hpin)
  · rw [hentry] at hpin
    exact hversions id pin hpin (by omega) (hs.kept id pin hpin (by omega))
  · rintro _ _ _ ⟨pin, hpin, hversion, hlive⟩
    rw [hentry] at hpin
    exact ⟨pin, hpin, hversion, by omega⟩
  · intro id _ hnone
    rw [hentry]
    exact hnone

theorem follows_clock (s : Moment) (elapsedMs : ℕ) :
    Follows s { s with clockMs := s.clockMs + elapsedMs } :=
  follows_of_pins (le_add_right _ _) rfl rfl rfl fun _ _ _ _ h => h

variable {next : MetadataState} {lease : WriterLease}
  {state : MetadataState} {nowMs : ℕ} {publication : VersionPublication} {info : VersionInfo}

theorem createVersion_readFence (h : state.createVersion nowMs lease publication = .ok (info, next)) :
    next.nextReadFence = state.nextReadFence := by
  simp only [createVersion, bind_eq_ok, pure_eq_ok, Prod.mk.injEq] at h
  obtain ⟨_, _, _, _, _, _, _, _, _, _, _, _, _, _, _, _, _, _, _, _, _, rfl⟩ := h
  rfl

theorem follows_publishVersion
    (h : s.metadata.publishVersion s.clockMs lease publication = .ok (info, next)) :
    Follows s { s with metadata := next } := by
  unfold MetadataState.publishVersion at h
  split at h
  · simp only [bind_eq_ok, pure_eq_ok, Prod.mk.injEq] at h
    obtain ⟨_, _, _, _, _, _, _, rfl⟩ := h
    exact .refl s
  · have hcreates := createVersion_eq_ok h
    refine follows_of_pins (le_refl _) hcreates.pins (createVersion_readFence h)
      hcreates.volumeId fun id pin _ _ hversion => ?_
    rw [contains_iff] at hversion ⊢
    rw [hcreates.versions]
    exact mem_keys_insert.mpr (.inr hversion)

theorem follows_deleteVersion {id : VersionId} {u : Unit}
    (h : s.metadata.deleteVersion s.clockMs lease id = .ok (u, next)) :
    Follows s { s with metadata := next } := by
  have hdeletes := deleteVersion_eq_ok h
  refine follows_of_pins (le_refl _) hdeletes.pins hdeletes.nextReadFence hdeletes.volumeId
    fun view pin hpin hlive hversion => ?_
  have hne : pin.version ≠ id := by
    intro heq
    have := hdeletes.unpinned view pin hpin heq
    omega
  rw [contains_iff] at hversion ⊢
  rw [hdeletes.versions]
  exact mem_keys_erase.mpr ⟨hne, hversion⟩

theorem follows_store {call : ViewSetup.StoreCall} (h : call.apply s = .ok next) :
    Follows s { s with metadata := next } ∧ next.pins = s.metadata.pins := by
  cases call with
  | acquireWriter =>
    simp only [apply, bind_eq_ok, pure_eq_ok] at h
    obtain ⟨⟨_, _⟩, hcall, rfl⟩ := h
    obtain ⟨_, _, _, rfl⟩ := acquireWriter_eq_ok hcall
    exact ⟨follows_of_pins (le_refl _) rfl rfl rfl fun _ _ _ _ h => h, rfl⟩
  | renewWriter =>
    simp only [apply, bind_eq_ok, pure_eq_ok] at h
    obtain ⟨⟨_, _⟩, hcall, rfl⟩ := h
    obtain ⟨_, _, _, _, _, _, rfl⟩ := renewWriter_eq_ok hcall
    exact ⟨follows_of_pins (le_refl _) rfl rfl rfl fun _ _ _ _ h => h, rfl⟩
  | releaseWriter =>
    simp only [apply, bind_eq_ok, pure_eq_ok] at h
    obtain ⟨⟨_, _⟩, hcall, rfl⟩ := h
    rw [releaseWriter_eq_ok hcall]
    exact ⟨follows_of_pins (le_refl _) rfl rfl rfl fun _ _ _ _ h => h, rfl⟩
  | publish =>
    simp only [apply, bind_eq_ok, pure_eq_ok] at h
    obtain ⟨⟨_, _⟩, hcall, rfl⟩ := h
    obtain ⟨_, _, _, rfl⟩ := publish_eq_ok hcall
    exact ⟨follows_of_pins (le_refl _) rfl rfl rfl fun _ _ _ _ h => h, rfl⟩
  | publishVersion =>
    simp only [apply, bind_eq_ok, pure_eq_ok] at h
    obtain ⟨⟨_, _⟩, hcall, rfl⟩ := h
    refine ⟨follows_publishVersion hcall, ?_⟩
    rcases publishVersion_eq_ok hcall with ⟨_, _, _, _, rfl⟩ | ⟨_, hcreates⟩
    · rfl
    · exact hcreates.pins
  | deleteVersion =>
    simp only [apply, bind_eq_ok, pure_eq_ok] at h
    obtain ⟨⟨_, _⟩, hcall, rfl⟩ := h
    exact ⟨follows_deleteVersion hcall, (deleteVersion_eq_ok hcall).pins⟩

/-! ## Calls for pins -/

variable {request : ReadLeaseRequest} {lease : ReadLease}

theorem follows_renew {renewed : ReadLease}
    (h : s.metadata.renewViewPin s.clockMs lease request = .ok (renewed, next)) :
    Follows s { s with metadata := next } := by
  obtain ⟨hentry, hlive, hrenewed, heq, rfl⟩ := renewViewPin_eq_ok h
  have hversion : renewed.version = lease.version := by rw [heq]
  have hget : ∀ id, entry { s with metadata :=
      { s.metadata with pins := s.metadata.pins.insert lease.viewId renewed } } id =
      if id = lease.viewId then some renewed else s.entry id := fun id => by
    simp only [entry, get?_insert]
  refine ⟨fun hs => ⟨fun id pin hpin => ?_, fun id pin hpin hpinLive => ?_⟩, fun h => h, ?_, ?_⟩
  · rw [hget] at hpin
    split_ifs at hpin with hid
    · exact hs.named id lease (hid ▸ hentry)
    · exact hs.named id pin hpin
  · rw [hget] at hpin
    split_ifs at hpin with hid
    · cases hpin
      rw [hversion]
      exact hs.kept lease.viewId lease hentry hlive
    · exact hs.kept id pin hpin hpinLive
  · rintro _ _ _ ⟨pin, hpin, rfl, hpinLive⟩
    rw [hget] at hpin
    split_ifs at hpin with hid
    · cases hpin
      exact ⟨lease, hid ▸ hentry, hversion.symm, hlive⟩
    · exact ⟨pin, hpin, rfl, hpinLive⟩
  · intro id _ hnone
    rw [hget]
    split_ifs with hid
    · rw [hid, entry, hentry] at hnone
      cases hnone
    · exact hnone

theorem follows_erase (s : Moment) (id : String) (elapsedMs : ℕ) :
    Follows s { metadata := { s.metadata with pins := s.metadata.pins.erase id }
                clockMs := s.clockMs + elapsedMs } := by
  have hget : ∀ other, entry
      { metadata := { s.metadata with pins := s.metadata.pins.erase id }
        clockMs := s.clockMs + elapsedMs } other =
      if other = id then none else s.entry other := fun other => by
    simp only [entry, get?_erase]
  refine ⟨fun hs => ⟨fun other pin hpin => ?_, fun other pin hpin hlive => ?_⟩, fun h => h, ?_, ?_⟩
  · rw [hget] at hpin
    split_ifs at hpin
    exact hs.named other pin hpin
  · rw [hget] at hpin
    split_ifs at hpin
    exact hs.kept other pin hpin (lt_of_le_of_lt (le_add_right _ _) hlive)
  · rintro _ _ _ ⟨pin, hpin, hversion, hlive⟩
    rw [hget] at hpin
    split_ifs at hpin
    exact ⟨pin, hpin, hversion, lt_of_le_of_lt (le_add_right _ _) hlive⟩
  · intro other _ hnone
    rw [hget]
    split_ifs
    · rfl
    · exact hnone

variable {pin : ReadLease}

theorem openViewPin_fresh {id : VersionId}
    (h : s.metadata.openViewPin s.clockMs id request = .ok (pin, next)) :
    ¬ s.Issued pin.viewId := by
  obtain ⟨_, _, _, hname, _⟩ := openViewPin_eq_ok h
  rintro ⟨_, hfence, hissued⟩
  have := viewName_injective (hname.symm.trans hissued)
  omega

theorem follows_open {id : VersionId}
    (h : s.metadata.openViewPin s.clockMs id request = .ok (pin, next)) :
    Follows s { s with metadata := next } := by
  have hfresh := openViewPin_fresh h
  obtain ⟨hversion, hlive, rfl, hname, rfl⟩ := openViewPin_eq_ok h
  have hget : ∀ other, entry { s with metadata := { s.metadata with
      nextReadFence := s.metadata.nextReadFence + 1
      pins := s.metadata.pins.insert pin.viewId pin } } other =
      if other = pin.viewId then some pin else s.entry other := fun other => by
    simp only [entry, get?_insert]
  refine ⟨fun hs => ⟨fun other p hp => ?_, fun other p hp hplive => ?_⟩, ?_, ?_, ?_⟩
  · rw [hget] at hp
    split_ifs at hp with hid
    · exact ⟨s.metadata.nextReadFence + 1, le_refl _, hid.trans hname⟩
    · obtain ⟨fence, hfence, hissued⟩ := hs.named other p hp
      exact ⟨fence, le_succ_of_le hfence, hissued⟩
  · rw [hget] at hp
    split_ifs at hp with hid
    · cases hp
      exact hversion
    · exact hs.kept other p hp hplive
  · rintro _ ⟨fence, hfence, hissued⟩
    exact ⟨fence, le_succ_of_le hfence, hissued⟩
  · rintro _ _ hother ⟨p, hp, hpversion, hplive⟩
    rw [hget] at hp
    split_ifs at hp with hid
    · exact absurd (hid ▸ hother) hfresh
    · exact ⟨p, hp, hpversion, hplive⟩
  · intro other hother hnone
    rw [hget]
    split_ifs with hid
    · exact absurd (hid ▸ hother) hfresh
    · exact hnone

theorem closeViewPin_error {laterMs : ℕ} {e : FsError}
    (h : state.closeViewPin nowMs laterMs lease = .error e) :
    ∃ current, state.pins.get? lease.viewId = some current ∧
      (current.expiresAtMs ≤ laterMs ∨ current ≠ lease) := by
  unfold MetadataState.closeViewPin at h
  split at h
  · cases h
  · rename_i current hcurrent
    refine ⟨current, hcurrent, ?_⟩
    by_contra hboth
    simp only [not_or, not_le, not_not] at hboth
    obtain ⟨hlive, rfl⟩ := hboth
    split_ifs at h with hexact
    · cases h
    · simp [validateReadLease, Except.failIf, not_le.mpr hlive] at h

end MountRs.Versioned
