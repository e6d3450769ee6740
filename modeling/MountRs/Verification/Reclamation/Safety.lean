import MountRs.Verification.Reclamation.Calls
import MountRs.Verification.Storage.Validation

/-! # No referenced block is deleted

A reconciliation deletes what was neither live nor recent when it began. The committed
namespace loses no block unless another client is granted a lease meanwhile, or a put
relies on that of another coordinator; a version may also lose the blocks that the
namespace no longer has. -/

namespace MountRs.Reclamation

open Memory MetadataState ObjectStore Caller Runs Discipline

variable {setup : Setup} {i c : ℕ} {s t : World}

/-! ## The listing -/

section Sweep

variable {live : BTreeSet BlockId} {nowMs graceMs : ℕ}

def Spared (setup : Setup) (path : String) (world : World) : Prop :=
  world.ledger.overtaken = false → world.ledger.exposed = false → ∀ version info,
    world.metadata.versions.get? version = some info → ∀ id ∈ blockRoots info.ns,
      location setup.scope id ≠ path

/-- What holds while a coordinator goes through the listing. -/
structure Sweeping (setup : Setup) (i c : ℕ) (live : BTreeSet BlockId) (nowMs graceMs : ℕ)
    (world : World) : Prop where
  locked : Locked .reclaiming i c world
  settled : Settled .reclaiming c world
  holder : world.ledger.overtaken = false → world.ledger.holder = c
  roots : ∀ id ∈ blockRoots (world.fs c).ns, id ∈ live
  versions : world.ledger.overtaken = false → world.ledger.exposed = false → ∀ version info,
    world.metadata.versions.get? version = some info → ∀ id ∈ blockRoots info.ns,
      covered setup.scope world.objects live nowMs graceMs id = true

theorem Respects.sweeping (h : Respects i s t) (hs : Locked .reclaiming i c s)
    (hholder : s.ledger.overtaken = false → s.ledger.holder = c)
    (hover : t.ledger.overtaken = false) :
    t.ledger.holder = c ∧ (∀ version info, t.metadata.versions.get? version = some info →
        s.metadata.versions.get? version = some info) ∧
      ∀ path object, s.objects.get? path = some object → t.objects.get? path = some object := by
  obtain ⟨hfence, hobjects⟩ := h.reclaim c hs.gate hs.holding.1 hs.holding.2.1 hover
  have hholder := hholder (h.overtaken hover)
  exact ⟨(h.holder hfence).trans hholder, (h.published c (.inl hs.gate) hholder hfence).2,
    hobjects hholder⟩

variable {objects : Objects}

theorem covered_iff {id : BlockId} : covered setup.scope objects live nowMs graceMs id = true ↔
      (objects.get? (location setup.scope id) = none → id ∈ live) ∧
      ∀ object, objects.get? (location setup.scope id) = some object →
        candidate setup.scope live (location setup.scope id) object.lastModifiedMs nowMs graceMs ≠
          some .delete := by
  unfold covered
  split <;> simp_all

theorem covered_mono {objects' : Objects} {id : BlockId}
    (h : covered setup.scope objects live nowMs graceMs id = true)
    (hkeeps : ∀ object, objects.get? (location setup.scope id) = some object →
      objects'.get? (location setup.scope id) = some object) :
    covered setup.scope objects' live nowMs graceMs id = true := by
  rw [covered_iff] at h ⊢
  cases hold : objects.get? (location setup.scope id) with
  | none =>
    have hlive := h.1 hold
    exact ⟨fun _ => hlive, fun _ _ => candidate_live hlive⟩
  | some object =>
    rw [hkeeps object hold]
    refine ⟨(fun hnone => by cases hnone), fun other hother => ?_⟩
    cases hother
    exact h.2 object hold

theorem Settled.stable (h : Settled .reclaiming c s) (hs : Locked .reclaiming i c s)
    (hrespects : Respects i s t) : Settled .reclaiming c t := by
  obtain ⟨lease, hlease⟩ := h.leased
  have hsame := hs.sameState hrespects
  exact ⟨hsame.failure.trans h.healthy, hsame.pendingNamespace.trans h.drained, lease,
    hlease.stable hs hrespects⟩

theorem Sweeping.stable : Stable i (Sweeping setup i c live nowMs graceMs) := by
  intro s t hrespects h
  refine ⟨.stable _ hrespects h.locked, h.settled.stable h.locked hrespects,
    fun hover => (hrespects.sweeping h.locked h.holder hover).1, ?_, ?_⟩
  · rw [(h.locked.sameState hrespects).ns]
    exact h.roots
  · intro hover hexposed version info hinfo id hid
    obtain ⟨-, hversions, hobjects⟩ := hrespects.sweeping h.locked h.holder hover
    exact covered_mono (h.versions (hrespects.overtaken hover) (hrespects.exposed hexposed) version
      info (hversions version info hinfo) id hid) (hobjects _)

/-- The listed objects that will be deleted are not referenced. -/
def Condemned (setup : Setup) (live : BTreeSet BlockId) (nowMs graceMs : ℕ)
    (page : List (String × ℤ)) (world : World) : Prop :=
  ∀ listed ∈ page, candidate setup.scope live listed.1 listed.2 nowMs graceMs = some .delete →
    Spared setup listed.1 world

variable {page : List (String × ℤ)}

theorem Condemned.stable : Stable i fun world => Sweeping setup i c live nowMs graceMs world ∧
      Condemned setup live nowMs graceMs page world := by
  rintro s t hrespects ⟨hs, hpage⟩
  refine ⟨.stable hrespects hs, ?_⟩
  intro listed hlisted hdelete hover hexposed version info hinfo
  have hversions := (hrespects.sweeping hs.locked hs.holder hover).2.1
  exact hpage listed hlisted hdelete (hrespects.overtaken hover) (hrespects.exposed hexposed)
    version info (hversions version info hinfo)

theorem runs_deleteObject {path : String} {lastModifiedMs : ℤ}
    (hdelete : candidate setup.scope live path lastModifiedMs nowMs graceMs = some .delete)
    (hs : Sweeping setup i c live nowMs graceMs s ∧
      Condemned setup live nowMs graceMs ((path, lastModifiedMs) :: page) s) :
    Runs setup i (fun world => Sweeping setup i c live nowMs graceMs world ∧
        Condemned setup live nowMs graceMs ((path, lastModifiedMs) :: page) world)
      (deleteObject path) (fun _ _ => True) s := by
  refine step Condemned.stable hs fun t _ hinv ht answer => ?_
  obtain ⟨hsweeping, hpage⟩ := ht
  have hspared := hpage _ List.mem_cons_self hdelete
  have hlive : ∀ id ∈ live, location setup.scope id ≠ path := by
    rintro id hid rfl
    exact candidate_live hid hdelete
  obtain ⟨lease, hlease⟩ := hsweeping.settled.leased
  have hmove := hinv.move_delete path hsweeping.locked.gate
    { holder := fun hover => ⟨lease, hlease.cached, hlease.last rfl rfl hover⟩
      healthy := hsweeping.settled.healthy
      drained := hsweeping.settled.drained
      stored := hsweeping.locked.holding.2.2
      live := fun id hid => hlive id (hsweeping.roots id hid)
      versions := hspared }
  have hkeeps : Sweeping setup i c live nowMs graceMs
      { t with objects := t.objects.erase path } := by
    refine ⟨hsweeping.locked.congr ⟨rfl, rfl, rfl, rfl⟩ rfl rfl, ?_, hsweeping.holder,
      hsweeping.roots, ?_⟩
    · exact ⟨hsweeping.settled.healthy, hsweeping.settled.drained, lease, hlease.cached, hlease.last⟩
    · intro hover hexposed version info hinfo id hid
      refine covered_mono (hsweeping.versions hover hexposed version info hinfo id hid) ?_
      intro object hobject
      simp only [BTreeMap.get?_erase_of_ne _ (hspared hover hexposed version info hinfo id hid)]
      exact hobject
  dsimp only
  split
  · exact ⟨.refl hinv, ⟨hsweeping, hpage⟩, fun _ _ => trivial⟩
  · exact ⟨hmove, ⟨hkeeps, hpage⟩, fun _ _ => trivial⟩
  · exact ⟨hmove, ⟨hkeeps, hpage⟩, fun _ _ => trivial⟩

variable {report : BlockReconcileReport}

section

variable (hs : Sweeping setup i c live nowMs graceMs s)
include hs

theorem runs_reconcileObjects (hpage : Condemned setup live nowMs graceMs page s) :
    Runs setup i (Sweeping setup i c live nowMs graceMs)
      ((setup.caller i c).reconcileObjects live nowMs graceMs report page)
      (fun _ _ => True) s := by
  induction page generalizing report s with
  | nil => exact pure hs trivial
  | cons listed page ih =>
    obtain ⟨path, lastModifiedMs⟩ := listed
    have htail : ∀ {world}, Condemned setup live nowMs graceMs ((path, lastModifiedMs) :: page)
        world → Condemned setup live nowMs graceMs page world :=
      fun hworld other hother => hworld other (List.mem_cons_of_mem _ hother)
    refine bind_of (P := fun _ _ => True)
      (J := fun world => Sweeping setup i c live nowMs graceMs world ∧
        Condemned setup live nowMs graceMs ((path, lastModifiedMs) :: page) world)
      ?_ (fun _ ht => ht.1) fun report t ht _ => ih ht.1 (htail ht.2)
    unfold reconcileObject
    split
    · exact pure ⟨hs, hpage⟩ trivial
    · exact pure ⟨hs, hpage⟩ trivial
    · exact pure ⟨hs, hpage⟩ trivial
    · rename_i hdelete
      exact bind (runs_deleteObject hdelete ⟨hs, hpage⟩) fun _ _ ht _ => pure ht trivial

theorem runs_listPage :
    Runs setup i (Sweeping setup i c live nowMs graceMs) listPage (fun page t => ∀ listed,
      page = some listed → Condemned setup live nowMs graceMs listed t) s := by
  refine .query .stable hs fun t _ _ ht answer page hok => ?_
  rintro _ rfl
  split at hok
  · cases hpaths : answer.page with
    | none =>
      rw [hpaths] at hok
      cases hok
    | some =>
      rw [hpaths] at hok
      cases hok
      rintro ⟨_, _⟩ hlisted hdelete hover hexposed version info hinfo id hid rfl
      obtain ⟨_, -, hother⟩ := List.mem_filterMap.mp hlisted
      obtain ⟨object, hobject, heq⟩ := Option.map_eq_some_iff.mp hother
      cases heq
      have hcovered := ht.versions hover hexposed version info hinfo id hid
      exact (covered_iff.mp hcovered).2 object hobject hdelete
  · cases hok
  · cases hok

theorem runs_reconcilePages {fuel : ℕ} : Runs setup i (Sweeping setup i c live nowMs graceMs)
      ((setup.caller i c).reconcilePages live nowMs graceMs fuel report) (fun _ _ => True) s := by
  induction fuel generalizing report s with
  | zero => exact wp_halted
  | succ fuel ih =>
    refine bind (runs_listPage hs) fun page t ht hpage => ?_
    cases page with
    | none => exact pure ht trivial
    | some listed =>
      exact bind (runs_reconcileObjects ht (hpage listed rfl)) fun _ _ hu _ => ih hu

end

end Sweep

theorem mem_liveBlocks {ns : Namespace} {orphans : BTreeMap InodeId NodeMetadata} {id : BlockId}
    (h : id ∈ blockRoots ns) : id ∈ liveBlocks ns orphans :=
  BTreeSet.mem_ofKeys.mpr (List.mem_append_left _ h)

theorem runs_reconcileBlocks {fuel : ℕ} {grace : Duration} (hopened : (s.fs c).opened = true) :
    Runs setup i (fun _ => True) ((setup.caller i c).reconcileBlocks fuel grace)
      (fun _ _ => True) s := by
  refine lift_bind trivial fun _ _ => .withLifecycleWrite hopened fun t ht => ?_
  refine .withGate ht fun t ht => ?_
  refine bind (runs_validateLease ht) fun _ u hu hleased => ?_
  refine bind (runs_drainWriteback hu) fun _ v hv hsettled => ?_
  have hsettled := hsettled hleased.2
  -- The live set has the blocks of the cached namespace.
  refine bind (P := fun live w => Settled .reclaiming c w ∧
    (w.ledger.overtaken = false → w.ledger.holder = c) ∧ ∀ id ∈ blockRoots (w.fs c).ns, id ∈ live)
    (runs_read hv ?_) ?_
  · intro w hrespects hinv hw live hok
    obtain ⟨_, -, rfl⟩ := Except.map_eq_ok.mp hok
    have hsettled' := hsettled.stable hv hrespects
    obtain ⟨lease, hlease⟩ := hsettled'.leased
    exact ⟨hsettled', fun hover => ((hinv.token c lease hlease.cached).2
      (hlease.last rfl rfl hover)).symm, fun id hid => mem_liveBlocks hid⟩
  rintro live w hw ⟨hsettled, hholder, hlive⟩
  refine bind (P := fun nowMs => Sweeping setup i c live nowMs grace.asMillis)
    (step (.stable _) hw fun x hrespects hinv hx answer => ?_) ?_
  · refine ⟨hinv.move_expose _, hx.congr ⟨rfl, rfl, rfl, rfl⟩ rfl rfl, fun nowMs hnow => ?_⟩
    cases hnow
    obtain ⟨lease, hlease⟩ := (hsettled.stable hw hrespects).leased
    have hsettled' := hsettled.stable hw hrespects
    refine ⟨hx.congr ⟨rfl, rfl, rfl, rfl⟩ rfl rfl,
      ⟨hsettled'.healthy, hsettled'.drained, lease, hlease.cached, hlease.last⟩, ?_, ?_, ?_⟩
    · exact fun hover => (hrespects.sweeping hw hholder hover).1
    · intro id hid
      have hid : id ∈ blockRoots (x.fs c).ns := hid
      rw [(hw.sameState hrespects).ns] at hid
      exact hlive id hid
    · intro _ hexposed version info hinfo id hid
      have hcovered := (Bool.or_eq_false_iff.mp hexposed).2
      have hall : versionsCovered setup.scope x live answer.nowMs grace.asMillis = true :=
        (Bool.not_eq_false' ..).mp hcovered
      have hinfo := List.all_eq_true.mp hall info (BTreeMap.mem_values_iff.mpr ⟨version, hinfo⟩)
      exact List.all_eq_true.mp hinfo id hid
  · intro nowMs x hx hsweeping
    exact .imp (weaken (runs_reconcilePages hsweeping) fun _ hy => hy.locked)
      fun _ _ _ => trivial

/-! ## Opening and closing -/

theorem runs_releaseLease {mode : Mode} {refresh : Result Unit} (hs : Locked mode i c s) :
    Runs setup i (Locked mode i c) ((setup.caller i c).releaseLease refresh)
      (fun _ _ => True) s := by
  refine bind (P := fun _ _ => True) (runs_read hs fun _ _ _ _ _ _ => trivial)
    fun lease t ht _ => ?_
  cases lease with
  | none => exact lift ht fun _ _ => trivial
  | some =>
    refine attempt_bind (runs_releaseWriter (.stable mode)
      (fun _ metadata h => h.metadata metadata) ht) (fun _ hu => hu) fun result u hu _ => ?_
    cases result with
    | error e => exact runs_failClosed hu
    | ok =>
      refine bind (P := fun _ _ => True) (runs_modify hu (fun _ => ⟨rfl, rfl, rfl, rfl⟩)
        fun v _ hinv _ => ⟨?_, trivial⟩) fun _ v hv _ => lift hv fun _ _ => trivial
      exact ⟨(fun _ hnone => by cases hnone), hinv.staged c, (fun _ _ hnone => by cases hnone),
        fun _ _ _ hnone => by cases hnone⟩

theorem runs_shutdown (hopened : (s.fs c).opened = true) :
    Runs setup i (fun _ => True) (setup.caller i c).shutdown (fun _ _ => True) s := by
  refine .withLifecycleWrite hopened fun t ht => ?_
  refine .withGate ht fun t ht => ?_
  refine bind (P := fun _ _ => True) (runs_read ht fun _ _ _ _ _ _ => trivial) ?_
  rintro ⟨_, _⟩ _ hu -
  refine bind (P := fun _ _ => True) ?_ fun _ v hv _ => ?_
  · unfold Async.when
    split_ifs
    · exact .imp (runs_drainWriteback hu) fun _ _ _ => trivial
    · exact pure hu trivial
  refine bind (P := fun _ _ => True) ?_ fun refresh w hw _ => ?_
  · refine bind (P := fun _ _ => True) (runs_read hv fun _ _ _ _ _ _ => trivial)
      fun held w hw _ => ?_
    split_ifs
    · have hvalidate : Runs setup _ _ _ _ w := runs_validateLease hw
      exact wp_attempt (wp_mono hvalidate
        (fun _ _ hx => ⟨hx.1, fun _ _ => trivial⟩) fun _ hx => hx)
    · exact pure hw trivial
  refine bind (P := fun _ _ => True) (runs_modify hw (fun _ => ⟨rfl, rfl, rfl, rfl⟩)
    fun x _ hinv _ => ⟨?_, trivial⟩) fun _ x hx _ => runs_releaseLease hx
  have hfits := hinv.fits c
  exact ⟨hfits.token, hfits.staged, hfits.cached, hfits.held⟩

/-- The task is a client of its own. -/
def Unopened (i : ℕ) (world : World) : Prop := (world.fs i).opened = false

theorem Unopened.stable : Stable i (Unopened i) := fun hrespects h => hrespects.unopened h

/-- What a client has loaded is current while the revision is. -/
structure Loaded (revision : ℕ) (ns : Option Namespace) (world : World) : Prop where
  le : revision ≤ world.metadata.revision
  same : world.metadata.revision = revision → world.metadata.ns = ns

variable {revision : ℕ} {ns : Option Namespace}

theorem Loaded.stable (h : Loaded revision ns s) (hrespects : Respects i s t) :
    Loaded revision ns t := by
  have hle := h.le
  have hle' := hrespects.revision
  refine ⟨by omega, fun heq => ?_⟩
  rw [hrespects.ns (by omega)]
  exact h.same (by omega)

/-- A client with its lease; while that is the last one, nobody else publishes. -/
structure Client (i : ℕ) (lease : WriterLease) (revision : ℕ) (ns : Option Namespace)
    (world : World) : Prop where
  unopened : Unopened i world
  owns : Owns i lease world
  loaded : Loaded revision ns world
  current : world.ledger.holder = i → world.metadata.revision = revision

variable {lease : WriterLease}

theorem Client.stable : Stable i (Client i lease revision ns) := by
  intro s t hrespects h
  have hcontrols : Controls i i s := .inr ⟨rfl, h.unopened⟩
  have howns := h.owns.stable hcontrols hrespects
  refine ⟨hrespects.unopened h.unopened, howns, h.loaded.stable hrespects, fun hholder => ?_⟩
  have hfence := howns.last hholder
  have hle := h.owns.le
  have hle' := hrespects.fence
  have heq : t.metadata.lastFence = s.metadata.lastFence := by omega
  have hholder' := (hrespects.holder heq).symm.trans hholder
  rw [(hrespects.published i hcontrols hholder' heq).1]
  exact h.current hholder'

/-- A new lease, until something is loaded under it. -/
structure Granted (i : ℕ) (lease : WriterLease) (world : World) : Prop where
  unopened : Unopened i world
  owns : Owns i lease world

theorem Granted.stable : Stable i (Granted i lease) := fun hrespects h =>
  ⟨hrespects.unopened h.unopened, h.owns.stable (.inr ⟨rfl, h.unopened⟩) hrespects⟩

theorem runs_acquireWriter {ttlMs : ℕ} {owner : String} (hs : Unopened i s) :
    Runs setup i (Unopened i) (acquireWriter i owner ttlMs) (Granted i) s := by
  refine .provider .stable hs fun t _ hinv ht _ lease metadata hok => ?_
  obtain ⟨hmove, hfence⟩ := hinv.move_grant (.inr ⟨rfl, ht⟩) hok
  exact ⟨hmove, ht, ht, hfence.le, fun _ => rfl, fun _ => hfence.symm⟩

theorem runs_metadataLoad (hs : Granted i lease s) : Runs setup i (Granted i lease) metadataLoad
      (fun loaded => Client i lease loaded.revision loaded.ns) s := by
  refine .query .stable hs fun t _ _ ht _ loaded hok => ?_
  split at hok <;> cases hok
  exact ⟨ht.unopened, ht.owns, ⟨Nat.le_refl _, fun _ => rfl⟩, fun _ => rfl⟩

theorem runs_loadNamespace (hs : Granted i lease s) : Runs setup i (Granted i lease) loadNamespace
      (fun loaded => Client i lease loaded.1 (some loaded.2)) s := by
  refine bind (runs_metadataLoad hs) fun loaded t ht hclient => ?_
  refine lift_bind ht fun _ _ => lift_bind ht fun ns hns => pure ht ?_
  rw [← Except.okOr_eq_ok.mp hns]
  exact hclient

theorem runs_openExclusive (hs : Unopened i s) :
    Runs setup i (fun _ => True) (setup.caller i i).openExclusive (fun _ _ => True) s := by
  refine bind_of (runs_acquireWriter hs) (fun _ _ => trivial) fun lease t _ ht => ?_
  refine attempt_bind (runs_loadNamespace ht) (fun _ _ => trivial) fun result u hu hresult => ?_
  rcases result with _ | ⟨revision, ns⟩
  · exact attempt_bind (runs_releaseWriter .stable (fun _ _ h => h) hu.unopened)
      (fun _ _ => trivial) fun _ _ _ _ => fail trivial
  · have hu := hresult _ rfl
    refine step (fun _ _ => trivial) trivial fun v hrespects hinv _ _ =>
      ⟨?_, trivial, fun _ _ => trivial⟩
    have hv := Client.stable hrespects hu
    have hnone := (hinv.unopened i hv.unopened).2.2.2.2
    refine hinv.move_open hv.unopened rfl rfl rfl rfl ⟨?_, ?_, ?_, ?_⟩
    · intro other hother
      cases hother
      exact ⟨hv.owns.le, fun heq => (hv.owns.holder heq).symm⟩
    · intro hfalse
      cases hfalse
    · intro heq _ _ _ _
      have hrevision := hv.current heq.symm
      exact ⟨hrevision.symm, fun _ => hv.loaded.same hrevision⟩
    · intro hover heq _ _ _ _ id hid
      rcases hid with hid | hid
      · exact hinv.committed hover ns (hv.loaded.same (hv.current heq.symm)) id hid
      · exact absurd hid (hnone id)

/-! ## Versions -/

open Versioned

variable {α β : Type}

theorem setMetadata_of_eq {client : ℕ} {metadata : MetadataState}
    (h : metadata.lastFence = s.metadata.lastFence) :
    s.setMetadata client metadata = { s with metadata } := by
  simp [World.setMetadata, h]

theorem versioned_atomic {f : Reading → VersionedWorld → Result α × VersionedWorld} :
    versioned i (Async.atomic f) = Async.atomic fun answer world =>
      ((f answer.reading world.versionedWorld).1,
        world.setMetadata i (f answer.reading world.versionedWorld).2.metadata) :=
  Async.zoom_atomic fun _ => setMetadata_of_eq rfl

theorem versioned_bind {p : Versioned.Task α} {f : α → Versioned.Task β} :
    versioned i (p >>= f) = versioned i p >>= fun a => versioned i (f a) := Async.zoom_bind

theorem versioned_attempt {p : Versioned.Task α} :
    versioned i p.attempt = (versioned i p).attempt := Async.zoom_attempt

variable {K : World → Prop} {P : α → World → Prop}

theorem runs_versioned_query {f : MetadataState → Result α} (hstable : Stable i K) (hK : K s)
    (h : ∀ t, Respects i s t → K t → ∀ a, f t.metadata = .ok a → P a t) :
    Runs setup i K (versioned i (Versioned.query f)) P s := by
  unfold Versioned.query
  rw [versioned_atomic]
  refine step hstable hK fun t hrespects hinv ht answer => ?_
  dsimp only [World.versionedWorld]
  rw [setMetadata_of_eq rfl]
  exact ⟨.refl hinv, ht, h t hrespects ht⟩

/-- A call of the memory provider. -/
theorem runs_versioned_provider {f : Reading → MetadataState → Result (α × MetadataState)}
    (hstable : Stable i K) (hK : K s)
    (h : ∀ t, Respects i s t → Consistent setup t → K t → ∀ reading a metadata,
      f reading t.metadata = .ok (a, metadata) →
      (sharing setup).Move i t (t.setMetadata i metadata) ∧ K (t.setMetadata i metadata) ∧
        P a (t.setMetadata i metadata)) :
    Runs setup i K (versioned i (Versioned.provider f)) P s := by
  unfold Versioned.provider
  rw [versioned_atomic]
  refine step hstable hK fun t hrespects hinv ht answer => ?_
  dsimp only
  split
  · rename_i a metadata hok
    obtain ⟨hmove, hK', hP⟩ := h t hrespects hinv ht _ a metadata hok
    refine ⟨hmove, hK', fun b hb => ?_⟩
    cases hb
    exact hP
  · dsimp only [World.versionedWorld]
    rw [setMetadata_of_eq rfl]
    exact ⟨.refl hinv, ht, fun _ hb => by cases hb⟩

/-- One that neither grants a lease nor publishes. -/
theorem runs_versioned_quiet {f : Reading → MetadataState → Result (α × MetadataState)}
    (hstable : Stable i K) (hmetadata : ∀ t metadata, K t → K { t with metadata }) (hK : K s)
    (hf : ∀ t, Consistent setup t → ∀ reading a metadata,
      f reading t.metadata = .ok (a, metadata) → Consistent.Quiet t.metadata metadata) :
    Runs setup i K (versioned i (Versioned.provider f)) (fun _ _ => True) s := by
  refine runs_versioned_provider hstable hK fun t _ hinv ht reading a metadata hok => ?_
  have hquiet := hf t hinv reading a metadata hok
  rw [setMetadata_of_eq hquiet.lastFence]
  exact ⟨hinv.move_quiet hquiet, hmetadata t metadata ht, trivial⟩

theorem runs_versioned_acquireWriter {ttlMs : ℕ} {owner : String} (hs : Unopened i s) :
    Runs setup i (Unopened i) (versioned i (Versioned.acquireWriter owner ttlMs)) (Granted i) s := by
  refine runs_versioned_provider .stable hs fun t _ hinv ht _ lease metadata hok => ?_
  obtain ⟨hmove, hfence⟩ := hinv.move_grant (.inr ⟨rfl, ht⟩) hok
  obtain ⟨_, _, -, rfl⟩ := acquireWriter_eq_ok hok
  unfold World.setMetadata
  rw [if_pos (Nat.lt_succ_self _)]
  exact ⟨hmove, ht, ht, hfence.le, fun _ => rfl, fun _ => hfence.symm⟩

theorem runs_finishLease {result : Result α} (hs : Unopened i s) :
    Runs setup i (Unopened i) (versioned i (finishLease lease result)) (fun _ _ => True) s := by
  unfold finishLease
  simp only [versioned_bind, versioned_attempt]
  refine attempt_bind (runs_versioned_quiet .stable (fun _ _ h => h) hs
    fun _ _ _ _ _ hok => .releaseWriter hok) (fun _ ht => ht) fun release t ht _ => ?_
  cases result with
  | error e => exact fail ht
  | ok =>
    rw [versioned_bind]
    exact bind (P := fun _ _ => True) (lift ht fun _ _ => trivial)
      fun _ u hu _ => pure hu trivial

variable {options : VersionedOptions} {operationId : PublicationId}

theorem runs_publishVersion {publication : VersionPublication} (hs : Client i lease revision ns s)
    (hrevision : publication.expectedRevision = revision) (hns : ns = some publication.ns) :
    Runs setup i (Unopened i) (versioned i (publishVersion lease publication))
      (fun _ _ => True) s := by
  unfold Versioned.publishVersion
  rw [versioned_atomic]
  refine step .stable hs.unopened fun t hrespects hinv ht answer => ?_
  dsimp only
  split
  · rename_i info metadata hok
    have hclient := Client.stable hrespects hs
    have hfence : metadata.lastFence = t.metadata.lastFence := publishVersion_lastFence hok
    dsimp only
    rw [setMetadata_of_eq hfence]
    refine ⟨hinv.move_publishVersion (.inr ⟨rfl, ht⟩) ht hclient.owns.holder (fun heq => ?_) hok,
      ht, fun _ _ => trivial⟩
    rw [← hns]
    exact hclient.loaded.same (heq.trans hrevision)
  · dsimp only [World.versionedWorld]
    rw [setMetadata_of_eq rfl]
    exact ⟨.refl hinv, ht, fun _ _ => trivial⟩

theorem runs_snapshotWithLease (hs : Granted i lease s) :
    Runs setup i (Unopened i) (versioned i (options.snapshotWithLease lease operationId))
      (fun _ _ => True) s := by
  unfold VersionedOptions.snapshotWithLease VersionedOptions.publishWithLease
  simp only [versioned_bind]
  refine bind_of (J := Granted i lease)
    (P := fun loaded => Client i lease loaded.revision loaded.ns)
    (runs_versioned_query .stable hs fun t _ ht _ hok => ?_) (fun _ ht => ht.unopened)
    fun loaded t _ ht => ?_
  · cases hok
    exact ⟨ht.unopened, ht.owns, ⟨Nat.le_refl _, fun _ => rfl⟩, fun _ => rfl⟩
  have hquery : ∀ {β : Type} {f : MetadataState → Result β} {u : World},
      Client i lease loaded.revision loaded.ns u → Runs setup i
        (Client i lease loaded.revision loaded.ns) (versioned i (Versioned.query f))
        (fun _ _ => True) u :=
    fun hu => runs_versioned_query .stable hu fun _ _ _ _ _ => trivial
  refine lift_bind ht.unopened fun _ _ => lift_bind ht.unopened fun ns hns => ?_
  refine bind_of (hquery ht) (fun _ hu => hu.unopened) fun head u hu _ => ?_
  refine bind_of (hquery hu) (fun _ hv => hv.unopened) fun volume v hv _ => ?_
  refine lift_bind hv.unopened fun _ _ => ?_
  refine bind_of (J := Client i lease loaded.revision loaded.ns) (P := fun _ _ => True) ?_
    (fun _ hw => hw.unopened) fun _ w hw _ =>
    runs_publishVersion hw rfl (Except.okOr_eq_ok.mp hns)
  unfold blocksFlush
  rw [versioned_atomic]
  refine step .stable hv fun w _ hinv hw _ => ?_
  dsimp only [World.versionedWorld]
  rw [setMetadata_of_eq rfl]
  exact ⟨.refl hinv, hw, fun _ _ => trivial⟩

theorem runs_snapshot (hs : Unopened i s) :
    Runs setup i (Unopened i) (versioned i (options.snapshotWithPublicationId operationId))
      (fun _ _ => True) s := by
  have hfind : ∀ {s : World} {K : World → Prop}, Stable i K → K s →
      Runs setup i K (versioned i (findPublication operationId)) (fun _ _ => True) s :=
    fun hstable hK => runs_versioned_query hstable hK fun _ _ _ _ _ => trivial
  unfold VersionedOptions.snapshotWithPublicationId
  rw [versioned_bind]
  refine bind (hfind .stable hs) fun found t ht _ => ?_
  cases found with
  | some => exact lift ht fun _ _ => trivial
  | none =>
    simp only [versioned_bind, versioned_attempt]
    refine bind (runs_versioned_acquireWriter ht) fun lease u _ hu => ?_
    refine attempt_bind (J := Unopened i) (P := fun _ _ => True) ?_ (fun _ hv => hv)
      fun _ v hv _ => runs_finishLease hv
    unfold VersionedOptions.snapshotUnderLease
    rw [versioned_bind]
    refine bind_of (hfind .stable hu) (fun _ hv => hv.unopened) fun found v hv _ => ?_
    cases found with
    | some => exact lift hv.unopened fun _ _ => trivial
    | none => exact runs_snapshotWithLease hv

theorem runs_deleteVersion {id : VersionId} (hs : Unopened i s) :
    Runs setup i (Unopened i) (versioned i (options.delete id)) (fun _ _ => True) s := by
  unfold VersionedOptions.delete
  simp only [versioned_bind, versioned_attempt]
  refine bind (runs_versioned_acquireWriter hs) fun lease t ht _ => ?_
  exact attempt_bind (J := Unopened i) (runs_versioned_quiet .stable (fun _ _ h => h) ht
    fun _ hinv _ _ _ hok => .deleteVersion hinv hok) (fun _ hu => hu)
    fun _ u hu _ => runs_finishLease hu

theorem runs_pins {f : Reading → MetadataState → Result (α × MetadataState)}
    (hf : ∀ reading state a next, f reading state = .ok (a, next) → SameTimeline state next ∧
      next.ns = state.ns ∧ next.revision = state.revision ∧ next.lease = state.lease ∧
      next.lastFence = state.lastFence) :
    Runs setup i (fun _ => True) (versioned i (Versioned.provider f)) (fun _ _ => True) s := by
  refine runs_versioned_quiet (fun _ _ => trivial) (fun _ _ _ => trivial) trivial
    fun t hinv reading a metadata hok => ?_
  obtain ⟨hsame, hns, hrevision, hlease, hfence⟩ := hf reading _ a metadata hok
  exact .pins hinv hsame hns hrevision hlease hfence

/-! ## Every run -/

theorem runs_withOpened {p : Call Unit}
    (h : ∀ t, (t.fs c).opened = true → Runs setup i (fun _ => True) p (fun _ _ => True) t) :
    Runs setup i (fun _ => True) (Setup.withOpened c p) (fun _ _ => True) s := by
  refine wp_bind (wp_await (Q := fun _ t => (t.fs c).opened = true)
    (fun t _ hinv hready _ => ⟨.refl hinv, hready⟩) (fun _ _ _ => trivial))
    (fun _ t ht => h t ht) (fun _ _ _ => ⟨trivial, fun _ _ => trivial⟩)

theorem runs_program (fuel : ℕ) (hs : Unopened i s) :
    Runs setup i (fun _ => True) (setup.program i fuel) (fun _ _ => True) s := by
  unfold Setup.program
  dsimp only
  split
  · exact runs_openExclusive hs
  · exact runs_withOpened fun _ ht => runs_mutate ht
  · exact runs_withOpened fun _ ht => runs_syncfs ht
  · exact runs_withOpened fun _ ht => bind (runs_reconcileBlocks ht) fun _ _ _ _ =>
      pure trivial trivial
  · exact runs_withOpened fun _ ht => runs_shutdown ht
  · rw [versioned_bind]
    exact bind_of (runs_snapshot hs) (fun _ _ => trivial) fun _ _ _ _ => pure trivial trivial
  · exact .imp (weaken (runs_deleteVersion hs) fun _ _ => trivial) fun _ _ _ => trivial
  · rw [versioned_bind]
    refine bind (runs_pins ?_) fun _ _ _ _ => pure trivial trivial
    intro _ state _ next hok
    have hsame := openViewPin_timeline hok
    obtain ⟨-, -, -, -, rfl⟩ := openViewPin_eq_ok hok
    exact ⟨hsame, rfl, rfl, rfl, rfl⟩
  · rw [versioned_bind]
    refine bind (runs_pins ?_) fun _ _ _ _ => pure trivial trivial
    intro _ state _ next hok
    have hsame := renewViewPin_timeline hok
    obtain ⟨-, -, -, -, rfl⟩ := renewViewPin_eq_ok hok
    exact ⟨hsame, rfl, rfl, rfl, rfl⟩
  · refine runs_pins ?_
    intro _ state _ next hok
    have hsame := closeViewPin_timeline hok
    rcases closeViewPin_eq_ok hok with ⟨-, rfl⟩ | ⟨-, rfl⟩
    · exact ⟨hsame, rfl, rfl, rfl, rfl⟩
    · exact ⟨hsame, rfl, rfl, rfl, rfl⟩

theorem service_sound : Discipline.Sound (sharing setup) setup.service (fun _ _ _ => True) where
  stable _ _ _ _ _ _ _ := trivial
  arrive _ fuel _ hinv hfresh :=
    ⟨.refl hinv, wp_mono (runs_program fuel hfresh)
      (fun _ _ _ => trivial) (fun _ _ => trivial)⟩
  disturb disturbance := disturbance.elim

section Runs

variable {volumeId : VolumeId} {ns : Namespace} {objects : Objects}

section

variable (hobjects : ∀ id ∈ blockRoots ns, objects.contains (location setup.scope id) = true)
include hobjects

theorem start_consistent : Consistent setup (World.start volumeId ns objects) where
  lease _ h := by cases h
  token _ _ h := by cases h
  exclusive _ _ := rfl
  unopened _ _ := ⟨rfl, rfl, rfl, rfl, nofun⟩
  staged _ h := by cases h
  cached h := by
    obtain ⟨_, hlease, -⟩ := h.lease
    cases hlease
  held _ h := by
    obtain ⟨_, hlease, -⟩ := h.lease
    cases hlease
  committed _ other hother := by
    cases hother
    exact hobjects
  versions _ _ _ _ h := by cases h

theorem run_consistent (schedule : List (Event Answer ℕ Empty)) :
    Consistent setup ((startPool volumeId ns objects).run setup.service schedule).shared := by
  have hsafe : Discipline.Safe (sharing setup) (fun _ _ _ => True)
      (startPool volumeId ns objects) := by
    refine ⟨start_consistent hobjects, ?_, fun _ _ => rfl⟩
    intro i p hp
    simp [startPool] at hp
  exact (hsafe.run service_sound schedule fun _ _ _ => trivial).1.inv

end

end Runs

/-! ## A file that is overwritten -/

/-- A namespace with one file of one block. -/
def fileNamespace (block : BlockId) : Namespace :=
  { emptyRoot with
    nextInode := 3
    nodes := BTreeMap.ofList [
      (1, { stats :=
              { dev := 1, ino := 1, mode := S_IFDIR ||| 0o755, nlink := 2, uid := 0, gid := 0
                rdev := 0, size := 0, blksize := 4096, blocks := 0, atimeMs := 0, mtimeMs := 0
                ctimeMs := 0, birthtimeMs := 0 }
            data := .directory [⟨"file", 2⟩] }),
      (2, { stats :=
              { dev := 1, ino := 2, mode := S_IFREG ||| 0o644, nlink := 1, uid := 0, gid := 0
                rdev := 0, size := 1, blksize := 4096, blocks := 1, atimeMs := 0, mtimeMs := 0
                ctimeMs := 0, birthtimeMs := 0 }
            data := .file
              { chunker := emptyRoot.defaultChunker
                extents := [⟨0, block, 0, 1⟩] } })] }

/-- Write one byte to the file. -/
def storeFile (byte : UInt8) : Mutation where
  guarded := true
  blocks := [[byte]]
  guarded_of_blocks _ := rfl
  edit stored _ orphans :=
    match stored with
    | [block] => .ok (fileNamespace block, orphans)
    | _ => .error (FsError.new .einval)
  roots_edit := by
    intro stored ns orphans result h id hid
    split at h
    · cases h
      exact .inr hid
    · cases h

def oldBlock : BlockId := "b00000000000000000000000000000000"
def newBlock : BlockId := "b00000000000000000000000000000001"

/-- Two digests are enough for the runs below. -/
def sampleSetup (requests : List Request) : Setup :=
  { requests := fun task => requests.getD task ⟨0, .syncfs⟩
    options := fun fs => { owner := toString fs, leaseTtlMs := 1000, writeback := false }
    scope := "blocks"
    blockStore := fun _ => 0
    blockId := fun bytes => if bytes = [0] then oldBlock else newBlock }

/-- Some steps of a task at one time, each with the same page of a listing. -/
def steps (page : Option (List BlockId)) (task count nowMs : ℕ) : List (Event Answer ℕ Empty) :=
  List.replicate count (.run task
    { nowMs, laterMs := nowMs, outcome := .acknowledged, storedAtMs := nowMs
      page := page.map fun blocks => blocks.map (location "blocks") })

/-- All steps of a new task that lists nothing. -/
def complete (task nowMs : ℕ) : List (Event Answer ℕ Empty) := .spawn 2 :: steps none task 30 nowMs

/-- All steps of a reconciliation that deletes some blocks of the only page. -/
def sweep (blocks : List BlockId) (deleted task nowMs : ℕ) : List (Event Answer ℕ Empty) :=
  .spawn 2 :: steps (some blocks) task (11 + deleted) nowMs ++ steps none task 10 nowMs

/-! ### Versions -/

/-- As long as every reconciliation begins with the blocks of all versions live or recent, no
lease is granted during one, and no put is answered by that of another coordinator, every
version keeps its blocks. -/
theorem versions_keep_blocks (setup : Setup) (volumeId : VolumeId) (ns : Namespace)
    (objects : Objects)
    (hobjects : ∀ id ∈ blockRoots ns, objects.contains (location setup.scope id) = true)
    (schedule : List (Event Answer ℕ Empty)) :
    let world := ((startPool volumeId ns objects).run setup.service schedule).shared
    world.ledger.overtaken = false → world.ledger.exposed = false →
      ∀ version info, world.metadata.versions.get? version = some info →
        ∀ id ∈ blockRoots info.ns, Present setup.scope world id :=
  fun hover hexposed => (run_consistent hobjects schedule).versions hover hexposed

/-- A file is written, captured by a snapshot that a view pins, and overwritten; its
coordinator reconciles before and after that. -/
def pinnedSetup (grace : Duration) : Setup :=
  sampleSetup [⟨0, .openFs⟩, ⟨0, .mutate (storeFile 0)⟩, ⟨0, .shutdown⟩,
    ⟨0, .snapshot ⟨"versions", 1000, 1000, "store"⟩ "first"⟩, ⟨4, .openFs⟩,
    ⟨4, .reconcile (.ofMillis 10)⟩, ⟨4, .mutate (storeFile 1)⟩,
    ⟨0, .openViewPin ⟨"volume", 1⟩ ⟨"reader", 1000⟩⟩, ⟨4, .reconcile grace⟩]

/-- An object of the new block that nothing references. -/
def agedObjects (block : BlockId) (byte : UInt8) : Objects :=
  BTreeMap.ofList [(location "blocks" block, ⟨[byte], 0⟩)]

/-- The first reconciliation deletes the aged object; the second one deletes as many blocks
as the grace period lets it. -/
def pinnedSchedule (deleted : ℕ) : List (Event Answer ℕ Empty) :=
  complete 0 100 ++ complete 1 100 ++ complete 2 100 ++ complete 3 100 ++ complete 4 100 ++
    sweep [oldBlock, newBlock] 1 5 200 ++ complete 6 200 ++ complete 7 200 ++
    sweep [oldBlock, newBlock] deleted 8 200

def pinnedWorld (grace : Duration) (deleted : ℕ) : World :=
  ((startPool "volume" emptyRoot (agedObjects newBlock 1)).run (pinnedSetup grace).service
    (pinnedSchedule deleted)).shared

/-- The live set of a reconciliation has no blocks of versions: one that is retained and
pinned loses its block. -/
theorem reconcile_deletes_version_block :
    let world := pinnedWorld (.ofMillis 10) 1
    (∃ info, world.metadata.versions.get? ⟨"volume", 1⟩ = some info ∧
      oldBlock ∈ blockRoots info.ns) ∧
      (∃ pin ∈ world.metadata.pins.values, pin.version = ⟨"volume", 1⟩ ∧ 200 < pin.expiresAtMs) ∧
      ¬ Present "blocks" world oldBlock := by
  refine ⟨?_, by decide +kernel, ?_⟩
  · have h : ((pinnedWorld (.ofMillis 10) 1).metadata.versions.get? ⟨"volume", 1⟩).map
        (fun info => blockRoots info.ns) = some [oldBlock] := by decide +kernel
    obtain ⟨info, hinfo, hroots⟩ := Option.map_eq_some_iff.mp h
    exact ⟨info, hinfo, hroots ▸ List.mem_cons_self⟩
  · unfold Present
    decide +kernel

/-- With a longer grace period the block of the version is still recent. The first
reconciliation has deleted the aged object, since the new one is from the write. -/
theorem versions_keep_blocks_pinned :
    let world := pinnedWorld (.ofMillis 150) 0
    world.metadata.versions.contains ⟨"volume", 1⟩ = true ∧
      world.metadata.ns = some (fileNamespace newBlock) ∧
      (world.objects.get? (location "blocks" newBlock)).map Object.lastModifiedMs = some 200 ∧
      ∀ version info, world.metadata.versions.get? version = some info →
        ∀ id ∈ blockRoots info.ns, Present "blocks" world id := by
  refine ⟨by decide +kernel, by decide +kernel, by decide +kernel, ?_⟩
  have hover : (pinnedWorld (.ofMillis 150) 0).ledger.overtaken = false := by decide +kernel
  have hexposed : (pinnedWorld (.ofMillis 150) 0).ledger.exposed = false := by decide +kernel
  unfold pinnedWorld at hover hexposed ⊢
  exact versions_keep_blocks (pinnedSetup (.ofMillis 150)) "volume" emptyRoot
    (agedObjects newBlock 1) (by decide) (pinnedSchedule 0) hover hexposed

/-! ### Takeovers -/

/-- As long as no lease is granted while another coordinator reconciles, and no put is
answered by that of another coordinator, the committed namespace keeps its blocks. -/
theorem committed_keeps_blocks (setup : Setup) (volumeId : VolumeId) (ns : Namespace)
    (objects : Objects)
    (hobjects : ∀ id ∈ blockRoots ns, objects.contains (location setup.scope id) = true)
    (schedule : List (Event Answer ℕ Empty)) :
    let world := ((startPool volumeId ns objects).run setup.service schedule).shared
    world.ledger.overtaken = false → ∀ committed, world.metadata.ns = some committed →
        ∀ id ∈ blockRoots committed, Present setup.scope world id :=
  fun hover => (run_consistent hobjects schedule).committed hover

def agedWorld (requests : List Request) (schedule : List (Event Answer ℕ Empty)) : World :=
  ((startPool "volume" emptyRoot (agedObjects oldBlock 0)).run (sampleSetup requests).service
    schedule).shared

/-- A coordinator reconciles, and another one opens the store and writes the file, twice at
the same time. -/
def takeoverRequests : List Request :=
  [⟨0, .openFs⟩, ⟨0, .reconcile (.ofMillis 10)⟩, ⟨2, .openFs⟩, ⟨2, .mutate (storeFile 0)⟩,
    ⟨2, .mutate (storeFile 0)⟩]

/-- The lease expires between the listing and the deletion. The new owner finds the old
object and publishes a namespace with it before it is deleted. -/
def takeoverWorld : World :=
  agedWorld takeoverRequests (complete 0 100 ++ .spawn 2 :: steps (some [oldBlock]) 1 11 200 ++
    complete 2 5000 ++ complete 3 5000 ++ steps none 1 10 200)

/-- Two coordinators with one store object. -/
def joinedRequests : List Request :=
  [⟨0, .openFs⟩, ⟨0, .mutate (storeFile 0)⟩, ⟨2, .openFs⟩, ⟨2, .reconcile (.ofMillis 10)⟩,
    ⟨2, .mutate (storeFile 0)⟩]

/-- The put of the first coordinator has found the old object and is not finished when the
second one reconciles. The put of the second one is answered by it. -/
def joinedWorld : World :=
  agedWorld joinedRequests (complete 0 100 ++ .spawn 2 :: steps none 1 5 100 ++
    complete 2 5000 ++ sweep [oldBlock] 1 3 5000 ++ .spawn 2 :: steps none 4 3 5000 ++
    steps none 1 1 5000 ++ steps none 4 30 5000)

theorem takeover_deletes_committed_block :
    (takeoverWorld.metadata.ns = some (fileNamespace oldBlock) ∧
      takeoverWorld.ledger.joined = false ∧ ¬ Present "blocks" takeoverWorld oldBlock) ∧
    (joinedWorld.metadata.ns = some (fileNamespace oldBlock) ∧
      joinedWorld.ledger.regranted = false ∧ ¬ Present "blocks" joinedWorld oldBlock) ∧
    oldBlock ∈ blockRoots (fileNamespace oldBlock) := by
  unfold Present
  decide +kernel

/-- When the reconciliation ends first, the new owner stores the block again; one of its puts
is answered by the other. -/
def handoverWorld : World :=
  agedWorld takeoverRequests (complete 0 100 ++ sweep [oldBlock] 1 1 200 ++ complete 2 5000 ++
    .spawn 2 :: steps none 3 4 5000 ++ .spawn 2 :: steps none 4 3 5000 ++ steps none 3 30 5000 ++
    steps none 4 30 5000)

theorem committed_keeps_blocks_handover :
    handoverWorld.metadata.ns = some (fileNamespace oldBlock) ∧
      handoverWorld.metadata.revision = 3 ∧ handoverWorld.puts.length = 1 ∧
      ∀ id ∈ blockRoots (fileNamespace oldBlock), Present "blocks" handoverWorld id := by
  have hns : handoverWorld.metadata.ns = some (fileNamespace oldBlock) := by decide +kernel
  have hover : handoverWorld.ledger.overtaken = false := by decide +kernel
  refine ⟨hns, by decide +kernel, by decide +kernel, ?_⟩
  unfold handoverWorld agedWorld at hns hover ⊢
  exact committed_keeps_blocks (sampleSetup takeoverRequests) "volume" emptyRoot
    (agedObjects oldBlock 0) (by decide) _ hover _ hns

end MountRs.Reclamation
