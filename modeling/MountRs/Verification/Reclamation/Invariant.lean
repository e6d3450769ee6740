import MountRs.Library.AsyncLogic
import MountRs.Model.Reclamation
import MountRs.Verification.Versioned.Memory

/-! # What the coordinators of a store keep

The coordinator that holds the last lease has the committed namespace in its cache, and
every block that it may publish is in the store. This lasts as long as no lease is
granted while another coordinator reconciles, and no put is answered by that of another
coordinator. -/

namespace MountRs.ObjectStore

variable {scope : String} {live : BTreeSet BlockId} {id : BlockId} {lastModifiedMs : ℤ}
  {nowMs graceMs : ℕ}

theorem relative_location : relative scope (location scope id) = some id := by
  have htoList : (location scope id).toList = (scope ++ "/").toList ++ id.toList := by
    simp [location]
  unfold relative
  rw [htoList, if_pos (List.prefix_append _ _)]
  simp [← String.length_toList]

theorem candidate_live (h : id ∈ live) :
    candidate scope live (location scope id) lastModifiedMs nowMs graceMs ≠ some .delete := by
  simp only [candidate, relative_location, Option.any_some]
  unfold classifyReconcileCandidate
  split_ifs with hscope hlive <;> simp
  · simp only [not_or, Bool.not_eq_false] at hscope
    simp [Option.filter, hscope.1, h] at hlive

end MountRs.ObjectStore

namespace MountRs.Reclamation

open Memory MetadataState ObjectStore

/-! ## The invariant -/

def Present (scope : String) (world : World) (id : BlockId) : Prop :=
  world.objects.contains (location scope id) = true

/-- The coordinator caches the last lease, or the one before while it takes over the last. -/
structure Current (world : World) : Prop where
  lease : ∃ lease, (world.fs world.ledger.holder).lease = some lease ∧
    world.metadata.lastFence ≤ lease.fence + 1
  healthy : (world.fs world.ledger.holder).failure = none

structure Consistent (setup : Setup) (world : World) : Prop where
  lease : ∀ lease, world.metadata.lease = some lease → lease.fence = world.metadata.lastFence
  token : ∀ fs lease, (world.fs fs).lease = some lease → lease.fence ≤ world.metadata.lastFence ∧
      (lease.fence = world.metadata.lastFence → fs = world.ledger.holder)
  exclusive : ∀ fs, (world.fs fs).writer ≠ none → (world.fs fs).readers = []
  unopened : ∀ fs, (world.fs fs).opened = false → (world.fs fs).gate = none ∧
    (world.fs fs).readers = [] ∧ (world.fs fs).writer = none ∧ (world.fs fs).lease = none ∧
    ∀ id, (fs, id) ∉ world.ledger.stored
  staged : ∀ fs, (world.fs fs).pendingNamespace = true → (setup.options fs).writeback = true
  cached : Current world →
    (world.fs world.ledger.holder).persistedRevision = world.metadata.revision ∧
      ((world.fs world.ledger.holder).pendingNamespace = false →
        world.metadata.ns = some (world.fs world.ledger.holder).ns)
  held : world.ledger.overtaken = false → Current world → ∀ id,
    id ∈ blockRoots (world.fs world.ledger.holder).ns ∨
      (world.ledger.holder, id) ∈ world.ledger.stored → Present setup.scope world id
  committed : world.ledger.overtaken = false → ∀ ns, world.metadata.ns = some ns →
    ∀ id ∈ blockRoots ns, Present setup.scope world id
  versions : world.ledger.overtaken = false → world.ledger.exposed = false → ∀ version info,
    world.metadata.versions.get? version = some info → ∀ id ∈ blockRoots info.ns,
      Present setup.scope world id

/-! ## What a task may rely on -/

/-- The task acts for the client alone: it holds the gate of the coordinator, or the
client is the task and no coordinator yet. -/
def Controls (task client : ℕ) (world : World) : Prop :=
  (world.fs client).gate = some task ∨ (client = task ∧ (world.fs task).opened = false)

/-- Nothing of a coordinator changed but who waits for it or reads it. -/
structure SameState (before after : Coordinator) : Prop where
  opened : after.opened = before.opened
  closed : after.closed = before.closed
  failure : after.failure = before.failure
  ns : after.ns = before.ns
  orphans : after.orphans = before.orphans
  persistedRevision : after.persistedRevision = before.persistedRevision
  pendingNamespace : after.pendingNamespace = before.pendingNamespace
  lease : after.lease = before.lease

theorem SameState.refl (coordinator : Coordinator) : SameState coordinator coordinator :=
  ⟨rfl, rfl, rfl, rfl, rfl, rfl, rfl, rfl⟩

theorem SameState.trans {a b c : Coordinator} (h : SameState a b) (h' : SameState b c) :
    SameState a c :=
  ⟨h'.opened.trans h.opened, h'.closed.trans h.closed, h'.failure.trans h.failure,
    h'.ns.trans h.ns, h'.orphans.trans h.orphans,
    h'.persistedRevision.trans h.persistedRevision,
    h'.pendingNamespace.trans h.pendingNamespace, h'.lease.trans h.lease⟩

structure Respects (i : ℕ) (s t : World) : Prop where
  fence : s.metadata.lastFence ≤ t.metadata.lastFence
  holder : t.metadata.lastFence = s.metadata.lastFence → t.ledger.holder = s.ledger.holder
  revision : s.metadata.revision ≤ t.metadata.revision
  ns : t.metadata.revision = s.metadata.revision → t.metadata.ns = s.metadata.ns
  overtaken : t.ledger.overtaken = false → s.ledger.overtaken = false
  exposed : t.ledger.exposed = false → s.ledger.exposed = false
  opened : ∀ c, (s.fs c).opened = true → (t.fs c).opened = true
  gate : ∀ c, (s.fs c).gate = some i → (t.fs c).gate = some i ∧ SameState (s.fs c) (t.fs c)
  unopened : (s.fs i).opened = false → (t.fs i).opened = false
  writer : ∀ c, (s.fs c).writer = some i → (t.fs c).writer = some i ∧
    (c ∈ t.ledger.reclaiming ↔ c ∈ s.ledger.reclaiming) ∧
    ∀ id, (c, id) ∈ t.ledger.stored ↔ (c, id) ∈ s.ledger.stored
  reader : ∀ c, i ∈ (s.fs c).readers → i ∈ (t.fs c).readers ∧
    ∀ id, (c, id) ∈ s.ledger.stored → (c, id) ∈ t.ledger.stored
  regrant : ∀ c, Controls i c s → s.metadata.lastFence < t.metadata.lastFence → t.ledger.holder ≠ c
  published : ∀ c, Controls i c s → s.ledger.holder = c →
    t.metadata.lastFence = s.metadata.lastFence → t.metadata.revision = s.metadata.revision ∧
      ∀ version info, t.metadata.versions.get? version = some info →
        s.metadata.versions.get? version = some info
  reclaim : ∀ c, (s.fs c).gate = some i → (s.fs c).writer = some i → c ∈ s.ledger.reclaiming →
    t.ledger.overtaken = false → t.metadata.lastFence = s.metadata.lastFence ∧
      (s.ledger.holder = c → ∀ path object, s.objects.get? path = some object →
        t.objects.get? path = some object)

namespace Respects

variable {i : ℕ} {s t u : World}

theorem refl (i : ℕ) (s : World) : Respects i s s where
  fence := Nat.le_refl _
  holder _ := rfl
  revision := Nat.le_refl _
  ns _ := rfl
  overtaken h := h
  exposed h := h
  opened _ h := h
  gate _ h := ⟨h, .refl _⟩
  unopened h := h
  writer _ h := ⟨h, .rfl, fun _ => .rfl⟩
  reader _ h := ⟨h, fun _ h => h⟩
  regrant _ _ hlt := absurd hlt (Nat.lt_irrefl _)
  published _ _ _ _ := ⟨rfl, fun _ _ h => h⟩
  reclaim _ _ _ _ _ := ⟨rfl, fun _ _ _ h => h⟩

theorem controls (h : Respects i s t) {c : ℕ} (hc : Controls i c s) : Controls i c t := by
  rcases hc with hgate | ⟨rfl, hunopened⟩
  · exact .inl (h.gate c hgate).1
  · exact .inr ⟨rfl, h.unopened hunopened⟩

theorem trans (h : Respects i s t) (h' : Respects i t u) : Respects i s u where
  fence := h.fence.trans h'.fence
  holder heq := by
    have hle := h.fence
    have hle' := h'.fence
    rw [h'.holder (by omega), h.holder (by omega)]
  revision := h.revision.trans h'.revision
  ns heq := by
    have hle := h.revision
    have hle' := h'.revision
    rw [h'.ns (by omega), h.ns (by omega)]
  overtaken hu := h.overtaken (h'.overtaken hu)
  exposed hu := h.exposed (h'.exposed hu)
  opened c hc := h'.opened c (h.opened c hc)
  gate c hc := ⟨(h'.gate c (h.gate c hc).1).1, (h.gate c hc).2.trans (h'.gate c (h.gate c hc).1).2⟩
  unopened hs := h'.unopened (h.unopened hs)
  writer c hc := by
    obtain ⟨hwriter, hreclaiming, hstored⟩ := h.writer c hc
    obtain ⟨hwriter', hreclaiming', hstored'⟩ := h'.writer c hwriter
    exact ⟨hwriter', hreclaiming'.trans hreclaiming, fun id => (hstored' id).trans (hstored id)⟩
  reader c hc := by
    obtain ⟨hreader, hstored⟩ := h.reader c hc
    obtain ⟨hreader', hstored'⟩ := h'.reader c hreader
    exact ⟨hreader', fun id hid => hstored' id (hstored id hid)⟩
  regrant c hc hlt := by
    rcases Nat.lt_or_ge t.metadata.lastFence u.metadata.lastFence with hlt' | hge
    · exact h'.regrant c (h.controls hc) hlt'
    · rw [h'.holder (Nat.le_antisymm hge h'.fence)]
      exact h.regrant c hc (hlt.trans_le hge)
  published c hc hholder heq := by
    have hle := h.fence
    have hle' := h'.fence
    have hst : t.metadata.lastFence = s.metadata.lastFence := by omega
    obtain ⟨hrevision, hversions⟩ := h.published c hc hholder hst
    obtain ⟨hrevision', hversions'⟩ := h'.published c (h.controls hc)
      ((h.holder hst).trans hholder) (by omega)
    exact ⟨hrevision'.trans hrevision, fun v info hv => hversions v info (hversions' v info hv)⟩
  reclaim c hgate hwriter hmem hu := by
    have ht := h'.overtaken hu
    obtain ⟨hfence, hobjects⟩ := h.reclaim c hgate hwriter hmem ht
    obtain ⟨hwriter', hmem', -⟩ := h.writer c hwriter
    obtain ⟨hfence', hobjects'⟩ := h'.reclaim c (h.gate c hgate).1 hwriter' (hmem'.mpr hmem) hu
    refine ⟨hfence'.trans hfence, fun hholder path object hobject => ?_⟩
    exact hobjects' ((h.holder hfence).trans hholder) path object
      (hobjects hholder path object hobject)

end Respects

/-- Any task may be dropped at any of its steps. -/
def sharing (setup : Setup) : Discipline World where
  inv := Consistent setup
  mono _ _ := True
  rely := Respects
  fresh i world := (world.fs i).opened = false
  cancels := True
  mono_refl _ := trivial
  mono_trans _ _ := trivial
  rely_refl := Respects.refl
  rely_trans := Respects.trans
  fresh_stable h hrespects := hrespects.unopened h

variable {setup : Setup} {i : ℕ} {s t : World}

theorem move_of (hinv : Consistent setup t) (hrespects : ∀ j, j ≠ i → Respects j s t) :
    (sharing setup).Move i s t :=
  ⟨hinv, trivial, hrespects⟩

/-! ## Calls of the metadata store -/

namespace Consistent

theorem controls_unique (h : Consistent setup s) {j c : ℕ} (hi : Controls i c s)
    (hj : Controls j c s) : i = j := by
  rcases hi with hi | ⟨rfl, hi⟩ <;> rcases hj with hj | ⟨hcj, hj⟩
  · rw [hi] at hj
    exact Option.some.inj hj
  · subst hcj
    rw [(h.unopened c hj).1] at hi
    cases hi
  · rw [(h.unopened c hi).1] at hj
    cases hj
  · exact hcj

/-- A call that neither grants a lease nor publishes. -/
structure Quiet (before after : MetadataState) : Prop where
  lastFence : after.lastFence = before.lastFence
  lease : ∀ lease, after.lease = some lease → lease.fence = before.lastFence
  revision : after.revision = before.revision
  ns : after.ns = before.ns
  versions : ∀ version info, after.versions.get? version = some info →
    before.versions.get? version = some info

variable {metadata : MetadataState}

theorem move_quiet (h : Consistent setup s) (hquiet : Quiet s.metadata metadata) :
    (sharing setup).Move i s { s with metadata } := by
  have hcurrent : Current { s with metadata } → Current s := fun hcurrent =>
    ⟨by simpa only [hquiet.lastFence] using hcurrent.lease, hcurrent.healthy⟩
  refine move_of ?_ fun j _ => ?_
  · exact
      { lease := by simpa only [hquiet.lastFence] using hquiet.lease
        token := by simpa only [hquiet.lastFence] using h.token
        exclusive := h.exclusive
        unopened := h.unopened
        staged := h.staged
        cached := fun hc => by simpa only [hquiet.revision, hquiet.ns] using h.cached (hcurrent hc)
        held := fun hover hc => h.held hover (hcurrent hc)
        committed := fun hover ns hns => h.committed hover ns (hquiet.ns ▸ hns)
        versions := fun hover hexposed version info hinfo =>
          h.versions hover hexposed version info (hquiet.versions version info hinfo) }
  · exact { Respects.refl j s with
      fence := hquiet.lastFence.ge
      holder := fun _ => rfl
      revision := hquiet.revision.ge
      ns := fun _ => hquiet.ns
      regrant := fun _ _ hlt => absurd hquiet.lastFence hlt.ne'
      published := fun _ _ _ _ => ⟨hquiet.revision, hquiet.versions⟩
      reclaim := fun _ _ _ _ _ => ⟨hquiet.lastFence, fun _ _ _ hobject => hobject⟩ }

variable {nowMs : ℕ} {lease : WriterLease}

theorem Quiet.renewWriter (h : Consistent setup s) {ttlMs : ℕ} {renewed : WriterLease}
    (hok : s.metadata.renewWriter nowMs lease ttlMs = .ok (renewed, metadata)) :
    Quiet s.metadata metadata ∧ lease.fence = s.metadata.lastFence ∧
      renewed.fence = s.metadata.lastFence := by
  obtain ⟨current, _, hcurrent, rfl, hfence, rfl, rfl⟩ := renewWriter_eq_ok hok
  have hlast := h.lease current hcurrent
  refine ⟨⟨rfl, ?_, rfl, rfl, fun _ _ hinfo => hinfo⟩, hlast, hfence.trans hlast⟩
  intro lease hlease
  cases hlease
  exact hfence.trans hlast

theorem Quiet.releaseWriter {u : Unit}
    (hok : s.metadata.releaseWriter nowMs lease = .ok (u, metadata)) :
    Quiet s.metadata metadata := by
  obtain rfl := releaseWriter_eq_ok hok
  exact ⟨rfl, (fun _ hlease => by cases hlease), rfl, rfl, fun _ _ hinfo => hinfo⟩

variable (h : Consistent setup s)
include h

theorem Quiet.deleteVersion {id : VersionId} {u : Unit}
    (hok : s.metadata.deleteVersion nowMs lease id = .ok (u, metadata)) :
    Quiet s.metadata metadata := by
  have hdeletes := deleteVersion_eq_ok hok
  refine ⟨hdeletes.lastFence, ?_, hdeletes.revision, hdeletes.ns, ?_⟩
  · rw [hdeletes.lease]
    exact h.lease
  · intro version info hinfo
    rw [hdeletes.versions, BTreeMap.get?_erase] at hinfo
    split_ifs at hinfo
    exact hinfo

theorem Quiet.pins (hsame : SameTimeline s.metadata metadata)
    (hns : metadata.ns = s.metadata.ns) (hrevision : metadata.revision = s.metadata.revision)
    (hlease : metadata.lease = s.metadata.lease)
    (hfence : metadata.lastFence = s.metadata.lastFence) : Quiet s.metadata metadata :=
  ⟨hfence, by rw [hlease]; exact h.lease, hrevision, hns, fun _ _ hinfo => hsame.versions ▸ hinfo⟩

omit h in
theorem overtaken_grant {client : ℕ} (hover : (s.ledger.grant client).overtaken = false) :
    s.ledger.overtaken = false ∧ ∀ fs ∈ s.ledger.reclaiming, fs = client := by
  simp only [Ledger.overtaken, Ledger.grant, Bool.or_eq_false_iff, List.any_eq_false,
    decide_eq_true_eq, not_not] at hover ⊢
  exact ⟨⟨hover.1.1, hover.2⟩, hover.1.2⟩

theorem move_grant {client ttlMs : ℕ} {owner : String} (hcontrols : Controls i client s)
    (hok : s.metadata.acquireWriter nowMs owner ttlMs = .ok (lease, metadata)) :
    (sharing setup).Move i s { s with metadata, ledger := s.ledger.grant client } ∧
      lease.fence = metadata.lastFence := by
  obtain ⟨grant, hfence, rfl, rfl⟩ := acquireWriter_eq_ok hok
  refine ⟨move_of ?_ fun j hj => ?_, hfence⟩
  · -- Only the client that had the last lease can be current after the grant.
    have hcurrent : Current { s with
        metadata := { s.metadata with lastFence := s.metadata.lastFence + 1, lease := some grant }
        ledger := s.ledger.grant client } → client = s.ledger.holder ∧ Current s := by
      rintro ⟨⟨token, htoken, hle⟩, hhealthy⟩
      have hle : s.metadata.lastFence + 1 ≤ token.fence + 1 := hle
      obtain ⟨hmax, hholder⟩ := h.token client token htoken
      obtain rfl := hholder (by omega)
      exact ⟨rfl, ⟨⟨token, htoken, by omega⟩, hhealthy⟩⟩
    exact
      { lease := by
          intro lease hlease
          cases hlease
          exact hfence
        token := by
          intro fs token htoken
          have hmax := (h.token fs token htoken).1
          exact ⟨Nat.le_succ_of_le hmax, fun heq => absurd heq (by simp only; omega)⟩
        exclusive := h.exclusive
        unopened := h.unopened
        staged := h.staged
        cached := by
          intro hc
          obtain ⟨rfl, hs⟩ := hcurrent hc
          exact h.cached hs
        held := by
          intro hover hc
          obtain ⟨rfl, hs⟩ := hcurrent hc
          exact h.held (overtaken_grant hover).1 hs
        committed := fun hover => h.committed (overtaken_grant hover).1
        versions := fun hover => h.versions (overtaken_grant hover).1 }
  · exact { Respects.refl j s with
      fence := Nat.le_succ _
      holder := fun heq => absurd heq (Nat.succ_ne_self _)
      overtaken := fun hover => (overtaken_grant hover).1
      regrant := by
        rintro c hc - rfl
        exact hj (h.controls_unique hc hcontrols)
      published := fun _ _ _ heq => absurd heq (Nat.succ_ne_self _)
      reclaim := by
        intro c hgate hwriter hmem hover
        exfalso
        obtain rfl := (overtaken_grant hover).2 c hmem
        exact hj (h.controls_unique (.inl hgate) hcontrols) }

theorem holder_of_current {c : ℕ} {current : LeaseState}
    (hlease : (s.fs c).lease = some lease) (hcurrent : s.metadata.lease = some current)
    (hpublic : toPublicLease current = lease) :
    c = s.ledger.holder ∧ lease.fence = s.metadata.lastFence := by
  have hfence : lease.fence = s.metadata.lastFence := by
    rw [← hpublic]
    exact h.lease current hcurrent
  exact ⟨(h.token c lease hlease).2 hfence, hfence⟩

end Consistent

end MountRs.Reclamation
