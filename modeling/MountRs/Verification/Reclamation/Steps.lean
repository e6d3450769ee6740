import MountRs.Verification.Reclamation.Invariant

/-! # Steps of the coordinators

What every kind of step keeps: changes of a coordinator under its gate, publications,
the locks, and the objects that are stored and deleted. -/

namespace MountRs.Reclamation

open Memory MetadataState ObjectStore BTreeMap World Respects

variable {setup : Setup} {i c : ℕ} {s t : World}

@[simp] theorem World.setFs_fs_self (world : World) (c : ℕ) (coordinator : Coordinator) :
    (world.setFs c coordinator).fs c = coordinator := Function.update_self ..

theorem World.setFs_fs_of_ne (world : World) {c d : ℕ} (coordinator : Coordinator) (h : d ≠ c) :
    (world.setFs c coordinator).fs d = world.fs d := Function.update_of_ne h ..

/-- A fact about every coordinator after one of them has changed. -/
theorem World.forall_setFs {world : World} {coordinator : Coordinator} {P : ℕ → Coordinator → Prop}
    (hself : P c coordinator) (hother : ∀ d, d ≠ c → P d (world.fs d)) (d : ℕ) :
    P d ((world.setFs c coordinator).fs d) := by
  rcases eq_or_ne d c with rfl | hne
  · rwa [setFs_fs_self]
  · rw [setFs_fs_of_ne _ _ hne]
    exact hother d hne

@[simp] theorem World.setFs_metadata (world : World) (c : ℕ) (coordinator : Coordinator) :
    (world.setFs c coordinator).metadata = world.metadata := rfl

structure SameLocks (before after : Coordinator) : Prop where
  opened : after.opened = before.opened
  gate : after.gate = before.gate
  readers : after.readers = before.readers
  writer : after.writer = before.writer

/-! ## Changes under the gate -/

/-- A change of the holder of the gate, and of what the holder of the last lease may
publish. -/
theorem respects_setFs {j : ℕ} (hj : j ≠ i) {coordinator : Coordinator} (hgate : (s.fs c).gate = some i)
    (hlocks : SameLocks (s.fs c) coordinator) : Respects j s (s.setFs c coordinator) := by
  have hother : ∀ d, (s.fs d).gate = some j → d ≠ c := by
    rintro d hd rfl
    rw [hgate] at hd
    exact hj (Option.some.inj hd).symm
  have hopened : ∀ d, ((s.setFs c coordinator).fs d).opened = (s.fs d).opened :=
    forall_setFs (P := fun d fs => fs.opened = (s.fs d).opened) hlocks.opened fun _ _ => rfl
  exact { refl j s with
    opened := fun d hd => (hopened d).trans hd
    gate := by
      intro d hd
      rw [setFs_fs_of_ne _ _ (hother d hd)]
      exact ⟨hd, .refl _⟩
    unopened := fun hd => (hopened j).trans hd
    writer := by
      intro d hd
      have hwriter : ∀ d, ((s.setFs c coordinator).fs d).writer = (s.fs d).writer :=
        forall_setFs (P := fun d fs => fs.writer = (s.fs d).writer) hlocks.writer fun _ _ => rfl
      exact ⟨(hwriter d).trans hd, .rfl, fun _ => .rfl⟩
    reader := by
      intro d hd
      have hreaders : ∀ d, ((s.setFs c coordinator).fs d).readers = (s.fs d).readers :=
        forall_setFs (P := fun d fs => fs.readers = (s.fs d).readers) hlocks.readers
          fun _ _ => rfl
      exact ⟨(hreaders d).symm ▸ hd, fun _ hid => hid⟩ }

/-- What a changed coordinator must satisfy. -/
structure Fits (setup : Setup) (world : World) (c : ℕ) (coordinator : Coordinator) : Prop where
  token : ∀ lease, coordinator.lease = some lease → lease.fence ≤ world.metadata.lastFence ∧
    (lease.fence = world.metadata.lastFence → c = world.ledger.holder)
  staged : coordinator.pendingNamespace = true → (setup.options c).writeback = true
  cached : c = world.ledger.holder → ∀ lease, coordinator.lease = some lease →
    world.metadata.lastFence ≤ lease.fence + 1 → coordinator.failure = none →
    coordinator.persistedRevision = world.metadata.revision ∧
      (coordinator.pendingNamespace = false → world.metadata.ns = some coordinator.ns)
  held : world.ledger.overtaken = false → c = world.ledger.holder → ∀ lease,
    coordinator.lease = some lease → world.metadata.lastFence ≤ lease.fence + 1 →
    coordinator.failure = none → ∀ id,
    id ∈ blockRoots coordinator.ns ∨ (c, id) ∈ world.ledger.stored → Present setup.scope world id

/-- All that is said of a coordinator. -/
structure Sits (setup : Setup) (world : World) (c : ℕ) (coordinator : Coordinator) : Prop
    extends Fits setup world c coordinator where
  exclusive : coordinator.writer ≠ none → coordinator.readers = []
  unopened : coordinator.opened = false → coordinator.gate = none ∧ coordinator.readers = [] ∧
    coordinator.writer = none ∧ coordinator.lease = none ∧ ∀ id, (c, id) ∉ world.ledger.stored

theorem Sits.setFs {d : ℕ} {coordinator other : Coordinator} (h : Sits setup s c coordinator) :
    Sits setup (s.setFs d other) c coordinator :=
  ⟨⟨h.token, h.staged, h.cached, h.held⟩, h.exclusive, h.unopened⟩

namespace Consistent

theorem fits (h : Consistent setup s) (c : ℕ) : Fits setup s c (s.fs c) where
  token := h.token c
  staged := h.staged c
  cached := by
    rintro rfl lease hlease hle hhealthy
    exact h.cached ⟨⟨lease, hlease, hle⟩, hhealthy⟩
  held := by
    rintro hover rfl lease hlease hle hhealthy
    exact h.held hover ⟨⟨lease, hlease, hle⟩, hhealthy⟩

theorem sits (h : Consistent setup s) (c : ℕ) : Sits setup s c (s.fs c) :=
  ⟨h.fits c, h.exclusive c, h.unopened c⟩

theorem of_sits {world : World} (hlease : ∀ lease, world.metadata.lease = some lease →
      lease.fence = world.metadata.lastFence)
    (hsits : ∀ fs, Sits setup world fs (world.fs fs))
    (hcommitted : world.ledger.overtaken = false → ∀ ns, world.metadata.ns = some ns →
      ∀ id ∈ blockRoots ns, Present setup.scope world id)
    (hversions : world.ledger.overtaken = false → world.ledger.exposed = false →
      ∀ version info, world.metadata.versions.get? version = some info →
        ∀ id ∈ blockRoots info.ns, Present setup.scope world id) : Consistent setup world where
  lease := hlease
  token fs := (hsits fs).token
  exclusive fs := (hsits fs).exclusive
  unopened fs := (hsits fs).unopened
  staged fs := (hsits fs).staged
  cached hc := by
    obtain ⟨lease, htoken, hle⟩ := hc.lease
    exact (hsits _).cached rfl lease htoken hle hc.healthy
  held hover hc := by
    obtain ⟨lease, htoken, hle⟩ := hc.lease
    exact (hsits _).held hover rfl lease htoken hle hc.healthy
  committed := hcommitted
  versions := hversions

variable {coordinator : Coordinator}

section

variable (h : Consistent setup s)
include h

theorem exclusive_of_locks (hlocks : SameLocks (s.fs c) coordinator) :
    coordinator.writer ≠ none → coordinator.readers = [] := by
  rw [hlocks.writer, hlocks.readers]
  exact h.exclusive c

section

variable (hgate : (s.fs c).gate = some i)
include hgate

section

variable (hlocks : SameLocks (s.fs c) coordinator)
include hlocks

theorem opened_of_gate : coordinator.opened ≠ false := by
  intro hclosed
  rw [(h.unopened c (hlocks.opened ▸ hclosed)).1] at hgate
  cases hgate

theorem setFs (hfits : Fits setup s c coordinator) : Consistent setup (s.setFs c coordinator) := by
  have hsits : Sits setup s c coordinator := ⟨hfits, h.exclusive_of_locks hlocks,
    fun hclosed => absurd hclosed (h.opened_of_gate hgate hlocks)⟩
  exact of_sits h.lease (forall_setFs hsits.setFs fun d _ => (h.sits d).setFs) h.committed
    h.versions

theorem move_setFs (hfits : Fits setup s c coordinator) :
    (sharing setup).Move i s (s.setFs c coordinator) :=
  move_of (h.setFs hgate hlocks hfits) fun _ hj => respects_setFs hj hgate hlocks

end

theorem move_failWith (e : FsError) :
    (sharing setup).Move i s (s.setFs c ((s.fs c).failWith e)) := by
  have hsome : ((s.fs c).failWith e).failure ≠ none := by
    cases hfailure : (s.fs c).failure <;> simp [Coordinator.failWith, hfailure]
  refine h.move_setFs hgate ⟨rfl, rfl, rfl, rfl⟩ ⟨h.token c, h.staged c, ?_, ?_⟩
  · intro _ _ _ _ hnone
    exact absurd hnone hsome
  · intro _ _ _ _ _ hnone
    exact absurd hnone hsome

end

theorem move_open (hunopened : (s.fs i).opened = false)
    (hopened : coordinator.opened = true) (hgate : coordinator.gate = (s.fs i).gate)
    (hreaders : coordinator.readers = (s.fs i).readers)
    (hwriter : coordinator.writer = (s.fs i).writer) (hfits : Fits setup s i coordinator) :
    (sharing setup).Move i s (s.setFs i coordinator) := by
  obtain ⟨hgate', hreaders', hwriter', -, -⟩ := h.unopened i hunopened
  have hsits : Sits setup s i coordinator := by
    refine ⟨hfits, ?_, fun hclosed => ?_⟩
    · rw [hwriter, hreaders]
      exact h.exclusive i
    · rw [hopened] at hclosed
      cases hclosed
  refine move_of (of_sits h.lease (forall_setFs hsits.setFs fun d _ => (h.sits d).setFs)
    h.committed h.versions) fun j hj => ?_
  · -- Nobody else has a lock of the new coordinator.
    have hkeep : ∀ {P : Coordinator → Prop} (d : ℕ), ¬ P (s.fs i) → P (s.fs d) →
        (s.setFs i coordinator).fs d = s.fs d := by
      intro P d hnot hd
      apply setFs_fs_of_ne
      rintro rfl
      exact hnot hd
    exact { refl j s with
      opened := by
        intro d hd
        rwa [hkeep (P := fun fs => fs.opened = true) d (by simp [hunopened]) hd]
      gate := by
        intro d hd
        rw [hkeep (P := fun fs => fs.gate = some j) d (by simp [hgate']) hd]
        exact ⟨hd, .refl _⟩
      unopened := by
        intro hclosed
        rwa [setFs_fs_of_ne _ _ hj]
      writer := by
        intro d hd
        rw [hkeep (P := fun fs => fs.writer = some j) d (by simp [hwriter']) hd]
        exact ⟨hd, .rfl, fun _ => .rfl⟩
      reader := by
        intro d hd
        rw [hkeep (P := fun fs => j ∈ fs.readers) d (by simp [hreaders']) hd]
        exact ⟨hd, fun _ hid => hid⟩ }

end

/-! ## Publications -/

def Sources (c : ℕ) (world : World) (ns : Namespace) : Prop :=
  ∀ id ∈ blockRoots ns, id ∈ blockRoots (world.fs c).ns ∨ (c, id) ∈ world.ledger.stored

variable {nowMs : ℕ} {lease : WriterLease} {metadata : MetadataState}

theorem move_publish (h : Consistent setup s) {expectedRevision revision : ℕ} {ns : Namespace}
    (coordinator : Coordinator) (hgate : (s.fs c).gate = some i)
    (hlease : (s.fs c).lease = some lease) (hhealthy : (s.fs c).failure = none)
    (hsources : Sources c s ns)
    (hok : s.metadata.publish nowMs expectedRevision lease ns = .ok (revision, metadata))
    (hlocks : SameLocks (s.fs c) coordinator) (hsame : coordinator.lease = (s.fs c).lease)
    (hinstalled : coordinator.failure ≠ none ∨ (coordinator.persistedRevision = revision ∧
      coordinator.ns = ns))
    (hstaged : coordinator.pendingNamespace = true → (setup.options c).writeback = true) :
    (sharing setup).Move i s (({ s with metadata } : World).setFs c coordinator) := by
  obtain ⟨⟨_, hcurrent, hpublic⟩, -, rfl, rfl⟩ := publish_eq_ok hok
  obtain ⟨rfl, hfence⟩ := h.holder_of_current hlease hcurrent hpublic
  have hlive : Current s := ⟨⟨lease, hlease, by omega⟩, hhealthy⟩
  have hpresent : s.ledger.overtaken = false → ∀ id ∈ blockRoots ns,
      Present setup.scope s id := fun hover id hid => h.held hover hlive id (hsources id hid)
  refine move_of ?_ fun j hj => ?_
  · refine of_sits h.lease (forall_setFs ⟨⟨?_, hstaged, ?_, ?_⟩,
      h.exclusive_of_locks hlocks, fun hclosed => absurd hclosed (h.opened_of_gate hgate hlocks)⟩
      fun d hne => ⟨⟨h.token d, h.staged d, fun heq => absurd heq hne, fun _ heq => absurd heq hne⟩,
        h.exclusive d, h.unopened d⟩) ?_ h.versions
    · rw [hsame]
      exact h.token _
    · intro _ _ _ _ hnone
      rcases hinstalled with hfailed | ⟨hrevision, hns⟩
      · exact absurd hnone hfailed
      · exact ⟨hrevision, fun _ => congrArg some hns.symm⟩
    · intro hover _ _ _ _ hnone id hid
      rcases hinstalled with hfailed | ⟨hrevision, hns⟩
      · exact absurd hnone hfailed
      · rw [hns] at hid
        rcases hid with hid | hid
        · exact hpresent hover id hid
        · exact h.held hover hlive id (.inr hid)
    · intro hover other hother
      cases hother
      exact hpresent hover
  · -- No other task controls the client that publishes.
    have hrespects := respects_setFs hj hgate hlocks
    exact { hrespects with
      revision := Nat.le_succ _
      ns := fun heq => absurd heq (Nat.succ_ne_self _)
      published := by
        rintro d hd rfl
        exact absurd (h.controls_unique hd (.inl hgate)) hj }

theorem move_publishVersion (h : Consistent setup s) {publication : VersionPublication}
    {info : VersionInfo} (hcontrols : Controls i i s) (hunopened : (s.fs i).opened = false)
    (howns : lease.fence = s.metadata.lastFence → s.ledger.holder = i)
    (hns : s.metadata.revision = publication.expectedRevision → s.metadata.ns = some publication.ns)
    (hok : s.metadata.publishVersion nowMs lease publication = .ok (info, metadata)) :
    (sharing setup).Move i s { s with metadata } := by
  unfold MetadataState.publishVersion at hok
  split at hok
  · simp only [Except.bind_eq_ok, Except.pure_eq_ok, Prod.mk.injEq] at hok
    obtain ⟨-, -, -, -, -, -, -, rfl⟩ := hok
    exact .refl h
  · have hcreates := createVersion_eq_ok hok
    have hpublishes := createVersion_publishes hok
    obtain ⟨current, hcurrent, hpublic⟩ := hpublishes.current
    have hholder : s.ledger.holder = i := howns (by rw [← hpublic]; exact h.lease current hcurrent)
    have hnone : (s.fs s.ledger.holder).lease = none := by
      rw [hholder]
      exact (h.unopened i hunopened).2.2.2.1
    have hns' := hns hpublishes.expected
    have hcurrent' : ¬ Current { s with metadata } := by
      rintro ⟨⟨token, htoken, -⟩, -⟩
      rw [show (s.fs s.ledger.holder).lease = some token from htoken] at hnone
      cases hnone
    refine move_of ?_ fun j hj => ?_
    · exact
        { lease := by simpa only [hpublishes.lease, hpublishes.lastFence] using h.lease
          token := by simpa only [hpublishes.lastFence] using h.token
          exclusive := h.exclusive
          unopened := h.unopened
          staged := h.staged
          cached := fun hc => absurd hc hcurrent'
          held := fun _ hc => absurd hc hcurrent'
          committed := by
            intro hover other hother
            rw [hpublishes.ns] at hother
            cases hother
            exact h.committed hover _ hns'
          versions := by
            intro hover hexposed version other hother
            rw [hcreates.versions, get?_insert] at hother
            split_ifs at hother
            · cases hother
              obtain ⟨-, -, -, -, -, -, hsame⟩ := matchesCommitted_iff.mp hcreates.same_payload
              exact h.committed hover _ (hsame ▸ hns')
            · exact h.versions hover hexposed version other hother }
    · exact { refl j s with
        fence := hpublishes.lastFence.ge
        holder := fun _ => rfl
        revision := by
          simp only [hpublishes.revision]
          exact Nat.le_succ _
        ns := fun heq => absurd (hpublishes.revision.symm.trans heq) (Nat.succ_ne_self _)
        regrant := fun _ _ hlt => absurd hpublishes.lastFence hlt.ne'
        published := by
          rintro d hd rfl
          rw [hholder] at hd
          exact absurd (h.controls_unique hd hcontrols) hj
        reclaim := fun _ _ _ _ _ => ⟨hpublishes.lastFence, fun _ _ _ hobject => hobject⟩ }

/-! ## Locks -/

section

variable {ledger : Ledger} (hstate : SameState (s.fs c) coordinator)
  (hledger : ledger.holder = s.ledger.holder ∧ ledger.overtaken = s.ledger.overtaken ∧
    ledger.exposed = s.ledger.exposed)

include hstate hledger

theorem relock (h : Consistent setup s) (hopened : (s.fs c).opened = true)
    (hexclusive : coordinator.writer ≠ none → coordinator.readers = [])
    (hstored : ∀ fs id, (fs, id) ∈ ledger.stored → (fs, id) ∈ s.ledger.stored) :
    Consistent setup { s.setFs c coordinator with ledger } := by
  obtain ⟨hholder, hover, hexposed⟩ := hledger
  have hfits : ∀ d {after : Coordinator}, SameState (s.fs d) after →
      Fits setup { s.setFs c coordinator with ledger } d after := by
    intro d after hstate
    have hfits := h.fits d
    refine ⟨?_, ?_, ?_, ?_⟩
    · simpa only [hstate.lease, hholder, setFs_metadata] using hfits.token
    · simpa only [hstate.pendingNamespace] using hfits.staged
    · simpa only [hstate.lease, hstate.failure, hstate.persistedRevision, hstate.ns,
        hstate.pendingNamespace, hholder, setFs_metadata] using hfits.cached
    · intro hfalse heq lease hlease hle hnone id hid
      rw [hstate.ns] at hid
      exact hfits.held (hover ▸ hfalse) (hholder ▸ heq) lease (hstate.lease ▸ hlease) hle
        (hstate.failure ▸ hnone) id (hid.imp_right fun hid => hstored _ _ hid)
  refine of_sits h.lease (forall_setFs ⟨hfits c hstate, hexclusive, ?_⟩ fun d _ =>
    ⟨hfits d (.refl _), h.exclusive d, fun hclosed => ?_⟩) ?_ ?_
  · intro hclosed
    rw [hstate.opened, hopened] at hclosed
    cases hclosed
  · obtain ⟨hgate, hreaders, hwriter, hlease, hnone⟩ := h.unopened d hclosed
    exact ⟨hgate, hreaders, hwriter, hlease, fun id hid => hnone id (hstored d id hid)⟩
  · intro hfalse
    exact h.committed (hover ▸ hfalse)
  · intro hfalse hfalse'
    exact h.versions (hover ▸ hfalse) (hexposed ▸ hfalse')

theorem respects_relock {j : ℕ} (hgate : (s.fs c).gate = some j → coordinator.gate = some j)
    (hreader : j ∈ (s.fs c).readers → j ∈ coordinator.readers ∧
      ∀ id, (c, id) ∈ s.ledger.stored → (c, id) ∈ ledger.stored)
    (hwriter : (s.fs c).writer = some j → coordinator.writer = some j ∧
      (c ∈ ledger.reclaiming ↔ c ∈ s.ledger.reclaiming) ∧
      ∀ id, (c, id) ∈ ledger.stored ↔ (c, id) ∈ s.ledger.stored)
    (hothers : ∀ d, d ≠ c → (d ∈ ledger.reclaiming ↔ d ∈ s.ledger.reclaiming) ∧
      ∀ id, (d, id) ∈ ledger.stored ↔ (d, id) ∈ s.ledger.stored) :
    Respects j s { s.setFs c coordinator with ledger } := by
  have hopened : ∀ d, ((s.setFs c coordinator).fs d).opened = (s.fs d).opened :=
    forall_setFs (P := fun d fs => fs.opened = (s.fs d).opened) hstate.opened fun _ _ => rfl
  exact { refl j s with
    holder := fun _ => hledger.1
    overtaken := fun h => hledger.2.1 ▸ h
    exposed := fun h => hledger.2.2 ▸ h
    opened := fun d hd => (hopened d).trans hd
    gate := by
      intro d hd
      rcases eq_or_ne d c with rfl | hne
      · simp only [setFs_fs_self]
        exact ⟨hgate hd, hstate⟩
      · simp only [setFs_fs_of_ne _ _ hne]
        exact ⟨hd, .refl _⟩
    unopened := fun hd => (hopened j).trans hd
    writer := by
      intro d hd
      rcases eq_or_ne d c with rfl | hne
      · simp only [setFs_fs_self]
        exact hwriter hd
      · simp only [setFs_fs_of_ne _ _ hne]
        exact ⟨hd, hothers d hne⟩
    reader := by
      intro d hd
      rcases eq_or_ne d c with rfl | hne
      · simp only [setFs_fs_self]
        exact hreader hd
      · simp only [setFs_fs_of_ne _ _ hne]
        exact ⟨hd, fun id => ((hothers d hne).2 id).mpr⟩
    regrant := fun _ _ hlt => absurd hlt (Nat.lt_irrefl _)
    reclaim := fun _ _ _ _ _ => ⟨rfl, fun _ _ _ hobject => hobject⟩ }

end

/-! ## Objects -/

variable (h : Consistent setup s)
include h

theorem move_puts (puts : List InFlightPut) : (sharing setup).Move i s { s with puts } := by
  refine move_of ?_ fun j _ => { refl j s with }
  exact { h with
    cached := fun hc => h.cached ⟨hc.lease, hc.healthy⟩
    held := fun hover hc => h.held hover ⟨hc.lease, hc.healthy⟩
    committed := h.committed
    versions := h.versions }

/-- A put that the object of the block, or only the answer of another put stands for. -/
theorem move_store {objects : Objects} (id : BlockId)
    {stored : List (ℕ × BlockId)} {joined : Bool} (hreader : i ∈ (s.fs c).readers)
    (hkeeps : ∀ path object, s.objects.get? path = some object → objects.get? path = some object)
    (hjoined : joined = false → s.ledger.joined = false)
    (hstored : stored = s.ledger.stored ∨ (stored = (c, id) :: s.ledger.stored ∧
      (joined = false → objects.contains (location setup.scope id) = true))) :
    (sharing setup).Move i s { s with objects, ledger := { s.ledger with stored, joined } } := by
  have hover : ({ s.ledger with stored, joined } : Ledger).overtaken = false →
      joined = false ∧ s.ledger.overtaken = false := by
    intro hover
    obtain ⟨hregranted, hfalse⟩ := Bool.or_eq_false_iff.mp hover
    exact ⟨hfalse, Bool.or_eq_false_iff.mpr ⟨hregranted, hjoined hfalse⟩⟩
  have hmore : ∀ other, Present setup.scope s other →
      Present setup.scope { s with objects, ledger := { s.ledger with stored, joined } } other := by
    intro other hother
    obtain ⟨object, hobject⟩ := Option.isSome_iff_exists.mp hother
    exact Option.isSome_iff_exists.mpr ⟨object, hkeeps _ _ hobject⟩
  have hnew : ∀ fs other, (fs, other) ∈ stored → (fs, other) ∈ s.ledger.stored ∨
      (fs = c ∧ (joined = false → objects.contains (location setup.scope other) = true)) := by
    rcases hstored with rfl | ⟨rfl, hpresent⟩
    · exact fun _ _ hmem => .inl hmem
    · intro fs other hmem
      rcases List.mem_cons.mp hmem with heq | hmem
      · cases heq
        exact .inr ⟨rfl, hpresent⟩
      · exact .inl hmem
  have hold : ∀ entry ∈ s.ledger.stored, entry ∈ stored := by
    rcases hstored with rfl | ⟨rfl, -⟩
    · exact fun _ hmem => hmem
    · exact fun _ hmem => List.mem_cons_of_mem _ hmem
  refine move_of ?_ fun j hj => ?_
  · exact
      { lease := h.lease
        token := h.token
        exclusive := h.exclusive
        unopened := by
          intro fs hclosed
          obtain ⟨hgate, hreaders, hwriter, hlease, hnone⟩ := h.unopened fs hclosed
          refine ⟨hgate, hreaders, hwriter, hlease, fun other hother => ?_⟩
          rcases hnew fs other hother with hmem | ⟨rfl, -⟩
          · exact hnone other hmem
          · rw [hreaders] at hreader
            cases hreader
        staged := h.staged
        cached := fun hc => h.cached ⟨hc.lease, hc.healthy⟩
        held := by
          intro hfalse hc other hother
          obtain ⟨hfalse, hfalse'⟩ := hover hfalse
          have hc : Current s := ⟨hc.lease, hc.healthy⟩
          rcases hother with hother | hother
          · exact hmore other (h.held hfalse' hc other (.inl hother))
          · rcases hnew _ other hother with hmem | ⟨-, hpresent⟩
            · exact hmore other (h.held hfalse' hc other (.inr hmem))
            · exact hpresent hfalse
        committed := fun hfalse ns hns other hother =>
          hmore other (h.committed (hover hfalse).2 ns hns other hother)
        versions := fun hfalse hexposed version info hinfo other hother =>
          hmore other (h.versions (hover hfalse).2 hexposed version info hinfo other hother) }
  · exact { refl j s with
      overtaken := fun hfalse => (hover hfalse).2
      writer := by
        intro d hd
        refine ⟨hd, .rfl, fun other => ⟨fun hmem => ?_, fun hmem => hold _ hmem⟩⟩
        rcases hnew d other hmem with hmem | ⟨rfl, -⟩
        · exact hmem
        · -- The task reads the coordinator, so that nobody has its lifecycle to write.
          have hreaders := h.exclusive d (by rw [show (s.fs d).writer = some j from hd]; simp)
          rw [hreaders] at hreader
          cases hreader
      reader := fun d hd => ⟨hd, fun other hmem => hold _ hmem⟩
      reclaim := fun _ _ _ _ _ => ⟨rfl, fun _ => hkeeps⟩ }

theorem move_expose (uncovered : Bool) : (sharing setup).Move i s
      { s with ledger := { s.ledger with exposed := s.ledger.exposed || uncovered } } := by
  have hexposed : (s.ledger.exposed || uncovered) = false → s.ledger.exposed = false :=
    fun hfalse => (Bool.or_eq_false_iff.mp hfalse).1
  refine move_of ?_ fun j _ => ?_
  · exact { h with
      cached := fun hc => h.cached ⟨hc.lease, hc.healthy⟩
      held := fun hover hc => h.held hover ⟨hc.lease, hc.healthy⟩
      committed := h.committed
      versions := fun hover hfalse => h.versions hover (hexposed hfalse) }
  · exact { refl j s with exposed := hexposed }

/-- The coordinator may delete the object at the path: it is not the object of a block
that is referenced. -/
structure Unreferenced (setup : Setup) (c : ℕ) (world : World) (path : String) : Prop where
  holder : world.ledger.overtaken = false → ∃ lease, (world.fs c).lease = some lease ∧
    lease.fence = world.metadata.lastFence
  healthy : (world.fs c).failure = none
  drained : (world.fs c).pendingNamespace = false
  stored : ∀ id, (c, id) ∉ world.ledger.stored
  live : ∀ id ∈ blockRoots (world.fs c).ns, location setup.scope id ≠ path
  versions : world.ledger.overtaken = false → world.ledger.exposed = false → ∀ version info,
    world.metadata.versions.get? version = some info → ∀ id ∈ blockRoots info.ns,
      location setup.scope id ≠ path

theorem move_delete (path : String) (hgate : (s.fs c).gate = some i)
    (hpath : Unreferenced setup c s path) :
    (sharing setup).Move i s { s with objects := s.objects.erase path } := by
  have hkeeps : ∀ id, location setup.scope id ≠ path → Present setup.scope s id →
      Present setup.scope { s with objects := s.objects.erase path } id := by
    intro id hne hpresent
    simpa only [Present, contains, get?_erase_of_ne _ hne] using hpresent
  have hholder : s.ledger.overtaken = false → c = s.ledger.holder ∧ Current s := by
    intro hover
    obtain ⟨lease, hlease, hfence⟩ := hpath.holder hover
    obtain rfl := (h.token c lease hlease).2 hfence
    exact ⟨rfl, ⟨lease, hlease, by omega⟩, hpath.healthy⟩
  refine move_of ?_ fun j hj => ?_
  · exact
      { lease := h.lease
        token := h.token
        exclusive := h.exclusive
        unopened := h.unopened
        staged := h.staged
        cached := fun hc => h.cached ⟨hc.lease, hc.healthy⟩
        held := by
          intro hover hc id hid
          obtain ⟨rfl, hcurrent⟩ := hholder hover
          rcases hid with hid | hid
          · exact hkeeps id (hpath.live id hid) (h.held hover hcurrent id (.inl hid))
          · exact absurd hid (hpath.stored id)
        committed := by
          intro hover ns hns id hid
          obtain ⟨rfl, hcurrent⟩ := hholder hover
          have hcached := (h.cached hcurrent).2 hpath.drained
          have hsame : ns = (s.fs s.ledger.holder).ns :=
            Option.some.inj (hns.symm.trans hcached)
          exact hkeeps id (hpath.live id (hsame ▸ hid)) (h.committed hover ns hns id hid)
        versions := fun hover hexposed version info hinfo id hid =>
          hkeeps id (hpath.versions hover hexposed version info hinfo id hid)
            (h.versions hover hexposed version info hinfo id hid) }
  · exact { refl j s with
      reclaim := by
        intro d hd _ _ hover
        refine ⟨rfl, fun hd' => ?_⟩
        obtain ⟨rfl, -⟩ := hholder hover
        subst hd'
        exact absurd (h.controls_unique (.inl hd) (.inl hgate)) hj }

end Consistent

end MountRs.Reclamation
