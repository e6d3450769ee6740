import MountRs.Library.AsyncLogic
import MountRs.Model.FoundationDb
import MountRs.Verification.Storage.Validation

/-! # The writer-lease protocol of the FoundationDB provider

Whatever the clocks of the clients show and whatever becomes of their transactions,
the authority time does not go back, fences grow from grant to grant, and a
publication needs the token of the last grant. -/

namespace MountRs.FoundationDb

open Except Discipline List Volume

/-! ## What a transaction does -/

section Transactions

variable {volume next : Volume} {sampled : Option ℕ}

def Volume.lastFence (volume : Volume) : ℕ :=
  match volume.fence with
  | some (.last fence) => fence
  | _ => 0

variable {requested : LeaseRecord} {nowMs : ℕ}

theorem leaseMatches_iff {current : LeaseRecord} : leaseMatches current requested nowMs = true ↔
      current = requested ∧ nowMs < current.expiresAtMs := by
  cases current
  cases requested
  simp [leaseMatches, and_assoc]

theorem decodeLastFence_eq_ok {fence : Option ℕ} (h : decodeLastFence volume.fence = .ok fence) :
    fence.getD 0 = volume.lastFence := by
  unfold decodeLastFence at h
  unfold lastFence
  split at h
  · cases h
    simp [*]
  · cases h
    simp [*]
  · cases h

variable {ttlMs : ℕ} {record : LeaseRecord}

theorem acquire_eq_ok {owner : String} (h : volume.acquire sampled owner ttlMs = .ok (record, next)) :
    volume.lastFence < record.fence ∧
      (∀ lease, volume.lease = some lease → ∃ nowMs,
        nowMsInTransaction sampled volume = .ok nowMs ∧ lease.expiresAtMs ≤ nowMs) ∧
      next = { volume with lease := some record, fence := some (.last record.fence) } := by
  simp only [acquire, planWriterAcquisition, bind_eq_ok, pure_eq_ok,
    failIf_eq_ok, okOr_eq_ok, checkedAdd_eq_some, Prod.mk.injEq] at h
  obtain ⟨-, -, _, hlast, nowMs, hnow, -, ⟨-, hexpired, _, ⟨-, rfl⟩, _, -, rfl⟩, rfl, rfl⟩ := h
  rw [decodeLastFence_eq_ok hlast]
  refine ⟨Nat.lt_succ_of_le (le_max_left _ _), ?_, rfl⟩
  intro lease hlease
  exact ⟨nowMs, hnow, by simpa [hlease] using hexpired⟩

theorem renew_eq_ok (h : volume.renew sampled requested ttlMs = .ok (record, next)) :
    volume.lease = some requested ∧
      (record.owner = requested.owner ∧ record.fence = requested.fence) ∧
      next = { volume with lease := some record } := by
  simp only [renew, planWriterRenewal, bind_eq_ok, pure_eq_ok,
    failIf_eq_ok, okOr_eq_ok, Bool.not_eq_false, Prod.mk.injEq] at h
  obtain ⟨-, -, _, hcurrent, _, -, _, ⟨-, hmatches, _, -, rfl⟩, rfl, rfl⟩ := h
  obtain ⟨rfl, -⟩ := leaseMatches_iff.mp hmatches
  exact ⟨hcurrent, ⟨rfl, rfl⟩, rfl⟩

theorem release_eq_ok {u : Unit} (h : volume.release sampled requested = .ok (u, next)) :
    next = { volume with lease := none } := by
  simp only [release, bind_eq_ok, pure_eq_ok, Prod.mk.injEq] at h
  obtain ⟨-, -, -, -, -, -, -, -, -, rfl⟩ := h
  rfl

variable {expectedRevision nextRevision revision : ℕ} {ns : Namespace}

theorem publish_eq_ok (h : volume.publish sampled expectedRevision nextRevision requested ns =
      .ok ((revision, nowMs), next)) :
    nowMsInTransaction sampled volume = .ok nowMs ∧ volume.lease = some requested ∧
      nowMs < requested.expiresAtMs ∧ volume.revision = expectedRevision ∧
      revision = nextRevision ∧ next = { volume with manifest := some (nextRevision, ns) } := by
  simp only [publish, bind_eq_ok, pure_eq_ok, failIf_eq_ok,
    okOr_eq_ok, Bool.not_eq_false, not_not, Prod.mk.injEq] at h
  obtain ⟨_, hnow, -, -, _, hcurrent, -, hmatches, -, hrevision, ⟨rfl, rfl⟩, rfl⟩ := h
  obtain ⟨rfl, hlive⟩ := leaseMatches_iff.mp hmatches
  exact ⟨hnow, hcurrent, hlive, hrevision, rfl, rfl⟩

theorem publishBound_eq_ok {backing : ConcurrentBackingId}
    (h : volume.publishBound backing expectedRevision nextRevision ns = .ok (revision, next)) :
    volume.revision = expectedRevision ∧ revision = nextRevision ∧
      next = { volume with manifest := some (nextRevision, ns) } := by
  simp only [publishBound, bind_eq_ok] at h
  obtain ⟨mode, -, h⟩ := h
  cases mode with
  | legacy | mrc1 => cases h
  | mrc2 =>
    simp only [bind_eq_ok, pure_eq_ok, failIf_eq_ok, not_not, Prod.mk.injEq] at h
    obtain ⟨-, -, -, -, -, hrevision, rfl, rfl⟩ := h
    exact ⟨hrevision, rfl, rfl⟩

end Transactions

/-! ## The invariant -/

/-- The time that a publication read was an authority time, that of its commit if the
authority is shared; its token was the lease on record, unexpired at that time, and it
raised the expected revision by one. -/
structure Accepted (setup : Setup) (publication : Publication) : Prop where
  time : ∃ authorityMs, publication.before.authorityMs = some authorityMs ∧
    publication.nowMs ≤ authorityMs ∧
    ((setup.clients publication.task).oracle = some .shared → publication.nowMs = authorityMs)
  token : publication.before.lease = some publication.token
  live : publication.nowMs < publication.token.expiresAtMs
  revision : ∃ lease ns,
    setup.requests publication.task = .publish publication.before.revision lease ns ∧
    leaseFromInput lease = .ok publication.token ∧
    publication.after = { publication.before with
      manifest := some (publication.before.revision + 1, ns) }

/-- The token of a writer: renewals leave its owner and its fence as they are. -/
def LeaseRecord.token (lease : LeaseRecord) : String × ℕ := (lease.owner, lease.fence)

/-- The lease was released, or it had expired at the authority time when it gave way. -/
def Ending.Rightful (ending : Ending) : Prop :=
  ending.released = true ∨
    ∃ nowMs, ending.authorityMs = some nowMs ∧ ending.lease.expiresAtMs ≤ nowMs

/-- The later publication has the same token, or a higher fence that was granted after the lease
of the earlier one had ended. -/
def Follows (ledger : Ledger) (earlier later : Publication) : Prop :=
  earlier.token.token = later.token.token ∨
    earlier.token.fence < later.token.fence ∧
      ∃ ending ∈ ledger.ended, ending.lease.token = earlier.token.token ∧ ending.Rightful

theorem Follows.mono {ledger next : Ledger} (hended : ledger.ended ⊆ next.ended)
    {earlier later : Publication} (h : Follows ledger earlier later) :
    Follows next earlier later := by
  refine h.imp_right ?_
  rintro ⟨hlt, ending, hmem, hending⟩
  exact ⟨hlt, ending, hended hmem, hending⟩

structure Fenced (setup : Setup) (world : World) : Prop where
  lease_le : ∀ lease, world.volume.lease = some lease → lease.fence ≤ world.volume.lastFence
  granted_le : ∀ fence ∈ world.ledger.granted, fence ≤ world.volume.lastFence
  granted : world.ledger.granted.Pairwise (· < ·)
  latest : ∀ lease fence, world.volume.lease = some lease →
    world.ledger.granted.getLast? = some fence → lease.fence = fence
  published_le : ∀ publication ∈ world.ledger.published,
    publication.token.fence ≤ world.volume.lastFence ∧
      ∀ lease, world.volume.lease = some lease → publication.token.fence ≤ lease.fence
  published : world.ledger.published.Pairwise fun earlier later =>
    earlier.token.fence ≤ later.token.fence
  accepted : ∀ publication ∈ world.ledger.published, Accepted setup publication
  ended : ∀ ending ∈ world.ledger.ended, ending.Rightful ∧
    ending.lease.fence ≤ world.volume.lastFence ∧
    ∀ lease, world.volume.lease = some lease → ending.lease.fence < lease.fence
  held : ∀ publication ∈ world.ledger.published,
    (∃ lease, world.volume.lease = some lease ∧ lease.token = publication.token.token) ∨
      ∃ ending ∈ world.ledger.ended, ending.lease.token = publication.token.token
  follows : world.ledger.published.Pairwise (Follows world.ledger)

namespace Fenced

variable {setup : Setup} {world : World} {committed : List ℕ}

section

variable (h : Fenced setup world)
include h

/-- A publication's token is that of a lease that has ended, once the lease on record has. -/
theorem held_endLease {publication : Publication} {released : Bool}
    (hmem : publication ∈ world.ledger.published) :
    ∃ ending ∈ (world.ledger.endLease released world.volume).ended,
      ending.lease.token = publication.token.token := by
  rcases h.held publication hmem with ⟨lease, hlease, htoken⟩ | ⟨ending, hending, htoken⟩
  · exact ⟨⟨lease, released, _⟩, mem_append_right _ (mem_map.mpr
      ⟨lease, Option.mem_toList.mpr hlease, rfl⟩), htoken⟩
  · exact ⟨ending, mem_append_left _ hending, htoken⟩

theorem acquire {record : LeaseRecord} (hlast : world.volume.lastFence < record.fence)
    (hexpired : ∀ lease, world.volume.lease = some lease →
      ∃ nowMs, world.volume.authorityMs = some nowMs ∧ lease.expiresAtMs ≤ nowMs) :
    Fenced setup
      { volume := { world.volume with lease := some record, fence := some (.last record.fence) }
        ledger := { world.ledger.endLease false world.volume with
          granted := world.ledger.granted ++ [record.fence], committed } } where
  lease_le := by
    intro lease hlease
    cases hlease
    exact Nat.le_refl _
  granted_le := by
    intro fence hfence
    rcases mem_append.mp hfence with hfence | hfence
    · exact (h.granted_le fence hfence).trans hlast.le
    · exact (mem_singleton.mp hfence).le
  granted := by
    refine pairwise_append.mpr ⟨h.granted, pairwise_singleton _ _, ?_⟩
    intro earlier hearlier later hlater
    rw [mem_singleton.mp hlater]
    exact (h.granted_le earlier hearlier).trans_lt hlast
  latest := by
    intro lease fence hlease hfence
    cases hlease
    simpa using hfence
  published_le := by
    intro publication hmem
    have hle := (h.published_le publication hmem).1.trans hlast.le
    refine ⟨hle, ?_⟩
    intro lease hlease
    cases hlease
    exact hle
  published := h.published
  accepted := h.accepted
  ended := by
    intro ending hending
    obtain ⟨hrightful, hle⟩ : ending.Rightful ∧ ending.lease.fence ≤ world.volume.lastFence := by
      rcases mem_append.mp hending with hending | hending
      · exact ⟨(h.ended ending hending).1, (h.ended ending hending).2.1⟩
      · obtain ⟨lease, hlease, rfl⟩ := mem_map.mp hending
        have hlease := Option.mem_toList.mp hlease
        exact ⟨.inr (hexpired lease hlease), h.lease_le lease hlease⟩
    refine ⟨hrightful, hle.trans hlast.le, ?_⟩
    intro lease hlease
    cases hlease
    exact hle.trans_lt hlast
  held := fun publication hmem => .inr (h.held_endLease hmem)
  follows := h.follows.imp (Follows.mono (subset_append_left _ _))

/-- A lease that is released takes its token with it. -/
theorem release :
    Fenced setup
      { volume := { world.volume with lease := none }
        ledger := { world.ledger.endLease true world.volume with committed } } where
  lease_le := nofun
  granted_le := h.granted_le
  granted := h.granted
  latest := nofun
  published_le := fun publication hmem => ⟨(h.published_le publication hmem).1, nofun⟩
  published := h.published
  accepted := h.accepted
  ended := by
    intro ending hending
    rcases mem_append.mp hending with hending | hending
    · exact ⟨(h.ended ending hending).1, (h.ended ending hending).2.1, nofun⟩
    · obtain ⟨lease, hlease, rfl⟩ := mem_map.mp hending
      exact ⟨.inl rfl, h.lease_le lease (Option.mem_toList.mp hlease), nofun⟩
  held := fun publication hmem => .inr (h.held_endLease hmem)
  follows := h.follows.imp (Follows.mono (subset_append_left _ _))

theorem renew {record current : LeaseRecord} (hcurrent : world.volume.lease = some current)
    (htoken : record.token = current.token) :
    Fenced setup
      { volume := { world.volume with lease := some record }
        ledger := { world.ledger with committed } } := by
  have hfence : record.fence = current.fence := congrArg Prod.snd htoken
  constructor
  · rintro _ ⟨⟩
    exact hfence ▸ h.lease_le current hcurrent
  · exact h.granted_le
  · exact h.granted
  · rintro _ fence ⟨⟩ hlast
    exact hfence.trans (h.latest current fence hcurrent hlast)
  · intro publication hmem
    refine ⟨(h.published_le publication hmem).1, ?_⟩
    rintro _ ⟨⟩
    exact hfence ▸ (h.published_le publication hmem).2 current hcurrent
  · exact h.published
  · exact h.accepted
  · intro ending hending
    obtain ⟨hrightful, hle, hlt⟩ := h.ended ending hending
    refine ⟨hrightful, hle, ?_⟩
    rintro _ ⟨⟩
    exact hfence ▸ hlt current hcurrent
  · intro publication hmem
    refine (h.held publication hmem).imp_left ?_
    rintro ⟨lease, hlease, hsame⟩
    rw [hcurrent] at hlease
    cases hlease
    exact ⟨record, rfl, htoken.trans hsame⟩
  · exact h.follows

theorem publish {publication : Publication}
    (haccepted : Accepted setup publication) (hbefore : publication.before = world.volume)
    {manifest : Option (ℕ × Namespace)} :
    Fenced setup
      { volume := { world.volume with manifest }
        ledger := { world.ledger with
          published := world.ledger.published ++ [publication], committed } } := by
  have htoken : world.volume.lease = some publication.token := hbefore ▸ haccepted.token
  constructor
  · exact h.lease_le
  · exact h.granted_le
  · exact h.granted
  · exact h.latest
  · intro other hother
    rcases mem_append.mp hother with hother | hother
    · exact h.published_le other hother
    · rw [mem_singleton.mp hother]
      refine ⟨h.lease_le _ htoken, ?_⟩
      intro lease hlease
      rw [show world.volume.lease = some lease from hlease] at htoken
      cases htoken
      exact Nat.le_refl _
  · refine pairwise_append.mpr ⟨h.published, pairwise_singleton _ _, ?_⟩
    intro earlier hearlier later hlater
    rw [mem_singleton.mp hlater]
    exact (h.published_le earlier hearlier).2 _ htoken
  · intro other hother
    rcases mem_append.mp hother with hother | hother
    · exact h.accepted other hother
    · rw [mem_singleton.mp hother]
      exact haccepted
  · exact h.ended
  · intro other hother
    rcases mem_append.mp hother with hother | hother
    · exact h.held other hother
    · rw [mem_singleton.mp hother]
      exact .inl ⟨_, htoken, rfl⟩
  · refine pairwise_append.mpr ⟨h.follows, pairwise_singleton _ _, ?_⟩
    intro earlier hearlier later hlater
    rw [mem_singleton.mp hlater]
    rcases h.held earlier hearlier with ⟨lease, hlease, hsame⟩ | ⟨ending, hending, hsame⟩
    · rw [htoken] at hlease
      cases hlease
      exact .inl hsame.symm
    · obtain ⟨hrightful, -, hlt⟩ := h.ended ending hending
      have hfence : ending.lease.fence = earlier.token.fence := congrArg Prod.snd hsame
      exact .inr ⟨hfence ▸ hlt _ htoken, ending, hending, hsame, hrightful⟩

theorem sameLease {volume : Volume}
    (hlease : volume.lease = world.volume.lease) (hfence : volume.fence = world.volume.fence) :
    Fenced setup { volume, ledger := { world.ledger with committed } } := by
  have hlast : volume.lastFence = world.volume.lastFence := by simp [lastFence, hfence]
  constructor
  · simpa only [hlease, hlast] using h.lease_le
  · simpa only [hlast] using h.granted_le
  · exact h.granted
  · simpa only [hlease] using h.latest
  · simpa only [hlease, hlast] using h.published_le
  · exact h.published
  · exact h.accepted
  · simpa only [hlease, hlast] using h.ended
  · simpa only [hlease] using h.held
  · exact h.follows

end

end Fenced

/-! ## What a run keeps -/

/-- Time does not go back, the ledger grows, and without a commit nothing but the time
changes. -/
structure Extends (world next : World) : Prop where
  time : ∀ authorityMs, world.volume.authorityMs = some authorityMs →
    ∃ later, next.volume.authorityMs = some later ∧ authorityMs ≤ later
  granted : world.ledger.granted <+: next.ledger.granted
  published : world.ledger.published <+: next.ledger.published
  committed : world.ledger.committed <+: next.ledger.committed
  unchanged : next.ledger.committed = world.ledger.committed →
    next.volume = { world.volume with authorityMs := next.volume.authorityMs }

namespace Extends

variable {world next last : World}

theorem refl (world : World) : Extends world world :=
  ⟨fun authorityMs h => ⟨authorityMs, h, Nat.le_refl _⟩, prefix_rfl, prefix_rfl,
    prefix_rfl, fun _ => rfl⟩

theorem trans (h : Extends world next) (h' : Extends next last) : Extends world last where
  time := by
    intro authorityMs hauthority
    obtain ⟨later, hlater, hle⟩ := h.time authorityMs hauthority
    obtain ⟨latest, hlatest, hle'⟩ := h'.time later hlater
    exact ⟨latest, hlatest, hle.trans hle'⟩
  granted := h.granted.trans h'.granted
  published := h.published.trans h'.published
  committed := h.committed.trans h'.committed
  unchanged := by
    intro hsame
    have hnext : next.ledger.committed = world.ledger.committed :=
      (h.committed.eq_of_length_le (hsame ▸ h'.committed.length_le)).symm
    rw [h'.unchanged (hsame.trans hnext.symm), h.unchanged hnext]

end Extends

/-- A task may rely on nobody else committing in its name. -/
def protocol (setup : Setup) : Discipline World where
  inv := Fenced setup
  mono := Extends
  rely task world next := Extends world next ∧
    (task ∈ next.ledger.committed → task ∈ world.ledger.committed)
  fresh task world := task ∉ world.ledger.committed
  cancels := True
  mono_refl := Extends.refl
  mono_trans := Extends.trans
  rely_refl _ world := ⟨Extends.refl world, id⟩
  rely_trans h h' := ⟨h.1.trans h'.1, fun hmem => h.2 (h'.2 hmem)⟩
  fresh_stable h h' hmem := h (h'.2 hmem)

section Calls

variable {setup : Setup} {task : ℕ} {world : World} {next : World}

theorem move_commit {volume : Volume} {ledger : Ledger}
    (hnext : next = { volume, ledger := { ledger with committed := ledger.committed ++ [task] } })
    (hinv : Fenced setup next) (hcommitted : ledger.committed = world.ledger.committed)
    (htime : volume.authorityMs = world.volume.authorityMs)
    (hgranted : world.ledger.granted <+: ledger.granted)
    (hpublished : world.ledger.published <+: ledger.published) :
    (protocol setup).Move task world next := by
  subst hnext
  have hextends : Extends world
      { volume, ledger := { ledger with committed := ledger.committed ++ [task] } } := by
    refine ⟨fun authorityMs h => ⟨authorityMs, htime.trans h, Nat.le_refl _⟩, hgranted, hpublished,
      hcommitted ▸ prefix_append _ _, ?_⟩
    intro hsame
    simp [hcommitted] at hsame
  refine ⟨hinv, hextends, fun other hother => ⟨hextends, ?_⟩⟩
  intro hmem
  rcases mem_append.mp hmem with hmem | hmem
  · exact hcommitted ▸ hmem
  · exact (hother (mem_singleton.mp hmem)).elim

/-- Whether the call of a task has taken effect, from its result. -/
def Settled (task : ℕ) {α : Type} (result : Except FsError α) (world : World) : Prop :=
  match result with
  | .ok _ => task ∈ world.ledger.committed
  | .error e => (∀ code message, e ≠ ambiguousCommitError code message) →
      task ∉ world.ledger.committed

variable {α : Type}

theorem Settled.error {e : FsError} (h : task ∉ world.ledger.committed) :
    Settled task (.error e : Except FsError α) world :=
  fun _ => h

/-- A call that ends settled. -/
def Settles (setup : Setup) (task : ℕ) (p : Call α) (world : World) : Prop :=
  (protocol setup).wp task p (Settled task) (fun _ => True) world

variable {β : Type}

theorem Settles.lift {x : Result α} {f : α → Call β} (hfresh : task ∉ world.ledger.committed)
    (h : ∀ a, x = .ok a → Settles setup task (f a) world) :
    Settles setup task (liftM x >>= f) world :=
  wp_lift_bind h fun _ _ => .error hfresh

theorem Settles.map {p : Call α} (f : α → β) (h : Settles setup task p world) :
    Settles setup task (do return f (← p)) world :=
  wp_bind h (fun _ _ h => wp_pure.mpr h) (fun _ _ h => h)

theorem transactMetadata_wp {body : Volume → Result (α × Volume)}
    {note : α → Volume → Volume → Ledger → Ledger} (hfresh : task ∉ world.ledger.committed)
    (hbody : ∀ current a volume, Extends world current → Fenced setup current →
      body current.volume = .ok (a, volume) →
      Fenced setup
          { volume
            ledger := { note a current.volume volume current.ledger with
              committed := current.ledger.committed ++ [task] } } ∧
        volume.authorityMs = current.volume.authorityMs ∧
        (note a current.volume volume current.ledger).committed = current.ledger.committed ∧
        current.ledger.granted <+: (note a current.volume volume current.ledger).granted ∧
        current.ledger.published <+: (note a current.volume volume current.ledger).published) :
    Settles setup task (transactMetadata task body note) world := by
  refine wp_atomic (fun current hrely hinv answer => ?_) fun _ _ _ => trivial
  have huncommitted : task ∉ current.ledger.committed := fun hmem => hfresh (hrely.2 hmem)
  split
  · exact ⟨.refl hinv, .error huncommitted⟩
  · exact ⟨.refl hinv, .error huncommitted⟩
  · rename_i a volume hok _
    obtain ⟨hfenced, htime, hcommitted, hgranted, hpublished⟩ :=
      hbody current a volume hrely.1 hinv hok
    dsimp only
    refine ⟨move_commit rfl ?_ hcommitted htime hgranted hpublished, ?_⟩
    · rw [hcommitted]
      exact hfenced
    · cases answer.outcome with
      | acknowledged | refused => simp [Settled]
      | lost code message =>
        intro hnot
        exact (hnot code message rfl).elim

theorem advanceAuthority_wp {f : Answer → Option ℕ → Result ℕ}
    (hf : ∀ answer current nowMs, f answer current = .ok nowMs → current.getD 0 ≤ nowMs)
    (hfresh : task ∉ world.ledger.committed) :
    (protocol setup).wp task (advanceAuthority f) (fun result next => task ∉ next.ledger.committed ∧
        ∀ nowMs, result = .ok nowMs → next.volume.authorityMs = some nowMs)
      (fun _ => True) world := by
  refine wp_atomic (fun current hrely hinv answer => ?_) fun _ _ _ => trivial
  have huncommitted : task ∉ current.ledger.committed := fun hmem => hfresh (hrely.2 hmem)
  split
  · exact ⟨.refl hinv, huncommitted, nofun⟩
  · exact ⟨.refl hinv, huncommitted, nofun⟩
  · rename_i nowMs hok _
    have hextends : Extends current
        { current with volume := { current.volume with authorityMs := some nowMs } } := by
      refine ⟨?_, prefix_rfl, prefix_rfl, prefix_rfl, fun _ => rfl⟩
      intro authorityMs hauthority
      refine ⟨nowMs, rfl, ?_⟩
      simpa [hauthority] using hf answer _ nowMs hok
    refine ⟨⟨.sameLease hinv rfl rfl, hextends, fun _ _ => ⟨hextends, id⟩⟩, huncommitted, ?_⟩
    intro later hlater
    cases houtcome : answer.outcome with
    | lost => simp [houtcome] at hlater
    | acknowledged | refused => simpa [houtcome] using hlater

/-- The time that a client has in hand is an authority time. -/
def Sampled (oracle : LeaseOracle) (sampled : Option ℕ) (world : World) : Prop :=
  match oracle with
  | .shared => sampled = none
  | .persisted => ∃ nowMs authorityMs, sampled = some nowMs ∧
      world.volume.authorityMs = some authorityMs ∧ nowMs ≤ authorityMs

variable {oracle : LeaseOracle} {sampled : Option ℕ}

theorem Sampled.mono (h : Sampled oracle sampled world) (hextends : Extends world next) :
    Sampled oracle sampled next := by
  cases oracle with
  | shared => exact h
  | persisted =>
    obtain ⟨nowMs, authorityMs, hsampled, hauthority, hle⟩ := h
    obtain ⟨later, hlater, hle'⟩ := hextends.time authorityMs hauthority
    exact ⟨nowMs, later, hsampled, hlater, hle.trans hle'⟩

theorem Sampled.time {nowMs : ℕ} (h : Sampled oracle sampled world)
    (hnow : nowMsInTransaction sampled world.volume = .ok nowMs) :
    ∃ authorityMs, world.volume.authorityMs = some authorityMs ∧ nowMs ≤ authorityMs ∧
      (oracle = .shared → nowMs = authorityMs) := by
  cases oracle with
  | shared =>
    cases h
    exact ⟨nowMs, okOr_eq_ok.mp hnow, Nat.le_refl _, fun _ => rfl⟩
  | persisted =>
    obtain ⟨_, authorityMs, rfl, hauthority, hle⟩ := h
    cases hnow
    exact ⟨authorityMs, hauthority, hle, nofun⟩

variable (hfresh : task ∉ world.ledger.committed)
include hfresh

theorem sample_wp : (protocol setup).wp task oracle.sample
      (fun result next => task ∉ next.ledger.committed ∧
        ∀ sampled, result = .ok sampled → Sampled oracle sampled next)
      (fun _ => True) world := by
  cases oracle with
  | shared =>
    refine wp_pure.mpr ⟨hfresh, ?_⟩
    intro sampled h
    cases h
    rfl
  | persisted =>
    refine wp_bind (advanceAuthority_wp ?_ hfresh) ?_ ?_
    · intro answer current nowMs hok
      simp only [bind_eq_ok, pure_eq_ok] at hok
      obtain ⟨_, -, rfl⟩ := hok
      exact le_max_left _ _
    · rintro nowMs _ ⟨huncommitted, htime⟩
      refine wp_pure.mpr ⟨huncommitted, ?_⟩
      intro sampled h
      cases h
      exact ⟨nowMs, nowMs, rfl, htime nowMs rfl, Nat.le_refl _⟩
    · rintro _ _ ⟨huncommitted, -⟩
      exact ⟨huncommitted, nofun⟩

theorem Settles.sample {f : Option ℕ → Call α}
    (h : ∀ sampled next, task ∉ next.ledger.committed → Sampled oracle sampled next →
      Settles setup task (f sampled) next) : Settles setup task (oracle.sample >>= f) world :=
  wp_bind (sample_wp hfresh) (fun sampled next hnext => h sampled next hnext.1 (hnext.2 sampled rfl))
    (fun _ _ h => .error h.1)

variable {client : Client} {ttlMs : ℕ}

theorem acquireWriter_wp {owner : String} :
    Settles setup task (client.acquireWriter task owner ttlMs) world := by
  refine .lift hfresh fun _ _ => ?_
  refine .lift hfresh fun ttlMs _ => ?_
  refine .lift hfresh fun oracle _ => ?_
  refine .sample hfresh fun sampled next huncommitted hsampled => ?_
  refine (transactMetadata_wp huncommitted ?_).map _
  intro current record volume hextends hinv hok
  obtain ⟨hlast, hexpired, rfl⟩ := acquire_eq_ok hok
  refine ⟨hinv.acquire hlast fun lease hlease => ?_, rfl, rfl, prefix_append _ _, prefix_rfl⟩
  obtain ⟨nowMs, hnow, hle⟩ := hexpired lease hlease
  obtain ⟨authorityMs, hauthority, hle', -⟩ := (hsampled.mono hextends).time hnow
  exact ⟨authorityMs, hauthority, hle.trans hle'⟩

variable {lease : WriterLease}

theorem renewWriter_wp :
    Settles setup task (client.renewWriter task lease ttlMs) world := by
  refine .lift hfresh fun requested _ => ?_
  refine .lift hfresh fun ttlMs _ => ?_
  refine .lift hfresh fun oracle _ => ?_
  refine .sample hfresh fun sampled next huncommitted _ => ?_
  refine (transactMetadata_wp huncommitted ?_).map _
  intro current record volume _ hinv hok
  obtain ⟨hlease, ⟨howner, hfence⟩, rfl⟩ := renew_eq_ok hok
  exact ⟨hinv.renew hlease (Prod.ext howner hfence), rfl, rfl, prefix_rfl, prefix_rfl⟩

theorem releaseWriter_wp :
    Settles setup task (client.releaseWriter task lease) world := by
  refine .lift hfresh fun requested _ => ?_
  refine .lift hfresh fun oracle _ => ?_
  refine .sample hfresh fun sampled next huncommitted _ => ?_
  refine transactMetadata_wp huncommitted ?_
  intro current u volume _ hinv hok
  cases release_eq_ok hok
  exact ⟨hinv.release, rfl, rfl, prefix_rfl, prefix_rfl⟩

variable {expectedRevision : ℕ} {ns : Namespace}

theorem publish_wp (hrequest : setup.requests task = .publish expectedRevision lease ns) :
    Settles setup task ((setup.clients task).publish task expectedRevision lease ns) world := by
  refine .lift hfresh fun _ _ => ?_
  refine .lift hfresh fun _ _ => ?_
  refine .lift hfresh fun nextRevision hnext => ?_
  refine .lift hfresh fun requested hrequested => ?_
  refine .lift hfresh fun oracle horacle => ?_
  refine .sample hfresh fun sampled next huncommitted hsampled => ?_
  refine (transactMetadata_wp huncommitted ?_).map _
  rintro _ ⟨_, _⟩ _ hextends hinv hok
  obtain ⟨hnow, hlease, hlive, hrevision, rfl, rfl⟩ := publish_eq_ok hok
  obtain ⟨-, rfl⟩ := checkedAdd_eq_some.mp (okOr_eq_ok.mp hnext)
  have hshared := okOr_eq_ok.mp horacle
  obtain ⟨authorityMs, hauthority, hle, heq⟩ := (hsampled.mono hextends).time hnow
  refine ⟨hinv.publish ⟨?_, hlease, hlive, lease, ns, ?_, hrequested, ?_⟩ rfl, rfl, rfl,
    prefix_rfl, prefix_append _ _⟩
  · refine ⟨authorityMs, hauthority, hle, ?_⟩
    intro hclient
    rw [hshared] at hclient
    cases hclient
    exact heq rfl
  · rw [hrevision]
    exact hrequest
  · rw [hrevision]

theorem publishBoundIfRevision_wp {backing : ConcurrentBackingId} :
    Settles setup task (client.publishBoundIfRevision task backing expectedRevision ns) world := by
  refine .lift hfresh fun _ _ => ?_
  refine .lift hfresh fun _ _ => ?_
  refine .lift hfresh fun nextRevision _ => ?_
  refine transactMetadata_wp hfresh ?_
  intro current revision volume _ hinv hok
  obtain ⟨-, -, rfl⟩ := publishBound_eq_ok hok
  exact ⟨hinv.sameLease rfl rfl, rfl, rfl, prefix_rfl, prefix_rfl⟩

end Calls

/-! ## Runs -/

/-- What the answer of a request says about its effect. -/
def Answered (setup : Setup) (task : ℕ) (result : Except FsError Value) (world : World) : Prop :=
  (setup.requests task).isMetadata = true → Settled task result world

section Runs

variable (setup : Setup) {task : ℕ} {world : World}

theorem program_wp (hfresh : task ∉ world.ledger.committed) :
    (protocol setup).wp task ((setup.requests task).program (setup.clients task) task)
      (Answered setup task) (fun _ => True) world := by
  -- A call of the provider hands its effect on to the answer.
  have hcall : ∀ {α : Type} {p : Call α} {f : α → Value}, Settles setup task p world →
      (protocol setup).wp task (do return f (← p)) (Answered setup task) (fun _ => True) world :=
    fun h => wp_bind h (fun _ _ h => wp_pure.mpr fun _ => h) (fun _ _ h _ => h)
  cases hrequest : setup.requests task with
  | acquireWriter => exact hcall (acquireWriter_wp hfresh)
  | renewWriter => exact hcall (renewWriter_wp hfresh)
  | releaseWriter => exact hcall (f := fun _ => .unit) (releaseWriter_wp hfresh)
  | publish => exact hcall (publish_wp hfresh hrequest)
  | publishBound => exact hcall (publishBoundIfRevision_wp hfresh)
  | publishNowMs proposed maxForwardJumpMs =>
    have htime : ∀ (result : Except FsError Value) next, Answered setup task result next := by
      intro result next hmetadata
      rw [hrequest] at hmetadata
      cases hmetadata
    have hsample : (protocol setup).wp task (publishNowMs proposed maxForwardJumpMs)
        (fun _ _ => True) (fun _ => True) world := by
      refine wp_lift_bind (fun _ _ => ?_) fun _ _ => trivial
      refine wp_mono (advanceAuthority_wp ?_ hfresh) (fun _ _ _ => trivial)
        fun _ h => h
      intro answer current nowMs hok
      simp only [authorityTimeSample, bind_eq_ok, pure_eq_ok] at hok
      obtain ⟨-, -, -, -, rfl⟩ := hok
      exact le_max_left _ _
    exact wp_bind hsample (fun _ _ _ => wp_pure.mpr (htime _ _)) fun _ _ _ => htime _ _
  | readTime =>
    have htime : ∀ (result : Except FsError Value) next, Answered setup task result next := by
      intro result next hmetadata
      rw [hrequest] at hmetadata
      cases hmetadata
    refine wp_bind (advanceAuthority_wp ?_ hfresh)
      (fun _ _ _ => wp_pure.mpr (htime _ _)) fun _ _ _ => htime _ _
    intro answer current nowMs hok
    simp only [bind_eq_ok, pure_eq_ok] at hok
    obtain ⟨_, -, rfl⟩ := hok
    exact le_max_left _ _

theorem service_sound : Discipline.Sound (protocol setup) setup.service (Answered setup) where
  stable := by
    intro task result world next hrely _ h hmetadata
    have hsettled := h hmetadata
    cases result with
    | ok => exact hrely.1.committed.subset hsettled
    | error e => exact fun hnot hmem => hsettled hnot (hrely.2 hmem)
  arrive := fun _ _ _ hinv hfresh => ⟨.refl hinv, program_wp setup hfresh⟩
  disturb := fun disturbance => disturbance.elim

/-- The record of the last fence covers the lease on record. Every acquisition writes
both, and a new volume has neither. -/
def Volume.Covered (volume : Volume) : Prop :=
  ∀ lease, volume.lease = some lease → lease.fence ≤ volume.lastFence

variable {volume : Volume}

theorem startPool_safe (hcovered : volume.Covered) :
    Discipline.Safe (protocol setup) (Answered setup) (startPool volume) where
  inv := by
    constructor
    · exact hcovered
    all_goals simp [startPool]
  task := by
    intro i p hp
    simp [startPool] at hp
  fresh := by simp [startPool, protocol]

theorem run_safe (hcovered : volume.Covered) (schedule : List (Event Answer Unit Empty)) :
    Discipline.Safe (protocol setup) (Answered setup)
      ((startPool volume).run setup.service schedule) :=
  ((startPool_safe setup hcovered).run (service_sound setup) schedule fun _ _ _ => trivial).1

theorem run_extends (hcovered : volume.Covered) (earlier later : List (Event Answer Unit Empty)) :
    Extends ((startPool volume).run setup.service earlier).shared
      ((startPool volume).run setup.service (earlier ++ later)).shared := by
  have hrun := ((run_safe setup hcovered earlier).run (service_sound setup) later
    fun _ _ _ => trivial).2
  unfold Pool.run at hrun ⊢
  rw [foldl_append]
  exact hrun

/-- From any volume whose fence record covers its lease, in every run and whatever
follows it:
* the authority time does not go back;
* the fences of the grants strictly increase, and the lease on record is the last one;
* a publication with another token than an accepted one is accepted only with a higher
  fence, after the lease of the other token was released or had expired at the authority
  time of a grant;
* every accepted publication had the lease on record as its token, unexpired at an
  authority time that it read, and raised the revision that it expected by one;
* the fences of successive publications do not decrease;
* a call that succeeds has committed, and one that fails has not, unless it reports an
  ambiguous outcome;
* where nothing commits, the lease, the fence and the published namespace stay. -/
theorem lease_protocol_holds {volume : Volume} (hcovered : volume.Covered)
    (earlier later : List (Event Answer Unit Empty)) :
    let pool := (startPool volume).run setup.service earlier
    let next := (startPool volume).run setup.service (earlier ++ later)
    (∀ nowMs, pool.shared.volume.authorityMs = some nowMs →
        ∃ laterMs, next.shared.volume.authorityMs = some laterMs ∧ nowMs ≤ laterMs) ∧
      pool.shared.ledger.granted.Pairwise (· < ·) ∧
      (∀ lease fence, pool.shared.volume.lease = some lease →
        pool.shared.ledger.granted.getLast? = some fence → lease.fence = fence) ∧
      pool.shared.ledger.published.Pairwise (Follows pool.shared.ledger) ∧
      (∀ publication ∈ pool.shared.ledger.published, Accepted setup publication) ∧
      (pool.shared.ledger.published.map fun publication => publication.token.fence).Pairwise
        (· ≤ ·) ∧
      (∀ task result, pool.answer task = some result → (setup.requests task).isMetadata = true →
        Settled task result pool.shared) ∧
      (next.shared.ledger.committed = pool.shared.ledger.committed →
        next.shared.volume.lease = pool.shared.volume.lease ∧
          next.shared.volume.fence = pool.shared.volume.fence ∧
          next.shared.volume.manifest = pool.shared.volume.manifest) := by
  intro pool next
  have hsafe := run_safe setup hcovered earlier
  have hinv : Fenced setup pool.shared := hsafe.inv
  have hextends := run_extends setup hcovered earlier later
  refine ⟨hextends.time, hinv.granted, hinv.latest, hinv.follows, hinv.accepted, ?_, ?_, ?_⟩
  · exact List.pairwise_map.mpr hinv.published
  · intro task result hanswer
    exact hsafe.answer hanswer
  · intro hsame
    have hunchanged := hextends.unchanged hsame
    have hlease := congrArg Volume.lease hunchanged
    have hfence := congrArg Volume.fence hunchanged
    have hmanifest := congrArg Volume.manifest hunchanged
    exact ⟨hlease, hfence, hmanifest⟩

end Runs

/-! ## Runs of two writers -/

def emptyVolume : Volume :=
  { authorityMs := none, mode := none, backing := none, lease := none, fence := none
    manifest := none }

/-- The writer `a` publishes and releases its lease, and `b` publishes under the next one; the
last task reads the time. -/
def handoverSetup : Setup :=
  { requests := fun task =>
      match task with
      | 0 => .acquireWriter "a" 100
      | 1 => .publish 0 { owner := "a", fence := 1, expiresAtMs := 105 } emptyRoot
      | 2 => .releaseWriter { owner := "a", fence := 1, expiresAtMs := 105 }
      | 3 => .acquireWriter "b" 100
      | 4 => .publish 1 { owner := "b", fence := 2, expiresAtMs := 105 } emptyRoot
      | _ => .readTime
    clients := fun _ => { oracle := some .persisted, fits := fun _ => .ok () } }

def deliver (clock : ℕ) : Answer := { outcome := .acknowledged, clock := .ok clock }

/-- The time is read, and the commit ends as given. -/
def callEvents (task : ℕ) (outcome : Outcome) : List (Event Answer Unit Empty) :=
  [.spawn (), .run task (deliver 5), .run task { outcome, clock := .ok 5 }]

/-- All calls one after the other, while the clocks show the same time. -/
def handover : Pool World Answer FsError Value :=
  (startPool emptyVolume).run handoverSetup.service
    ([0, 1, 2, 3, 4].flatMap fun task => callEvents task .acknowledged)

/-- The acknowledgement of the first publication is lost. -/
def lostPublication : Pool World Answer FsError Value :=
  (startPool emptyVolume).run handoverSetup.service
    (callEvents 0 .acknowledged ++ callEvents 1 (.lost 1021 "commit_unknown_result"))

/-- The time moves on from 5 to 200 between the first reading of `a` and its commit. -/
def lateCommit : Pool World Answer FsError Value :=
  (startPool emptyVolume).run handoverSetup.service
    (callEvents 0 .acknowledged ++ [.spawn (), .run 1 (deliver 5), .spawn (), .spawn (), .spawn (),
      .spawn (), .run 5 (deliver 200), .run 1 (deliver 200)])

/-- A call that fails may have published, two tokens may be accepted at one authority time, and
a token may be accepted that has expired when the publication commits. -/
theorem lease_clauses_fail :
    (lostPublication.answer 1 =
        some (.error (ambiguousCommitError 1021 "commit_unknown_result")) ∧
      lostPublication.shared.volume.revision = 1) ∧
    (handover.shared.ledger.published.map fun publication =>
        (publication.token.token, publication.nowMs, publication.before.authorityMs)) =
      [(("a", 1), 5, some 5), (("b", 2), 5, some 5)] ∧
    lateCommit.answer 1 = some (.ok (.revision 1)) ∧
      (lateCommit.shared.ledger.published.map fun publication =>
        (publication.token.expiresAtMs, publication.before.authorityMs)) = [(105, some 200)] := by
  decide +kernel

theorem lease_protocol_holds_handover :
    handover.answer 4 = some (.ok (.revision 2)) ∧ handover.shared.ledger.granted = [1, 2] ∧
      handover.shared.ledger.published.length = 2 ∧
      handover.shared.ledger.published.Pairwise (Follows handover.shared.ledger) ∧
      ∀ publication ∈ handover.shared.ledger.published, Accepted handoverSetup publication := by
  have hcovered : emptyVolume.Covered := fun _ h => by cases h
  obtain ⟨-, -, -, hfollows, haccepted, -⟩ := lease_protocol_holds handoverSetup hcovered
    ([0, 1, 2, 3, 4].flatMap fun task => callEvents task .acknowledged) []
  exact ⟨by decide +kernel, by decide +kernel, by decide +kernel, hfollows, haccepted⟩

end MountRs.FoundationDb
