import MountRs.Verification.Guarded.History

/-! # Calls of a guarded request

Leases and refreshes publish nothing. A publication that the store accepts replaces the
namespace that the request was checked on. -/

namespace MountRs.Chunked.Guarded

open Discipline RuntimeState GuardedSetup

variable {setup : GuardedSetup} {start : Store} {i : ℕ} {s t : World} {α β : Type}

/-! ## Quiet programs -/

/-- Every step is quiet, and errors are not those of guarded edits. -/
abbrev Quietly (setup : GuardedSetup) (start : Store) (p : Call α) (P : Result α → Prop) : Prop :=
  Steps (Consistent setup start) Quiet p P

def Benign (result : Result α) : Prop := ∀ e, result = .error e → Foreign e

@[simp] theorem benign_ok (a : α) : Benign (.ok a : Result α) := nofun

variable {e : FsError}

@[simp] theorem benign_error : Benign (.error e : Result α) ↔ Foreign e :=
  ⟨fun h => h e rfl, fun h _ he => by cases he; exact h⟩

variable {syscall : String}

theorem foreign_withContext (path : Option String) (h : syscall ∉ guardSyscalls) :
    Foreign (withContext e syscall path) := by
  intro other hother heq
  have hsyscall : (withContext e syscall path).syscall = some syscall := by
    cases path <;> rfl
  rw [hsyscall] at heq
  cases heq
  exact h hother

theorem foreign_of_syscall (he : e.syscall = some syscall) (h : syscall ∉ guardSyscalls) :
    Foreign e := by
  intro other hother heq
  rw [he] at heq
  cases heq
  exact h hother

theorem foreign_of_none (he : e.syscall = none) : Foreign e := by
  intro other _ heq
  rw [he] at heq
  cases heq

variable {P : Result α → Prop}

theorem quietly_atomic {f : Answer → World → Result α × World}
    (h : ∀ answer s, Consistent setup start s → Quiet s (f answer s).2 ∧ P (f answer s).1) :
    Quietly setup start (Async.atomic f) P :=
  steps_atomic (fun s _ => .refl s) h

theorem quietly_inspect {f : Answer → World → Result α}
    (h : ∀ answer s, Consistent setup start s → P (f answer s)) (herror : ∀ e, P (.error e)) :
    Quietly setup start (inspect f) P := by
  refine quietly_atomic fun answer s hs => ?_
  cases answer.fault with
  | none => exact ⟨.refl s, h answer s hs⟩
  | refuse e | lose e => exact ⟨.refl s, herror e⟩

section Caller

variable (self : Caller)

theorem quietly_locked {f : RuntimeState → Result α × RuntimeState}
    (h : ∀ state, (∀ e, state.failure = some e → Foreign e) →
      SameCache state (f state).2 ∧ P (f state).1) : Quietly setup start (self.locked f) P := by
  refine quietly_atomic fun _ s hs => ?_
  obtain ⟨hsame, hP⟩ := h (s.fs self.fs).state (hs.failure self.fs)
  exact ⟨.setState _ hsame, hP⟩

variable {e : FsError}

theorem quietly_failClosed (he : Foreign e) (hP : P (.error e)) :
    Quietly setup start (self.failClosed e : Call α) P :=
  quietly_locked self fun state _ => ⟨.failWith state he, hP⟩

theorem usable_benign {state : RuntimeState} (h : ∀ e, state.failure = some e → Foreign e) :
    Benign state.usable := by
  unfold usable
  split
  · rename_i e hfailure
    exact benign_error.mpr (h e hfailure)
  · split_ifs
    · exact benign_error.mpr (foreign_of_none rfl)
    · exact benign_ok ()

theorem quietly_checkRuntime : Quietly setup start self.checkRuntime Benign :=
  quietly_locked self fun _ h => ⟨.refl _, usable_benign h⟩

/-! ## Leases -/

theorem quiet_lease (s : World) (lease : Option WriterLease) (fence : ℕ) :
    Quiet s { s with store := { s.store with lease, fence } } := { Quiet.refl s with }

theorem quiet_record (s : World) (record : Record) (h : ∀ commit, record ≠ .structural commit) :
    Quiet s (s.record record) := by
  refine { Quiet.refl s with log := ⟨[record], rfl, fun commit hmem => ?_⟩ }
  exact h commit (List.mem_singleton.mp hmem).symm

theorem quietly_acquireWriter : Quietly setup start (acquireWriter self) fun _ => True := by
  refine quietly_atomic fun answer s _ => ⟨?_, trivial⟩
  have hgranted := (quiet_lease s (some { owner := self.options.owner, fence := s.store.fence + 1
                                          expiresAtMs := (answer.clock 0).toNat })
    (s.store.fence + 1)).trans (quiet_record _ (.acquired self.fs (s.store.fence + 1)) (by simp))
  dsimp only
  split
  · split_ifs
    · exact .refl s
    · exact hgranted
  · exact .refl s
  · split_ifs
    · exact .refl s
    · exact hgranted

theorem quietly_renewWriter (lease : WriterLease) :
    Quietly setup start (renewWriter lease) fun _ => True := by
  refine quietly_atomic fun answer s _ => ⟨?_, trivial⟩
  dsimp only
  split
  · split_ifs
    · exact quiet_lease s _ s.store.fence
    · exact .refl s
  · exact .refl s
  · split_ifs
    · exact quiet_lease s _ s.store.fence
    · exact .refl s

theorem quietly_releaseWriter (lease : WriterLease) :
    Quietly setup start (releaseWriter lease) fun _ => True := by
  refine quietly_atomic fun answer s _ => ⟨?_, trivial⟩
  dsimp only
  split
  · split_ifs
    · exact quiet_lease s _ s.store.fence
    · exact .refl s
  · exact .refl s
  · split_ifs
    · exact .refl s
    · exact quiet_lease s _ s.store.fence
    · exact .refl s

theorem quietly_giveUp (acquired : WriterLease) (he : Foreign e) :
    Quietly setup start (self.leaseCalls.giveUp acquired e : Call α) Benign :=
  steps_attempt_bind (quietly_releaseWriter acquired) fun _ _ =>
    quietly_failClosed self he (benign_error.mpr he)

theorem quietly_reacquireExpiredLease (current : WriterLease) :
    Quietly setup start (self.leaseCalls.reacquireExpiredLease current) Benign := by
  have hacquire : ∀ {e : FsError}, e.syscall = some "lease-acquire" → Foreign e := fun he =>
    foreign_of_syscall he (by decide)
  unfold LeaseCalls.reacquireExpiredLease
  refine steps_bind (P := Benign) ?_ (fun acquired _ => ?_) fun _ he => benign_error.mpr (he _ rfl)
  · refine steps_attempt_bind (quietly_acquireWriter self) fun result _ => ?_
    cases result with
    | ok => exact steps_pure.mpr (benign_ok _)
    | error e =>
      dsimp only
      split_ifs
      · exact quietly_failClosed self (hacquire rfl) (benign_error.mpr (hacquire rfl))
      · have he := foreign_withContext (e := e) none (by decide : "lease-acquire" ∉ guardSyscalls)
        exact quietly_failClosed self he (benign_error.mpr he)
  · dsimp only
    split_ifs
    · exact quietly_giveUp self acquired (hacquire rfl)
    · exact quietly_giveUp self acquired (hacquire rfl)
    · refine steps_bind (P := Benign) ?_ (fun loaded _ => ?_)
        fun _ he => benign_error.mpr (he _ rfl)
      · refine steps_attempt_bind (P := fun _ => True)
          (quietly_inspect (fun _ _ _ => trivial) fun _ => trivial) fun result _ => ?_
        cases result with
        | ok => exact steps_pure.mpr (benign_ok _)
        | error e =>
          exact quietly_giveUp self acquired (foreign_withContext none (by decide))
      · split
        · exact quietly_giveUp self acquired (foreign_withContext none (by decide))
        · refine steps_bind (P := Benign) ?_ (fun revision _ => ?_)
            fun _ he => benign_error.mpr (he _ rfl)
          · refine steps_attempt_bind (P := Benign) ?_ fun result hresult => ?_
            · dsimp only [Caller.leaseCalls]
              refine quietly_locked self fun state hfailure => ⟨.refl _, ?_⟩
              unfold checkPersisted
              split
              · rename_i e he
                exact benign_error.mpr (hfailure e he)
              · split_ifs
                · exact benign_error.mpr (hacquire rfl)
                · exact benign_ok _
            · cases result with
              | ok => exact steps_pure.mpr (benign_ok _)
              | error e => exact quietly_giveUp self acquired (hresult e rfl)
          · split_ifs
            · exact quietly_giveUp self acquired (hacquire rfl)
            · refine quietly_atomic fun _ s _ => ⟨?_, benign_ok _⟩
              have hlease : Quiet s (s.setFs self.fs { s.fs self.fs with
                  lease := some acquired, leaseRenewed := true }) :=
                .setFs self.fs (.refl _)
              exact hlease.trans (quiet_record _ (.resumed self.fs acquired.fence) (by simp))

theorem quietly_renewLeaseInner (force : Bool) :
    Quietly setup start (self.leaseCalls.renewLeaseInner force) Benign := by
  unfold LeaseCalls.renewLeaseInner
  refine steps_bind (P := Benign) ?_ (fun current _ => ?_) fun _ he => benign_error.mpr (he _ rfl)
  · refine quietly_atomic fun _ s _ => ⟨.refl s, fun e he => ?_⟩
    obtain ⟨_, rfl⟩ := Except.okOr_eq_error.mp he
    exact foreign_of_none rfl
  · refine steps_bind (P := Benign)
      (quietly_atomic fun _ s _ => ⟨.refl s, benign_ok _⟩) (fun fresh _ => ?_)
      fun _ he => benign_error.mpr (he _ rfl)
    split_ifs
    · exact steps_pure.mpr (benign_ok _)
    · refine steps_attempt_bind (quietly_renewWriter current) fun result _ => ?_
      cases result with
      | ok =>
        exact quietly_atomic fun _ s _ =>
          ⟨.setFs self.fs (.refl _), benign_ok _⟩
      | error e =>
        dsimp only
        split_ifs
        · exact quietly_reacquireExpiredLease self current
        · have he := foreign_withContext (e := e) none (by decide : "lease-renew" ∉ guardSyscalls)
          exact quietly_failClosed self he (benign_error.mpr he)

theorem quietly_renewLease : Quietly setup start self.renewLease Benign := by
  refine steps_withLock (fun s _ => .refl s) (fun _ _ hs h => h.consistent hs) .trans
    (fun s _ => .setFs self.fs (.refl _)) (fun s _ => ?_)
    (quietly_renewLeaseInner self false)
  dsimp only
  split_ifs
  · exact .setFs self.fs (.refl _)
  · exact .refl s

end Caller

/-! ## Programs that keep a fact -/

/-- The other tasks and quiet steps do not take it away. -/
structure Stable (i : ℕ) (K : World → Prop) : Prop where
  respects : ∀ {s t}, Respects i s t → K s → K t
  quiet : ∀ {s t}, Quiet s t → K s → K t

/-- The program keeps `K`, its result satisfies `P`, and its errors are benign. -/
def Runs (setup : GuardedSetup) (start : Store) (i : ℕ) (K : World → Prop) (p : Call α)
    (P : α → World → Prop) (s : World) : Prop :=
  (guarding setup start).wp i p (fun result t => K t ∧ match result with
    | .ok a => P a t
    | .error e => Foreign e) (fun _ => True) s

theorem unpublished_stable : Stable i (Unpublished i) :=
  ⟨fun h hs => h.unpublished hs, fun h hs => (h.respects i).unpublished hs⟩

variable {K : World → Prop}

theorem Runs.quietly (hK : Stable i K) {p : Call α} (h : Quietly setup start p Benign) (hs : K s) :
    Runs setup start i K p (fun _ _ => True) s := by
  refine wp_mono (wp_steps (fun _ hinv => hinv) (fun hinv hq => hq.move hinv)
    (fun hrely _ => hK.respects hrely) (fun _ hq => hK.quiet hq) h hs) ?_ fun _ _ => trivial
  rintro result t ⟨ht, hresult⟩
  cases result with
  | ok a => exact ⟨ht, trivial⟩
  | error e => exact ⟨ht, hresult e rfl⟩

theorem Runs.bind {P : α → World → Prop} {P' : β → World → Prop} {p : Call α} {f : α → Call β}
    (h : Runs setup start i K p P s) (hf : ∀ a t, K t → P a t → Runs setup start i K (f a) P' t) :
    Runs setup start i K (p >>= f) P' s :=
  wp_bind h (fun a t ht => hf a t ht.1 ht.2) (fun _ _ ht => ht)

theorem Runs.failClosed (hK : Stable i K) (self : Caller) (he : Foreign e) {P : α → World → Prop}
    (hs : K s) :
    Runs setup start i K (self.failClosed e) P s := by
  refine wp_mono (wp_steps (P := fun result : Result α => result = .error e)
    (fun _ hinv => hinv) (fun hinv hq => hq.move hinv) (fun hrely _ => hK.respects hrely)
    (fun _ hq => hK.quiet hq) (quietly_failClosed self he rfl) hs) ?_ fun _ _ => trivial
  rintro _ _ ⟨ht, rfl⟩
  exact ⟨ht, he⟩

theorem runs_yield (hK : Stable i K) (hs : K s) :
    Runs setup start i K Async.yield (fun _ _ => True) s :=
  .quietly hK (quietly_atomic fun _ t _ => ⟨.refl t, benign_ok _⟩) hs

/-! ## Refreshes -/

section Refresh

variable (self : Caller) {K : World → Prop}

theorem runs_load (hK : Stable i K) (known : ℕ) (hs : K s) :
    Runs setup start i K ((metadataLoadIfChanged known).orElse fun e =>
      self.failClosed (withContext e "metadata-load" none)) (fun loaded t => ∀ metadata,
        loaded = some metadata → ∃ ns, metadata.ns = some ns ∧
          Committed start t metadata.revision ns) s := by
  refine wp_orElse (Q := fun result t => K t ∧ ∀ metadata, result = .ok (some metadata) →
    ∃ ns, metadata.ns = some ns ∧ Committed start t metadata.revision ns) ?_ ?_ ?_
  · refine wp_atomic (fun t hrely hinv answer => ?_) fun _ _ _ => trivial
    have ht := hK.respects hrely hs
    dsimp only
    split
    · refine ⟨.refl hinv, ht, fun metadata hmetadata => ?_⟩
      split_ifs at hmetadata with hbrief
      · cases hmetadata
      · cases hmetadata
        exact ⟨t.store.ns, rfl, hinv.current⟩
    · exact ⟨.refl hinv, ht, nofun⟩
    · exact ⟨.refl hinv, ht, nofun⟩
  · rintro _ _ ⟨ht, hloaded⟩
    exact ⟨ht, fun metadata hmetadata => hloaded metadata (by rw [hmetadata])⟩
  · rintro e t ⟨ht, _⟩
    have he := foreign_withContext (e := e) none (by decide : "metadata-load" ∉ guardSyscalls)
    exact Runs.failClosed hK self he ht

theorem runs_install (hK : Stable i K) {revision : ℕ} {ns : Namespace}
    (hinstall : ∀ {t}, Consistent setup start t → K t →
      K (t.setState self.fs (Caller.installNewer ns revision (t.fs self.fs).state)))
    (hcommitted : Committed start s revision ns) (hs : K s) :
    Runs setup start i K (self.locked fun state =>
      match state.usable with
      | .error e => (.error e, state)
      | .ok () => (.ok (), Caller.installNewer ns revision state)) (fun _ _ => True) s := by
  refine wp_atomic (fun t hrely hinv _ => ?_) fun _ _ _ => trivial
  have ht := hK.respects hrely hs
  dsimp only
  split
  · rename_i e he
    rw [World.setState_self]
    exact ⟨.refl hinv, ht, usable_benign (hinv.failure self.fs) e he⟩
  · exact ⟨move_installNewer hinv self.fs (hcommitted.extends hrely.extends), hinstall hinv ht,
      trivial⟩

theorem runs_refreshNamespace (hK : Stable i K)
    (hinstall : ∀ {t revision ns}, Consistent setup start t → K t →
      K (t.setState self.fs (Caller.installNewer ns revision (t.fs self.fs).state))) (hs : K s) :
    Runs setup start i K self.refreshNamespace (fun _ _ => True) s := by
  refine .bind (.quietly hK (quietly_locked self fun state hfailure => ?_) hs)
    fun known t ht _ => ?_
  · refine ⟨.refl _, fun e he => ?_⟩
    cases husable : state.usable with
    | ok _ =>
      simp only [husable, Except.map] at he
      cases he
    | error e' =>
      simp only [husable, Except.map, Except.error.injEq] at he
      exact he ▸ usable_benign hfailure e' husable
  · refine .bind (runs_load self hK known ht) fun loaded u hu hloaded => ?_
    cases loaded with
    | none => exact .quietly hK (quietly_checkRuntime self) hu
    | some loaded =>
      obtain ⟨ns, hns, hcommitted⟩ := hloaded loaded rfl
      dsimp only
      split
      · exact .failClosed hK self (foreign_withContext none (by decide)) hu
      · simp only [hns]
        exact runs_install self hK hinstall hcommitted hu

end Refresh

/-! ## Attempts -/

section Attempts

variable (setup i)

def Failed (world : World) : Prop := (world.fs (setup.home i)).state.failure.isSome = true

/-- Either nothing was published for the task, or its coordinator has failed since. -/
def Settled (world : World) : Prop := Unpublished i world ∨ Failed setup i world

variable {setup i}

theorem failed_stable : Stable i (Failed setup i) :=
  ⟨fun h hs => h.failure _ hs, fun h hs => (h.respects i).failure _ hs⟩

theorem settled_stable : Stable i (Settled setup i) where
  respects h hs := hs.imp (fun hu => h.unpublished hu) fun hf => h.failure _ hf
  quiet h hs := hs.imp (fun hu => (h.respects i).unpublished hu) fun hf => (h.respects i).failure _ hf

theorem runs_ensure_failed (hmode : (setup.options (setup.home i)).inodeUpdates = false)
    (hconcurrent : (setup.options (setup.home i)).concurrentWrites = true)
    (hs : Failed setup i s) {P : Unit → World → Prop} :
    Runs setup start i (Failed setup i) (setup.caller i).ensureOperationLease P s := by
  have hrefresh : (setup.caller i).ensureOperationLease = (setup.caller i).refreshNamespace := by
    simp [Caller.ensureOperationLease, Caller.refreshConcurrentNamespace, caller,
      hconcurrent, hmode]
  rw [hrefresh]
  refine .bind (P := fun _ _ => False) ?_ fun _ _ _ hfalse => hfalse.elim
  refine wp_atomic (fun t hrely hinv _ => ?_) fun _ _ _ => trivial
  have ht := failed_stable.respects hrely hs
  obtain ⟨e, he⟩ := Option.isSome_iff_exists.mp ht
  have husable : (t.fs (setup.home i)).state.usable = .error e := by
    simp [usable, he]
  have hforeign := hinv.failure _ e he
  dsimp only [caller]
  rw [husable, World.setState_self]
  exact ⟨.refl hinv, ht, hforeign⟩

theorem runs_ensure (hmode : (setup.options (setup.home i)).inodeUpdates = false)
    (hs : Unpublished i s) : Runs setup start i (Unpublished i)
      (setup.caller i).ensureOperationLease (fun _ _ => True) s := by
  cases hconcurrent : (setup.options (setup.home i)).concurrentWrites with
  | true =>
    have hrefresh : (setup.caller i).ensureOperationLease = (setup.caller i).refreshNamespace := by
      simp [Caller.ensureOperationLease, Caller.refreshConcurrentNamespace, caller,
        hconcurrent, hmode]
    rw [hrefresh]
    exact runs_refreshNamespace _ unpublished_stable (fun _ ht => ht) hs
  | false =>
    have hrenew : (setup.caller i).ensureOperationLease = (do
        let _ ← (setup.caller i).renewLease) := by
      simp [Caller.ensureOperationLease, caller, hconcurrent]
    rw [hrenew]
    exact .bind (.quietly unpublished_stable (quietly_renewLease _) hs)
      fun _ _ ht _ => wp_pure.mpr ⟨ht, trivial⟩

/-- Access times may have been folded into a namespace. -/
structure ReadTimes (concurrent : Bool) (prior base : Namespace) : Prop where
  times : ∃ times : List (InodeId × ℤ), base = times.foldl RuntimeState.raiseAtime prior
  concurrent : concurrent = true → base = prior

variable {prior : Namespace}

theorem ReadTimes.sameNames {concurrent : Bool} {base : Namespace}
    (h : ReadTimes concurrent prior base) : SameNames prior base := by
  obtain ⟨times, rfl⟩ := h.times
  exact .foldAtime times prior

theorem runs_snapshot (hs : Unpublished i s) : Runs setup start i (Unpublished i)
    (setup.caller i).snapshot (fun loaded t => ∃ prior, Committed start t loaded.2 prior ∧
      ReadTimes (setup.options (setup.home i)).concurrentWrites prior loaded.1) s := by
  refine wp_atomic (fun t hrely hinv _ => ?_) fun _ _ _ => trivial
  have ht := hrely.unpublished hs
  dsimp only [caller]
  rw [World.setState_self]
  refine ⟨.refl hinv, ht, ?_⟩
  cases hsnapshot : (t.fs (setup.home i)).state.snapshot with
  | error e =>
    refine usable_benign (hinv.failure (setup.home i)) e ?_
    unfold snapshot at hsnapshot
    cases husable : (t.fs (setup.home i)).state.usable with
    | error e' =>
      rw [husable, Except.error_bind] at hsnapshot
      cases hsnapshot
      rfl
    | ok u =>
      rw [husable, Except.ok_bind] at hsnapshot
      cases hsnapshot
  | ok loaded =>
    obtain ⟨ns, _⟩ := loaded
    obtain ⟨_, hns, hrevision⟩ := snapshot_ok hsnapshot
    refine ⟨(t.fs (setup.home i)).state.ns, ?_, ?_, fun hconcurrent => ?_⟩
    · rw [hrevision]
      exact hinv.cached (setup.home i)
    · refine ⟨(t.fs (setup.home i)).state.pendingAtime.entries, ?_⟩
      rw [hns]
      simp [foldAtime, foldSelected, hinv.selected]
    · rw [hns]
      simp [foldAtime, foldSelected, hinv.selected,
        hinv.times (setup.home i) hconcurrent]

/-! ## Publications -/

/-- The store accepted a stage over a namespace. -/
def Landed (setup : GuardedSetup) (i : ℕ) (prior : Namespace) (stage : Stage) (world : World) :
    Prop :=
  ∃ commit, Record.structural commit ∈ world.ledger.log ∧ commit.author = setup.home i ∧
    commit.stages = [stage] ∧ commit.prior = prior ∧ commit.ns = stage.result

variable {stage : Stage}

theorem Landed.extends (h : Landed setup i prior stage s) (hext : Extends s t) :
    Landed setup i prior stage t := by
  obtain ⟨commit, hmem, hrest⟩ := h
  obtain ⟨_, htail⟩ := hext
  exact ⟨commit, htail ▸ List.mem_append_left _ hmem, hrest⟩

theorem landed_stable : Stable i (Landed setup i prior stage) :=
  ⟨fun h hs => hs.extends h.extends, fun h hs => hs.extends (h.respects i).extends⟩

variable {prior : Namespace} {stage : Stage} {revision : ℕ}

/-- What a publication of a stage ends with. -/
def Outcome (setup : GuardedSetup) (i : ℕ) (prior : Namespace) (stage : Stage)
    (result : Result ℕ) (world : World) : Prop :=
  match result with
  | .ok _ => Landed setup i prior stage world
  | .error e => Foreign e ∧ Settled setup i world

theorem wp_publication {accept : Store → Result ℕ}
    (haccept : ∀ {store next}, accept store = .ok next → store.revision = revision ∧
      next = store.revision + 1) (hcarried : stage.carried = [i])
    (hcommitted : Committed start s revision prior) (hs : Unpublished i s) :
    (guarding setup start).wp i (publication accept
      (fun _ => commit (setup.caller i) (.direct stage) stage.result)
      fun world => carriedBy (Work.stages (setup.caller i).fs world (.direct stage)))
      (fun result t => match result with
        | .ok next => Landed setup i prior stage t ∧ Committed start t next stage.result
        | .error e => e.code = .eagain → Unpublished i t) (fun _ => True) s := by
  have hcommit : ∀ t : World, commit (setup.caller i) (.direct stage) stage.result t =
      published (setup.home i) [stage] stage.result t := fun _ => rfl
  refine wp_atomic (fun t hrely hinv answer => ?_) fun _ _ _ => trivial
  have ht := hrely.unpublished hs
  have hlanded : ∀ {next}, accept t.store = .ok next →
      Landed setup i prior stage (published (setup.home i) [stage] stage.result t) ∧
        Committed start (published (setup.home i) [stage] stage.result t) next stage.result := by
    intro next hnext
    obtain ⟨hrevision, rfl⟩ := haccept hnext
    have hprior : t.store.ns = prior := hinv.unique revision _ _ (hrevision ▸ hinv.current)
      (hcommitted.extends hrely.extends)
    exact ⟨⟨_, List.mem_append_right _ (List.mem_singleton_self _), rfl, rfl, hprior, rfl⟩,
      committed_published.mpr (.inr ⟨rfl, rfl⟩)⟩
  have hmove := move_published hinv (setup.home i) stage stage.result hcarried
  dsimp only
  split
  · rename_i next hnext
    rw [hcommit]
    exact ⟨hmove, hlanded hnext⟩
  · exact ⟨.refl hinv, fun _ => ht⟩
  · exact ⟨.refl hinv, fun _ => ht⟩
  · rename_i e next _ hnext
    split_ifs with heagain
    · exact ⟨.refl hinv, fun _ => ht⟩
    · rw [hcommit]
      refine ⟨hmove.trans (Quiet.move ?_ hmove.inv), fun he => absurd he heagain⟩
      exact { Quiet.refl _ with }
  · exact ⟨.refl hinv, fun _ => ht⟩

end Attempts

end MountRs.Chunked.Guarded
