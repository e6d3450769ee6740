import MountRs.Verification.Guarded.Publication
import MountRs.Verification.Storage.Validation

/-! # Atomicity of guarded mutations -/

namespace MountRs.Chunked

open Except GuardedSetup Caller

def GuardedMutation.Makes (concurrent : Bool) (value : GuardedMutationResult)
    (base result : Namespace) (request : GuardedMutation) : Prop :=
  match request with
  | openChild parent name observed flags mode => ∃ path clock opened,
      guardedChildPath parent name "open" = .ok path ∧
      guardedOpenNamespace base (normalizePath path) parent name observed flags mode concurrent
        clock = .ok opened ∧ opened.result = result ∧
      value = .opened opened.inode { dev := 0, ino := opened.inode }
  | request => ∃ openRefs clock orphans after,
      (request.edit { concurrent, openRefs } clock).run { ns := base, orphans } = .ok value after ∧
        after.ns = result

namespace Guarded

open Discipline

variable {setup : GuardedSetup} {start : Store} {i : ℕ} {s t : World}

/-! ## Answers -/

/-- One publication carries the work of the task. It is the result of the request on the
namespace that was published before, up to access times, and all guards held there. -/
def Applied (setup : GuardedSetup) (i : ℕ) (value : GuardedMutationResult) (world : World) : Prop :=
  ∃ commit, Record.structural commit ∈ world.ledger.log ∧ commit.author = setup.home i ∧
    ∃ base, commit.stages = [{ carried := [i], base, result := commit.ns }] ∧
      ReadTimes (setup.options (setup.home i)).concurrentWrites commit.prior base ∧
      (setup.requests i).mutation.GuardsHold commit.prior ∧
      (setup.requests i).mutation.Makes (setup.options (setup.home i)).concurrentWrites value base
        commit.ns

/-- The request left a published namespace as it is, up to access times, and all guards
held there. Nothing was published for it. -/
def Opened (setup : GuardedSetup) (start : Store) (i : ℕ) (value : GuardedMutationResult)
    (world : World) : Prop :=
  Unpublished i world ∧ ∃ revision prior base, Committed start world revision prior ∧
    ReadTimes (setup.options (setup.home i)).concurrentWrites prior base ∧
    (setup.requests i).mutation.GuardsHold prior ∧
    (setup.requests i).mutation.Makes (setup.options (setup.home i)).concurrentWrites value base base

def Answered (setup : GuardedSetup) (start : Store) (i : ℕ) (result : Result GuardedMutationResult)
    (world : World) : Prop :=
  match result with
  | .ok value => Applied setup i value world ∨ Opened setup start i value world
  | .error e => Foreign e ∨ Unpublished i world

theorem Applied.extends {value : GuardedMutationResult} (h : Applied setup i value s)
    (hext : Extends s t) : Applied setup i value t := by
  obtain ⟨commit, hmem, hrest⟩ := h
  obtain ⟨_, htail⟩ := hext
  exact ⟨commit, htail ▸ List.mem_append_left _ hmem, hrest⟩

theorem answered_stable {result : Result GuardedMutationResult} :
    Stable i (Answered setup start i result) := by
  have hrespects : ∀ {s t}, Respects i s t → Answered setup start i result s →
      Answered setup start i result t := by
    intro s t h hs
    cases result with
    | ok =>
      rcases hs with hs | ⟨hs, revision, prior, base, hcommitted, hrest⟩
      · exact .inl (hs.extends h.extends)
      · exact .inr ⟨h.unpublished hs, revision, prior, base, hcommitted.extends h.extends, hrest⟩
    | error e => exact hs.imp id fun hu => h.unpublished hu
  exact ⟨hrespects, fun h => hrespects (h.respects i)⟩

/-! ## Mutations -/

section Mutate

variable {request : GuardedMutation} {edit : MutationContext → Clock → Mutation GuardedMutationResult}

theorem wp_runEdit {ns : Namespace} {K : World → Prop} (hK : Stable i K) (hs : K s) :
    (guarding setup start).wp i ((setup.caller i).runEdit edit ns) (fun result t => K t ∧
      ∀ value after, result = .ok (value, after) → ∃ openRefs clock orphans draft,
        (edit { concurrent := (setup.options (setup.home i)).concurrentWrites, openRefs }
          clock).run { ns, orphans } = .ok value draft ∧ draft.ns = after) (fun _ => True) s := by
  refine wp_atomic (fun t hrely hinv answer => ?_) fun _ _ _ => trivial
  have ht := hK.respects hrely hs
  have hquiet : ∀ orphans, Quiet t (t.setState (setup.home i)
      { (t.fs (setup.home i)).state with orphans }) := fun _ =>
    .setState _ ⟨rfl, rfl, rfl, rfl, .inl rfl⟩
  dsimp only
  split
  · rename_i value draft hrun
    refine ⟨(hquiet draft.orphans).move hinv, hK.quiet (hquiet draft.orphans) ht, ?_⟩
    intro value' after hresult
    cases hresult
    exact ⟨_, _, _, draft, hrun, rfl⟩
  · rename_i e draft hrun
    exact ⟨(hquiet draft.orphans).move hinv, hK.quiet (hquiet draft.orphans) ht,
      nofun⟩

theorem wp_mutateAttempts (hwriteback : (setup.options (setup.home i)).writeback = false)
    (hmode : (setup.options (setup.home i)).inodeUpdates = false)
    (hrequest : (setup.requests i).mutation = request)
    (hopen : ∀ parent name observed flags mode,
      request ≠ .openChild parent name observed flags mode) (remaining : ℕ) :
    ∀ {s}, (Unpublished i s ∨ (Failed setup i s ∧
        (setup.options (setup.home i)).concurrentWrites = true)) →
      (guarding setup start).wp i ((setup.caller i).mutateAttempts
        (fun ctx clock => request.edit ctx clock) remaining) (Answered setup start i)
        (fun _ => True) s := by
  -- An attempt after a lost race starts over; one after an unknown outcome finds the failure.
  induction remaining with
  | zero =>
    intro s _
    exact wp_fail.mpr (.inl (foreign_of_syscall rfl (by decide)))
  | succ _ ih =>
    intro s hs
    unfold mutateAttempts
    rcases hs with hs | ⟨hfailed, hconcurrent⟩
    · refine wp_bind (runs_ensure hmode hs) (fun _ t ht => ?_) fun e t ht => .inl ht.2
      refine wp_bind (runs_snapshot ht.1) (fun loaded u hu => ?_) fun e u hu => .inl hu.2
      obtain ⟨base, _⟩ := loaded
      obtain ⟨hunpublished, _, hcommitted, htimes⟩ := hu
      refine wp_bind (wp_runEdit prepared_stable ⟨hunpublished, hcommitted⟩)
        (fun edited v hv => ?_) fun e v hv => .inr hv.1.1
      obtain ⟨value, result⟩ := edited
      obtain ⟨hprepared, hedit⟩ := hv
      obtain ⟨openRefs, clock, orphans, draft, hrun, hdraft⟩ := hedit value result rfl
      have hguards := htimes.sameNames.symm.guards (edit_guards hopen hrun)
      have hmakes : request.Makes (setup.options (setup.home i)).concurrentWrites value base
          result := by
        cases request with
        | openChild => exact absurd rfl (hopen _ _ _ _ _)
        | _ => exact ⟨openRefs, clock, orphans, draft, hrun, hdraft⟩
      refine wp_attempt_bind (wp_publishNamespace { carried := [i], base, result } hwriteback
        hmode rfl false hprepared) fun outcome w hw => ?_
      cases outcome with
      | ok =>
        obtain ⟨commit, hmem, hauthor, hstages, rfl, rfl⟩ := hw
        refine wp_pure.mpr (.inl ⟨commit, hmem, hauthor, base, hstages, htimes, ?_, ?_⟩)
        · rw [hrequest]
          exact hguards
        · rw [hrequest]
          exact hmakes
      | error e =>
        dsimp only
        split_ifs with hretry
        · have hconcurrent : (setup.options (setup.home i)).concurrentWrites = true := by
            simp only [retries, Bool.and_eq_true] at hretry
            exact hretry.1.1
          exact wp_bind (runs_yield settled_stable hw.2)
            (fun _ x hx => ih (hx.1.imp id fun hfailed => ⟨hfailed, hconcurrent⟩))
            fun e x hx => .inl hx.2
        · exact wp_fail.mpr (.inl hw.1)
    · refine wp_bind (runs_ensure_failed hmode hconcurrent hfailed (P := fun _ _ => False))
        (fun _ _ ht => ht.2.elim) fun e t ht => .inl ht.2

end Mutate

/-! ## Opening -/

section Open

variable {parent : PathGuard} {name path : String} {observed : ObservedEntry} {flags : OpenFlags}
  {mode : UInt32}

theorem openNamespace_existed {ns : Namespace} {normalized : String} {concurrent : Bool}
    {clock : Clock} {opened : OpenedFile}
    (h : openNamespace ns normalized flags mode concurrent clock = .ok opened)
    (hexisted : opened.existed = true) (htruncate : flags.truncate = false) :
    opened.result = ns := by
  simp only [openNamespace, bind_eq_ok] at h
  obtain ⟨_, _, h⟩ := h
  split at h
  · simp only [htruncate, Bool.false_eq_true, if_false, bind_eq_ok, pure_eq_ok] at h
    obtain ⟨_, _, _, _, _, _, _, _, rfl⟩ := h
    rfl
  · simp only [bind_eq_ok, pure_eq_ok] at h
    obtain ⟨_, _, _, _, _, _, _, _, rfl⟩ := h
    cases hexisted

theorem runs_allocateFd {K : World → Prop} (hK : Stable i K) (inode : InodeId) (hs : K s) :
    Runs setup start i K ((setup.caller i).allocateFd inode) (fun _ _ => True) s := by
  refine .quietly hK (quietly_locked _ fun state hfailure => ?_) hs
  unfold RuntimeState.allocateFd
  split
  · rename_i e he
    exact ⟨.refl _, benign_error.mpr (usable_benign hfailure e he)⟩
  · split
    · exact ⟨.refl _, benign_error.mpr (foreign_of_none rfl)⟩
    · exact ⟨⟨rfl, rfl, rfl, rfl, .inl rfl⟩, benign_ok _⟩

def openedInode (inode : InodeId) : GuardedMutationResult :=
  .opened inode { dev := 0, ino := inode }

variable (hwriteback : (setup.options (setup.home i)).writeback = false)
include hwriteback

theorem wp_publishOpened
    (hmode : (setup.options (setup.home i)).inodeUpdates = false) {base prior : Namespace}
    {revision : ℕ} (opened : OpenedFile) (normalized : String)
    (hs : Prepared start i revision prior s) :
    (guarding setup start).wp i ((setup.caller i).publishOpened base revision opened normalized)
      (fun result t => match result with
        | .ok _ => Landed setup i prior { carried := [i], base, result := opened.result } t
        | .error e => Foreign e ∧ Settled setup i t) (fun _ => True) s := by
  have hinode : (setup.caller i).options.inodeUpdates = false := hmode
  unfold publishOpened
  simp only [hinode, Bool.false_eq_true, false_and, if_false]
  exact wp_bind (wp_publishNamespace { carried := [i], base, result := opened.result } hwriteback
    hmode rfl false hs) (fun _ t ht => wp_pure.mpr ht) fun e t ht => ht

theorem wp_guardedOpenAttempts (hmode : (setup.options (setup.home i)).inodeUpdates = false)
    (hrequest : (setup.requests i).mutation = .openChild parent name observed flags mode)
    (hpath : guardedChildPath parent name "open" = .ok path) (remaining : ℕ) :
    ∀ {s}, (Unpublished i s ∨ (Failed setup i s ∧ 0 < remaining ∧
        (setup.options (setup.home i)).concurrentWrites = true)) →
      (guarding setup start).wp i ((setup.caller i).guardedOpenAttempts (normalizePath path) parent
        name observed flags mode remaining)
        (fun result t => Answered setup start i (result.map openedInode) t) (fun _ => True) s := by
  induction remaining with
  | zero =>
    intro s hs
    rcases hs with hs | ⟨_, hpositive, _⟩
    · exact wp_fail.mpr (.inr hs)
    · exact absurd hpositive (Nat.lt_irrefl 0)
  | succ _ ih =>
    intro s hs
    unfold guardedOpenAttempts
    rcases hs with hs | ⟨hfailed, _, hconcurrent⟩
    · refine wp_bind (runs_ensure hmode hs) (fun _ t ht => ?_) fun e t ht => .inl ht.2
      refine wp_bind (runs_snapshot ht.1) (fun loaded u hu => ?_) fun e u hu => .inl hu.2
      obtain ⟨base, revision⟩ := loaded
      obtain ⟨hunpublished, prior, hcommitted, htimes⟩ := hu
      refine wp_bind (Runs.quietly prepared_stable
        (quietly_atomic fun _ x _ => ⟨.refl x, benign_ok _⟩)
        (⟨hunpublished, hcommitted⟩ : Prepared start i revision prior u)) (fun clock v hv => ?_)
        fun e v hv => .inl hv.2
      refine wp_lift_bind (fun opened hopened => ?_) fun e _ => .inr hv.1.1
      have hguards : (setup.requests i).mutation.GuardsHold prior := by
        rw [hrequest]
        exact htimes.sameNames.symm.child (guardedOpenNamespace_guards hopened)
      have hmakes : (setup.requests i).mutation.Makes
          (setup.options (setup.home i)).concurrentWrites (openedInode opened.inode) base
          opened.result := by
        rw [hrequest]
        exact ⟨path, clock, opened, hpath, hopened, rfl, rfl⟩
      split_ifs with hkeep
      · have hresult : opened.result = base := by
          simp only [guardedOpenNamespace, bind_eq_ok] at hopened
          obtain ⟨_, _, _, _, hopened⟩ := hopened
          exact openNamespace_existed hopened hkeep.1 hkeep.2
        rw [hresult] at hmakes
        exact wp_bind (runs_allocateFd prepared_stable opened.inode hv.1)
          (fun _ x hx => wp_pure.mpr (.inr ⟨hx.1.1, revision, prior, base, hx.1.2, htimes, hguards,
            hmakes⟩)) fun e x hx => .inl hx.2
      · refine wp_attempt_bind (wp_publishOpened hwriteback hmode opened _ hv.1)
          fun outcome w hw => ?_
        cases outcome with
        | ok u =>
          refine wp_bind (runs_allocateFd landed_stable opened.inode hw) (fun _ x hx => ?_)
            fun e x hx => .inl hx.2
          obtain ⟨⟨commit, hmem, hauthor, hstages, rfl, hns⟩, _⟩ := hx
          dsimp only at hns
          rw [← hns] at hstages hmakes
          exact wp_pure.mpr (.inl ⟨commit, hmem, hauthor, base, hstages, htimes, hguards, hmakes⟩)
        | error e =>
          dsimp only
          split_ifs with hretry
          · simp only [retries, Bool.and_eq_true, decide_eq_true_eq] at hretry
            exact wp_bind (runs_yield settled_stable hw.2)
              (fun _ x hx => ih (hx.1.imp id fun hfailed => ⟨hfailed, hretry.2, hretry.1.1⟩))
              fun e x hx => .inl hx.2
          · exact wp_fail.mpr (.inl hw.1)
    · exact wp_bind (runs_ensure_failed hmode hconcurrent hfailed (P := fun _ _ => False))
        (fun _ _ ht => ht.2.elim) fun e t ht => .inl ht.2

end Open

/-! ## Requests -/

theorem wp_withGate {α : Type} {p : Call α} {Q : Result α → World → Prop}
    (hQ : ∀ result, Stable i (Q result))
    (h : ∀ {t}, Unpublished i t → (guarding setup start).wp i p Q (fun _ => True) t)
    (hs : Unpublished i s) :
    (guarding setup start).wp i ((setup.caller i).withGate p) Q (fun _ => True) s := by
  have hunlock : ∀ t : World, Quiet t (if (t.fs (setup.home i)).gate = some i then
      t.setFs (setup.home i) { t.fs (setup.home i) with gate := none } else t) := by
    intro t
    split_ifs
    · exact .setFs _ (.refl _)
    · exact .refl t
  refine wp_withLock (Q := Q) (R := fun _ => True) (fun t hrely hinv _ => ?_)
    (fun result t u ht hrely hinv => ?_) (fun _ _ _ => trivial)
    fun t hinv _ => ⟨(hunlock t).move hinv, trivial⟩
  · have hlock : Quiet t (t.setFs (setup.home i) { t.fs (setup.home i) with gate := some i }) :=
      .setFs _ (.refl _)
    exact ⟨hlock.move hinv, h ((hlock.respects i).unpublished (hrely.unpublished hs))⟩
  · exact ⟨(hunlock u).move hinv, (hQ result).quiet (hunlock u) ((hQ result).respects hrely ht),
      trivial⟩

theorem wp_guardedMutation (hwriteback : (setup.options (setup.home i)).writeback = false)
    (hmode : (setup.options (setup.home i)).inodeUpdates = false) (hs : Unpublished i s) :
    (guarding setup start).wp i ((setup.caller i).guardedMutation (setup.requests i).mutation)
      (Answered setup start i) (fun _ => True) s := by
  have hmutate : ∀ request, (setup.requests i).mutation = request →
      (∀ parent name observed flags mode, request ≠ .openChild parent name observed flags mode) →
      (guarding setup start).wp i (do
        liftM (n := Async World Answer FsError) request.checkNames
        (setup.caller i).mutate fun ctx clock => request.edit ctx clock)
        (Answered setup start i) (fun _ => True) s := by
    intro request hrequest hopen
    refine wp_lift_bind (fun _ _ => ?_) fun e _ => .inr hs
    exact wp_withGate (fun result => answered_stable)
      (fun ht => wp_mutateAttempts hwriteback hmode hrequest hopen _ (.inl ht)) hs
  cases hrequest : (setup.requests i).mutation with
  | openChild =>
    refine wp_bind (Q := fun result t => Answered setup start i (result.map openedInode) t) ?_
      (fun inode t ht => wp_pure.mpr ht) (fun e t ht => ht)
    refine wp_lift_bind (fun path hpath => ?_) fun e _ => .inr hs
    split_ifs
    · exact wp_fail.mpr (.inr hs)
    · exact wp_withGate (fun result => answered_stable)
        (fun ht => wp_guardedOpenAttempts hwriteback hmode hrequest hpath _ (.inl ht)) hs
  | setattr | mkdir | symlink | mknod | unlink | rmdir | link => exact hmutate _ hrequest (by simp)
  | rename =>
    exact hmutate _ hrequest (by simp)

/-! ## Runs -/

section Runs

theorem disturb_consistent (hs : Consistent setup start s) (disturbance : GuardedSetup.Disturbance) :
    Consistent setup start (setup.disturb disturbance s) ∧ Extends s (setup.disturb disturbance s) ∧
      ∀ j, Respects j s (setup.disturb disturbance s) := by
  have hquiet : ∀ {t}, Quiet s t → Consistent setup start t ∧ Extends s t ∧ ∀ j, Respects j s t :=
    fun h => ⟨h.consistent hs, (h.respects 0).extends, h.respects⟩
  cases disturbance with
  | commit author ns =>
    exact ⟨published_consistent hs author [] ns, ⟨_, rfl⟩,
      fun j => published_respects (by simp [carriedBy])⟩
  | install fs index =>
    simp only [disturb]
    split
    · rename_i commit hcommit
      have hcommitted : Committed start s commit.revision commit.ns :=
        .inr ⟨commit, List.mem_of_getElem? hcommit, rfl, rfl⟩
      by_cases h : (s.fs fs).state.revision < commit.revision
      · have hinstalls : Installs setup start s fs _ := installs_newer hcommitted h
        exact ⟨hinstalls.consistent hs fs, (hinstalls.respects fs 0).extends, hinstalls.respects fs⟩
      · unfold installNewer
        rw [if_neg h, World.setState_self]
        exact hquiet (.refl s)
    · exact hquiet (.refl s)
  | read fs inode atimeMs =>
    simp only [disturb]
    split_ifs with hconcurrent
    · exact hquiet (.refl s)
    · have hinstalls : Installs setup start s fs { (s.fs fs).state with
          pendingAtime := (s.fs fs).state.pendingAtime.insert inode atimeMs } :=
        ⟨hs.cached fs, rfl, fun h => absurd h hconcurrent, rfl⟩
      exact ⟨hinstalls.consistent hs fs, (hinstalls.respects fs 0).extends, hinstalls.respects fs⟩
  | handles fs =>
    exact hquiet (.setState fs ⟨rfl, rfl, rfl, rfl, .inl rfl⟩)
  | lease lease fence => exact hquiet (quiet_lease s lease fence)
  | shutdown fs => exact hquiet (.setState fs ⟨rfl, rfl, rfl, rfl, .inl rfl⟩)

theorem service_sound (hwriteback : ∀ fs, (setup.options fs).writeback = false)
    (hmode : ∀ fs, (setup.options fs).inodeUpdates = false) :
    Sound (guarding setup start) setup.service (Answered setup start) where
  stable _ _ _ _ hrely _ h := answered_stable.respects hrely h
  arrive _ _ _ hinv hfresh :=
    ⟨.refl hinv, wp_guardedMutation (hwriteback _) (hmode _) hfresh⟩
  disturb disturbance _ hs := disturb_consistent hs disturbance

theorem start_safe (leases : ℕ → Option WriterLease) :
    Safe (guarding setup start) (Answered setup start) (GuardedSetup.start start leases) := by
  have hinitial : ∀ {revision ns}, Committed start (GuardedSetup.start start leases).shared
      revision ns → revision = start.revision ∧ ns = start.ns := by
    rintro revision ns (h | ⟨commit, hmem, _⟩)
    · exact h
    · cases hmem
  refine ⟨?_, fun _ _ h => by simp [GuardedSetup.start] at h, nofun⟩
  exact
    { current := .inl ⟨rfl, rfl⟩
      bounded := fun revision ns h => (hinitial h).1.le
      unique := fun revision ns ns' h h' => (hinitial h).2.trans (hinitial h').2.symm
      cached := fun _ => .inl ⟨rfl, rfl⟩
      selected := fun _ => rfl
      times := fun _ _ => rfl
      failure := fun _ e he => by cases he }

end Runs

/-- A guard or an expected entry did not match. -/
def GuardMismatch (e : FsError) : Prop :=
  (∃ path, ∃ syscall ∈ guardSyscalls, e = staleGuard path syscall) ∨
    ∃ path, e = (errorWithPath .eagain "setattr" path).withMessage
      "change time guard does not match the current inode"

theorem GuardMismatch.not_foreign {e : FsError} (h : GuardMismatch e) : ¬ Foreign e := by
  intro hforeign
  rcases h with ⟨path, syscall, hmem, rfl⟩ | ⟨path, rfl⟩
  · exact hforeign syscall hmem rfl
  · exact hforeign "setattr" (by decide) rfl

/-- Without writeback a guarded request is atomic with its guards, in whatever order the
coordinators take their steps, publish and lose their races. -/
theorem guarded_mutation_atomic (setup : GuardedSetup)
    (hwriteback : ∀ fs, (setup.options fs).writeback = false)
    (hmode : ∀ fs, (setup.options fs).inodeUpdates = false) (start : Store)
    (leases : ℕ → Option WriterLease)
    (schedule : List (Event Answer Unit GuardedSetup.Disturbance)) (i : ℕ) :
    let pool := (GuardedSetup.start start leases).run setup.service schedule
    (∀ value, pool.answer i = some (.ok value) →
      Applied setup i value pool.shared ∨ Opened setup start i value pool.shared) ∧
    (∀ e, pool.answer i = some (.error e) → GuardMismatch e → Unpublished i pool.shared) := by
  intro pool
  have hsafe : Safe (guarding setup start) (Answered setup start) pool :=
    ((start_safe leases).run (service_sound hwriteback hmode) schedule fun _ _ _ => trivial).1
  refine ⟨fun value hanswer => hsafe.answer hanswer, fun e hanswer hmismatch => ?_⟩
  exact (hsafe.answer hanswer).resolve_left hmismatch.not_foreign

/-- Every request makes a directory under the root. -/
def mkdirSetup (concurrentWrites writeback : Bool) : GuardedSetup where
  requests _ := ⟨0, .mkdir ⟨"/", ⟨1, 1⟩⟩ "d" 0o755⟩
  options _ := { owner := "writer", leaseTtlMs := 60, concurrentWrites, inodeUpdates := false
                 writeback }
  publishIncludesFlushBarrier := true

def rootStore : Store :=
  { revision := 1, ns := emptyRoot, inodeRevisions := ∅, lease := some ⟨"writer", 1, 60⟩, fence := 1 }

def calm : Answer :=
  { fault := .none, clock := fun _ => 1000, block := "", brief := false, restart := false }

/-- A run of the first request; the environment interferes after some steps. -/
def mkdirRun (concurrentWrites writeback : Bool) (before : ℕ)
    (disturbances : List GuardedSetup.Disturbance) (after : ℕ) :
    Pool World Answer FsError GuardedMutationResult :=
  (GuardedSetup.start rootStore fun _ => rootStore.lease).run
    (mkdirSetup concurrentWrites writeback).service
    (.spawn () :: List.replicate before (.run 0 calm) ++ disturbances.map .disturb ++
      List.replicate after (.run 0 calm))

/-- Another coordinator publishes first, the request loses its race and is made again. -/
theorem guarded_mutation_atomic_retried :
    (mkdirRun true false 8 [.commit 1 emptyRoot] 20).answer 0 =
        some (.ok (.created { dev := 0, ino := 2 })) ∧
      (Applied (mkdirSetup true false) 0 (.created { dev := 0, ino := 2 })
          (mkdirRun true false 8 [.commit 1 emptyRoot] 20).shared ∨
        Opened (mkdirSetup true false) rootStore 0 (.created { dev := 0, ino := 2 })
          (mkdirRun true false 8 [.commit 1 emptyRoot] 20).shared) := by
  have hanswer : (mkdirRun true false 8 [.commit 1 emptyRoot] 20).answer 0 =
      some (.ok (.created { dev := 0, ino := 2 })) := by decide +kernel
  exact ⟨hanswer, (guarded_mutation_atomic (mkdirSetup true false) (fun _ => rfl) (fun _ => rfl)
    rootStore _ _ 0).1 _ hanswer⟩

/-- Something was published that was made from a namespace which differs from the one published
before it. -/
def publishesFolded (world : World) : Bool :=
  world.ledger.log.any fun record => match record with
    | .structural commit => commit.stages.any fun stage => decide (stage.base ≠ commit.prior)
    | _ => false

/-- With writeback the answer comes before anything is published. Without it, an exclusive writer
changes the published namespace with the time of a read in it, which nobody has published. -/
theorem guarded_mutation_unpublished :
    ((mkdirRun false true 11 [] 0).answer 0 = some (.ok (.created { dev := 0, ino := 2 })) ∧
      (mkdirRun false true 11 [] 0).shared.store.ns = emptyRoot ∧
      Unpublished 0 (mkdirRun false true 11 [] 0).shared) ∧
    (mkdirRun false false 0 [.read 0 1 5000] 20).answer 0 =
        some (.ok (.created { dev := 0, ino := 2 })) ∧
      publishesFolded (mkdirRun false false 0 [.read 0 1 5000] 20).shared = true := by
  -- No record is of the first kind.
  have hlog : (mkdirRun false true 11 [] 0).shared.ledger.log.all (·.ctorIdx != 0) = true := by
    decide +kernel
  refine ⟨⟨by decide +kernel, by decide +kernel, fun commit hmem => ?_⟩, by decide +kernel,
    by decide +kernel⟩
  exact absurd (List.all_eq_true.mp hlog _ hmem) Bool.false_ne_true

/-- The coordinators share one line of revisions: every revision has one namespace, the store
has the newest, none is lost, and what a coordinator has in memory was committed. -/
theorem committed_revisions_linear (setup : GuardedSetup)
    (hwriteback : ∀ fs, (setup.options fs).writeback = false)
    (hmode : ∀ fs, (setup.options fs).inodeUpdates = false) (start : Store)
    (leases : ℕ → Option WriterLease) (schedule later : List (Event Answer Unit Disturbance)) :
    let pool := (GuardedSetup.start start leases).run setup.service schedule
    Consistent setup start pool.shared ∧ ∀ revision ns, Committed start pool.shared revision ns →
      Committed start (pool.run setup.service later).shared revision ns := by
  intro pool
  have hsound : Sound (guarding setup start) _ _ := service_sound hwriteback hmode
  obtain ⟨hsafe, -⟩ := (start_safe leases).run hsound schedule fun _ _ _ => trivial
  exact ⟨hsafe.inv, fun _ _ h => h.extends (hsafe.run hsound later fun _ _ _ => trivial).2⟩

/-- What another coordinator published stays when the request, which loses its race to it,
publishes as well. -/
theorem committed_revisions_linear_contended :
    let pool := mkdirRun true false 8 [.commit 1 emptyRoot] 0
    let later := pool.run (mkdirSetup true false).service (List.replicate 20 (.run 0 calm))
    Consistent (mkdirSetup true false) rootStore pool.shared ∧
      later.shared.store.revision = 3 ∧ later.shared.store.ns ≠ emptyRoot ∧
      Committed rootStore later.shared 2 emptyRoot := by
  intro pool later
  obtain ⟨hconsistent, hkept⟩ := committed_revisions_linear (mkdirSetup true false) (fun _ => rfl)
    (fun _ => rfl) rootStore (fun _ => rootStore.lease) _ (List.replicate 20 (.run 0 calm))
  refine ⟨hconsistent, by decide +kernel, by decide +kernel, hkept 2 emptyRoot ?_⟩
  have hrevision : pool.shared.store.revision = 2 := by decide +kernel
  have hns : pool.shared.store.ns = emptyRoot := by decide +kernel
  rw [← hrevision, ← hns]
  exact hconsistent.current

end Guarded

end MountRs.Chunked
