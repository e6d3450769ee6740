import MountRs.Library.AsyncLogic
import MountRs.Verification.Chunked.Worlds
import MountRs.Verification.Guarded.Guards

/-! # The history of the published namespaces

Whatever a coordinator has cached was published under the revision that it is cached
with. A publication that expects this revision therefore replaces this namespace. -/

namespace MountRs.Chunked.Guarded

open Discipline List World

/-! ## History -/

def Committed (start : Store) (world : World) (revision : ℕ) (ns : Namespace) : Prop :=
  (revision = start.revision ∧ ns = start.ns) ∨
    ∃ commit, Record.structural commit ∈ world.ledger.log ∧ commit.revision = revision ∧
      commit.ns = ns

/-- No publication carries the work of a task. -/
def Unpublished (i : ℕ) (world : World) : Prop :=
  ∀ commit, Record.structural commit ∈ world.ledger.log → i ∉ carriedBy commit.stages

def guardSyscalls : List String :=
  ["setattr", "open", "mkdir", "symlink", "mknod", "unlink", "rmdir", "rename", "link"]

/-- Not an error of a guarded edit. -/
def Foreign (e : FsError) : Prop := ∀ syscall ∈ guardSyscalls, e.syscall ≠ some syscall

instance (e : FsError) : Decidable (Foreign e) :=
  inferInstanceAs (Decidable (∀ syscall ∈ guardSyscalls, e.syscall ≠ some syscall))

/-- What holds of the store and the coordinators between any two steps. -/
structure Consistent (setup : GuardedSetup) (start : Store) (world : World) : Prop where
  current : Committed start world world.store.revision world.store.ns
  bounded : ∀ revision ns, Committed start world revision ns → revision ≤ world.store.revision
  unique : ∀ revision ns ns', Committed start world revision ns →
    Committed start world revision ns' → ns = ns'
  cached : ∀ fs, Committed start world (world.fs fs).state.revision (world.fs fs).state.ns
  selected : ∀ fs, (world.fs fs).state.selectedInodes = ∅
  times : ∀ fs, (setup.options fs).concurrentWrites = true → (world.fs fs).state.pendingAtime = ∅
  failure : ∀ fs e, (world.fs fs).state.failure = some e → Foreign e

/-- What a task may rely on: the history grows without its work, and failures stay. -/
structure Respects (i : ℕ) (s t : World) : Prop where
  log : ∃ tail, t.ledger.log = s.ledger.log ++ tail ∧
    ∀ commit, Record.structural commit ∈ tail → i ∉ carriedBy commit.stages
  failure : ∀ fs, (s.fs fs).state.failure.isSome → (t.fs fs).state.failure.isSome

def Extends (s t : World) : Prop := ∃ tail, t.ledger.log = s.ledger.log ++ tail

variable {s t : World} {u : World}

theorem Extends.trans (h : Extends s t) (h' : Extends t u) : Extends s u := by
  obtain ⟨tail, htail⟩ := h
  obtain ⟨tail', htail'⟩ := h'
  exact ⟨tail ++ tail', by rw [htail', htail, append_assoc]⟩

theorem Respects.refl (i : ℕ) (s : World) : Respects i s s :=
  ⟨⟨[], (append_nil _).symm, nofun⟩, fun _ h => h⟩

variable {i : ℕ}

theorem Respects.trans (h : Respects i s t) (h' : Respects i t u) : Respects i s u := by
  obtain ⟨tail, htail, hnone⟩ := h.log
  obtain ⟨tail', htail', hnone'⟩ := h'.log
  refine ⟨⟨tail ++ tail', by rw [htail', htail, append_assoc], fun commit hmem => ?_⟩,
    fun fs hfs => h'.failure fs (h.failure fs hfs)⟩
  rcases mem_append.mp hmem with hmem | hmem
  · exact hnone commit hmem
  · exact hnone' commit hmem

theorem Respects.extends (h : Respects i s t) : Extends s t :=
  ⟨h.log.choose, h.log.choose_spec.1⟩

theorem Respects.unpublished (h : Respects i s t) (hs : Unpublished i s) : Unpublished i t := by
  obtain ⟨_, htail, hnone⟩ := h.log
  intro commit hmem
  rw [htail] at hmem
  rcases mem_append.mp hmem with hmem | hmem
  · exact hs commit hmem
  · exact hnone commit hmem

theorem Committed.extends {start : Store} {revision : ℕ} {ns : Namespace}
    (h : Committed start s revision ns) (hext : Extends s t) : Committed start t revision ns := by
  rcases h with h | ⟨commit, hmem, hrevision, hns⟩
  · exact .inl h
  · obtain ⟨_, htail⟩ := hext
    exact .inr ⟨commit, htail ▸ mem_append_left _ hmem, hrevision, hns⟩

/-- The discipline of the tasks. -/
def guarding (setup : GuardedSetup) (start : Store) : Discipline World where
  inv := Consistent setup start
  mono := Extends
  rely := Respects
  fresh := Unpublished
  cancels := True
  mono_refl _ := ⟨[], (List.append_nil _).symm⟩
  mono_trans := Extends.trans
  rely_refl := Respects.refl
  rely_trans := Respects.trans
  fresh_stable h hrely := hrely.unpublished h

/-! ## Quiet steps -/

/-- A coordinator has the same namespace cached; it may have failed. -/
structure SameCache (s t : RuntimeState) : Prop where
  ns : t.ns = s.ns
  revision : t.revision = s.revision
  selectedInodes : t.selectedInodes = s.selectedInodes
  pendingAtime : t.pendingAtime = s.pendingAtime
  failure : t.failure = s.failure ∨ (s.failure = none ∧ ∃ e, t.failure = some e ∧ Foreign e)

theorem SameCache.refl (state : RuntimeState) : SameCache state state :=
  ⟨rfl, rfl, rfl, rfl, .inl rfl⟩

theorem SameCache.trans {s t u : RuntimeState} (h : SameCache s t) (h' : SameCache t u) :
    SameCache s u where
  ns := h'.ns.trans h.ns
  revision := h'.revision.trans h.revision
  selectedInodes := h'.selectedInodes.trans h.selectedInodes
  pendingAtime := h'.pendingAtime.trans h.pendingAtime
  failure := by
    rcases h.failure with hf | ⟨hnone, e, hsome, he⟩
    · rcases h'.failure with hf' | ⟨hnone', hsome'⟩
      · exact .inl (hf'.trans hf)
      · exact .inr ⟨hf ▸ hnone', hsome'⟩
    · rcases h'.failure with hf' | ⟨hnone', _⟩
      · exact .inr ⟨hnone, e, hf'.trans hsome, he⟩
      · rw [hsome] at hnone'
        cases hnone'

theorem SameCache.failWith (state : RuntimeState) {e : FsError} (he : Foreign e) :
    SameCache state (state.failWith e) := by
  refine ⟨rfl, rfl, rfl, rfl, ?_⟩
  cases hfailure : state.failure with
  | none => exact .inr ⟨rfl, e, by simp [RuntimeState.failWith, hfailure], he⟩
  | some e' => exact .inl (by simp [RuntimeState.failWith, hfailure])

/-- Nothing is published, and every coordinator keeps what it has cached. -/
structure Quiet (s t : World) : Prop where
  revision : t.store.revision = s.store.revision
  ns : t.store.ns = s.store.ns
  log : ∃ tail, t.ledger.log = s.ledger.log ++ tail ∧ ∀ commit, Record.structural commit ∉ tail
  state : ∀ fs, SameCache (s.fs fs).state (t.fs fs).state

namespace Quiet

variable {s t u : World}

theorem refl (s : World) : Quiet s s :=
  ⟨rfl, rfl, ⟨[], (append_nil _).symm, nofun⟩, fun _ => .refl _⟩

theorem trans (h : Quiet s t) (h' : Quiet t u) : Quiet s u := by
  obtain ⟨tail, htail, hnone⟩ := h.log
  obtain ⟨tail', htail', hnone'⟩ := h'.log
  refine ⟨h'.revision.trans h.revision, h'.ns.trans h.ns,
    ⟨tail ++ tail', by rw [htail', htail, append_assoc], fun commit hmem => ?_⟩,
    fun fs => (h.state fs).trans (h'.state fs)⟩
  rcases mem_append.mp hmem with hmem | hmem
  · exact hnone commit hmem
  · exact hnone' commit hmem

theorem setFs (fs : ℕ) {c : Coordinator} (h : SameCache (s.fs fs).state c.state) :
    Quiet s (s.setFs fs c) := by
  refine { refl s with state := fun other => ?_ }
  rw [setFs_fs]
  split_ifs with heq
  · exact heq ▸ h
  · exact .refl _

theorem setState (fs : ℕ) {state : RuntimeState} (h : SameCache (s.fs fs).state state) :
    Quiet s (s.setState fs state) := setFs fs h

theorem failWith (s : World) (fs : ℕ) {e : FsError} (he : Foreign e) :
    Quiet s (s.setState fs ((s.fs fs).state.failWith e)) := setState fs (.failWith _ he)

variable {start : Store}

variable {setup : GuardedSetup}

variable (h : Quiet s t)
include h

theorem respects (j : ℕ) : Respects j s t := by
  obtain ⟨tail, htail, hnone⟩ := h.log
  refine ⟨⟨tail, htail, fun commit hmem => absurd hmem (hnone commit)⟩, fun fs hfs => ?_⟩
  rcases (h.state fs).failure with heq | ⟨hnone, _⟩
  · rwa [heq]
  · simp [hnone] at hfs

theorem committed {revision : ℕ} {ns : Namespace} :
    Committed start t revision ns ↔ Committed start s revision ns := by
  constructor
  · rintro (hstart | ⟨commit, hmem, hrest⟩)
    · exact .inl hstart
    · obtain ⟨_, htail, hnone⟩ := h.log
      rw [htail] at hmem
      exact .inr ⟨commit, (mem_append.mp hmem).resolve_right (hnone commit), hrest⟩
  · exact fun hcommitted => hcommitted.extends (h.respects 0).extends

theorem consistent (hs : Consistent setup start s) : Consistent setup start t where
  current := by
    rw [h.committed, h.revision, h.ns]
    exact hs.current
  bounded revision ns hns := by
    rw [h.revision]
    exact hs.bounded revision ns (h.committed.mp hns)
  unique revision ns ns' hns hns' :=
    hs.unique revision ns ns' (h.committed.mp hns) (h.committed.mp hns')
  cached fs := by
    rw [h.committed, (h.state fs).revision, (h.state fs).ns]
    exact hs.cached fs
  selected fs := (h.state fs).selectedInodes.trans (hs.selected fs)
  times fs hfs := (h.state fs).pendingAtime.trans (hs.times fs hfs)
  failure fs e he := by
    rcases (h.state fs).failure with heq | ⟨_, e', hsome, hforeign⟩
    · exact hs.failure fs e (heq ▸ he)
    · rw [hsome] at he
      cases he
      exact hforeign

theorem move {i : ℕ} (hs : Consistent setup start s) : (guarding setup start).Move i s t :=
  ⟨h.consistent hs, (h.respects 0).extends, fun j _ => h.respects j⟩

end Quiet

/-! ## Installations and publications -/

section Steps

variable {setup : GuardedSetup} {start : Store} {s : World} {i : ℕ}

/-- A coordinator takes over a namespace that was published. -/
structure Installs (setup : GuardedSetup) (start : Store) (world : World) (fs : ℕ)
    (next : RuntimeState) : Prop where
  committed : Committed start world next.revision next.ns
  selectedInodes : next.selectedInodes = (world.fs fs).state.selectedInodes
  pendingAtime : (setup.options fs).concurrentWrites = true → next.pendingAtime = ∅
  failure : next.failure = (world.fs fs).state.failure

variable {state : RuntimeState}

theorem Installs.consistent (hs : Consistent setup start s) (fs : ℕ)
    (h : Installs setup start s fs state) :
    Consistent setup start (s.setState fs state) where
  current := hs.current
  bounded := hs.bounded
  unique := hs.unique
  cached other := by
    by_cases heq : other = fs
    · subst heq
      rw [setState_same]
      exact h.committed
    · rw [setState_other _ _ _ heq]
      exact hs.cached other
  selected other := by
    by_cases heq : other = fs
    · subst heq
      simpa using h.selectedInodes.trans (hs.selected other)
    · rw [setState_other _ _ _ heq]
      exact hs.selected other
  times other hother := by
    by_cases heq : other = fs
    · subst heq
      simpa using h.pendingAtime hother
    · rw [setState_other _ _ _ heq]
      exact hs.times other hother
  failure other e he := by
    by_cases heq : other = fs
    · subst heq
      rw [setState_same] at he
      exact hs.failure other e (h.failure ▸ he)
    · rw [setState_other _ _ _ heq] at he
      exact hs.failure other e he

theorem Installs.respects (fs : ℕ) (h : Installs setup start s fs state) (j : ℕ) :
    Respects j s (s.setState fs state) := by
  refine { Respects.refl j s with failure := fun other hother => ?_ }
  by_cases heq : other = fs
  · subst heq
    simpa [h.failure] using hother
  · rw [setState_other _ _ _ heq]
    exact hother

theorem Installs.move (hs : Consistent setup start s) (fs : ℕ) (h : Installs setup start s fs state) :
    (guarding setup start).Move i s (s.setState fs state) :=
  ⟨h.consistent hs, (h.respects fs 0).extends, fun j _ => h.respects fs j⟩

variable {revision : ℕ} {ns : Namespace}

theorem installs_newer {fs : ℕ} (hcommitted : Committed start s revision ns)
    (h : (s.fs fs).state.revision < revision) :
    Installs setup start s fs (Caller.installNewer ns revision (s.fs fs).state) := by
  unfold Caller.installNewer
  rw [if_pos h]
  exact ⟨hcommitted, rfl, fun _ => rfl, rfl⟩

theorem move_installNewer (hs : Consistent setup start s) (fs : ℕ)
    (hcommitted : Committed start s revision ns) :
    (guarding setup start).Move i s
      (s.setState fs (Caller.installNewer ns revision (s.fs fs).state)) := by
  by_cases h : (s.fs fs).state.revision < revision
  · exact (installs_newer hcommitted h).move hs fs
  · unfold Caller.installNewer
    rw [if_neg h, setState_self]
    exact .refl hs

def published (author : ℕ) (stages : List Stage) (ns : Namespace) (world : World) : World :=
  { world with store := { world.store with revision := world.store.revision + 1, ns } }.record
    (.structural { author, stages, prior := world.store.ns, ns
                   revision := world.store.revision + 1 })

variable {author : ℕ} {stages : List Stage}

theorem committed_published {other : Namespace} :
    Committed start (published author stages ns s) revision other ↔
      Committed start s revision other ∨ (revision = s.store.revision + 1 ∧ other = ns) := by
  constructor
  · rintro (hstart | ⟨commit, hmem, rfl, rfl⟩)
    · exact .inl (.inl hstart)
    · rcases mem_append.mp hmem with hmem | hmem
      · exact .inl (.inr ⟨commit, hmem, rfl, rfl⟩)
      · cases mem_singleton.mp hmem
        exact .inr ⟨rfl, rfl⟩
  · rintro (hold | ⟨rfl, rfl⟩)
    · exact hold.extends ⟨_, rfl⟩
    · exact .inr ⟨_, mem_append_right _ (mem_singleton_self _), rfl, rfl⟩

theorem published_consistent (hs : Consistent setup start s) (author : ℕ) (stages : List Stage)
    (ns : Namespace) : Consistent setup start (published author stages ns s) where
  current := committed_published.mpr (.inr ⟨rfl, rfl⟩)
  bounded revision other h := by
    show revision ≤ s.store.revision + 1
    rcases committed_published.mp h with hold | ⟨rfl, _⟩
    · exact Nat.le_succ_of_le (hs.bounded revision other hold)
    · exact Nat.le_refl _
  unique revision other other' h h' := by
    rcases committed_published.mp h with hold | ⟨rfl, rfl⟩ <;>
      rcases committed_published.mp h' with hold' | ⟨hrevision, rfl⟩
    · exact hs.unique revision other other' hold hold'
    · have := hs.bounded _ _ hold
      omega
    · have := hs.bounded _ _ hold'
      omega
    · rfl
  cached fs := committed_published.mpr (.inl (hs.cached fs))
  selected := hs.selected
  times := hs.times
  failure := hs.failure

theorem published_respects {j : ℕ} (h : j ∉ carriedBy stages) :
    Respects j s (published author stages ns s) := by
  refine { Respects.refl j s with log := ⟨_, rfl, fun commit hmem => ?_⟩ }
  cases mem_singleton.mp hmem
  exact h

theorem move_published (hs : Consistent setup start s) (author : ℕ) (stage : Stage)
    (ns : Namespace) (hcarried : stage.carried = [i]) :
    (guarding setup start).Move i s (published author [stage] ns s) := by
  refine ⟨published_consistent hs author [stage] ns, ⟨_, rfl⟩, fun j hj => published_respects ?_⟩
  simpa [carriedBy, hcarried] using hj

end Steps

end MountRs.Chunked.Guarded
