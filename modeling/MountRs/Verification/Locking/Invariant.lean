import MountRs.Verification.Locking.Order

/-! # What holds of the locks and of the batch queue -/

namespace MountRs.Locking

open Function FairLock List

/-! ## Locks -/

/-- Holders know what they hold, and exactly the queued tasks stand in the queues. -/
structure Locks (task : ℕ → Task) (lock : LockId → FairLock) : Prop where
  ordered : ∀ i, Ordered (task i).held (task i).todo
  sound : ∀ l, (lock l).Sound
  holds : ∀ l j, (lock l).Holds j → l ∈ (task j).held
  entry : ∀ l j mode, (j, mode) ∈ (lock l).queue →
    (task j).queued = true ∧ ∃ rest, (task j).todo = .acquire l mode :: rest
  nodup : ∀ l, ((lock l).queue.map Prod.fst).Nodup
  queued : ∀ i, (task i).queued = true →
    ∃ l mode rest, (task i).todo = .acquire l mode :: rest ∧ (i, mode) ∈ (lock l).queue

namespace Locks

variable {task : ℕ → Task} {lock : LockId → FairLock} {i : ℕ}

theorem start : Locks (fun _ => idle) (fun _ => free) where
  ordered _ := rfl
  sound _ := free_sound
  holds _ _ h := by rcases h with h | h <;> cases h
  entry _ _ _ h := by cases h
  nodup _ := nodup_nil
  queued _ h := by cases h

variable {l : LockId} {rest : List Action} {mode : LockMode}

variable (h : Locks task lock)
include h

section

variable (hqueued : (task i).queued = false)
include hqueued

theorem not_entry (l : LockId) (mode : LockMode) : (i, mode) ∉ (lock l).queue := by
  intro hmem
  rw [(h.entry l i mode hmem).1] at hqueued
  cases hqueued

theorem set_todo {todo : List Action}
    (hordered : Ordered (task i).held todo) : Locks (update task i { task i with todo }) lock where
  ordered j := by
    by_cases hj : j = i
    · subst hj
      simpa using hordered
    · simpa [hj] using h.ordered j
  sound := h.sound
  holds l j hj := by
    by_cases hji : j = i
    · subst hji
      simpa using h.holds l j hj
    · simpa [hji] using h.holds l j hj
  entry l j mode hmem := by
    have hji : j ≠ i := by
      rintro rfl
      exact h.not_entry hqueued l mode hmem
    simpa [hji] using h.entry l j mode hmem
  nodup := h.nodup
  queued j hj := by
    by_cases hji : j = i
    · subst hji
      simp [hqueued] at hj
    · simpa [hji] using h.queued j (by simpa [hji] using hj)

theorem request (htodo : (task i).todo = .acquire l mode :: rest) :
    Locks (update task i { task i with queued := true })
      (update lock l ((lock l).request i mode)) where
  ordered j := by
    by_cases hji : j = i
    · subst hji
      simpa using h.ordered j
    · simpa [hji] using h.ordered j
  sound k := by
    by_cases hk : k = l
    · subst hk
      simpa using h.sound k
    · simpa [hk] using h.sound k
  holds k j hj := by
    have hheld : k ∈ (task j).held := by
      by_cases hk : k = l
      · subst hk
        exact h.holds k j (by simpa using hj)
      · exact h.holds k j (by simpa [hk] using hj)
    by_cases hji : j = i
    · subst hji
      simpa using hheld
    · simpa [hji] using hheld
  entry k j mode' hmem := by
    by_cases hji : j = i
    · subst hji
      by_cases hk : k = l
      · subst hk
        rcases mem_append.mp (by simpa [request] using hmem :
          (j, mode') ∈ (lock k).queue ++ [(j, mode)]) with hmem | hmem
        · exact absurd hmem (h.not_entry hqueued k mode')
        · simp only [mem_singleton, Prod.mk.injEq, true_and] at hmem
          subst hmem
          simpa using ⟨rest, htodo⟩
      · exact absurd (by simpa [hk] using hmem) (h.not_entry hqueued k mode')
    · have hold : (j, mode') ∈ (lock k).queue := by
        by_cases hk : k = l
        · subst hk
          simpa [request, hji] using hmem
        · simpa [hk] using hmem
      simpa [hji] using h.entry k j mode' hold
  nodup k := by
    by_cases hk : k = l
    · subst hk
      simpa [request, nodup_append] using
        ⟨h.nodup k, fun j mode' hmem hji => h.not_entry hqueued k mode' (hji ▸ hmem)⟩
    · simpa [hk] using h.nodup k
  queued j hj := by
    by_cases hji : j = i
    · subst hji
      exact ⟨l, mode, rest, by simpa using htodo, by simp [request]⟩
    · obtain ⟨k, mode', rest', htodo', hmem⟩ := h.queued j (by simpa [hji] using hj)
      refine ⟨k, mode', rest', by simpa [hji] using htodo', ?_⟩
      by_cases hk : k = l
      · subst hk
        simpa [request] using .inl hmem
      · simpa [hk] using hmem

end

theorem grant (htodo : (task i).todo = .acquire l mode :: rest)
    (hgrant : (lock l).grantable i = true) :
    Locks (update task i { todo := rest, held := l :: (task i).held, queued := false })
      (update lock l (lock l).grant) := by
  obtain ⟨_, _, hqueue, hadmits⟩ := grantable_iff.mp hgrant
  have hordered := h.ordered i
  rw [htodo] at hordered
  have hnew : ¬ (lock l).Holds i := fun hholds => hordered.1.not_mem (h.holds l i hholds)
  have hnodup := h.nodup l
  rw [hqueue, map_cons, nodup_cons] at hnodup
  -- The task stood in no other queue, and only once in this one.
  have hother : ∀ k j mode'', (j, mode'') ∈ (update lock l (lock l).grant k).queue →
      j ≠ i ∧ (j, mode'') ∈ (lock k).queue := by
    intro k j mode'' hmem
    by_cases hk : k = l
    · subst hk
      simp only [update_self, queue_grant hqueue] at hmem
      refine ⟨?_, hqueue ▸ mem_cons_of_mem _ hmem⟩
      rintro rfl
      exact hnodup.1 (mem_map.mpr ⟨(j, mode''), hmem, rfl⟩)
    · simp only [update_of_ne hk] at hmem
      refine ⟨?_, hmem⟩
      rintro rfl
      obtain ⟨_, _, htodo'⟩ := h.entry k j mode'' hmem
      rw [htodo] at htodo'
      simp only [List.cons.injEq, Action.acquire.injEq] at htodo'
      exact hk htodo'.1.1.symm
  constructor
  · intro j
    by_cases hji : j = i
    · subst hji
      simpa using hordered.2
    · simpa [hji] using h.ordered j
  · intro k
    by_cases hk : k = l
    · subst hk
      simpa using sound_grant (h.sound k) hqueue hadmits hnew
    · simpa [hk] using h.sound k
  · intro k j hj
    by_cases hk : k = l
    · subst hk
      rcases holds_grant hqueue (by simpa using hj) with rfl | hj
      · simp
      · by_cases hji : j = i
        · subst hji
          simp
        · simpa [hji] using h.holds k j hj
    · have hheld := h.holds k j (by simpa [hk] using hj)
      by_cases hji : j = i
      · subst hji
        simpa using .inr hheld
      · simpa [hji] using hheld
  · intro k j mode'' hmem
    obtain ⟨hji, hmem⟩ := hother k j mode'' hmem
    simpa [hji] using h.entry k j mode'' hmem
  · intro k
    by_cases hk : k = l
    · subst hk
      simpa [queue_grant hqueue] using hnodup.2
    · simpa [hk] using h.nodup k
  · intro j hj
    by_cases hji : j = i
    · subst hji
      simp at hj
    · obtain ⟨k, mode'', rest', htodo', hmem⟩ := h.queued j (by simpa [hji] using hj)
      refine ⟨k, mode'', rest', by simpa [hji] using htodo', ?_⟩
      by_cases hk : k = l
      · subst hk
        rw [hqueue] at hmem
        rcases mem_cons.mp hmem with heq | hmem
        · exact absurd (Prod.mk.inj heq).1 hji
        · simpa [queue_grant hqueue] using hmem
      · simpa [hk] using hmem

theorem release (hqueued : (task i).queued = false) (htodo : (task i).todo = .release l :: rest) :
    Locks (update task i { task i with todo := rest, held := (task i).held.erase l })
      (update lock l ((lock l).release i)) := by
  have hordered := h.ordered i
  rw [htodo] at hordered
  obtain ⟨_, hheld, hordered⟩ := hordered
  have hqueue : ∀ k, (update lock l ((lock l).release i) k).queue = (lock k).queue := by
    intro k
    by_cases hk : k = l
    · subst hk
      simp
    · simp [hk]
  constructor
  · intro j
    by_cases hji : j = i
    · subst hji
      simpa [hheld] using hordered
    · simpa [hji] using h.ordered j
  · intro k
    by_cases hk : k = l
    · subst hk
      simpa using sound_release (h.sound k)
    · simpa [hk] using h.sound k
  · intro k j hj
    by_cases hk : k = l
    · subst hk
      obtain ⟨hji, hj⟩ := holds_release (h.sound k) (by simpa using hj)
      simpa [hji] using h.holds k j hj
    · have hmem := h.holds k j (by simpa [hk] using hj)
      by_cases hji : j = i
      · subst hji
        rw [hheld] at hmem
        simpa [hheld, hk] using hmem
      · simpa [hji] using hmem
  · intro k j mode hmem
    rw [hqueue] at hmem
    have hji : j ≠ i := by
      rintro rfl
      exact h.not_entry hqueued k mode hmem
    simpa [hji] using h.entry k j mode hmem
  · intro k
    rw [hqueue]
    exact h.nodup k
  · intro j hj
    by_cases hji : j = i
    · subst hji
      simp [hqueued] at hj
    · simpa [hji, hqueue] using h.queued j (by simpa [hji] using hj)

end Locks

/-! ## The batch queue -/

/-- What a task does until it stops running batches. -/
def OnDuty : List Action → Prop
  | [] => False
  | .collect :: rest => Settled rest
  | .acquire lock _ :: rest => replyRank < lock.rank ∧ OnDuty rest
  | .release _ :: rest => OnDuty rest
  | .call :: rest => OnDuty rest
  | .applied _ :: rest => OnDuty rest
  | .submit :: _ => False
  | .awaitReply :: _ => False

/-- At most one task runs batches, and every task that waits for a reply has it, is in
the queue, or is in the batch that this task applies. -/
structure Batches (runner : Option ℕ) (todo : ℕ → List Action) (pending : List ℕ) (running : Bool)
    (replied : List ℕ) : Prop where
  running : running = runner.isSome
  duty : ∀ i, runner = some i → OnDuty (todo i)
  settled : ∀ i, runner ≠ some i → Settled (todo i)
  owed : ∀ i, .awaitReply ∈ todo i →
    i ∈ replied ∨ i ∈ pending ∨ ∃ j batch, .applied batch ∈ todo j ∧ i ∈ batch
  pending : pending ≠ [] → runner ≠ none

namespace Batches

variable {runner : Option ℕ} {todo : ℕ → List Action} {pending replied : List ℕ} {running : Bool}
  {i : ℕ} {rest : List Action}

theorem start : Batches none (fun _ => []) [] false [] where
  running := rfl
  duty _ h := by cases h
  settled _ _ := ⟨by simp, by simp⟩
  owed _ h := by cases h
  pending h := absurd rfl h

variable {a : Action}

theorem settled_tail (h : Settled (a :: rest)) : Settled rest :=
  ⟨fun hmem => h.1 (mem_cons_of_mem _ hmem),
    fun batch hmem => h.2 batch (mem_cons_of_mem _ hmem)⟩

theorem settled_cons (ha : a ≠ .collect) (ha' : ∀ batch, a ≠ .applied batch) (h : Settled rest) :
    Settled (a :: rest) :=
  ⟨fun hmem => (mem_cons.mp hmem).elim (fun heq => ha heq.symm) h.1,
    fun batch hmem => (mem_cons.mp hmem).elim (fun heq => ha' batch heq.symm) (h.2 batch)⟩

section

variable (h : Batches runner todo pending running replied)
include h

/-- A task replaces its script: no waiter loses its place, and the other tasks keep their roles. -/
theorem move {runner' : Option ℕ}
    {pending' replied' : List ℕ} {running' : Bool} {script : List Action}
    (hrunner : ∀ j, j ≠ i → (runner' = some j ↔ runner = some j))
    (hrunning : running' = runner'.isSome) (hduty : runner' = some i → OnDuty script)
    (hsettled : runner' ≠ some i → Settled script)
    (hawaits : .awaitReply ∈ script → .awaitReply ∈ todo i ∨ i ∈ pending')
    (hreplied : replied ⊆ replied')
    (hqueued : ∀ j ∈ pending, j ∈ pending' ∨ ∃ batch, .applied batch ∈ script ∧ j ∈ batch)
    (happlied : ∀ batch, .applied batch ∈ todo i → .applied batch ∈ script ∨ batch ⊆ replied')
    (hpending : pending' ≠ [] → runner' ≠ none) :
    Batches runner' (update todo i script) pending' running' replied' where
  running := hrunning
  duty j hj := by
    by_cases hji : j = i
    · subst hji
      simpa using hduty hj
    · simpa [hji] using h.duty j ((hrunner j hji).1 hj)
  settled j hj := by
    by_cases hji : j = i
    · subst hji
      simpa using hsettled hj
    · simpa [hji] using h.settled j fun hold => hj ((hrunner j hji).2 hold)
  owed j hj := by
    have hold : .awaitReply ∈ todo j ∨ j ∈ pending' := by
      by_cases hji : j = i
      · subst hji
        exact hawaits (by simpa using hj)
      · exact .inl (by simpa [hji] using hj)
    rcases hold with hold | hp
    · rcases h.owed j hold with hr | hp | ⟨k, batch, hmem, hbatch⟩
      · exact .inl (hreplied hr)
      · rcases hqueued j hp with hp | ⟨batch, hmem, hbatch⟩
        · exact .inr (.inl hp)
        · exact .inr (.inr ⟨i, batch, by simpa using hmem, hbatch⟩)
      · by_cases hki : k = i
        · subst hki
          rcases happlied batch hmem with hmem | hsub
          · exact .inr (.inr ⟨k, batch, by simpa using hmem, hbatch⟩)
          · exact .inl (hsub hbatch)
        · exact .inr (.inr ⟨k, batch, by simpa [hki] using hmem, hbatch⟩)
    · exact .inr (.inl hp)
  pending := hpending

theorem pop (htodo : todo i = a :: rest)
    (hduty : OnDuty (a :: rest) → OnDuty rest) (ha : ∀ batch, a ≠ .applied batch) :
    Batches runner (update todo i rest) pending running replied := by
  refine h.move (fun _ _ => .rfl) h.running (fun hj => hduty (htodo ▸ h.duty i hj))
    (fun hj => settled_tail (htodo ▸ h.settled i hj)) (fun hmem => .inl ?_) (fun _ hj => hj)
    (fun _ hj => .inl hj) (fun batch hmem => .inl ?_) h.pending
  · exact htodo ▸ mem_cons_of_mem _ hmem
  · rw [htodo] at hmem
    exact (mem_cons.mp hmem).resolve_left fun heq => ha batch heq.symm

theorem spawn (htodo : todo i = []) {script : List Action} (hscript : ∀ a ∈ script, a.Initial) :
    Batches runner (update todo i script) pending running replied := by
  refine h.move (fun _ _ => .rfl) h.running (fun hj => ?_)
    (fun _ => settled_of_initial hscript) (fun hmem => (hscript _ hmem).elim) (fun _ hj => hj)
    (fun _ hj => .inl hj) (fun batch hmem => ?_) h.pending
  · simpa [htodo, OnDuty] using h.duty i hj
  · simp [htodo] at hmem

end

theorem submit_running (h : Batches runner todo pending true replied)
    (htodo : todo i = .submit :: rest) :
    Batches runner (update todo i (.awaitReply :: rest)) (pending ++ [i]) true replied := by
  refine h.move (fun _ _ => .rfl) h.running (fun hj => ?_) (fun hj => ?_)
    (fun _ => .inr (by simp)) (fun _ hj => hj) (fun _ hj => .inl (mem_append_left _ hj))
    (fun batch hmem => .inl (by simpa [htodo] using hmem)) (fun _ hnone => ?_)
  · simpa [htodo, OnDuty] using h.duty i hj
  · exact settled_cons (by simp) (by simp) (settled_tail (htodo ▸ h.settled i hj))
  · have hrunning := h.running
    simp [hnone] at hrunning

theorem submit_idle (h : Batches runner todo pending false replied)
    (htodo : todo i = .submit :: rest) :
    Batches (some i) (update todo i (.collect :: .awaitReply :: rest)) (pending ++ [i])
      true replied := by
  have hnone : runner = none := by simpa using h.running.symm
  refine h.move (fun j hji => by simp [hnone, hji.symm]) rfl (fun _ => ?_)
    (fun hne => absurd rfl hne) (fun _ => .inr (by simp)) (fun _ hj => hj)
    (fun _ hj => .inl (mem_append_left _ hj))
    (fun batch hmem => .inl (by simpa [htodo] using hmem)) (by simp)
  have hsettled : Settled (todo i) := h.settled i (by simp [hnone])
  exact settled_cons (by simp) (by simp) (settled_tail (htodo ▸ hsettled))

variable {batch : List ℕ}

section

variable (h : Batches runner todo pending running replied)
include h

theorem runner_of_collect (htodo : todo i = .collect :: rest) : runner = some i := by
  by_contra hne
  exact (h.settled i hne).1 (by simp [htodo])

theorem runner_of_applied (hmem : .applied batch ∈ todo i) : runner = some i := by
  by_contra hne
  exact (h.settled i hne).2 batch hmem

theorem not_applied
    (htodo : todo i = .collect :: rest) (j : ℕ) (batch : List ℕ) : .applied batch ∉ todo j := by
  intro hmem
  have hji : j = i :=
    Option.some.inj ((h.runner_of_applied hmem).symm.trans (h.runner_of_collect htodo))
  subst hji
  have hduty := h.duty j (h.runner_of_collect htodo)
  rw [htodo] at hduty hmem
  exact hduty.2 batch (by simpa using hmem)

theorem settled_of_collect (htodo : todo i = .collect :: rest) : Settled rest := by
  have hduty := h.duty i (h.runner_of_collect htodo)
  rw [htodo] at hduty
  exact hduty

end

theorem collect_nil (h : Batches runner todo [] running replied)
    (htodo : todo i = .collect :: rest) :
    Batches none (update todo i rest) [] false replied := by
  have hrunner := h.runner_of_collect htodo
  exact h.move (fun j hji => by simp [hrunner, hji.symm]) rfl nofun
    (fun _ => h.settled_of_collect htodo) (fun hmem => .inl (htodo ▸ mem_cons_of_mem _ hmem))
    (fun _ hj => hj) nofun (fun batch hmem => absurd hmem (h.not_applied htodo i batch))
    fun hne => absurd rfl hne

variable {work : List Action}

theorem onDuty_append (h : ∀ a ∈ work, a.Inner) (hrest : OnDuty rest) : OnDuty (work ++ rest) := by
  induction work with
  | nil => exact hrest
  | cons a work ih =>
    have hwork := ih fun b hb => h b (mem_cons_of_mem _ hb)
    have ha := h a mem_cons_self
    cases a with
    | acquire => exact ⟨ha, hwork⟩
    | release | call => exact hwork
    | submit | collect | applied | awaitReply => exact ha.elim

theorem onDuty_batchScript (h : ∀ a ∈ work, a.Inner) (hrest : Settled rest) :
    OnDuty (batchScript work batch ++ .collect :: rest) := by
  simp only [batchScript, cons_append, append_assoc, nil_append]
  exact ⟨by decide, onDuty_append h hrest⟩

theorem collect_batch (h : Batches runner todo pending running replied)
    (htodo : todo i = .collect :: rest) (hwork : ∀ a ∈ work, a.Inner) :
    Batches runner (update todo i (batchScript work pending ++ .collect :: rest)) [] running
      replied := by
  have hawait : .awaitReply ∉ work := fun hmem => hwork _ hmem
  exact h.move (fun _ _ => .rfl) h.running
    (fun _ => onDuty_batchScript hwork (h.settled_of_collect htodo))
    (fun hne => absurd (h.runner_of_collect htodo) hne)
    (fun hmem => .inl (by simpa [batchScript, htodo, hawait] using hmem)) (fun _ hj => hj)
    (fun _ hj => .inr ⟨pending, by simp [batchScript], hj⟩)
    (fun batch hmem => absurd hmem (h.not_applied htodo i batch)) fun hne => absurd rfl hne

theorem applied (h : Batches runner todo pending running replied)
    (htodo : todo i = .applied batch :: rest) :
    Batches runner (update todo i rest) pending running (replied ++ batch) := by
  have hrunner : runner = some i := h.runner_of_applied (show .applied batch ∈ todo i by simp [htodo])
  refine h.move (fun _ _ => .rfl) h.running (fun _ => ?_) (fun hne => absurd hrunner hne)
    (fun hmem => .inl (htodo ▸ mem_cons_of_mem _ hmem)) (subset_append_left _ _)
    (fun _ hj => .inl hj) (fun batch' hmem => ?_) h.pending
  · have hduty := h.duty i hrunner
    rw [htodo] at hduty
    exact hduty
  · rw [htodo] at hmem
    rcases mem_cons.mp hmem with heq | hmem
    · exact .inr (Action.applied.inj heq ▸ subset_append_right _ _)
    · exact .inl hmem

end Batches

end MountRs.Locking
