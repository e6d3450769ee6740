import Mathlib.Algebra.BigOperators.Ring.Nat
import MountRs.Verification.Locking.Invariant

/-! # Deadlocks -/

namespace MountRs.Locking

open Function State List

/-! ## Runs -/

/-- Tasks that have not started are idle, and the locks and the queue are consistent. -/
structure State.Consistent (state : State) : Prop where
  fresh : ∀ i, state.spawned ≤ i → state.task i = idle
  locks : Locks state.task state.lock
  batches : ∃ runner, Batches runner (fun i => (state.task i).todo) state.pending state.running
    state.replied

theorem start_consistent : start.Consistent :=
  ⟨fun _ _ => rfl, .start, none, .start⟩

section Steps

variable {choices : Choices} {state next : State} {i : ℕ}

theorem todo_update (task : ℕ → Task) (i : ℕ) (t : Task) : (fun j => (update task i t j).todo) =
      update (fun j => (task j).todo) i t.todo := by
  funext j
  by_cases hj : j = i
  · subst hj
    simp
  · simp [hj]

variable {rest : List Action} {a : Action}

theorem fresh_update (h : state.Consistent) (htodo : (state.task i).todo = a :: rest) (t : Task)
    (j : ℕ) (hj : state.spawned ≤ j) : update state.task i t j = idle := by
  have hji : j ≠ i := by
    rintro rfl
    rw [h.fresh j hj] at htodo
    cases htodo
  simpa [hji] using h.fresh j hj

theorem not_queued (h : state.Consistent) (htodo : (state.task i).todo = a :: rest)
    (ha : ∀ l mode, a ≠ .acquire l mode) :
    (state.task i).queued = false := by
  rw [← Bool.not_eq_true]
  intro hqueued
  obtain ⟨l, mode, _, htodo', _⟩ := h.locks.queued i hqueued
  rw [htodo] at htodo'
  exact ha l mode (cons.inj htodo').1

theorem ordered_of_todo (h : state.Consistent) {todo : List Action}
    (htodo : (state.task i).todo = todo) : Ordered (state.task i).held todo :=
  htodo ▸ h.locks.ordered i

variable {ok : Bool}

theorem batchScript_ordered {work : List Action} (hwork : Path Prog.applyMutationBatch ok work)
    (batch : List ℕ) {held : List LockId} (hheld : Above held replyRank) (hrest : Ordered held rest) :
    Ordered held (batchScript work batch ++ rest) := by
  have hgate : Above held 4 := fun l hl => Nat.lt_succ_of_lt (hheld l hl)
  simp only [batchScript, cons_append, append_assoc, nil_append]
  exact ⟨hgate, hwork.ordered (applyMutationBatch_ordered hgate.gate) ⟨held, rfl, hrest⟩⟩

theorem step_consistent (hbatch : ∀ n, ∃ ok, Path Prog.applyMutationBatch ok (choices.batch n))
    (h : state.Consistent) (hstep : state.step choices i = some next) : next.Consistent := by
  obtain ⟨runner, hbatches⟩ := h.batches
  unfold step at hstep
  dsimp only at hstep
  -- The cases are the actions that the task may be about to do.
  split at hstep
  · cases hstep
  · rename_i l mode rest htodo
    split_ifs at hstep with hqueued hgrant <;> cases hstep
    · refine ⟨fresh_update h htodo _, h.locks.grant htodo hgrant, runner, ?_⟩
      simp only [setTask, setLock, todo_update]
      exact hbatches.pop htodo (fun hduty => hduty.2) (by simp)
    · rw [Bool.not_eq_true] at hqueued
      refine ⟨fresh_update h htodo _, h.locks.request hqueued htodo, runner, ?_⟩
      simp only [setTask, setLock, todo_update, update_eq_self]
      exact hbatches
  · rename_i l rest htodo
    cases hstep
    have hqueued := not_queued h htodo (by simp)
    refine ⟨fresh_update h htodo _, h.locks.release hqueued htodo, runner, ?_⟩
    simp only [setTask, setLock, todo_update]
    exact hbatches.pop htodo id (by simp)
  · rename_i rest htodo
    cases hstep
    have hqueued := not_queued h htodo (by simp)
    have hordered : Ordered (state.task i).held rest := by
      simpa only [Ordered] using ordered_of_todo h htodo
    refine ⟨fresh_update h htodo _, h.locks.set_todo hqueued hordered, runner, ?_⟩
    simp only [setTask, todo_update]
    exact hbatches.pop htodo id (by simp)
  · rename_i rest htodo
    have hqueued := not_queued h htodo (by simp)
    obtain ⟨habove, hordered⟩ := ordered_of_todo h htodo
    split_ifs at hstep with hrunning <;> cases hstep
    · refine ⟨fresh_update h htodo _, h.locks.set_todo hqueued ⟨habove, hordered⟩, runner, ?_⟩
      simp only [setTask, todo_update]
      rw [hrunning] at hbatches ⊢
      exact hbatches.submit_running htodo
    · refine ⟨fresh_update h htodo _, h.locks.set_todo hqueued ⟨habove, habove, hordered⟩, some i, ?_⟩
      simp only [setTask, todo_update]
      rw [Bool.not_eq_true] at hrunning
      rw [hrunning] at hbatches
      exact hbatches.submit_idle htodo
  · rename_i rest htodo
    have hqueued := not_queued h htodo (by simp)
    obtain ⟨habove, hordered⟩ := ordered_of_todo h htodo
    split_ifs at hstep with hpending <;> cases hstep
    · refine ⟨fresh_update h htodo _, h.locks.set_todo hqueued hordered, none, ?_⟩
      simp only [setTask, todo_update]
      rw [hpending] at hbatches ⊢
      exact hbatches.collect_nil htodo
    · obtain ⟨ok, hpath⟩ := hbatch state.batches
      refine ⟨fresh_update h htodo _, h.locks.set_todo hqueued
        (batchScript_ordered hpath _ habove ⟨habove, hordered⟩), runner, ?_⟩
      simp only [setTask, todo_update]
      exact hbatches.collect_batch htodo (hpath.inner applyMutationBatch_inner)
  · rename_i batch rest htodo
    cases hstep
    have hqueued := not_queued h htodo (by simp)
    have hordered : Ordered (state.task i).held rest := by
      simpa only [Ordered] using ordered_of_todo h htodo
    refine ⟨fresh_update h htodo _, h.locks.set_todo hqueued hordered, runner, ?_⟩
    simp only [setTask, todo_update]
    exact hbatches.applied htodo
  · rename_i rest htodo
    have hqueued := not_queued h htodo (by simp)
    split_ifs at hstep with hreplied
    cases hstep
    refine ⟨fresh_update h htodo _, h.locks.set_todo hqueued (ordered_of_todo h htodo).2, runner, ?_⟩
    simp only [setTask, todo_update]
    exact hbatches.pop htodo (fun hduty => hduty.elim) (by simp)

theorem spawn_consistent (h : state.Consistent) {p : Prog}
    (hpath : Path p ok (choices.script state.spawned)) (hp : p.Ordered []) :
    (state.next choices .spawn).Consistent := by
  obtain ⟨runner, hbatches⟩ := h.batches
  have hidle := h.fresh state.spawned (Nat.le_refl _)
  have hordered : Ordered [] (choices.script state.spawned ++ []) := hpath.ordered hp rfl
  rw [append_nil] at hordered
  refine ⟨fun j hj => ?_, ?_, runner, ?_⟩
  · have hne : j ≠ state.spawned := by
      rintro rfl
      exact absurd hj (Nat.not_succ_le_self _)
    simpa [State.next, setTask, hne] using h.fresh j (Nat.le_of_succ_le hj)
  · have hqueued : (state.task state.spawned).queued = false := by rw [hidle]; rfl
    have hscript : Ordered (state.task state.spawned).held (choices.script state.spawned) := by
      rw [hidle]
      exact hordered
    have hlocks := h.locks.set_todo hqueued hscript
    rw [hidle] at hlocks
    exact hlocks
  · simp only [State.next, setTask, todo_update]
    refine hbatches.spawn ?_ hpath.initial
    show (state.task state.spawned).todo = []
    rw [hidle]
    rfl

end Steps

theorem run_consistent {choices : Choices} {ops : ℕ → Op} (hfollow : choices.Follow ops)
    (hops : ∀ i, (ops i).reenters = false) (schedule : List Event) :
    ∀ {state : State}, state.Consistent → (state.run choices schedule).Consistent := by
  induction schedule with
  | nil => exact fun h => h
  | cons event rest ih =>
    intro state h
    refine ih ?_
    cases event with
    | spawn =>
      obtain ⟨ok, hpath⟩ := hfollow.script state.spawned
      exact spawn_consistent h hpath (op_ordered _ _ (hops _))
    | run task =>
      simp only [State.next]
      cases hstep : state.step choices task with
      | none => exact h
      | some => exact step_consistent hfollow.batch h hstep

/-! ## Progress -/

def Task.waitRank (task : Task) : ℕ :=
  match task.todo with
  | .acquire lock _ :: _ => lock.rank
  | .awaitReply :: _ => replyRank
  | _ => 0

theorem waitRank_le (task : Task) : task.waitRank ≤ 5 := by
  unfold Task.waitRank
  split
  · rename_i lock _ _ _
    cases lock <;> simp [LockId.rank]
  · decide
  · decide

section Progress

variable {choices : Choices} {state : State} {i : ℕ}

theorem blocked_cases (h : (state.step choices i).isNone = true)
    (htodo : (state.task i).todo ≠ []) :
    (∃ l mode rest, (state.task i).todo = .acquire l mode :: rest ∧
      (state.task i).queued = true ∧ (state.lock l).grantable i = false) ∨
    ∃ rest, (state.task i).todo = .awaitReply :: rest ∧ i ∉ state.replied := by
  unfold step at h
  dsimp only at h
  split at h
  · rename_i hnil
    exact absurd hnil htodo
  · rename_i l mode rest hacquire
    split_ifs at h with hqueued hgrant
    · cases h
    · exact .inl ⟨l, mode, rest, hacquire, hqueued, Bool.not_eq_true _ ▸ hgrant⟩
    · cases h
  · cases h
  · cases h
  · split_ifs at h <;> cases h
  · split_ifs at h <;> cases h
  · cases h
  · rename_i rest hawait
    split_ifs at h with hreplied
    · cases h
    · exact .inr ⟨rest, hawait, hreplied⟩

theorem rank_lt_of_held (h : state.Consistent) (hstuck : ∀ j, (state.step choices j).isNone = true)
    {l : LockId} (hheld : l ∈ (state.task i).held) :
    (state.task i).todo ≠ [] ∧ l.rank < (state.task i).waitRank := by
  have hordered := h.locks.ordered i
  have htodo : (state.task i).todo ≠ [] := by
    intro hnil
    rw [hnil] at hordered
    rw [show (state.task i).held = [] from hordered] at hheld
    cases hheld
  refine ⟨htodo, ?_⟩
  rcases blocked_cases (hstuck i) htodo with ⟨l', mode, rest, hacquire, _, _⟩ | ⟨rest, hawait, _⟩
  · rw [hacquire] at hordered
    simpa [Task.waitRank, hacquire] using hordered.1 l hheld
  · rw [hawait] at hordered
    simpa [Task.waitRank, hawait] using hordered.1 l hheld

theorem rank_lt_of_runner (hstuck : ∀ j, (state.step choices j).isNone = true)
    (hduty : OnDuty (state.task i).todo) :
    (state.task i).todo ≠ [] ∧ replyRank < (state.task i).waitRank := by
  have htodo : (state.task i).todo ≠ [] := by
    intro hnil
    rw [hnil] at hduty
    exact hduty
  refine ⟨htodo, ?_⟩
  rcases blocked_cases (hstuck i) htodo with ⟨l, mode, rest, hacquire, _, _⟩ | ⟨rest, hawait, _⟩
  · rw [hacquire] at hduty
    simpa [Task.waitRank, hacquire] using hduty.1
  · rw [hawait] at hduty
    exact hduty.elim

/-- If no task can take a step, then behind every blocked task there is another one that
waits for something of a higher rank. -/
theorem exists_higher (h : state.Consistent)
    (hstuck : ∀ j, (state.step choices j).isNone = true) (htodo : (state.task i).todo ≠ []) :
    ∃ j, (state.task j).todo ≠ [] ∧ (state.task i).waitRank < (state.task j).waitRank := by
  rcases blocked_cases (hstuck i) htodo with
    ⟨l, mode, rest, hacquire, hqueued, _⟩ | ⟨rest, hawait, hreplied⟩
  · have hrank : (state.task i).waitRank = l.rank := by simp [Task.waitRank, hacquire]
    have hqueue : (state.lock l).queue ≠ [] := by
      obtain ⟨_, _, _, hacquire', hmem⟩ := h.locks.queued i hqueued
      rw [hacquire] at hacquire'
      simp only [cons.injEq, Action.acquire.injEq] at hacquire'
      rw [hacquire'.1.1]
      exact ne_nil_of_mem hmem
    rcases FairLock.grantable_or_holds hqueue with ⟨j, hgrant⟩ | ⟨j, hholds⟩
    · -- The first in line could take its step.
      obtain ⟨mode', _, hline, _⟩ := FairLock.grantable_iff.mp hgrant
      obtain ⟨hj, _, hfirst⟩ := h.locks.entry l j mode' (by simp [hline])
      have hstep := hstuck j
      simp [step, hfirst, hj, hgrant] at hstep
    · rw [hrank]
      exact ⟨j, rank_lt_of_held h hstuck (h.locks.holds l j hholds)⟩
  · have hrank : (state.task i).waitRank = replyRank := by simp [Task.waitRank, hawait]
    obtain ⟨_, hbatches⟩ := h.batches
    rw [hrank]
    -- The reply is owed by the task that runs batches.
    rcases hbatches.owed i (by simp [hawait]) with hr | hp | ⟨j, batch, hmem, _⟩
    · exact absurd hr hreplied
    · obtain ⟨j, hj⟩ := Option.ne_none_iff_exists'.mp (hbatches.pending (ne_nil_of_mem hp))
      exact ⟨j, rank_lt_of_runner hstuck (hbatches.duty j hj)⟩
    · exact ⟨j, rank_lt_of_runner hstuck (hbatches.duty j (hbatches.runner_of_applied hmem))⟩

theorem Consistent.not_deadlocked (h : state.Consistent) : ¬ state.Deadlocked choices := by
  rintro ⟨⟨i, _, htodo⟩, hblocked⟩
  have hstuck : ∀ j, (state.step choices j).isNone = true := by
    intro j
    rcases Nat.lt_or_ge j state.spawned with hj | hj
    · exact hblocked j hj
    · simp [step, h.fresh j hj, idle]
  -- The ranks of what the tasks wait for would have no bound.
  have hunbounded : ∀ rank, ∃ j, (state.task j).todo ≠ [] ∧ rank ≤ (state.task j).waitRank := by
    intro rank
    induction rank with
    | zero => exact ⟨i, htodo, Nat.zero_le _⟩
    | succ rank ih =>
      obtain ⟨j, hj, hrank⟩ := ih
      obtain ⟨k, hk, hlt⟩ := exists_higher h hstuck hj
      exact ⟨k, hk, Nat.lt_of_le_of_lt hrank hlt⟩
  obtain ⟨j, _, hrank⟩ := hunbounded 6
  exact absurd (Nat.le_trans hrank (waitRank_le _)) (by decide)

end Progress

/-! ## Results -/

/-- The path on which every call succeeds and every choice takes its second part. -/
def Prog.fullPath : Prog → List Action
  | skip => []
  | call => [.call]
  | submit => [.submit]
  | seq p q => p.fullPath ++ q.fullPath
  | choice _ q => q.fullPath
  | locked lock mode p => .acquire lock mode :: p.fullPath ++ [.release lock]
  | thenAlways p q => p.fullPath ++ q.fullPath

theorem fullPath_path (p : Prog) : Path p true p.fullPath := by
  induction p with
  | skip => exact .skip
  | call => exact .call true
  | submit => exact .submit true
  | seq p q ihp ihq => exact .seq ihp ihq
  | choice p q _ ihq => exact .right ihq
  | locked _ _ _ ih => exact .locked ih
  | thenAlways p q ihp ihq => exact .thenAlways ihp ihq

/-- Every operation runs in full, and the batches publish something or nothing. -/
def Choices.full (ops : ℕ → Op) (changed : Bool) : Choices where
  script i := ((ops i).prog i).fullPath
  batch _ :=
    if changed then Prog.applyMutationBatch.fullPath else (Prog.seq .renewLease .call).fullPath

theorem full_follow (ops : ℕ → Op) (changed : Bool) : (Choices.full ops changed).Follow ops := by
  refine ⟨fun _ => ⟨true, fullPath_path _⟩, fun _ => ⟨true, ?_⟩⟩
  cases changed with
  | false => exact .seq (fullPath_path .renewLease) (.seq (.call true) (.left .skip))
  | true => exact fullPath_path _

/-- No run deadlocks in which no whole-file write goes on through a handle after a
conflict. -/
theorem no_deadlock (ops : ℕ → Op) (choices : Choices) (hfollow : choices.Follow ops)
    (hops : ∀ i, (ops i).reenters = false) (schedule : List Event) :
    ¬ (State.start.run choices schedule).Deadlocked choices :=
  Consistent.not_deadlocked (run_consistent hfollow hops schedule start_consistent)

/-- A whole-file write, a truncation of its file, and a shutdown. -/
def conflictOps (fallback : Option ℕ) : ℕ → Op
  | 0 => .writeFile fallback
  | 1 => .truncate
  | _ => .shutdown

/-- The truncation changes the file while the write prepares its blocks. The shutdown
stands in line for the lifecycle lock when the write has opened its handle. -/
def conflictSchedule : List Event :=
  [.spawn, .spawn, .spawn] ++ List.replicate 7 (.run 0) ++ List.replicate 17 (.run 1) ++
    List.replicate 32 (.run 0) ++ [.run 2, .run 0]

theorem no_deadlock_committed : (∀ i, (conflictOps none i).reenters = false) ∧
      ¬ (State.start.run (.full (conflictOps none) true) conflictSchedule).Deadlocked
        (.full (conflictOps none) true) := by
  have hops : ∀ i, (conflictOps none i).reenters = false := by
    intro i
    match i with
    | 0 => rfl
    | 1 => rfl
    | _ + 2 => rfl
  exact ⟨hops, no_deadlock _ _ (full_follow _ true) hops _⟩

/-- The write holds the lifecycle lock and requests it again behind the shutdown. -/
theorem write_file_deadlocks :
    (Choices.full (conflictOps (some 1)) false).Follow (conflictOps (some 1)) ∧
      (State.start.run (.full (conflictOps (some 1)) false) conflictSchedule).Deadlocked
        (.full (conflictOps (some 1)) false) :=
  ⟨full_follow _ _, by decide +kernel⟩

/-! ## Every operation finishes -/

/-- A request in the batch queue costs more than the steps of a batch. -/
def requestCost : ℕ := 19

def Action.cost : Action → ℕ
  | acquire _ _ => 2
  | submit => requestCost + 3
  | _ => 1

/-- A bound on the cost of a path. -/
def Prog.cost : Prog → ℕ
  | skip => 0
  | call => 1
  | submit => requestCost + 3
  | seq p q => p.cost + q.cost
  | choice p q => max p.cost q.cost
  | locked _ _ p => p.cost + 3
  | thenAlways p q => p.cost + q.cost

theorem Path.cost_le {p : Prog} {ok : Bool} {script : List Action} (h : Path p ok script) :
    (script.map Action.cost).sum ≤ p.cost := by
  induction h <;> simp [Prog.cost, Action.cost] <;> omega

def Task.cost (task : Task) : ℕ :=
  (task.todo.map Action.cost).sum + if task.queued then 0 else 1

/-- The steps that can be taken at most before another operation starts. -/
def State.cost (state : State) : ℕ :=
  ∑ i ∈ Finset.range state.spawned, (state.task i).cost + requestCost * state.pending.length

/-- The tasks take steps in the given order, none of them in vain. -/
def State.steps (choices : Choices) (state : State) (tasks : List ℕ) : Option State :=
  tasks.foldlM (fun s i => s.step choices i) state

section

variable {choices : Choices} {state next : State} {i : ℕ}

theorem spawned_of_todo (h : state.Consistent) (htodo : (state.task i).todo ≠ []) :
    i < state.spawned := by
  by_contra hi
  exact htodo (by rw [h.fresh i (not_lt.1 hi), idle])

variable (hbatch : ∀ n, ∃ ok, Path Prog.applyMutationBatch ok (choices.batch n))
include hbatch

theorem batchScript_cost (n : ℕ) (batch : List ℕ) :
    ((batchScript (choices.batch n) batch).map Action.cost).sum < requestCost := by
  obtain ⟨ok, hpath⟩ := hbatch n
  have hcost : ((choices.batch n).map Action.cost).sum ≤ 14 := hpath.cost_le
  simp [batchScript, Action.cost, requestCost]
  omega

/-- A step lowers the cost of its task by more than it adds to that of the queue. -/
theorem step_cost (hstep : state.step choices i = some next) :
    ∃ task : Task, (state.task i).todo ≠ [] ∧ next.task = update state.task i task ∧
      next.spawned = state.spawned ∧ task.cost + requestCost * next.pending.length <
        (state.task i).cost + requestCost * state.pending.length := by
  unfold step at hstep
  dsimp only at hstep
  split at hstep
  · cases hstep
  all_goals
    rename_i htodo
    first
    | cases hstep
    | split_ifs at hstep with hcond <;> cases hstep
  all_goals
    refine ⟨_, htodo ▸ cons_ne_nil _ _, rfl, rfl, ?_⟩
    simp [*, Task.cost, setTask, setLock, Action.cost, Nat.mul_add]
  · omega
  · omega
  · omega
  · -- The requests that leave the queue pay for the steps of the batch.
    have hscript := batchScript_cost hbatch state.batches state.pending
    have hpaid := Nat.le_mul_of_pos_right requestCost (length_pos_iff.2 hcond)
    omega

theorem cost_lt (h : state.Consistent) (hstep : state.step choices i = some next) :
    next.cost < state.cost := by
  obtain ⟨task, htodo, htask, hspawned, hlt⟩ := step_cost hbatch hstep
  have hi := Finset.mem_range.2 (spawned_of_todo h htodo)
  rw [State.cost, State.cost, hspawned, ← Finset.add_sum_erase _ _ hi, ← Finset.add_sum_erase _ _ hi,
    htask, update_self, Finset.sum_congr rfl fun j hj => by
      rw [update_of_ne (Finset.ne_of_mem_erase hj)]]
  omega

theorem steps_cost (tasks : List ℕ) : ∀ {state last : State}, state.Consistent →
    state.steps choices tasks = some last →
      last.Consistent ∧ tasks.length + last.cost ≤ state.cost := by
  induction tasks with
  | nil =>
    rintro state _ h ⟨⟩
    exact ⟨h, by simp⟩
  | cons i tasks ih =>
    intro state last h hsteps
    obtain ⟨next, hstep, hsteps⟩ := Option.bind_eq_some_iff.1 hsteps
    obtain ⟨hlast, hcost⟩ := ih (step_consistent hbatch h hstep) hsteps
    have hlt := cost_lt hbatch h hstep
    exact ⟨hlast, by rw [length_cons]; omega⟩

end

/-- In whatever order the tasks take their steps, they come to an end after a number of steps
that is known when the last operation starts, and then every operation has finished. -/
theorem operations_finish (ops : ℕ → Op) (choices : Choices) (hfollow : choices.Follow ops)
    (hops : ∀ i, (ops i).reenters = false) (schedule : List Event) (tasks : List ℕ) (last : State)
    (hsteps : (start.run choices schedule).steps choices tasks = some last) :
    tasks.length ≤ (start.run choices schedule).cost ∧
      ((∀ i, last.step choices i = none) → ∀ i, (last.task i).todo = []) := by
  have hconsistent := run_consistent hfollow hops schedule start_consistent
  obtain ⟨hlast, hcost⟩ := steps_cost hfollow.batch tasks hconsistent hsteps
  refine ⟨by omega, fun hstuck i => ?_⟩
  by_contra htodo
  exact Consistent.not_deadlocked hlast ⟨⟨i, spawned_of_todo hlast htodo, htodo⟩,
    fun j _ => by rw [hstuck j]; rfl⟩

/-- The truncation has the gate, which the batch of the write needs, and the shutdown stands in
line for the lifecycle lock, which the write has. -/
def contended : State :=
  start.run (.full (conflictOps none) true)
    ([.spawn, .spawn, .spawn] ++ replicate 7 (.run 0) ++ [.run 1, .run 1, .run 2])

/-- An order in which all three come to their end. -/
def contendedTasks : List ℕ :=
  [1, 0, 0, 1, 0] ++ replicate 13 1 ++ replicate 20 0 ++ replicate 32 2

theorem operations_finish_contended :
    contendedTasks.length ≤ contended.cost ∧
      ∃ last, contended.steps (.full (conflictOps none) true) contendedTasks = some last ∧
        ∀ i < 3, (contended.task i).todo ≠ [] ∧ (last.task i).todo = [] := by
  have hops : ∀ i, (conflictOps none i).reenters = false := by rintro (_ | _ | i) <;> rfl
  have hsome : (contended.steps (.full (conflictOps none) true) contendedTasks).isSome = true := by
    decide +kernel
  obtain ⟨last, hlast⟩ := Option.isSome_iff_exists.1 hsome
  have hstuck : ∀ i, last.step (.full (conflictOps none) true) i = none := by
    intro i
    have hend : (contended.steps (.full (conflictOps none) true) contendedTasks).bind
        (·.step (.full (conflictOps none) true) i) = none := by
      rcases i with _ | _ | _ | i <;> rfl
    rwa [hlast] at hend
  have htodo : ∀ i < 3, (contended.task i).todo ≠ [] := by decide +kernel
  unfold contended at hlast ⊢
  obtain ⟨hcost, hdone⟩ := operations_finish _ _ (full_follow _ true) hops _ _ last hlast
  exact ⟨hcost, last, hlast, fun i hi => ⟨htodo i hi, hdone hstuck i⟩⟩

end MountRs.Locking
