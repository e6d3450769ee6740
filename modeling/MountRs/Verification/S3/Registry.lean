import MountRs.Model.S3.Registry
import Mathlib.Algebra.Order.BigOperators.Group.List

/-! # One guard for each key

An entry is removed from the registry only by a task that has the one other reference to its lock,
so that all calls and guards of a key share the lock of its entry. -/

namespace MountRs.S3.Registry

open List BTreeMap

namespace Phase

/-- The references of a task to a lock. -/
def refs (lock : ℕ) : Phase → ℕ
  | .idle => 0
  | .registered _ l | .dropping _ l | .dropped l => if l = lock then 1 else 0
  | .waiting _ l | .locked _ l | .guard _ l | .unlocked _ l => if l = lock then 2 else 0
  | .cloned _ l => if l = lock then 3 else 0

/-- One, if the task has the mutex of a lock. -/
def owns (lock : ℕ) : Phase → ℕ
  | .locked _ l | .cloned _ l | .guard _ l => if l = lock then 1 else 0
  | _ => 0

/-- The key and the lock of a call that is going on or of a guard. -/
def user : Phase → Option (String × ℕ)
  | .registered key lock | .waiting key lock | .locked key lock | .cloned key lock
  | .guard key lock => some (key, lock)
  | _ => none

theorem refs_pos_of_user {phase : Phase} {key : String} {lock : ℕ}
    (h : phase.user = some (key, lock)) : 0 < phase.refs lock := by
  cases phase <;> simp_all [user, refs]

theorem owns_le_refs (lock : ℕ) (phase : Phase) : phase.owns lock ≤ phase.refs lock := by
  cases phase <;> simp only [owns, refs]
  all_goals first | exact le_rfl | (split_ifs <;> omega)

end Phase

/-! ## Sums over the tasks -/

section Sums

variable {tasks : List Phase} {i j : ℕ} {task other : Phase} (hi : tasks[i]? = some task)
  (f : Phase → ℕ)
include hi

theorem sum_set (phase : Phase) :
    ((tasks.set i phase).map f).sum + f task = (tasks.map f).sum + f phase := by
  induction tasks generalizing i with
  | nil => simp at hi
  | cons first tasks ih =>
    cases i with
    | zero =>
      obtain rfl : first = task := by simpa using hi
      simp only [set_cons_zero, map_cons, sum_cons]
      omega
    | succ i =>
      have hset := ih (i := i) (by simpa using hi)
      simp only [set_cons_succ, map_cons, sum_cons]
      omega

theorem le_sum : f task ≤ (tasks.map f).sum :=
  List.single_le_sum (fun _ _ => Nat.zero_le _) _ (mem_map_of_mem (mem_of_getElem? hi))

theorem add_le_sum (hidle : f .idle = 0) (hj : tasks[j]? = some other) (hne : i ≠ j) :
    f task + f other ≤ (tasks.map f).sum := by
  have hset := sum_set hi f .idle
  have hle := le_sum ((getElem?_set_ne hne).trans hj : (tasks.set i .idle)[j]? = some other) f
  omega

end Sums

def World.refs (world : World) (lock : ℕ) : ℕ := (world.tasks.map (Phase.refs lock)).sum

def World.owners (world : World) (lock : ℕ) : ℕ := (world.tasks.map (Phase.owns lock)).sum

theorem owners_le_refs (world : World) (lock : ℕ) : world.owners lock ≤ world.refs lock :=
  List.sum_le_sum fun phase _ => phase.owns_le_refs lock

/-! ## The invariant -/

structure Invariant (world : World) : Prop where
  counted : ∀ lock, world.refs lock ≤ (world.mutexes lock).strong
  /-- The registry has a reference of its own. -/
  entry : ∀ key lock, world.locks.get? key = some lock →
    world.refs lock < (world.mutexes lock).strong
  injective : ∀ key other lock, world.locks.get? key = some lock →
    world.locks.get? other = some lock → key = other
  fresh : ∀ lock, world.next ≤ lock → world.refs lock = 0 ∧
    ∀ key, world.locks.get? key ≠ some lock
  user : ∀ (i : ℕ) (task : Phase) key lock, world.tasks[i]? = some task →
    task.user = some (key, lock) → world.locks.get? key = some lock
  owners : ∀ lock, world.owners lock ≤ (world.mutexes lock).locked.toNat

namespace Invariant

variable {world : World} {i lock : ℕ} {old phase : Phase} {key : String} (h : Invariant world)
include h

theorem lt_next (hkey : world.locks.get? key = some lock) : lock < world.next := by
  by_contra hle
  exact (h.fresh lock (not_lt.1 hle)).2 key hkey

theorem refs_lt_next (hi : world.tasks[i]? = some old) (hrefs : 0 < old.refs lock) :
    lock < world.next := by
  by_contra hle
  have hzero := (h.fresh lock (not_lt.1 hle)).1
  have hsum : old.refs lock ≤ world.refs lock := le_sum hi _
  omega

/-- A task goes on with a change of its lock that keeps up with its references. -/
theorem change {f : SharedMutex → SharedMutex} (hi : world.tasks[i]? = some old)
    (hstrong : (world.mutexes lock).strong + phase.refs lock ≤
      (f (world.mutexes lock)).strong + old.refs lock)
    (hlocked : (world.mutexes lock).locked.toNat + phase.owns lock ≤
      (f (world.mutexes lock)).locked.toNat + old.owns lock)
    (hother : ∀ l, l ≠ lock → phase.refs l = 0) (hlock : lock < world.next)
    (huser : ∀ key l, phase.user = some (key, l) → world.locks.get? key = some l) :
    Invariant (world.change i phase lock f) := by
  have hrefs : ∀ l, (world.change i phase lock f).refs l + old.refs l =
      world.refs l + phase.refs l := fun l => sum_set hi _ phase
  have howners : ∀ l, (world.change i phase lock f).owners l + old.owns l =
      world.owners l + phase.owns l := fun l => sum_set hi _ phase
  have hmutexes : ∀ l, (world.mutexes l).strong + phase.refs l ≤
        ((world.change i phase lock f).mutexes l).strong + old.refs l ∧
      (world.mutexes l).locked.toNat + phase.owns l ≤
        ((world.change i phase lock f).mutexes l).locked.toNat + old.owns l := by
    intro l
    simp only [World.change, Function.update_apply]
    split_ifs with heq
    · subst heq
      exact ⟨hstrong, hlocked⟩
    · have hzero := hother l heq
      have hle := phase.owns_le_refs l
      omega
  refine ⟨fun l => ?_, fun key l hkey => ?_, h.injective, fun l hl => ⟨?_, (h.fresh l hl).2⟩,
    fun j task key l hj htask => ?_, fun l => ?_⟩
  · have hcounted := h.counted l
    have hrefs := hrefs l
    have hmutex := hmutexes l
    omega
  · have hentry := h.entry key l hkey
    have hrefs := hrefs l
    have hmutex := hmutexes l
    omega
  · have hzero := (h.fresh l hl).1
    have hphase := hother l (hlock.trans_le hl).ne'
    have hrefs := hrefs l
    omega
  · have hj : (world.tasks.set i phase)[j]? = some task := hj
    rw [getElem?_set] at hj
    split_ifs at hj
    · exact huser key l (Option.some.inj hj ▸ htask)
    · exact h.user j task key l hj htask
  · have hold := h.owners l
    have howners := howners l
    have hmutex := hmutexes l
    omega

/-- The lock of the key is that of the entry, which is new if there was none. -/
theorem orInsert (key : String) : Invariant (world.orInsert key).1 ∧
    (world.orInsert key).1.locks.get? key = some (world.orInsert key).2 ∧
    (world.orInsert key).1.tasks = world.tasks := by
  unfold World.orInsert
  cases hkey : world.locks.get? key with
  | some lock => exact ⟨h, hkey, rfl⟩
  | none =>
    dsimp only
    refine ⟨?_, get?_insert_self .., rfl⟩
    obtain ⟨hzero, -⟩ := h.fresh world.next le_rfl
    have hcases : ∀ other l, (world.locks.insert key world.next).get? other = some l →
        (other = key ∧ l = world.next) ∨ (l ≠ world.next ∧ world.locks.get? other = some l) := by
      intro other l hget
      rw [get?_insert] at hget
      split_ifs at hget with heq
      · exact .inl ⟨heq, (Option.some.inj hget).symm⟩
      · exact .inr ⟨(h.lt_next hget).ne, hget⟩
    refine ⟨fun l => ?_, fun other l hget => ?_, fun first second l hfirst hsecond => ?_,
      fun l hl => ⟨(h.fresh l (Nat.le_of_succ_le hl)).1, fun other hget => ?_⟩,
      fun j task other l hj htask => ?_, fun l => ?_⟩
    · simp only [Function.update_apply]
      split_ifs with heq
      · exact (heq ▸ hzero).trans_le (Nat.zero_le _)
      · exact h.counted l
    · simp only [Function.update_apply]
      rcases hcases other l hget with ⟨-, heq⟩ | ⟨hne, hold⟩
      · rw [if_pos heq]
        exact (heq ▸ hzero).trans_lt Nat.one_pos
      · rw [if_neg hne]
        exact h.entry other l hold
    · rcases hcases first l hfirst with ⟨rfl, heq⟩ | ⟨hne, hold⟩ <;>
        rcases hcases second l hsecond with ⟨rfl, heq'⟩ | ⟨hne', hold'⟩
      · rfl
      · exact absurd heq hne'
      · exact absurd heq' hne
      · exact h.injective first second l hold hold'
    · rcases hcases other l hget with ⟨-, rfl⟩ | ⟨-, hold⟩
      · exact absurd hl (Nat.not_succ_le_self _)
      · exact (h.fresh l (Nat.le_of_succ_le hl)).2 other hold
    · have hold := h.user j task other l hj htask
      rwa [get?_insert_of_ne]
      rintro rfl
      rw [hkey] at hold
      cases hold
    · simp only [Function.update_apply]
      split_ifs with heq
      · exact (owners_le_refs world l).trans ((heq ▸ hzero).trans_le (Nat.zero_le _))
      · exact h.owners l

theorem register (hi : world.tasks[i]? = some .idle) (key : String) :
    Invariant (world.register i key) := by
  obtain ⟨hinserted, hkey, htasks⟩ := h.orInsert key
  have hidle : (world.orInsert key).1.tasks[i]? = some .idle := htasks ▸ hi
  refine hinserted.change hidle ?_ le_rfl (fun l hl => if_neg hl.symm) (hinserted.lt_next hkey) ?_
  · simp [Phase.refs, World.clone]
  · rintro other l huser
    obtain ⟨rfl, rfl⟩ := Prod.mk.inj (Option.some.inj huser)
    exact hkey

/-- An entry is removed only if the task has the one other reference to the lock. -/
theorem removeIfUnused (hi : world.tasks[i]? = some (.dropping key lock)) :
    Invariant (world.removeIfUnused key lock) := by
  unfold World.removeIfUnused
  split_ifs with hunused
  swap
  · exact h
  obtain ⟨htwo, hkey⟩ := hunused
  have hrefs := h.entry key lock hkey
  have hone : (Phase.dropping key lock).refs lock = 1 := if_pos rfl
  have herase : ∀ other l, (world.locks.erase key).get? other = some l →
      other ≠ key ∧ world.locks.get? other = some l := by
    intro other l hget
    rw [get?_erase] at hget
    split_ifs at hget with heq
    exact ⟨heq, hget⟩
  refine ⟨fun l => ?_, fun other l hget => ?_, fun first second l hfirst hsecond =>
    h.injective first second l (herase first l hfirst).2 (herase second l hsecond).2, fun l hl =>
    ⟨(h.fresh l hl).1, fun other hget => (h.fresh l hl).2 other (herase other l hget).2⟩,
    fun j task other l hj htask => ?_, fun l => ?_⟩
  · simp only [Function.update_apply]
    split_ifs with heq
    · subst heq
      exact Nat.le_sub_one_of_lt hrefs
    · exact h.counted l
  · obtain ⟨hne, hold⟩ := herase other l hget
    have hl : l ≠ lock := by
      rintro rfl
      exact hne (h.injective other key l hold hkey)
    simp only [Function.update_apply, if_neg hl]
    exact h.entry other l hold
  · have hold := h.user j task other l hj htask
    rw [get?_erase, if_neg ?_]
    · exact hold
    -- Another user of the lock would have a third reference.
    rintro rfl
    obtain rfl := Option.some.inj (hkey.symm.trans hold)
    have hne : i ≠ j := by
      rintro rfl
      rw [hi] at hj
      cases hj
      cases htask
    have hsum : _ ≤ world.refs lock := add_le_sum hi (Phase.refs lock) rfl hj hne
    have hpos := Phase.refs_pos_of_user htask
    omega
  · simp only [Function.update_apply]
    split_ifs with heq
    · exact heq ▸ h.owners l
    · exact h.owners l

/-! ## Runs -/

theorem proceed (hi : world.tasks[i]? = some phase) : Invariant (world.proceed i phase) := by
  cases phase with
  | idle => exact h
  | registered key lock | locked key lock | cloned key lock | guard key lock | unlocked key lock
  | dropped lock =>
    unfold World.proceed
    dsimp only
    have hlock : lock < world.next := h.refs_lt_next hi (by simp [Phase.refs])
    refine h.change hi ?_ ?_ (fun l hl => ?_) hlock (fun other l huser => ?_)
    · simp only [Phase.refs, if_true, World.clone, World.drop]
      omega
    · first
      | exact le_rfl
      | simp [Phase.owns, Bool.toNat_le]
    · simp [Phase.refs, hl.symm]
    · first
      | exact h.user i _ other l hi huser
      | cases huser
  | waiting key lock =>
    unfold World.proceed
    dsimp only
    split_ifs with hlocked
    · exact h
    · refine h.change hi le_rfl ?_ (fun l hl => if_neg hl.symm)
        (h.refs_lt_next hi (by simp [Phase.refs])) fun other l huser => h.user i _ other l hi huser
      simp [Phase.owns, hlocked]
  | dropping key lock =>
    have hremoved := h.removeIfUnused hi
    have htasks : (world.removeIfUnused key lock).tasks = world.tasks := by
      unfold World.removeIfUnused
      split_ifs <;> rfl
    rw [← htasks] at hi
    refine hremoved.change hi le_rfl le_rfl (fun l hl => if_neg hl.symm)
      (hremoved.refs_lt_next hi (by simp [Phase.refs])) fun other l huser => by cases huser

theorem step (move : ℕ × Move) : Invariant (world.step move) := by
  obtain ⟨i, move⟩ := move
  unfold World.step
  dsimp only
  split
  · rename_i hi
    exact h.register hi _
  · rename_i hi
    refine h.change hi ?_ le_rfl (fun l hl => if_neg hl.symm)
      (h.refs_lt_next hi (by simp [Phase.refs])) fun other l huser => by cases huser
    simp only [Phase.refs, if_true, World.drop]
    omega
  · rename_i hi
    exact h.proceed hi
  · exact h

end Invariant

theorem invariant_new (tasks : ℕ) : Invariant (World.new tasks) := by
  have hrefs : ∀ lock, (World.new tasks).refs lock = 0 := by
    intro lock
    simp [World.refs, World.new, Phase.refs]
  refine ⟨fun lock => (hrefs lock).le, fun key lock hget => ?_, fun key other lock hget => ?_,
    fun lock _ => ⟨hrefs lock, fun key hget => ?_⟩, fun i task key lock hi htask => ?_,
    fun lock => (owners_le_refs _ lock).trans (hrefs lock).le⟩
  · cases hget
  · cases hget
  · cases hget
  · obtain rfl : task = .idle := eq_of_mem_replicate (mem_of_getElem? hi)
    cases htask

theorem invariant_run (tasks : ℕ) (moves : List (ℕ × Move)) :
    Invariant ((World.new tasks).run moves) :=
  foldlRecOn moves _ (invariant_new tasks) fun _ h move _ => h.step move

/-- At every moment there is at most one guard of a key; and the calls and guards of a key share the
lock of its entry, whatever entries were removed before. -/
theorem one_guard_for_each_key (tasks : ℕ) (moves : List (ℕ × Move)) :
    (∀ (i j : ℕ) key lock other, ((World.new tasks).run moves).tasks[i]? = some (.guard key lock) →
      ((World.new tasks).run moves).tasks[j]? = some (.guard key other) → i = j) ∧
    ∀ (i : ℕ) (task : Phase) key lock, ((World.new tasks).run moves).tasks[i]? = some task →
      task.user = some (key, lock) →
        ((World.new tasks).run moves).locks.get? key = some lock := by
  have h := invariant_run tasks moves
  refine ⟨fun i j key lock other hi hj => ?_, h.user⟩
  have hlock := h.user i _ key lock hi rfl
  obtain rfl := Option.some.inj (hlock.symm.trans (h.user j _ key other hj rfl))
  by_contra hne
  have hsum := (add_le_sum hi (Phase.owns lock) rfl hj hne).trans (h.owners lock)
  have hle := Bool.toNat_le (((World.new tasks).run moves).mutexes lock).locked
  simp only [Phase.owns, if_true] at hsum
  omega

end MountRs.S3.Registry
