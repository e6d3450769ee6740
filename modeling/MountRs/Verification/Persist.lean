import MountRs.Model.Persist
import Mathlib.Data.List.Nodup

/-! # The save protocol

The gate keeps its queue in step with the waiting calls, and its first waiter has been woken or
is about to be whenever the gate is free. Since a snapshot is taken and saved under the gate,
a later one contains an earlier one. -/

namespace MountRs.Persist

open Function List SaveGateState World Call

/-! ## What a call is to the gate -/

namespace Call

/-- The id under which a call is queued, and the number of its last poll. -/
def queued : Call → Option (ℕ × ℕ)
  | waiting (some id) polls _ => some (id, polls)
  | _ => none

/-- The call has the guard of the gate. -/
def holds : Call → Bool
  | holding | saving _ _ | saved _ => true
  | _ => false

theorem queued_eq_some {call : Call} {id polls : ℕ} :
    call.queued = some (id, polls) ↔ ∃ woken, call = waiting (some id) polls woken := by
  cases call with
  | waiting queuedId => cases queuedId <;> simp [queued]
  | _ => simp [queued]

def woken : Call → Bool
  | waiting _ _ woken => woken
  | _ => false

def polled : Call → Bool
  | unstarted | waiting none _ _ => false
  | _ => true

end Call

/-- The queue holds exactly the queued calls, with the wakers of their last polls. -/
def Queues (calls : ℕ → Call) (waiters : List SaveGateWaiter) : Prop :=
  ∀ i id polls, (calls i).queued = some (id, polls) ↔ ⟨id, i, polls⟩ ∈ waiters

structure Gated (gate : SaveGateState) (calls : ℕ → Call) (waking : List Waker) : Prop where
  exclusive : ∀ i j, (calls i).holds = true → (calls j).holds = true → i = j
  held : gate.held = true ↔ ∃ i, (calls i).holds = true
  queue : Queues calls gate.waiters
  distinct : (gate.waiters.map SaveGateWaiter.id).Nodup
  below : ∀ waiter ∈ gate.waiters, waiter.id < gate.nextWaiterId
  woken : gate.held = false → ∀ waiter, gate.waiters.head? = some waiter →
    waiter.waker ∈ waking ∨ (calls waiter.waker.call).woken = true
  panics : ∀ i, calls i = .panicked → U64_MAX ≤ gate.nextWaiterId

variable {gate : SaveGateState} {calls : ℕ → Call} {waking : List Waker} {call : Call}
  {waiter : SaveGateWaiter} {waiters before after : List SaveGateWaiter} {i id polls : ℕ}

/-! ## The queue -/

theorem position_eq_some {position : ℕ} (h : gate.position id = some position) :
    ∃ before waiter after, gate.waiters = before ++ waiter :: after ∧ waiter.id = id ∧
      before.length = position := by
  obtain ⟨hlt, hid, -⟩ := findIdx?_eq_some_iff_getElem.mp h
  refine ⟨gate.waiters.take position, gate.waiters[position], gate.waiters.drop (position + 1),
    ?_, by simpa using hid, by simp [hlt.le]⟩
  rw [← drop_eq_getElem_cons hlt, take_append_drop]

theorem position_isSome (h : waiter ∈ gate.waiters) : (gate.position waiter.id).isSome = true := by
  rw [position, findIdx?_isSome, any_eq_true]
  exact ⟨waiter, h, by simp⟩

theorem Queues.congr (h : Queues calls waiters) (hcall : call.queued = (calls i).queued) :
    Queues (update calls i call) waiters := by
  grind [Queues, update_apply]

theorem Queues.push (h : Queues calls waiters) (hi : (calls i).queued = none)
    (hcall : call.queued = some (id, polls)) :
    Queues (update calls i call) (waiters ++ [⟨id, i, polls⟩]) := by
  grind [Queues, update_apply]

section

variable (h : Queues calls (before ++ waiter :: after))
include h

section

variable (hdistinct : ((before ++ waiter :: after).map SaveGateWaiter.id).Nodup)
include hdistinct

theorem Queues.call_ne : ∀ other ∈ before ++ after, other.waker.call ≠ waiter.waker.call := by
  intro other hother heq
  have hwaiter := (h waiter.waker.call waiter.id waiter.waker.poll).mpr (by simp)
  have hsame := (h other.waker.call other.id other.waker.poll).mpr (by
    rcases mem_append.mp hother with hmem | hmem <;> simp [hmem])
  rw [heq, hwaiter, Option.some.injEq, Prod.mk.injEq] at hsame
  rw [map_append, map_cons, nodup_middle, nodup_cons, ← map_append,
    hsame.1] at hdistinct
  exact hdistinct.1 (mem_map_of_mem hother)

theorem Queues.remove (hcall : call.queued = none) :
    Queues (update calls waiter.waker.call call) (before ++ after) := by
  have hne := h.call_ne hdistinct
  grind [Queues, update_apply]

theorem Queues.refresh (hcall : call.queued = some (waiter.id, polls)) :
    Queues (update calls waiter.waker.call call)
      (before ++ ⟨waiter.id, waiter.waker.call, polls⟩ :: after) := by
  intro j id polls'
  have hremoved : Queues (update calls waiter.waker.call .canceled) (before ++ after) :=
    h.remove hdistinct rfl
  have hrest := hremoved j id polls'
  rw [update_apply, mem_append] at hrest
  rw [update_apply, mem_append, mem_cons, or_left_comm, ← hrest]
  split_ifs with hj
  · rw [hcall, Option.some.injEq, Prod.mk.injEq]
    simp [hj, queued, eq_comm]
  · simp [hj]

end

end

/-! ## Steps of the gate -/

section

variable (h : Gated gate calls waking)
include h

theorem Gated.setCall (hholds : call.holds = (calls i).holds)
    (hqueued : call.queued = (calls i).queued)
    (hwoken : (calls i).queued ≠ none → (calls i).woken = true → call.woken = true)
    (hpanics : call = .panicked → U64_MAX ≤ gate.nextWaiterId) :
    Gated gate (update calls i call) waking := by
  obtain ⟨hexclusive, hheld, hqueue, hdistinct, hbelow, hfront, hpanicked⟩ := h
  refine ⟨?_, ?_, hqueue.congr hqueued, hdistinct, hbelow, ?_, ?_⟩
  · grind [update_apply]
  · rw [hheld]
    refine exists_congr fun j => ?_
    grind [update_apply]
  · intro hfree waiter hhead
    have hmem := (hqueue _ _ _).mpr (mem_of_mem_head? hhead)
    grind [update_apply]
  · grind [update_apply]

theorem Gated.advance {old : Call} (hcall : calls i = old)
    (hqueued : old.queued = none) (hholds : call.holds = old.holds) (hnone : call.queued = none)
    (hpanics : call ≠ .panicked) : Gated gate (update calls i call) waking := by
  subst hcall
  exact h.setCall hholds (hnone.trans hqueued.symm) (fun hsome => absurd hqueued hsome)
    fun heq => absurd heq hpanics

theorem Gated.free (hfree : gate.held = false) (j : ℕ) : (calls j).holds = false := by
  have hheld := h.held
  grind

theorem Gated.take (hfree : gate.held = false)
    (hqueue : Queues (update calls i .holding) waiters) (hsub : waiters.Sublist gate.waiters) :
    Gated { gate with held := true, waiters } (update calls i .holding) waking := by
  have hnone := h.free hfree
  have hpanics := h.panics
  refine ⟨?_, iff_of_true rfl ⟨i, ?_⟩, hqueue, h.distinct.sublist (hsub.map _),
    fun waiter hw => h.below waiter (hsub.subset hw), nofun, ?_⟩
  · grind [update_apply]
  · rw [update_self]
    rfl
  · grind [update_apply]

theorem Gated.wait {woken : Bool} {gate' : SaveGateState}
    (hi : (calls i).holds = false) (hheld : gate'.held = gate.held)
    (hqueue : Queues (update calls i (.waiting (some id) polls woken)) gate'.waiters)
    (hdistinct : (gate'.waiters.map SaveGateWaiter.id).Nodup)
    (hbelow : ∀ waiter ∈ gate'.waiters, waiter.id < gate'.nextWaiterId)
    (hwoken : gate.held = false → ∀ waiter, gate'.waiters.head? = some waiter →
      gate.waiters.head? = some waiter ∧ waiter.waker.call ≠ i)
    (hnext : gate.nextWaiterId ≤ gate'.nextWaiterId) :
    Gated gate' (update calls i (.waiting (some id) polls woken)) waking := by
  have hsame : ∀ j, (update calls i (.waiting (some id) polls woken) j).holds =
      (calls j).holds := by
    grind [update_apply, holds]
  refine ⟨?_, ?_, hqueue, hdistinct, hbelow, ?_, ?_⟩
  · simpa only [hsame] using h.exclusive
  · simpa only [hsame, hheld] using h.held
  · intro hfree waiter hfront
    rw [hheld] at hfree
    obtain ⟨hold, hne⟩ := hwoken hfree waiter hfront
    rw [update_of_ne hne]
    exact h.woken hfree waiter hold
  · have hpanics := h.panics
    grind [update_apply]

theorem Gated.waiter_call (hwaiter : waiter ∈ gate.waiters)
    (hi : (calls i).queued = some (waiter.id, polls)) : waiter.waker.call = i := by
  have heq := inj_on_of_nodup_map h.distinct hwaiter ((h.queue i _ polls).mp hi) rfl
  rw [heq]

end

theorem modify_middle (f : SaveGateWaiter → SaveGateWaiter) :
    (before ++ waiter :: after).modify before.length f = before ++ f waiter :: after := by
  induction before with
  | nil => rfl
  | cons _ _ ih => simp [ih]

theorem eraseIdx_middle : (before ++ waiter :: after).eraseIdx before.length = before ++ after := by
  induction before with
  | nil => rfl
  | cons _ _ ih => simp [ih]

inductive Turn (gate : SaveGateState) (waker : Waker) :
    Option ℕ → SaveGateState × SaveGateState.Polled → Prop
  | first (hfree : gate.held = false) (hwaiters : gate.waiters = []) :
      Turn gate waker none ({ gate with held := true }, .ready)
  | next (waiter : SaveGateWaiter) (rest : List SaveGateWaiter) (hfree : gate.held = false)
      (hwaiters : gate.waiters = waiter :: rest) :
      Turn gate waker (some waiter.id) ({ gate with held := true, waiters := rest }, .ready)
  | refresh (before : List SaveGateWaiter) (waiter : SaveGateWaiter)
      (after : List SaveGateWaiter) (hwaiters : gate.waiters = before ++ waiter :: after)
      (hbehind : gate.held = false → before ≠ []) :
      Turn gate waker (some waiter.id)
        ({ gate with waiters := before ++ ⟨waiter.id, waker⟩ :: after }, .pending waiter.id)
  | enqueue (hbehind : gate.held = false → gate.waiters ≠ []) :
      Turn gate waker none
        ({ gate with
            nextWaiterId := gate.nextWaiterId + 1
            waiters := gate.waiters ++ [⟨gate.nextWaiterId, waker⟩] },
          .pending gate.nextWaiterId)
  | exhausted (hids : U64_MAX ≤ gate.nextWaiterId) : Turn gate waker none (gate, .panicked)
  | lost (id : ℕ) (hlost : gate.position id = none) : Turn gate waker (some id) (gate, .panicked)

theorem poll_turn (gate : SaveGateState) (queuedId : Option ℕ) (waker : Waker) :
    Turn gate waker queuedId (gate.poll queuedId waker) := by
  obtain ⟨held, nextWaiterId, waiters⟩ := gate
  cases queuedId with
  | none =>
    have howns : ownsNextTurn ⟨held, nextWaiterId, waiters⟩ none = true ↔
        held = false ∧ waiters = [] := by
      simp [ownsNextTurn]
    unfold SaveGateState.poll
    by_cases hturn : ownsNextTurn ⟨held, nextWaiterId, waiters⟩ none = true
    · rw [if_pos hturn]
      obtain ⟨rfl, rfl⟩ := howns.mp hturn
      exact .first rfl rfl
    · rw [if_neg hturn]
      dsimp only
      split_ifs with hlt
      · exact .enqueue fun hfree hnil => hturn (howns.mpr ⟨hfree, hnil⟩)
      · exact .exhausted (not_lt.mp hlt)
  | some id =>
    unfold SaveGateState.poll
    by_cases hturn : ownsNextTurn ⟨held, nextWaiterId, waiters⟩ (some id) = true
    · rw [if_pos hturn]
      simp only [ownsNextTurn, Bool.and_eq_true, Bool.not_eq_true'] at hturn
      obtain ⟨rfl, hfront⟩ := hturn
      cases waiters with
      | nil => cases hfront
      | cons waiter rest =>
        obtain rfl : waiter.id = id := by simpa using hfront
        exact .next waiter rest rfl rfl
    · rw [if_neg hturn]
      dsimp only
      split
      · rename_i position hposition
        obtain ⟨before, waiter, after, hwaiters, rfl, rfl⟩ := position_eq_some hposition
        dsimp only at hwaiters
        subst hwaiters
        rw [modify_middle]
        refine .refresh before waiter after rfl ?_
        rintro hfree rfl
        simp [ownsNextTurn, show held = false from hfree] at hturn
      · exact .lost id ‹_›

variable {world : World} {queuedId : Option ℕ} {woken : Bool}

theorem Gated.poll (h : Gated world.gate world.calls world.waking)
    (hcall : world.calls i = .waiting queuedId polls woken) :
    Gated (world.poll i queuedId polls).gate (world.poll i queuedId polls).calls
      (world.poll i queuedId polls).waking := by
  have hi : (world.calls i).holds = false := by rw [hcall]; rfl
  have hturn := poll_turn world.gate queuedId ⟨i, polls + 1⟩
  unfold World.poll
  generalize world.gate.poll queuedId ⟨i, polls + 1⟩ = result at hturn ⊢
  cases hturn with
  | first hfree =>
    exact h.take hfree (h.queue.congr (by rw [hcall]; rfl)) (.refl _)
  | next waiter rest hfree hwaiters =>
    obtain rfl : waiter.waker.call = i :=
      h.waiter_call (by simp [hwaiters]) (by rw [hcall]; rfl)
    have hqueue : Queues world.calls ([] ++ waiter :: rest) := hwaiters ▸ h.queue
    exact h.take hfree (hqueue.remove (hwaiters ▸ h.distinct) rfl)
      (hwaiters ▸ sublist_cons_self _ _)
  | refresh before waiter after hwaiters hbehind =>
    obtain rfl : waiter.waker.call = i :=
      h.waiter_call (by simp [hwaiters]) (by rw [hcall]; rfl)
    have hqueue := h.queue
    have hdistinct := h.distinct
    have hbelow := h.below
    rw [hwaiters] at hqueue hdistinct hbelow
    refine h.wait hi rfl (hqueue.refresh hdistinct rfl) (by simpa using hdistinct)
      (by simpa [or_imp, forall_and] using hbelow) ?_ le_rfl
    intro hfree front hfront
    cases before with
    | nil => exact absurd rfl (hbehind hfree)
    | cons =>
      cases hfront
      exact ⟨by rw [hwaiters]; rfl, hqueue.call_ne hdistinct front (by simp)⟩
  | enqueue hbehind =>
    have hqueued : (world.calls i).queued = none := by rw [hcall]; rfl
    refine h.wait hi rfl (h.queue.push hqueued rfl) ?_ ?_ ?_ (Nat.le_succ _)
    · rw [map_append, nodup_append']
      refine ⟨h.distinct, nodup_singleton _, ?_⟩
      simpa using fun waiter hw => (h.below waiter hw).ne
    · intro waiter hw
      rcases mem_append.mp hw with hw | hw
      · exact Nat.lt_succ_of_lt (h.below waiter hw)
      · rw [mem_singleton.mp hw]
        exact Nat.lt_succ_self _
    · intro hfree front hfront
      cases hwaiters : world.gate.waiters with
      | nil => exact absurd hwaiters (hbehind hfree)
      | cons =>
        rw [hwaiters] at hfront
        cases hfront
        refine ⟨rfl, fun heq => ?_⟩
        have hfront := (h.queue front.waker.call front.id front.waker.poll).mpr (by simp [hwaiters])
        rw [heq, hqueued] at hfront
        cases hfront
  | exhausted hids =>
    exact h.setCall (by rw [hcall]; rfl) (by rw [hcall]; rfl)
      (fun hqueued => absurd (by rw [hcall]; rfl) hqueued) fun _ => hids
  | lost id hlost =>
    have hwaiter := (h.queue i id polls).mp (by rw [hcall]; rfl)
    have := position_isSome hwaiter
    rw [hlost] at this
    cases this

variable {index : ℕ} {waker : Waker}

theorem Gated.deliver (h : Gated gate calls waking) (hwaker : waking[index]? = some waker)
    (hdone : ∀ waiter, gate.waiters.head? = some waiter → waiter.waker = waker →
      (calls waiter.waker.call).woken = true) :
    Gated gate calls (waking.eraseIdx index) := by
  refine { h with woken := fun hfree waiter hfront => ?_ }
  by_cases heq : waiter.waker = waker
  · exact .inr (hdone waiter hfront heq)
  · refine (h.woken hfree waiter hfront).imp_left fun hmem => ?_
    obtain ⟨position, hposition⟩ := mem_iff_getElem?.mp hmem
    refine mem_eraseIdx_iff_getElem?.mpr ⟨position, ?_, hposition⟩
    rintro rfl
    rw [hwaker] at hposition
    exact heq (Option.some.inj hposition).symm

theorem Gated.wake (h : Gated world.gate world.calls world.waking)
    (hwaker : world.waking[index]? = some waker) :
    let next := { world with waking := world.waking.eraseIdx index }.wake waker
    Gated next.gate next.calls next.waking := by
  have hqueued : ∀ waiter, world.gate.waiters.head? = some waiter → waiter.waker = waker →
      (world.calls waker.call).queued = some (waiter.id, waker.poll) := by
    rintro _ hfront rfl
    exact (h.queue _ _ _).mpr (mem_of_mem_head? hfront)
  unfold World.wake
  dsimp only
  split
  · rename_i queuedId polls woken hcall
    split_ifs with hpoll
    · have hwoken : Gated world.gate
          (update world.calls waker.call (.waiting queuedId polls true)) world.waking :=
        h.setCall (by rw [hcall]; rfl) (by rw [hcall]; cases queuedId <;> rfl) (fun _ _ => rfl)
          nofun
      refine hwoken.deliver hwaker ?_
      rintro _ - rfl
      rw [update_self]
      rfl
    · refine h.deliver hwaker fun waiter hfront heq => absurd (hqueued waiter hfront heq) ?_
      rw [hcall]
      cases queuedId <;> simp [queued, hpoll]
  · rename_i hcall
    refine h.deliver hwaker fun waiter hfront heq => absurd (hqueued waiter hfront heq) ?_
    cases hcase : world.calls waker.call with
    | waiting queuedId polls woken => exact absurd hcase (hcall queuedId polls woken)
    | _ => exact nofun

theorem Call.queued_of_holds (h : call.holds = true) : call.queued = none := by
  cases call <;> simp_all [holds, queued]

theorem Gated.dropGuard (h : Gated gate calls waking) (hi : (calls i).holds = true)
    (hholds : call.holds = false) (hqueued : call.queued = none) (hpanics : call ≠ .panicked) :
    Gated gate.dropGuard.1 (update calls i call) (waking ++ gate.dropGuard.2) := by
  have hexclusive := h.exclusive
  have hpanicked := h.panics
  have hnone : ∀ j, (update calls i call j).holds = false := by
    grind [update_apply]
  refine ⟨?_, ?_, h.queue.congr (hqueued.trans (queued_of_holds hi).symm), h.distinct,
    h.below, ?_, ?_⟩
  · simp [hnone]
  · simp [SaveGateState.dropGuard, hnone]
  · intro _ waiter hfront
    exact .inl (mem_append_right _ (by simp_all [SaveGateState.dropGuard, SaveGateState.front]))
  · grind [update_apply, SaveGateState.dropGuard]

theorem Gated.dropFuture (h : Gated world.gate world.calls world.waking)
    (hcall : world.calls i = .waiting (some id) polls woken) :
    Gated (world.dropFuture i id).gate (world.dropFuture i id).calls
      (world.dropFuture i id).waking := by
  have hqueued : (world.calls i).queued = some (id, polls) := by rw [hcall]; rfl
  obtain ⟨_, hposition⟩ := Option.isSome_iff_exists.mp
    (position_isSome ((h.queue i id polls).mp hqueued))
  obtain ⟨before, waiter, after, hwaiters, rfl, rfl⟩ := position_eq_some hposition
  obtain rfl := h.waiter_call (by simp [hwaiters]) hqueued
  have hqueue := h.queue
  have hdistinct := h.distinct
  rw [hwaiters] at hqueue hdistinct
  have hsub : (before ++ after).Sublist world.gate.waiters := by
    rw [hwaiters]
    exact (sublist_cons_self _ _).append_left before
  have hsame : ∀ j, (update world.calls waiter.waker.call .canceled j).holds =
      (world.calls j).holds := by
    grind [update_apply, holds]
  simp only [World.dropFuture, World.setCall, SaveGateState.dropFuture, hposition, Option.map_some, hwaiters,
    eraseIdx_middle]
  refine ⟨?_, ?_, hqueue.remove hdistinct rfl, h.distinct.sublist (hsub.map _),
    fun other hother => h.below other (hsub.subset hother), ?_, ?_⟩
  · simpa only [hsame] using h.exclusive
  · simpa only [hsame] using h.held
  · intro hfree front hfront
    cases before with
    | nil => exact .inl (mem_append_right _ (by simp_all [SaveGateState.front]))
    | cons first =>
      obtain rfl : first = front := Option.some.inj hfront
      have hne := hqueue.call_ne hdistinct first (by simp)
      refine (h.woken hfree first (by rw [hwaiters]; rfl)).imp (mem_append_left _) fun hw => ?_
      rwa [update_of_ne hne]
  · intro j hj
    rw [update_apply] at hj
    split_ifs at hj
    exact h.panics j hj

theorem Gated.step (h : Gated world.gate world.calls world.waking) (event : Event) :
    Gated (world.step event).gate (world.step event).calls (world.step event).waking := by
  cases event with
  | start i mutates =>
    simp only [World.step]
    split
    · rename_i hcall
      exact h.advance hcall rfl rfl rfl nofun
    · exact h
  | poll i =>
    simp only [World.step]
    split
    · rename_i hcall
      exact h.poll hcall
    · exact h
  | wake index =>
    simp only [World.step]
    split
    · rename_i hwaker
      exact h.wake hwaker
    · exact h
  | snapshot i ok =>
    simp only [World.step]
    split
    · rename_i hcall
      split_ifs
      · exact h.advance hcall rfl rfl rfl nofun
      · exact h.advance hcall rfl rfl rfl nofun
    · exact h
  | store i version =>
    simp only [World.step]
    split
    · rename_i hcall
      exact h.advance hcall rfl rfl rfl nofun
    · rename_i hcall
      exact h.advance hcall rfl rfl rfl nofun
    · exact h
  | answer i =>
    simp only [World.step]
    split
    · rename_i hcall
      exact h.dropGuard (by rw [hcall]; rfl) rfl rfl nofun
    · exact h
  | cancel i =>
    simp only [World.step]
    split
    · rename_i hcall
      exact h.advance hcall rfl rfl rfl nofun
    · rename_i hcall
      exact h.dropFuture hcall
    · rename_i hcall
      exact h.dropGuard (by rw [hcall]; rfl) rfl rfl nofun
    · rename_i hcall
      exact h.dropGuard (by rw [hcall]; rfl) rfl rfl nofun
    · exact h

/-! ## First come, first served -/

/-- The calls that were let in, followed by those that wait, are in the order in which they
came. -/
structure Ordered (world : World) : Prop where
  order : (world.admitted ++ world.gate.waiters.map fun waiter => waiter.waker.call).Sublist
    world.arrived
  once : world.arrived.Nodup
  polled : ∀ i ∈ world.arrived, (world.calls i).polled = true

variable {world next : World}

theorem Ordered.keep (h : Ordered world) (harrived : next.arrived = world.arrived)
    (hadmitted : next.admitted = world.admitted)
    (hwaiters : next.gate.waiters.Sublist world.gate.waiters)
    (hpolled : ∀ j, (world.calls j).polled = true → (next.calls j).polled = true) :
    Ordered next := by
  refine ⟨?_, harrived ▸ h.once, fun j hj => hpolled j (h.polled j (harrived ▸ hj))⟩
  rw [hadmitted, harrived]
  exact ((hwaiters.map _).append_left _).trans h.order

theorem polled_update (h : (calls i).polled = true → call.polled = true) (j : ℕ)
    (hj : (calls j).polled = true) : (update calls i call j).polled = true := by
  rw [update_apply]
  split_ifs with heq
  · exact h (heq ▸ hj)
  · exact hj

theorem Ordered.poll (h : Ordered world) (hgated : Gated world.gate world.calls world.waking)
    (hcall : world.calls i = .waiting queuedId polls woken) :
    Ordered (world.poll i queuedId polls) := by
  have hturn := poll_turn world.gate queuedId ⟨i, polls + 1⟩
  have hkeep : ∀ call : Call, call.polled = true → ∀ j, (world.calls j).polled = true →
      (update world.calls i call j).polled = true := fun call hcall j =>
    polled_update (fun _ => hcall) j
  -- A call that comes has not come before.
  have hnew : queuedId = none → (world.arrived ++ [i]).Nodup ∧ ∀ call : Call, call.polled = true →
      ∀ j ∈ world.arrived ++ [i], (update world.calls i call j).polled = true := by
    rintro rfl
    refine ⟨nodup_append'.mpr ⟨h.once, nodup_singleton i, ?_⟩, ?_⟩
    · simp only [disjoint_singleton]
      intro hmem
      have hpolled := h.polled i hmem
      rw [hcall] at hpolled
      cases hpolled
    · intro call hpolled j hj
      rcases mem_append.mp hj with hj | hj
      · exact hkeep call hpolled j (h.polled j hj)
      · rw [mem_singleton.mp hj, update_self, hpolled]
  have horder := h.order
  unfold World.poll
  generalize world.gate.poll queuedId ⟨i, polls + 1⟩ = result at hturn ⊢
  cases hturn with
  | first hfree hwaiters =>
    refine ⟨?_, (hnew rfl).1, (hnew rfl).2 _ rfl⟩
    simpa [hwaiters] using horder
  | next waiter rest hfree hwaiters | refresh before waiter after hwaiters =>
    refine ⟨?_, h.once, fun j hj => hkeep _ rfl j (h.polled j hj)⟩
    have hwho : waiter.waker.call = i :=
      hgated.waiter_call (by simp [hwaiters]) (by rw [hcall]; rfl)
    simpa [setCall, hwaiters, hwho] using horder
  | enqueue =>
    refine ⟨?_, (hnew rfl).1, (hnew rfl).2 _ rfl⟩
    simpa [setCall, ← append_assoc] using horder
  | exhausted =>
    exact ⟨horder.trans (sublist_append_left _ _), (hnew rfl).1, (hnew rfl).2 _ rfl⟩
  | lost => exact ⟨horder, h.once, fun j hj => hkeep _ rfl j (h.polled j hj)⟩

theorem Ordered.setCall (h : Ordered world) (harrived : next.arrived = world.arrived)
    (hadmitted : next.admitted = world.admitted)
    (hwaiters : next.gate.waiters.Sublist world.gate.waiters)
    (hcalls : next.calls = update world.calls i call)
    (hpolled : (world.calls i).polled = true → call.polled = true) : Ordered next :=
  h.keep harrived hadmitted hwaiters (by rw [hcalls]; exact polled_update hpolled)

theorem Ordered.step (h : Ordered world) (hgated : Gated world.gate world.calls world.waking)
    (event : Event) : Ordered (world.step event) := by
  cases event with
  | start i mutates =>
    simp only [World.step]
    split
    · rename_i hcall
      exact h.setCall rfl rfl (.refl _) rfl (by simp [hcall, Call.polled])
    · exact h
  | poll i =>
    simp only [World.step]
    split
    · rename_i hcall
      exact h.poll hgated hcall
    · exact h
  | wake index =>
    simp only [World.step, World.wake]
    repeat' split
    · rename_i queuedId polls woken hcall _
      refine h.setCall rfl rfl (.refl _) rfl fun hpolled => ?_
      rw [show world.calls _ = _ from hcall] at hpolled
      cases queuedId <;> exact hpolled
    all_goals exact h.keep rfl rfl (.refl _) fun _ hj => hj
  | snapshot =>
    simp only [World.step]
    repeat' split
    all_goals first
      | exact h
      | exact h.setCall rfl rfl (.refl _) rfl fun _ => rfl
  | store =>
    simp only [World.step]
    split
    all_goals first
      | exact h
      | exact h.setCall rfl rfl (.refl _) rfl fun _ => rfl
  | answer i =>
    simp only [World.step]
    split
    · exact h.setCall rfl rfl (.refl _) rfl fun _ => rfl
    · exact h
  | cancel i =>
    simp only [World.step]
    split
    · exact h.setCall rfl rfl (.refl _) rfl fun _ => rfl
    · unfold World.dropFuture SaveGateState.dropFuture
      cases world.gate.position _ with
      | none => exact h.setCall rfl rfl (.refl _) rfl fun _ => rfl
      | some => exact h.setCall rfl rfl (eraseIdx_sublist _ _) rfl fun _ => rfl
    · exact h.setCall rfl rfl (.refl _) rfl fun _ => rfl
    · exact h.setCall rfl rfl (.refl _) rfl fun _ => rfl
    · exact h

/-! ## Snapshots -/

/-- The snapshots grow in the order in which they are handed to the store, and the one that is
being saved was handed last. -/
structure Saves (calls : ℕ → Call) (core : List ℕ) (handed stored : List (List ℕ)) : Prop where
  ordered : handed.Pairwise (· <+: ·)
  taken : ∀ snapshot ∈ handed, snapshot <+: core
  subset : stored.Sublist handed
  started : ∀ i ∈ core, calls i ≠ .unstarted
  saving : ∀ i snapshot version, calls i = .saving snapshot version →
    (∃ earlier, handed = earlier ++ [snapshot] ∧ stored.Sublist earlier) ∧ (i ∈ core → i ∈ snapshot)
  saved : ∀ i, (calls i = .saved true ∨ calls i = .answered true) → i ∈ core →
    ∃ snapshot ∈ stored, i ∈ snapshot

variable {core : List ℕ} {handed stored : List (List ℕ)}

section

variable (h : Saves calls core handed stored)
include h

theorem Saves.keep (hstarted : call ≠ .unstarted)
    (hsaving : ∀ snapshot version, call ≠ .saving snapshot version)
    (hsaved : call = .saved true ∨ call = .answered true →
      calls i = .saved true ∨ calls i = .answered true) :
    Saves (update calls i call) core handed stored := by
  refine ⟨h.ordered, h.taken, h.subset, fun j hj => ?_, fun j snapshot version => ?_, fun j => ?_⟩
  all_goals rw [update_apply]; split_ifs with heq
  · exact hstarted
  · exact h.started j hj
  · exact fun hcall => absurd hcall (hsaving snapshot version)
  · exact h.saving j snapshot version
  · subst heq
    exact fun hcall => h.saved j (hsaved hcall)
  · exact h.saved j

theorem Saves.start (hi : calls i = .unstarted)
    (hstarted : call ≠ .unstarted) (hsaving : ∀ snapshot version, call ≠ .saving snapshot version)
    (hsaved : ¬ (call = .saved true ∨ call = .answered true)) :
    Saves (update calls i call) (core ++ [i]) handed stored := by
  obtain ⟨hordered, htaken, hsubset, hstart, hsave, hdone⟩ := h
  refine ⟨hordered, fun snapshot hs => (htaken snapshot hs).trans (prefix_append _ _),
    hsubset, ?_, ?_, ?_⟩
  · grind [update_apply]
  · intro j snapshot version hj
    have hji : j ≠ i := by
      rintro rfl
      exact hsaving snapshot version (by rwa [update_self] at hj)
    rw [update_of_ne hji] at hj
    obtain ⟨hlast, hin⟩ := hsave j snapshot version hj
    exact ⟨hlast, fun hmem => hin (by simpa [hji] using hmem)⟩
  · intro j hj hmem
    have hji : j ≠ i := by
      rintro rfl
      exact hsaved (by rwa [update_self] at hj)
    rw [update_of_ne hji] at hj
    exact hdone j hj (by simpa [hji] using hmem)

theorem Saves.hand {version : String} (hother : ∀ j, j ≠ i → (calls j).holds = false) :
    Saves (update calls i (.saving core version)) core (handed ++ [core]) stored := by
  obtain ⟨hordered, htaken, hsubset, hstart, hsave, hdone⟩ := h
  constructor
  all_goals grind [update_apply, holds]

theorem Saves.save {snapshot : List ℕ} {version : String}
    (hi : calls i = .saving snapshot version) (hother : ∀ j, j ≠ i → (calls j).holds = false) :
    Saves (update calls i (.saved true)) core handed (stored ++ [snapshot]) := by
  obtain ⟨hordered, htaken, hsubset, hstart, hsave, hdone⟩ := h
  obtain ⟨⟨_, rfl, hearlier⟩, hin⟩ := hsave i snapshot version hi
  refine ⟨hordered, htaken, hearlier.append_right _, ?_, ?_, ?_⟩
  all_goals grind [update_apply, holds]

end

theorem Gated.others (h : Gated gate calls waking) (hi : (calls i).holds = true) (j : ℕ)
    (hj : j ≠ i) : (calls j).holds = false :=
  Bool.eq_false_iff.mpr fun hholds => hj (h.exclusive j i hholds hi)

theorem Saves.step (h : Saves world.calls world.core world.handed world.stored)
    (hgated : Gated world.gate world.calls world.waking) (event : Event) :
    Saves (world.step event).calls (world.step event).core (world.step event).handed
      (world.step event).stored := by
  cases event with
  | start i mutates =>
    simp only [World.step]
    split
    · rename_i hcall
      cases mutates with
      | true => exact h.start hcall nofun nofun (by simp)
      | false => exact h.keep nofun nofun (by simp)
    · exact h
  | poll i =>
    simp only [World.step]
    split
    · unfold World.poll
      generalize world.gate.poll _ _ = result
      obtain ⟨_, polled⟩ := result
      cases polled <;> exact h.keep nofun nofun (by simp)
    · exact h
  | wake =>
    simp only [World.step, World.wake]
    repeat' split
    all_goals first
      | exact h
      | exact h.keep nofun nofun (by simp)
  | snapshot i ok =>
    simp only [World.step]
    split
    · rename_i hcall
      split_ifs
      · exact h.hand (hgated.others (by rw [hcall]; rfl))
      · exact h.keep nofun nofun (by simp)
    · exact h
  | store i version =>
    simp only [World.step]
    split
    · rename_i hcall
      exact h.save hcall (hgated.others (by rw [hcall]; rfl))
    · exact h.keep nofun nofun (by simp)
    · exact h
  | answer i =>
    simp only [World.step]
    split
    · rename_i ok hcall
      refine h.keep nofun nofun fun hok => .inl ?_
      rw [hcall]
      rcases hok with hok | hok <;> cases hok
      rfl
    · exact h
  | cancel i =>
    simp only [World.step]
    split
    · exact h.keep nofun nofun (by simp)
    · unfold World.dropFuture SaveGateState.dropFuture
      cases world.gate.position _ <;> exact h.keep nofun nofun (by simp)
    · exact h.keep nofun nofun (by simp)
    · exact h.keep nofun nofun (by simp)
    · exact h

/-! ## Runs -/

structure Consistent (world : World) : Prop where
  gated : Gated world.gate world.calls world.waking
  ordered : Ordered world
  saves : Saves world.calls world.core world.handed world.stored

theorem Consistent.step (h : Consistent world) (event : Event) : Consistent (world.step event) :=
  ⟨h.gated.step event, h.ordered.step h.gated event, h.saves.step h.gated event⟩

theorem Consistent.run (h : Consistent world) (events : List Event) :
    Consistent (world.run events) := by
  induction events generalizing world with
  | nil => exact h
  | cons event _ ih => exact ih (h.step event)

theorem opened_consistent (version : String) : Consistent (.opened version) where
  gated := by constructor <;> simp [opened, new, Queues, holds, queued]
  ordered := by constructor <;> simp [opened, new]
  saves := by constructor <;> simp [opened]

theorem Call.eq_waiting (h : call.queued = some (id, polls)) :
    ∃ woken, call = .waiting (some id) polls woken := by
  cases call with
  | waiting queuedId => cases queuedId <;> simp_all [queued]
  | _ => cases h

theorem Gated.front (h : Gated world.gate world.calls world.waking)
    (hfree : world.gate.held = false) (hfront : world.gate.waiters.head? = some waiter) :
    ∃ woken, world.calls waiter.waker.call = .waiting (some waiter.id) waiter.waker.poll woken ∧
      (woken = true ∨ waiter.waker ∈ world.waking) ∧
      (world.step (.poll waiter.waker.call)).calls waiter.waker.call = .holding := by
  obtain ⟨woken, hcall⟩ := eq_waiting
    ((h.queue waiter.waker.call _ _).mpr (mem_of_mem_head? hfront))
  refine ⟨woken, hcall, ?_, ?_⟩
  · have hwoken := h.woken hfree waiter hfront
    rw [hcall] at hwoken
    exact hwoken.symm
  · simp [World.step, hcall, World.poll, SaveGateState.poll, ownsNextTurn, hfree,
      hfront, World.setCall]

theorem Saves.last (h : Saves calls core handed stored) (hmem : snapshot ∈ stored) :
    ∃ last, stored.getLast? = some last ∧ snapshot ⊆ last := by
  obtain rfl | ⟨front, last, rfl⟩ := eq_nil_or_concat' stored
  · cases hmem
  · refine ⟨last, getLast?_concat, ?_⟩
    have hordered := h.ordered.sublist h.subset
    rcases mem_append.mp hmem with hmem | hmem
    · exact ((pairwise_append.mp hordered).2.2 snapshot hmem last (by simp)).subset
    · rw [mem_singleton.mp hmem]
      exact .refl _

/-- In every run at most one call holds the gate, and the calls are let in in the order in
which they came. The queue holds exactly the pending calls, each with the waker of its last poll.
When the gate is free, its first waiter is a live call that has been woken, or whose wake-up is on
its way, and that takes the gate when it is polled. Later snapshots contain earlier ones, and a
mutation whose call has answered with success is in the snapshot that was saved last. -/
theorem save_protocol (version : String) (events : List Event) :
    let world := (World.opened version).run events
    ((∀ i j, (world.calls i).holds = true → (world.calls j).holds = true → i = j) ∧
      (world.gate.held = true ↔ ∃ i, (world.calls i).holds = true)) ∧
    (world.admitted.Sublist world.arrived ∧ world.arrived.Nodup) ∧
    (∀ i id polls, (∃ woken, world.calls i = .waiting (some id) polls woken) ↔
      ⟨id, i, polls⟩ ∈ world.gate.waiters) ∧
    (world.gate.held = false → ∀ waiter, world.gate.waiters.head? = some waiter →
      ∃ woken, world.calls waiter.waker.call = .waiting (some waiter.id) waiter.waker.poll woken ∧
        (woken = true ∨ waiter.waker ∈ world.waking) ∧
        (world.step (.poll waiter.waker.call)).calls waiter.waker.call = .holding) ∧
    world.handed.Pairwise (· <+: ·) ∧
    ∀ i ∈ world.core, world.calls i = .answered true →
      ∃ last, world.stored.getLast? = some last ∧ i ∈ last := by
  intro world
  obtain ⟨hgated, hordered, hsaves⟩ := (opened_consistent version).run events
  refine ⟨⟨hgated.exclusive, hgated.held⟩,
    ⟨(List.sublist_append_left _ _).trans hordered.order, hordered.once⟩, ?_, ?_, hsaves.ordered, ?_⟩
  · intro i id polls
    rw [← hgated.queue, Call.queued_eq_some]
  · exact fun hfree waiter => hgated.front hfree
  · intro i hi hcall
    obtain ⟨_, hmem, hin⟩ := hsaves.saved i (.inr hcall) hi
    obtain ⟨last, hlast, hsubset⟩ := hsaves.last hmem
    exact ⟨last, hlast, hsubset hin⟩

end MountRs.Persist
