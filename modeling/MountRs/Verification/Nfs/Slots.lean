import MountRs.Verification.Nfs.SlotSteps

/-! # The ledger and the session table

The ledger and the session table keep an invariant over the cases of a move: the requests admitted
on a slot carry the sequence ids one, two, three and so on, and a request that runs holds its slot
as long as its session exists. -/

namespace MountRs.Nfs

open List BTreeMap Function SlotWorld Option False

/-! ## The ledger -/

/-- The sequence ids admitted on a slot, in the order of admission. -/
def SlotWorld.admittedAt (world : SlotWorld) (session slot : ℕ) : List ℕ :=
  (world.admissions.filter fun a => a.session = session ∧ a.slot = slot).map Admission.sequence

/-- The reply is an error, or the one produced for the request that was admitted under
the same session, slot and sequence id. -/
def Replayed (setup : SlotSetup) (world : SlotWorld) (session slot sequence : ℕ)
    (reply : Reply) : Prop :=
  reply.status ≠ 0 ∨ ∃ j, setup.admission j ∈ world.admissions ∧
    (setup.requests j).session = session ∧ (setup.requests j).slot = slot ∧
    (setup.requests j).sequence = sequence ∧ world.produced j = some reply

/-- What the ledger says about a task in each phase. -/
def Standing (setup : SlotSetup) (world : SlotWorld) (i : ℕ) : SlotPhase → Prop
  | .start => i ∉ world.received ∧ setup.admission i ∉ world.admissions ∧
      world.produced i = none
  | .gated => i ∈ world.received ∧ setup.admission i ∉ world.admissions ∧
      world.produced i = none
  | .running index _ mutated _ => setup.admission i ∈ world.admissions ∧
      (∀ k, (setup.admission i, k) ∈ world.log → k < index) ∧ world.produced i = none ∧
      mutated = ((setup.requests i).ops.take index).any Op.mayMutate
  | .replying reply _ => setup.admission i ∈ world.admissions ∧ world.produced i = some reply
  | .answered reply =>
    (setup.admission i ∈ world.admissions → world.produced i = some reply) ∧
    (setup.admission i ∉ world.admissions →
      Replayed setup world (setup.requests i).session (setup.requests i).slot
        (setup.requests i).sequence reply)
  | .canceled => True

structure Ledger (setup : SlotSetup) (world : SlotWorld) : Prop where
  admitted : ∀ a ∈ world.admissions, a = setup.admission a.task ∧ a.task ∈ world.received
  tasks : world.admissions.Nodup
  received : world.received.Nodup
  log : world.log.Nodup
  begun : ∀ e ∈ world.log, e.1 ∈ world.admissions
  standing : ∀ i, Standing setup world i (world.phase i)

/-- What the session table says about the tasks and the ledger. -/
structure Slotted (setup : SlotSetup) (world : SlotWorld) : Prop where
  known : ∀ id session, world.sessions.get? id = some session → id ∈ world.used
  used : ∀ a ∈ world.admissions, a.session ∈ world.used
  shape : ∀ id session, world.sessions.get? id = some session →
    session.inFlight.length = session.nextSequence.length
  sequences : ∀ id slot, world.admittedAt id slot =
    (List.range (world.admittedAt id slot).length).map fun k => (k + 1) % 2 ^ 32
  next : ∀ id slot session sequence, world.sessions.get? id = some session →
    session.nextSequence[slot]? = some sequence →
    sequence = ((world.admittedAt id slot).length + 1) % 2 ^ 32
  held : ∀ i session, (world.phase i).Live →
    world.sessions.get? (setup.requests i).session = some session →
    session.inFlight[(setup.requests i).slot]? = some (some (setup.requests i).sequence)
  exclusive : ∀ i j, (world.phase i).Live → (world.phase j).Live →
    (setup.requests i).session = (setup.requests j).session →
    (setup.requests i).slot = (setup.requests j).slot → i = j
  cached : ∀ id slot session cached, world.sessions.get? id = some session →
    session.cached[slot]? = some (some cached) →
    Replayed setup world id slot cached.sequence cached.body

section Invariant

variable {setup : SlotSetup} {world next : SlotWorld}

theorem Ledger.at {i : ℕ} {phase : SlotPhase} (h : Ledger setup world)
    (hp : world.phase i = phase) : Standing setup world i phase :=
  hp ▸ h.standing i

theorem admission_injective (setup : SlotSetup) : Injective setup.admission := by
  intro i j h
  exact congrArg Admission.task h

theorem Ledger.start : Ledger setup SlotWorld.start := by
  constructor <;> simp [SlotWorld.start, Standing]

variable {reply : Reply}

theorem Replayed.mono {session slot sequence : ℕ}
    (h : Replayed setup world session slot sequence reply)
    (ha : ∀ a ∈ world.admissions, a ∈ next.admissions)
    (hp : ∀ j reply, world.produced j = some reply → next.produced j = some reply) :
    Replayed setup next session slot sequence reply := by
  rcases h with h | ⟨j, hj, h1, h2, h3, h4⟩
  · exact .inl h
  · exact .inr ⟨j, ha _ hj, h1, h2, h3, hp _ _ h4⟩

/-- Only the entries of task `i` change in the ledger, and none is taken back. -/
structure Touches (setup : SlotSetup) (world next : SlotWorld) (i : ℕ) : Prop where
  received : ∀ j, j ≠ i → (j ∈ next.received ↔ j ∈ world.received) := by exact fun _ _ => Iff.rfl
  admissions : ∀ j, j ≠ i →
    (setup.admission j ∈ next.admissions ↔ setup.admission j ∈ world.admissions) := by
      exact fun _ _ => Iff.rfl
  log : ∀ j k, j ≠ i → (setup.admission j, k) ∈ next.log →
    (setup.admission j, k) ∈ world.log := by exact fun _ _ _ h => h
  produced : ∀ j, j ≠ i → next.produced j = world.produced j := by exact fun _ _ => rfl
  kept : ∀ a ∈ world.admissions, a ∈ next.admissions := by exact fun _ h => h
  replies : ∀ j reply, world.produced j = some reply → next.produced j = some reply := by
    exact fun _ _ h => h

variable {i : ℕ} {phase : SlotPhase} {j : ℕ}

theorem Standing.touches (t : Touches setup world next i) (hj : j ≠ i)
    (h : Standing setup world j phase) : Standing setup next j phase := by
  cases phase with
  | start => simpa only [Standing, t.received j hj, t.admissions j hj, t.produced j hj] using h
  | gated => simpa only [Standing, t.received j hj, t.admissions j hj, t.produced j hj] using h
  | running =>
    obtain ⟨ha, hk, hp, hm⟩ := h
    refine ⟨(t.admissions j hj).2 ha, ?_, (t.produced j hj).trans hp, hm⟩
    intro k hlog
    exact hk k (t.log j k hj hlog)
  | replying =>
    exact ⟨(t.admissions j hj).2 h.1, (t.produced j hj).trans h.2⟩
  | answered =>
    refine ⟨?_, ?_⟩
    · intro ha
      rw [t.produced j hj]
      exact h.1 ((t.admissions j hj).1 ha)
    · intro ha
      exact (h.2 (mt (t.admissions j hj).2 ha)).mono t.kept t.replies
  | canceled => trivial

theorem Touches.standing (t : Touches setup world next i) (h : Ledger setup world)
    (hphase : next.phase = update world.phase i phase) (hi : Standing setup next i phase) :
    ∀ j, Standing setup next j (next.phase j) := by
  rw [hphase, forall_update_iff _ (p := fun j phase => Standing setup next j phase)]
  exact ⟨hi, fun j hj => (h.standing j).touches t hj⟩

theorem Touches.of_eq (i : ℕ) (hr : next.received = world.received)
    (ha : next.admissions = world.admissions) (hl : next.log = world.log)
    (hp : next.produced = world.produced) : Touches setup world next i where
  received := by simp [hr]
  admissions := by simp [ha]
  log := by simp [hl]
  produced := by simp [hp]
  kept := by simp [ha]
  replies := by simp [hp]

theorem Ledger.rephase (h : Ledger setup world) (hr : next.received = world.received)
    (ha : next.admissions = world.admissions) (hl : next.log = world.log)
    (hp : next.produced = world.produced)
    (hphase : next.phase = update world.phase i phase) (hi : Standing setup next i phase) :
    Ledger setup next where
  admitted := by rw [ha, hr]; exact h.admitted
  tasks := by rw [ha]; exact h.tasks
  received := by rw [hr]; exact h.received
  log := by rw [hl]; exact h.log
  begun := by rw [hl, ha]; exact h.begun
  standing := (Touches.of_eq i hr ha hl hp).standing h hphase hi

theorem Ledger.unadmitted (h : Ledger setup world) (hw : (world.phase i).Waiting) :
    setup.admission i ∉ world.admissions := by
  cases hp : world.phase i with
  | start | gated => exact (h.at hp).2.1
  | _ => rw [hp] at hw; exact hw.elim

theorem Standing.refused (ha : setup.admission i ∉ world.admissions) (hp : phase.Refused) :
    Standing setup world i phase := by
  cases phase with
  | canceled => trivial
  | answered => exact ⟨fun h => absurd h ha, fun _ => .inl hp⟩
  | _ => exact hp.elim

theorem Ledger.admitted_of_live (h : Ledger setup world) (hl : (world.phase i).Live) :
    setup.admission i ∈ world.admissions := by
  cases hp : world.phase i with
  | running | replying => exact (h.at hp).1
  | _ => rw [hp] at hl; exact hl.elim

variable {index maxCached : ℕ} {results : List OpResult} {mutated : Bool}

theorem Ledger.produced_update (h : Ledger setup world)
    (hp : world.phase i = .running index results mutated maxCached) (reply : Reply) (j : ℕ)
    (reply' : Reply) (hj : world.produced j = some reply') :
    update world.produced i (some reply) j = some reply' := by
  have hne : j ≠ i := by
    rintro rfl
    rw [(h.at hp).2.2.1] at hj
    cases hj
  rw [update_of_ne hne]
  exact hj

theorem SlotPhase.Refused.not_live (h : phase.Refused) : ¬ phase.Live := by
  cases phase with
  | canceled | answered => exact elim
  | _ => exact h.elim

variable {sessions : BTreeMap ℕ SessionState}

variable {completed : Bool}

section

variable (h : Ledger setup world)
include h

theorem ledger_arrive (hp : world.phase i = .start) (hphase : phase = .gated ∨ phase.Refused) :
    Ledger setup { world.setPhase i phase with received := world.received ++ [i] } := by
  have hi := h.at hp
  have ht : Touches setup world
      { world.setPhase i phase with received := world.received ++ [i] } i :=
    { received := by
        intro j hj
        simp [hj] }
  refine ⟨?_, h.tasks, ?_, h.log, h.begun, ht.standing h rfl ?_⟩
  · intro a ha
    obtain ⟨h1, h2⟩ := h.admitted a ha
    exact ⟨h1, mem_append_left _ h2⟩
  · exact nodup_append'.2 ⟨h.received, nodup_singleton i, by simpa using hi.1⟩
  · rcases hphase with rfl | hphase
    · exact ⟨mem_append_right _ (mem_singleton_self i), hi.2⟩
    · exact .refused hi.2.1 hphase

theorem ledger_accept (hp : world.phase i = .gated) : Ledger setup
      { world.setPhase i (.running 0 results false maxCached) with
        sessions, admissions := world.admissions ++ [setup.admission i] } := by
  obtain ⟨hr, ha, hnone⟩ := h.at hp
  have ht : Touches setup world
      { world.setPhase i (.running 0 results false maxCached) with
        sessions, admissions := world.admissions ++ [setup.admission i] } i :=
    { admissions := by
        intro j hj
        have hne : setup.admission j ≠ setup.admission i := (admission_injective setup).ne hj
        simp [hne]
      kept := fun _ h => mem_append_left _ h }
  refine ⟨?_, ?_, h.received, h.log, ?_, ht.standing h rfl ?_⟩
  · intro a hmem
    rcases mem_append.1 hmem with hmem | hmem
    · exact h.admitted a hmem
    · rw [mem_singleton.1 hmem]
      exact ⟨rfl, hr⟩
  · exact nodup_append'.2 ⟨h.tasks, nodup_singleton _, by simpa using ha⟩
  · intro e he
    exact mem_append_left _ (h.begun e he)
  · refine ⟨mem_append_right _ (mem_singleton_self _), ?_, hnone, rfl⟩
    intro k hk
    exact absurd (h.begun _ hk) ha

variable (hp : world.phase i = .running index results mutated maxCached)
include hp

theorem ledger_execute
    (hphase : phase = .canceled ∨ ∃ op results maxCached, (setup.requests i).ops[index]? = some op ∧
      phase = .running (index + 1) results (mutated || op.mayMutate) maxCached) : Ledger setup
      { world.setPhase i phase with
        sessions, log := world.log ++ [(setup.admission i, index)] } := by
  obtain ⟨ha, hk, hnone, hm⟩ := h.at hp
  have ht : Touches setup world
      { world.setPhase i phase with
        sessions, log := world.log ++ [(setup.admission i, index)] } i :=
    { log := by
        intro j k hj hmem
        have hne : setup.admission j ≠ setup.admission i := (admission_injective setup).ne hj
        simpa [hne] using hmem }
  refine ⟨h.admitted, h.tasks, h.received, ?_, ?_, ht.standing h rfl ?_⟩
  · have hnew : (setup.admission i, index) ∉ world.log := by
      intro hmem
      exact absurd (hk index hmem) (lt_irrefl index)
    exact nodup_append'.2 ⟨h.log, nodup_singleton _, by simpa using hnew⟩
  · intro e he
    rcases mem_append.1 he with he | he
    · exact h.begun e he
    · rw [mem_singleton.1 he]
      exact ha
  · rcases hphase with rfl | ⟨op, results', maxCached', hop, rfl⟩
    · trivial
    · refine ⟨ha, ?_, hnone, by simp [take_add_one, hop, hm]⟩
      intro k hmem
      rcases mem_append.1 hmem with hmem | hmem
      · exact Nat.lt_succ_of_lt (hk k hmem)
      · cases mem_singleton.1 hmem
        exact Nat.lt_succ_self index

theorem ledger_finish : Ledger setup { world.setPhase i (.replying reply completed) with
        sessions, produced := update world.produced i (some reply) } := by
  obtain ⟨ha, -⟩ := h.at hp
  have ht : Touches setup world
      { world.setPhase i (.replying reply completed) with
        sessions, produced := update world.produced i (some reply) } i :=
    { produced := fun j hj => update_of_ne hj _ _
      replies := h.produced_update hp reply }
  exact ⟨h.admitted, h.tasks, h.received, h.log, h.begun, ht.standing h rfl ⟨ha, update_self _ _ _⟩⟩

end

theorem storeReply_eq (setup : SlotSetup) (world : SlotWorld) (i : ℕ) (body : Reply) :
    world.storeReply setup i body =
      { world with sessions := (world.storeReply setup i body).sessions } := by
  unfold storeReply
  dsimp only
  split <;> rfl

theorem dropSlot_eq (setup : SlotSetup) (world : SlotWorld) (i : ℕ) (completed : Bool) :
    world.dropSlot setup i completed =
      { world with sessions := (world.dropSlot setup i completed).sessions } := by
  unfold dropSlot
  dsimp only
  split
  · rfl
  · split_ifs <;> rfl

theorem Ledger.step (h : Ledger setup world) (hstep : SlotStep setup world next)
    (ht : Slotted setup world) : Ledger setup next := by
  cases hstep with
  | stay => exact h
  | arrive i phase hp hphase => exact ledger_arrive h hp hphase
  | refuse i phase hw hphase =>
    exact h.rephase rfl rfl rfl rfl rfl (.refused (h.unadmitted hw) hphase)
  | replay i session cached hp hs hc hseq =>
    have ha : setup.admission i ∉ world.admissions := h.unadmitted (by rw [hp]; exact trivial)
    refine h.rephase rfl rfl rfl rfl rfl ⟨fun hmem => absurd hmem ha, fun _ => ?_⟩
    have hr := ht.cached _ _ session cached hs hc
    rw [hseq] at hr
    exact hr
  | accept _ _ _ hp => exact ledger_accept h hp
  | execute _ _ op _ _ _ _ hp hop =>
    exact ledger_execute h hp (.inr ⟨op, _, _, hop, rfl⟩)
  | finish _ _ _ _ _ _ _ hp => exact ledger_finish h hp
  | cache i _ _ _ _ reply body hp =>
    have hl : Ledger setup
        { world.setPhase i (.replying reply true) with
          sessions := (world.storeReply setup i body).sessions
          produced := update world.produced i (some reply) } := ledger_finish h hp
    rw [storeReply_eq]
    exact hl
  | drop _ _ _ hp =>
    have hi := h.at hp
    rw [dropSlot_eq]
    exact h.rephase rfl rfl rfl rfl rfl ⟨fun _ => hi.2, fun ha => absurd hi.1 ha⟩
  | cancel i index _ _ _ hp =>
    have hl : Ledger setup
        { world.setPhase i .canceled with
          sessions := (world.dropSlot setup i false).sessions
          log := world.log ++ [(setup.admission i, index)] } :=
      ledger_execute h hp (.inl rfl)
    rw [dropSlot_eq]
    exact hl
  | create =>
    exact ⟨h.admitted, h.tasks, h.received, h.log, h.begun, h.standing⟩
  | remove id => exact ⟨h.admitted, h.tasks, h.received, h.log, h.begun, h.standing⟩

/-! ## The session table -/

theorem Slotted.start : Slotted setup SlotWorld.start := by
  constructor <;> simp [SlotWorld.start, SlotWorld.admittedAt, SlotPhase.Live]

/-- A session after a step that admits nothing, compared with the session before it. -/
structure Inherits (setup : SlotSetup) (next : SlotWorld) (id : ℕ)
    (session session' : SessionState) : Prop where
  nextSequence : session'.nextSequence = session.nextSequence
  shape : session'.inFlight.length = session.inFlight.length
  held : ∀ j, (next.phase j).Live → (setup.requests j).session = id →
    session.inFlight[(setup.requests j).slot]? = some (some (setup.requests j).sequence) →
    session'.inFlight[(setup.requests j).slot]? = some (some (setup.requests j).sequence)
  cached : ∀ slot cached, session'.cached[slot]? = some (some cached) →
    Replayed setup next id slot cached.sequence cached.body

theorem Slotted.inherit (h : Slotted setup world) (ha : next.admissions = world.admissions)
    (hu : next.used = world.used) (hlive : ∀ j, (next.phase j).Live → (world.phase j).Live)
    (hs : ∀ id session', next.sessions.get? id = some session' →
      ∃ session, world.sessions.get? id = some session ∧
        Inherits setup next id session session') : Slotted setup next := by
  have hat : next.admittedAt = world.admittedAt := by
    funext id slot
    simp only [admittedAt, ha]
  refine ⟨?_, ?_, ?_, ?_, ?_, ?_, ?_, ?_⟩
  · intro id session' hget
    obtain ⟨session, hold, -⟩ := hs id session' hget
    rw [hu]
    exact h.known id session hold
  · rw [ha, hu]
    exact h.used
  · intro id session' hget
    obtain ⟨session, hold, hi⟩ := hs id session' hget
    rw [hi.shape, hi.nextSequence]
    exact h.shape id session hold
  · rw [hat]
    exact h.sequences
  · intro id slot session' sequence hget hseq
    obtain ⟨session, hold, hi⟩ := hs id session' hget
    rw [hi.nextSequence] at hseq
    rw [hat]
    exact h.next id slot session sequence hold hseq
  · intro j session' hj hget
    obtain ⟨session, hold, hi⟩ := hs _ session' hget
    exact hi.held j hj rfl (h.held j session (hlive j hj) hold)
  · intro j k hj hk
    exact h.exclusive j k (hlive j hj) (hlive k hk)
  · intro id slot session' cached hget hc
    obtain ⟨_, -, hi⟩ := hs id session' hget
    exact hi.cached slot cached hc

variable {session : SessionState}

theorem Slotted.unchanged {id : ℕ} (h : Slotted setup world)
    (hget : world.sessions.get? id = some session)
    (ha : ∀ a ∈ world.admissions, a ∈ next.admissions)
    (hp : ∀ j reply, world.produced j = some reply → next.produced j = some reply) :
    Inherits setup next id session session where
  nextSequence := rfl
  shape := rfl
  held := fun _ _ _ h => h
  cached := fun slot cached hc => (h.cached id slot session cached hget hc).mono ha hp

theorem live_of_update (hi : phase.Live → (world.phase i).Live)
    (hj : (update world.phase i phase j).Live) : (world.phase j).Live := by
  by_cases hji : j = i
  · subst hji
    rw [update_self] at hj
    exact hi hj
  · rwa [update_of_ne hji] at hj

theorem Slotted.rephase (h : Slotted setup world) (hs : next.sessions = world.sessions)
    (ha : next.admissions = world.admissions) (hu : next.used = world.used)
    (hp : ∀ j reply, world.produced j = some reply → next.produced j = some reply)
    (hphase : next.phase = update world.phase i phase)
    (hi : phase.Live → (world.phase i).Live) : Slotted setup next := by
  refine h.inherit ha hu ?_ ?_
  · intro j hj
    rw [hphase] at hj
    exact live_of_update hi hj
  · intro id session' hget
    rw [hs] at hget
    refine ⟨session', hget, h.unchanged hget ?_ hp⟩
    rw [ha]
    exact fun _ h => h

theorem getElem?_set_eq_some {α : Type*} {l : List α} {m n : ℕ} {a b : α}
    (h : (l.set m a)[n]? = some b) : l[n]? = some b ∨ n = m ∧ b = a := by
  by_cases hn : n = m
  · subst hn
    rw [getElem?_set_self', Option.map_eq_map, map_eq_some_iff] at h
    obtain ⟨x, -, hb⟩ := h
    exact .inr ⟨rfl, hb.symm⟩
  · rw [getElem?_set_ne (Ne.symm hn)] at h
    exact .inl h

variable {body : Reply} {session' : SessionState}

theorem get?_storeReply {id : ℕ}
    (hget : (world.storeReply setup i body).sessions.get? id = some session') :
    ∃ session, world.sessions.get? id = some session ∧
      session'.nextSequence = session.nextSequence ∧ session'.inFlight = session.inFlight ∧
      ∀ slot cached, session'.cached[slot]? = some (some cached) →
        session.cached[slot]? = some (some cached) ∨
        id = (setup.requests i).session ∧ slot = (setup.requests i).slot ∧
          cached.sequence = (setup.requests i).sequence ∧ cached.body = body := by
  unfold storeReply at hget
  dsimp only at hget
  split at hget
  · exact ⟨session', hget, rfl, rfl, fun _ _ h => .inl h⟩
  · rename_i session hs
    rcases get?_insert_eq_some hget with ⟨rfl, rfl⟩ | ⟨-, hget⟩
    · refine ⟨session, hs, rfl, rfl, ?_⟩
      intro slot cached hc
      rcases getElem?_set_eq_some hc with hc | ⟨hslot, hc⟩
      · exact .inl hc
      · cases hc
        exact .inr ⟨rfl, hslot, rfl, rfl⟩
    · exact ⟨session', hget, rfl, rfl, fun _ _ h => .inl h⟩

theorem get?_dropSlot {id : ℕ}
    (hget : (world.dropSlot setup i completed).sessions.get? id = some session') :
    ∃ session, world.sessions.get? id = some session ∧
      session'.nextSequence = session.nextSequence ∧ session'.cached = session.cached ∧
      (session'.inFlight = session.inFlight ∨ id = (setup.requests i).session ∧
        session'.inFlight = session.inFlight.set (setup.requests i).slot none) := by
  unfold dropSlot at hget
  dsimp only at hget
  split at hget
  · exact ⟨session', hget, rfl, rfl, .inl rfl⟩
  · rename_i session hs
    split_ifs at hget with hin hc
    · exact ⟨session', hget, rfl, rfl, .inl rfl⟩
    · rcases get?_insert_eq_some hget with ⟨rfl, rfl⟩ | ⟨-, hget⟩
      · exact ⟨session, hs, rfl, rfl, .inr ⟨rfl, rfl⟩⟩
      · exact ⟨session', hget, rfl, rfl, .inl rfl⟩
    · rw [get?_erase] at hget
      split_ifs at hget
      exact ⟨session', hget, rfl, rfl, .inl rfl⟩

theorem slotted_drop (h : Slotted setup world) (hi : (world.phase i).Live)
    (hs : next.sessions = (world.dropSlot setup i completed).sessions)
    (ha : next.admissions = world.admissions) (hu : next.used = world.used)
    (hp : next.produced = world.produced)
    (hphase : next.phase = update world.phase i phase) (hdead : ¬ phase.Live) :
    Slotted setup next := by
  have hlive : ∀ j, (next.phase j).Live → j ≠ i ∧ (world.phase j).Live := by
    intro j hj
    rw [hphase] at hj
    refine ⟨?_, live_of_update (fun h => absurd h hdead) hj⟩
    rintro rfl
    rw [update_self] at hj
    exact hdead hj
  refine h.inherit ha hu (fun j hj => (hlive j hj).2) ?_
  intro id session' hget
  rw [hs] at hget
  obtain ⟨session, hold, hnext, hcached, hflight⟩ := get?_dropSlot hget
  have hsame : Inherits setup next id session session :=
    h.unchanged hold (by simp [ha]) (by simp [hp])
  refine ⟨session, hold, hnext, ?_, ?_, ?_⟩
  · rcases hflight with hflight | ⟨-, hflight⟩
    · rw [hflight]
    · rw [hflight, length_set]
  · intro j hj hid hin
    rcases hflight with hflight | ⟨hidi, hflight⟩
    · rw [hflight]
      exact hin
    · -- Another live task on this session holds another slot.
      have hslot : (setup.requests i).slot ≠ (setup.requests j).slot := by
        intro hslot
        exact (hlive j hj).1
          (h.exclusive i j hi (hlive j hj).2 (hidi.symm.trans hid.symm) hslot).symm
      rw [hflight, getElem?_set_ne hslot]
      exact hin
  · rw [hcached]
    exact hsame.cached

theorem slotted_cache (h : Slotted setup world) (hl : Ledger setup world)
    (hp : world.phase i = .running index results mutated maxCached)
    (hbody : body = reply ∨ body.status ≠ 0) :
    Slotted setup
      { world.setPhase i (.replying reply true) with
        sessions := (world.storeReply setup i body).sessions
        produced := update world.produced i (some reply) } := by
  have hi := hl.at hp
  have hkeep := hl.produced_update hp reply
  refine h.inherit rfl rfl ?_ ?_
  · intro j hj
    exact live_of_update (fun _ => by rw [hp]; exact trivial) hj
  · intro id session' hget
    obtain ⟨session, hold, hnext, hflight, hcached⟩ := get?_storeReply hget
    refine ⟨session, hold, hnext, by rw [hflight], ?_, ?_⟩
    · intro j _ _ hin
      rw [hflight]
      exact hin
    · intro slot cached hc
      rcases hcached slot cached hc with hc | ⟨rfl, rfl, hseq, hcb⟩
      · exact (h.cached id slot session cached hold hc).mono (fun _ ha => ha) hkeep
      · rw [hseq, hcb]
        rcases hbody with rfl | hstatus
        · exact .inr ⟨i, hi.1, rfl, rfl, rfl, update_self _ _ _⟩
        · exact .inl hstatus

variable {a : Admission}

theorem admittedAt_append (ha : next.admissions = world.admissions ++ [a]) (id slot : ℕ) :
    next.admittedAt id slot =
      if a.session = id ∧ a.slot = slot then world.admittedAt id slot ++ [a.sequence]
      else world.admittedAt id slot := by
  unfold admittedAt
  rw [ha, filter_append, map_append]
  by_cases h : a.session = id ∧ a.slot = slot
  · simp [h]
  · rw [if_neg h, filter_singleton, decide_eq_false h]
    simp

theorem slotted_accept (h : Slotted setup world)
    (hs : world.sessions.get? (setup.requests i).session = some session)
    (hseq : session.nextSequence[(setup.requests i).slot]? = some (setup.requests i).sequence)
    (hfree : active session (setup.requests i).slot = none) :
    Slotted setup
      { world.setPhase i (.running 0 results false maxCached) with
        sessions := world.sessions.insert (setup.requests i).session
          (session.take (setup.requests i))
        admissions := world.admissions ++ [setup.admission i] } := by
  -- No live task holds the slot.
  have hempty : ∀ j, (world.phase j).Live →
      (setup.requests j).session = (setup.requests i).session →
      (setup.requests j).slot ≠ (setup.requests i).slot := by
    intro j hj hsession hslot
    have hheld := h.held j session hj (by rw [hsession]; exact hs)
    rw [hslot] at hheld
    simp [active, hheld] at hfree
  have hn := h.next _ _ session _ hs hseq
  have hbound : (setup.requests i).slot < session.inFlight.length := by
    rw [h.shape _ session hs]
    exact (List.getElem?_eq_some_iff.1 hseq).1
  have hlive : ∀ j, (update world.phase i (.running 0 results false maxCached) j).Live →
      j = i ∨ j ≠ i ∧ (world.phase j).Live := by
    intro j hj
    by_cases hji : j = i
    · exact .inl hji
    · rw [update_of_ne hji] at hj
      exact .inr ⟨hji, hj⟩
  refine ⟨?_, ?_, ?_, ?_, ?_, ?_, ?_, ?_⟩
  · intro id session' hg
    rcases get?_insert_eq_some hg with ⟨rfl, -⟩ | ⟨-, hold⟩
    · exact h.known _ session hs
    · exact h.known id session' hold
  · intro a ha
    rcases mem_append.1 ha with ha | ha
    · exact h.used a ha
    · rw [mem_singleton.1 ha]
      exact h.known _ session hs
  · intro id session' hg
    rcases get?_insert_eq_some hg with ⟨rfl, rfl⟩ | ⟨-, hold⟩
    · simp only [SessionState.take, length_set]
      exact h.shape _ session hs
    · exact h.shape id session' hold
  · intro id slot
    rw [admittedAt_append rfl]
    split_ifs with hat
    · obtain ⟨rfl, rfl⟩ := hat
      rw [length_append, length_singleton, range_succ, map_append,
        ← h.sequences]
      exact congrArg (_ ++ [·]) hn
    · exact h.sequences id slot
  · intro id slot session' sequence hg hsequence
    rw [admittedAt_append rfl]
    rcases get?_insert_eq_some hg with ⟨rfl, rfl⟩ | ⟨hid, hold⟩
    · by_cases hslot : slot = (setup.requests i).slot
      · subst hslot
        rw [if_pos ⟨rfl, rfl⟩, length_append, length_singleton]
        have hbound' := (List.getElem?_eq_some_iff.1 hseq).1
        simp only [SessionState.take] at hsequence
        rw [getElem?_set_self hbound'] at hsequence
        rw [← some.inj hsequence, hn]
        omega
      · rw [if_neg fun hat => hslot hat.2.symm]
        simp only [SessionState.take] at hsequence
        rw [getElem?_set_ne (Ne.symm hslot)] at hsequence
        exact h.next _ slot session sequence hs hsequence
    · rw [if_neg fun hat => hid hat.1.symm]
      exact h.next id slot session' sequence hold hsequence
  · intro j session' hj hg
    rcases hlive j hj with rfl | ⟨hji, hj⟩
    · rcases get?_insert_eq_some hg with ⟨-, rfl⟩ | ⟨hid, -⟩
      · exact getElem?_set_self hbound
      · exact absurd rfl hid
    · rcases get?_insert_eq_some hg with ⟨hid, rfl⟩ | ⟨-, hold⟩
      · simp only [SessionState.take]
        rw [getElem?_set_ne (hempty j hj hid).symm]
        exact h.held j session hj (by rw [hid]; exact hs)
      · exact h.held j session' hj hold
  · intro j k hj hk hsession hslot
    rcases hlive j hj with rfl | ⟨-, hj'⟩
    · rcases hlive k hk with rfl | ⟨-, hk'⟩
      · rfl
      · exact absurd hslot.symm (hempty k hk' hsession.symm)
    · rcases hlive k hk with rfl | ⟨-, hk'⟩
      · exact absurd hslot (hempty j hj' hsession)
      · exact h.exclusive j k hj' hk' hsession hslot
  · intro id slot session' cached hg hc
    have hkeep : ∀ a ∈ world.admissions, a ∈ world.admissions ++ [setup.admission i] :=
      fun _ ha => mem_append_left _ ha
    rcases get?_insert_eq_some hg with ⟨rfl, rfl⟩ | ⟨-, hold⟩
    · exact (h.cached _ slot session cached hs hc).mono hkeep fun _ _ h => h
    · exact (h.cached id slot session' cached hold hc).mono hkeep fun _ _ h => h

theorem slotted_create {id clientid slots maxOperations : ℕ} (h : Slotted setup world)
    (hl : Ledger setup world) (hid : id ∉ world.used) :
    Slotted setup
      { world with
        used := world.used ++ [id]
        sessions := world.sessions.insert id
          (freshSession id clientid slots maxOperations maxCached) } := by
  -- Nothing was admitted on the new session.
  have hnone : ∀ slot, world.admittedAt id slot = [] := by
    intro slot
    unfold admittedAt
    rw [map_eq_nil_iff, filter_eq_nil_iff]
    intro a ha hat
    have hsession : a.session = id := (of_decide_eq_true hat).1
    exact hid (hsession ▸ h.used a ha)
  refine ⟨?_, ?_, ?_, h.sequences, ?_, ?_, h.exclusive, ?_⟩
  · intro id' session' hg
    rcases get?_insert_eq_some hg with ⟨rfl, -⟩ | ⟨-, hold⟩
    · exact mem_append_right _ (mem_singleton_self _)
    · exact mem_append_left _ (h.known id' session' hold)
  · intro a ha
    exact mem_append_left _ (h.used a ha)
  · intro id' session' hg
    rcases get?_insert_eq_some hg with ⟨-, rfl⟩ | ⟨-, hold⟩
    · simp [freshSession]
    · exact h.shape id' session' hold
  · intro id' slot session' sequence hg hsequence
    rcases get?_insert_eq_some hg with ⟨rfl, rfl⟩ | ⟨-, hold⟩
    · have hone : sequence = 1 := by
        simp only [freshSession, getElem?_replicate] at hsequence
        split_ifs at hsequence
        exact (some.inj hsequence).symm
      have hlen : (world.admittedAt id' slot).length = 0 := by rw [hnone]; rfl
      rw [hone]
      exact (congrArg (fun n => (n + 1) % 2 ^ 32) hlen).symm
    · exact h.next id' slot session' sequence hold hsequence
  · intro j session' hj hg
    have hadm : setup.admission j ∈ world.admissions := hl.admitted_of_live hj
    rcases get?_insert_eq_some hg with ⟨heq, -⟩ | ⟨-, hold⟩
    · exact absurd (heq ▸ h.used _ hadm) hid
    · exact h.held j session' hj hold
  · intro id' slot session' cached hg hc
    rcases get?_insert_eq_some hg with ⟨-, rfl⟩ | ⟨-, hold⟩
    · simp only [freshSession, getElem?_replicate] at hc
      split_ifs at hc
      cases hc
    · exact h.cached id' slot session' cached hold hc

theorem Slotted.step (h : Slotted setup world) (hstep : SlotStep setup world next)
    (hl : Ledger setup world) : Slotted setup next := by
  cases hstep with
  | stay => exact h
  | arrive _ _ _ hphase =>
    refine h.rephase rfl rfl rfl (fun _ _ h => h) rfl ?_
    intro hlive
    rcases hphase with rfl | hphase
    · exact hlive.elim
    · exact absurd hlive hphase.not_live
  | refuse _ _ _ hphase =>
    exact h.rephase rfl rfl rfl (fun _ _ h => h) rfl fun hlive => absurd hlive hphase.not_live
  | replay =>
    exact h.rephase rfl rfl rfl (fun _ _ h => h) rfl elim
  | accept _ _ _ _ hs he ha => exact slotted_accept h hs he ha
  | execute _ _ _ _ _ _ _ hp =>
    exact h.rephase rfl rfl rfl (fun _ _ h => h) rfl fun _ => by rw [hp]; exact trivial
  | finish _ _ _ _ _ reply _ hp =>
    refine h.rephase rfl rfl rfl (hl.produced_update hp reply) rfl fun _ => ?_
    rw [hp]
    exact trivial
  | cache _ _ _ _ _ _ _ hp hbody =>
    have hs := slotted_cache h hl hp hbody
    rw [storeReply_eq]
    exact hs
  | drop i reply completed hp | cancel i index results mutated maxCached hp =>
    have hi : (world.phase i).Live := by rw [hp]; exact trivial
    rw [dropSlot_eq]
    exact slotted_drop h hi rfl rfl rfl rfl rfl elim
  | create _ _ _ _ _ hid => exact slotted_create h hl hid
  | remove id =>
    refine h.inherit rfl rfl (fun _ hj => hj) ?_
    intro id' session' hget
    rw [get?_erase] at hget
    split_ifs at hget
    exact ⟨session', hget, h.unchanged hget (fun _ ha => ha) fun _ _ hp => hp⟩

/-! ## Runs -/

theorem run_invariant (setup : SlotSetup) (moves : List SlotMove) :
    Ledger setup (run setup moves) ∧ Slotted setup (run setup moves) := by
  induction moves using reverseRecOn with
  | nil => exact ⟨.start, .start⟩
  | append_singleton moves move ih =>
    simp only [run, foldl_append, foldl_cons, foldl_nil]
    have hstep : SlotStep setup (.run setup moves)
        ((run setup moves).apply setup move) := apply_step move
    exact ⟨ih.1.step hstep ih.2, ih.2.step hstep ih.1⟩

end Invariant

end MountRs.Nfs
