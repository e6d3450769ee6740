import MountRs.Verification.Nfs.Slots

/-! # At most one execution for each slot and sequence

With fewer requests than sequence ids an admission is known by its sequence id, and a slot whose
request was dropped, or ended without a cached reply after it changed state, is retired. -/

namespace MountRs.Nfs

open List BTreeMap Function SlotWorld Option False

section Invariant

variable {setup : SlotSetup} {world next : SlotWorld} {i j : ℕ} {phase : SlotPhase}
  {index maxCached : ℕ} {results : List OpResult} {mutated completed : Bool} {a : Admission}

/-! ## One request for each key -/

def SlotWorld.receivedAt (world : SlotWorld) (setup : SlotSetup) (session slot : ℕ) : List ℕ :=
  world.received.filter fun i =>
    (setup.requests i).session = session ∧ (setup.requests i).slot = slot

theorem length_admittedAt_le (hl : Ledger setup world) (session slot : ℕ) :
    (world.admittedAt session slot).length ≤ (world.receivedAt setup session slot).length := by
  unfold admittedAt receivedAt
  rw [length_map, ← length_map (f := Admission.task)]
  refine (List.Nodup.subperm ?_ ?_).length_le
  · refine (hl.tasks.filter _).map_on ?_
    intro a ha b hb hab
    rw [(hl.admitted a (mem_of_mem_filter ha)).1,
      (hl.admitted b (mem_of_mem_filter hb)).1, hab]
  · intro i hi
    obtain ⟨a, ha, rfl⟩ := mem_map.1 hi
    obtain ⟨hmem, hat⟩ := mem_filter.1 ha
    obtain ⟨heq, hreceived⟩ := hl.admitted a hmem
    rw [heq] at hat
    exact mem_filter.2 ⟨hreceived, hat⟩

/-- With fewer requests than sequence ids, an admission is determined by its slot and
sequence id. -/
theorem admission_unique (hl : Ledger setup world) (ht : Slotted setup world)
    (few : ∀ session slot, (world.receivedAt setup session slot).length < 2 ^ 32) {b : Admission}
    (ha : a ∈ world.admissions) (hb : b ∈ world.admissions) (hsession : a.session = b.session)
    (hslot : a.slot = b.slot) (hsequence : a.sequence = b.sequence) : a = b := by
  have hlen := (length_admittedAt_le hl b.session b.slot).trans_lt (few b.session b.slot)
  have hnodup : (world.admittedAt b.session b.slot).Nodup := by
    rw [ht.sequences]
    refine nodup_range.map_on ?_
    intro x hx y hy hxy
    rw [mem_range] at hx hy
    omega
  exact inj_on_of_nodup_map hnodup (mem_filter.2 ⟨ha, by simp [hsession, hslot]⟩)
    (mem_filter.2 ⟨hb, by simp⟩) hsequence

/-! ## A retired slot -/

/-- The operations begun on a slot. -/
def SlotWorld.executedAt (world : SlotWorld) (session slot : ℕ) : List (Admission × ℕ) :=
  world.log.filter fun e => e.1.session = session ∧ e.1.slot = slot

/-- Task `i` is on the slot. -/
def OnSlot (setup : SlotSetup) (session slot i : ℕ) : Prop :=
  (setup.requests i).session = session ∧ (setup.requests i).slot = slot

/-- The session is gone, or its slot is held by a request whose drop will remove it. -/
structure Retired (setup : SlotSetup) (world : SlotWorld) (session slot : ℕ) : Prop where
  used : session ∈ world.used
  idle : ∀ i, OnSlot setup session slot i → ∀ index results mutated maxCached,
    world.phase i ≠ .running index results mutated maxCached
  fenced : world.sessions.get? session = none ∨
    ∃ i reply, OnSlot setup session slot i ∧ world.phase i = .replying reply false

variable {session slot : ℕ}

theorem Retired.rephase (h : Retired setup world session slot)
    (hu : ∀ id ∈ world.used, id ∈ next.used)
    (hphase : next.phase = update world.phase i phase)
    (hs : world.sessions.get? session = none → next.sessions.get? session = none)
    (hidle : OnSlot setup session slot i → ∀ index results mutated maxCached,
      phase ≠ .running index results mutated maxCached)
    (hlast : OnSlot setup session slot i → ∀ reply, world.phase i = .replying reply false →
      next.sessions.get? session = none) : Retired setup next session slot := by
  refine ⟨hu _ h.used, ?_, ?_⟩
  · rw [hphase]
    intro j hj
    by_cases hji : j = i
    · subst hji
      rw [update_self]
      exact hidle hj
    · rw [update_of_ne hji]
      exact h.idle j hj
  · rcases h.fenced with hnone | ⟨j, reply, hj, hreply⟩
    · exact .inl (hs hnone)
    · by_cases hji : j = i
      · subst hji
        exact .inl (hlast hj reply hreply)
      · refine .inr ⟨j, reply, hj, ?_⟩
        rw [hphase, update_of_ne hji]
        exact hreply

theorem get?_dropSlot_eq_none (h : world.sessions.get? session = none) :
    (world.dropSlot setup i completed).sessions.get? session = none := by
  rw [eq_none_iff_forall_ne_some]
  intro session' hget
  obtain ⟨_, hold, -⟩ := get?_dropSlot hget
  rw [h] at hold
  cases hold

theorem Slotted.get?_dropSlot_false (h : Slotted setup world) (hi : (world.phase i).Live) :
    (world.dropSlot setup i false).sessions.get? (setup.requests i).session = none := by
  cases hs : world.sessions.get? (setup.requests i).session with
  | none => exact get?_dropSlot_eq_none hs
  | some old =>
    unfold dropSlot
    simp [hs, h.held i old hi hs]

theorem executedAt_append {e : Admission × ℕ} (hlog : next.log = world.log ++ [e])
    (h : ¬ (e.1.session = session ∧ e.1.slot = slot)) :
    next.executedAt session slot = world.executedAt session slot := by
  unfold executedAt
  rw [hlog, filter_append, filter_singleton, decide_eq_false h]
  simp

theorem Retired.step (h : Retired setup world session slot)
    (hstep : SlotStep setup world next) (ht : Slotted setup world) :
    Retired setup next session slot ∧
      next.executedAt session slot = world.executedAt session slot := by
  -- A running task is on another slot.
  have hoff : ∀ {i index results mutated maxCached},
      world.phase i = .running index results mutated maxCached → ¬ OnSlot setup session slot i :=
    fun hp hon => h.idle _ hon _ _ _ _ hp
  have hrun : ∀ {i index results mutated maxCached phase} {next : SlotWorld},
      world.phase i = .running index results mutated maxCached → next.used = world.used →
      next.phase = update world.phase i phase →
      (world.sessions.get? session = none → next.sessions.get? session = none) →
      Retired setup next session slot := fun hp hu hphase hs =>
    h.rephase (by simp [hu]) hphase hs (absurd · (hoff hp)) (absurd · (hoff hp))
  have hquiet : ∀ i phase, (world.phase i).Waiting → ¬ phase.Live → ∀ next : SlotWorld,
      next.used = world.used → next.sessions = world.sessions →
      next.phase = update world.phase i phase → Retired setup next session slot := by
    intro i phase hw hdead next hu hs hphase
    refine h.rephase (by simp [hu]) hphase (by simp [hs]) ?_ ?_
    · rintro - _ _ _ _ rfl
      exact hdead trivial
    · intro _ reply hp
      rw [hp] at hw
      exact hw.elim
  cases hstep with
  | stay => exact ⟨h, rfl⟩
  | arrive i phase hp hphase =>
    refine ⟨hquiet i phase (by rw [hp]; exact trivial) ?_ _ rfl rfl rfl, rfl⟩
    rcases hphase with rfl | hphase
    · exact elim
    · exact hphase.not_live
  | refuse i phase hw hphase => exact ⟨hquiet i phase hw hphase.not_live _ rfl rfl rfl, rfl⟩
  | replay i _ cached hp =>
    exact ⟨hquiet i (.answered cached.body) (by rw [hp]; exact trivial) elim _ rfl rfl rfl,
      rfl⟩
  | accept i old _ _ hs _ ha =>
    have hon : ¬ OnSlot setup session slot i := by
      rintro ⟨rfl, rfl⟩
      rcases h.fenced with hnone | ⟨j, reply, hj, hreply⟩
      · rw [hs] at hnone
        cases hnone
      · have hheld := ht.held j old (by rw [hreply]; exact trivial) (by rw [hj.1]; exact hs)
        rw [hj.2] at hheld
        simp [active, hheld] at ha
    refine ⟨h.rephase (fun _ h => h) rfl ?_ (fun h => absurd h hon) (fun h => absurd h hon), rfl⟩
    intro hnone
    have hne : session ≠ (setup.requests i).session := by
      rintro rfl
      rw [hs] at hnone
      cases hnone
    exact (get?_insert_of_ne _ _ hne).trans hnone
  | execute _ _ _ _ _ _ _ hp =>
    exact ⟨hrun hp rfl rfl id, executedAt_append rfl (hoff hp)⟩
  | finish _ _ _ _ _ _ _ hp =>
    exact ⟨hrun hp rfl rfl id, rfl⟩
  | cache _ _ _ _ _ _ _ hp =>
    rw [storeReply_eq]
    refine ⟨hrun hp rfl rfl fun hnone => ?_, rfl⟩
    rw [eq_none_iff_forall_ne_some]
    intro session' hget
    obtain ⟨_, hold, -⟩ := get?_storeReply hget
    rw [hnone] at hold
    cases hold
  | drop i _ _ hp =>
    rw [dropSlot_eq]
    refine ⟨h.rephase (fun _ h => h) rfl get?_dropSlot_eq_none ?_ ?_, rfl⟩
    · rintro - _ _ _ _ hne
      cases hne
    · intro hon reply' hreply
      have hlive : (world.phase i).Live := by rw [hreply]; exact trivial
      rw [hreply] at hp
      cases hp
      rw [← hon.1]
      exact ht.get?_dropSlot_false hlive
  | cancel _ _ _ _ _ hp =>
    rw [dropSlot_eq]
    exact ⟨hrun hp rfl rfl get?_dropSlot_eq_none, executedAt_append rfl (hoff hp)⟩
  | create id _ _ _ _ hid =>
    refine ⟨⟨mem_append_left _ h.used, h.idle, ?_⟩, rfl⟩
    have hne : session ≠ id := by
      rintro rfl
      exact hid h.used
    rcases h.fenced with hnone | hfenced
    · exact .inl ((get?_insert_of_ne _ _ hne).trans hnone)
    · exact .inr hfenced
  | remove id =>
    refine ⟨⟨h.used, h.idle, ?_⟩, rfl⟩
    rcases h.fenced with hnone | hfenced
    · refine .inl ?_
      simp only [get?_erase, hnone, ite_self]
    · exact .inr hfenced

theorem run_append (setup : SlotSetup) (before : List SlotMove) (move : SlotMove) :
    run setup (before ++ [move]) = (run setup before).apply setup move := by
  simp [run]

theorem executedAt_retired (before after : List SlotMove)
    (h : Retired setup (run setup before) session slot) :
    (run setup (before ++ after)).executedAt session slot =
      (run setup before).executedAt session slot := by
  induction after generalizing before with
  | nil => rw [append_nil]
  | cons move after ih =>
    have hstep : SlotStep setup (.run setup before)
        ((run setup before).apply setup move) := apply_step move
    obtain ⟨hretired, hsame⟩ := h.step hstep (run_invariant setup before).2
    rw [← run_append] at hretired hsame
    rw [← hsame, ← ih _ hretired, append_assoc, singleton_append]

theorem Slotted.idle (ht : Slotted setup world) (hlive : (world.phase i).Live)
    (hstopped : ∀ index results mutated maxCached, phase ≠ .running index results mutated maxCached)
    (hj : OnSlot setup (setup.requests i).session (setup.requests i).slot j) (index : ℕ)
    (results : List OpResult) (mutated : Bool) (maxCached : ℕ) :
    update world.phase i phase j ≠ .running index results mutated maxCached := by
  intro hrun
  by_cases hji : j = i
  · subst hji
    rw [update_self] at hrun
    exact hstopped _ _ _ _ hrun
  · rw [update_of_ne hji] at hrun
    exact hji (ht.exclusive j i (by rw [hrun]; exact trivial) hlive hj.1 hj.2)

theorem retired_cancel (hl : Ledger setup world) (ht : Slotted setup world)
    (hp : world.phase i = .running index results mutated maxCached)
    (hindex : index < (setup.requests i).ops.length) (hstatus : lastStatus results = 0) :
    Retired setup (world.cancel setup i) (setup.requests i).session (setup.requests i).slot := by
  have hlive : (world.phase i).Live := by rw [hp]; exact trivial
  unfold cancel
  simp only [hp, hindex, hstatus, and_self, if_true]
  rw [dropSlot_eq]
  refine ⟨ht.used _ (hl.admitted_of_live hlive), ?_, .inl (ht.get?_dropSlot_false hlive)⟩
  exact fun j hj => ht.idle hlive (by simp) hj

theorem retired_uncached (hl : Ledger setup world) (ht : Slotted setup world)
    (hp : world.phase i = .running index results true maxCached)
    (hbody : cachedBody setup i results maxCached
      { status := lastStatus results, tag := (setup.requests i).tag, results } = none) :
    Retired setup (world.finish setup i results true maxCached) (setup.requests i).session
      (setup.requests i).slot := by
  have hlive : (world.phase i).Live := by rw [hp]; exact trivial
  unfold finish
  simp only [hbody]
  refine ⟨ht.used _ (hl.admitted_of_live hlive), ?_, .inr ⟨i, _, ⟨rfl, rfl⟩, update_self _ _ _⟩⟩
  exact fun j hj => ht.idle hlive (by simp) hj

/-- The loop over the operations is over: all were executed, or the last one failed. -/
def LoopOver (setup : SlotSetup) (i index : ℕ) (results : List OpResult) : Prop :=
  (setup.requests i).ops.length ≤ index ∨ SlotWorld.lastStatus results ≠ 0

theorem step_of_loopOver (hp : world.phase i = .running index results mutated maxCached)
    (hover : LoopOver setup i index results) :
    world.step setup i = world.finish setup i results mutated maxCached := by
  unfold step
  simp only [hp]
  rcases hover with hindex | hstatus
  · rw [getElem?_eq_none hindex]
  · split
    · rw [if_neg hstatus]
    · rfl

theorem SlotStep.of_gated (hp : world.phase i = .gated) :
    (world.step setup i).admissions = world.admissions ++ [setup.admission i] ∨
      ∃ reply, (world.step setup i).phase i = .answered reply := by
  unfold step
  simp only [hp]
  split_ifs
  · exact .inr ⟨_, update_self _ _ _⟩
  · unfold SlotWorld.accept
    dsimp only
    repeat' split
    all_goals first
      | exact .inr ⟨_, update_self _ _ _⟩
      | exact .inl rfl

theorem received_of_gated (hp : world.phase i = .gated) :
    (world.step setup i).received = world.received := by
  unfold step
  simp only [hp]
  split_ifs
  · rfl
  · unfold accept
    dsimp only
    repeat' split
    all_goals rfl

end Invariant

/-! ## At most once -/

def SameKey (setup : SlotSetup) (i j : ℕ) : Prop :=
  (setup.requests i).session = (setup.requests j).session ∧
    (setup.requests i).slot = (setup.requests j).slot ∧
    (setup.requests i).sequence = (setup.requests j).sequence

/-- What holds of the executions and the answers in a world. -/
structure AtMostOnce (setup : SlotSetup) (world : SlotWorld) : Prop where
  once : world.log.Nodup
  /-- Operations begun under one session, slot and sequence id belong to one request. -/
  sole : ∀ e ∈ world.log, ∀ e' ∈ world.log, SameKey setup e.1.task e'.1.task → e.1.task = e'.1.task
  /-- A retransmission of a request that was admitted executes nothing. -/
  retransmission : ∀ i j, setup.admission j ∈ world.admissions → SameKey setup i j → i ≠ j →
    setup.admission i ∉ world.admissions ∧ ∀ e ∈ world.log, e.1.task ≠ i
  /-- It is answered as soon as it reaches the session table. -/
  prompt : ∀ i j, setup.admission j ∈ world.admissions → SameKey setup i j → i ≠ j →
    world.phase i = .gated → ∃ reply, (world.step setup i).phase i = .answered reply
  /-- The answer is an error, or the reply produced for the admitted request. -/
  replayed : ∀ i reply, world.phase i = .answered reply → setup.admission i ∉ world.admissions →
    Replayed setup world (setup.requests i).session (setup.requests i).slot
      (setup.requests i).sequence reply
  /-- The reply produced for a request is the one that request is answered with. -/
  original : ∀ j reply, world.phase j = .answered reply → setup.admission j ∈ world.admissions →
    world.produced j = some reply

theorem atMostOnce_of_invariant {setup : SlotSetup} {world : SlotWorld}
    (hl : Ledger setup world) (ht : Slotted setup world)
    (few : ∀ session slot, (world.receivedAt setup session slot).length < 2 ^ 32) :
    AtMostOnce setup world := by
  have hunique : ∀ i j, setup.admission i ∈ world.admissions →
      setup.admission j ∈ world.admissions → SameKey setup i j → i = j := by
    intro i j hi hj hkey
    exact admission_injective setup (admission_unique hl ht few hi hj hkey.1 hkey.2.1 hkey.2.2)
  have hbegun : ∀ e ∈ world.log, setup.admission e.1.task ∈ world.admissions := by
    intro e he
    rw [← (hl.admitted e.1 (hl.begun e he)).1]
    exact hl.begun e he
  refine ⟨hl.log, ?_, ?_, ?_, ?_, ?_⟩
  · intro e he e' he' hkey
    exact hunique _ _ (hbegun e he) (hbegun e' he') hkey
  · intro i j hj hkey hne
    have hi : setup.admission i ∉ world.admissions := fun hi => hne (hunique i j hi hj hkey)
    refine ⟨hi, ?_⟩
    rintro e he rfl
    exact hi (hbegun e he)
  · intro i j hj hkey hne hp
    refine (SlotStep.of_gated hp).resolve_left ?_
    intro hadmitted
    -- The world after the step has received the same requests.
    have hstep : SlotStep setup world (world.step setup i) := step_step i
    have few' : ∀ session slot,
        ((world.step setup i).receivedAt setup session slot).length < 2 ^ 32 := by
      unfold receivedAt
      rw [received_of_gated hp]
      exact few
    have hi' : setup.admission i ∈ (world.step setup i).admissions := by
      rw [hadmitted]
      exact mem_append_right _ (mem_singleton_self _)
    have hj' : setup.admission j ∈ (world.step setup i).admissions := by
      rw [hadmitted]
      exact mem_append_left _ hj
    exact hne (admission_injective setup (admission_unique (hl.step hstep ht)
      (ht.step hstep hl) few' hi' hj' hkey.1 hkey.2.1 hkey.2.2))
  · intro i reply hp hi
    exact (hl.at hp).2 hi
  · intro j reply hp hj
    exact (hl.at hp).1 hj

/-- In every interleaving of requests, retransmissions, cancellations and session changes
with fewer requests on each slot than there are sequence ids, the operations of a session,
slot and sequence id are executed at most once, and a retransmission is answered by the
original reply or an error. From the cancellation of an admitted request on, and from the
end of a request on that changed state and whose reply is not cached, its session executes
nothing on its slot. -/
theorem slots_execute_at_most_once (setup : SlotSetup) (moves : List SlotMove)
    (few : ∀ session slot,
      ((SlotWorld.run setup moves).receivedAt setup session slot).length < 2 ^ 32) :
    AtMostOnce setup (SlotWorld.run setup moves) ∧
    (∀ before after i index results mutated maxCached, moves = before ++ .cancel i :: after →
      (SlotWorld.run setup before).phase i = .running index results mutated maxCached →
      ¬ LoopOver setup i index results →
      (SlotWorld.run setup moves).executedAt (setup.requests i).session (setup.requests i).slot =
        (SlotWorld.run setup (before ++ [.cancel i])).executedAt (setup.requests i).session
          (setup.requests i).slot) ∧
    (∀ before after i index results mutated maxCached, moves = before ++ .run i :: after →
      (SlotWorld.run setup before).phase i = .running index results mutated maxCached →
      LoopOver setup i index results →
      (∃ op ∈ (setup.requests i).ops.take index, op.mayMutate = true) →
      SlotWorld.cachedBody setup i results maxCached
        { status := SlotWorld.lastStatus results, tag := (setup.requests i).tag, results } =
        none →
      (SlotWorld.run setup moves).executedAt (setup.requests i).session (setup.requests i).slot =
        (SlotWorld.run setup (before ++ [.run i])).executedAt (setup.requests i).session
          (setup.requests i).slot) := by
  obtain ⟨hl, ht⟩ := run_invariant setup moves
  refine ⟨atMostOnce_of_invariant hl ht few, ?_, ?_⟩
  · rintro before after _ _ _ _ _ rfl hp hover
    obtain ⟨hl, ht⟩ := run_invariant setup before
    unfold LoopOver at hover
    push Not at hover
    have hretired := retired_cancel hl ht hp hover.1 hover.2
    rw [← singleton_append, ← append_assoc]
    refine executedAt_retired _ after ?_
    rw [run_append]
    exact hretired
  · rintro before after _ _ _ mutated _ rfl hp hover hmutates hbody
    obtain ⟨hl, ht⟩ := run_invariant setup before
    have hmutated : mutated = true := by
      rw [(hl.at hp).2.2.2]
      exact any_eq_true.2 hmutates
    subst hmutated
    have hretired := retired_uncached hl ht hp hbody
    rw [← singleton_append, ← append_assoc]
    refine executedAt_retired _ after ?_
    rw [run_append]
    simp only [SlotWorld.apply]
    rw [step_of_loopOver hp hover]
    exact hretired

/-- Every request is a REMOVE under sequence id one of the first slot of session zero; the
reply fits the cache. -/
def retrySetup : SlotSetup :=
  { requests := fun _ =>
      { tag := "", credentials := "client", session := 0, sequence := 1, slot := 0, highest := 0
        cachethis := true, count := 3, ops := [.putrootfh, .remove] }
    outcome := fun _ index => { opnum := index, status := 0, body := [] }
    size := fun reply => reply.results.length }

/-- A request and its retransmission while it runs and after its reply. -/
def retryMoves : List SlotMove :=
  [.createSession 0 7 1 8 4, .run 0, .run 2, .run 0, .run 1, .run 0, .run 0, .run 0, .run 0,
    .run 2, .run 3, .cancel 3]

theorem slots_execute_at_most_once_retry :
    AtMostOnce retrySetup (SlotWorld.run retrySetup retryMoves) ∧
    (SlotWorld.run retrySetup retryMoves).log.map Prod.snd = [0, 1] ∧
    (SlotWorld.run retrySetup retryMoves).phase 2 =
      (SlotWorld.run retrySetup retryMoves).phase 0 := by
  have hlen : (SlotWorld.run retrySetup retryMoves).received.length = 4 := by decide +kernel
  have few : ∀ session slot,
      ((SlotWorld.run retrySetup retryMoves).receivedAt retrySetup session slot).length <
        2 ^ 32 := by
    intro session slot
    refine (length_filter_le _ _).trans_lt ?_
    rw [hlen]
    decide
  exact ⟨(slots_execute_at_most_once retrySetup retryMoves few).1, by decide +kernel,
    by decide +kernel⟩

/-- However many requests arrive, a slot admits the sequence ids one after another from one on,
also across their wrap-around, and runs one request at a time. -/
theorem slots_admit_in_sequence (setup : SlotSetup) (moves : List SlotMove) :
    let world := run setup moves
    (∀ session slot, world.admittedAt session slot =
      (range (world.admittedAt session slot).length).map fun k => (k + 1) % 2 ^ 32) ∧
    (∀ i j, (world.phase i).Live → (world.phase j).Live →
      (setup.requests i).session = (setup.requests j).session →
      (setup.requests i).slot = (setup.requests j).slot → i = j) := by
  obtain ⟨-, ht⟩ := run_invariant setup moves
  exact ⟨ht.sequences, ht.exclusive⟩

end MountRs.Nfs
