import MountRs.Model.Nfs.Slots

/-! # The cases of a move

What a move of the slot model does is one of the cases of `SlotStep`. -/

namespace MountRs.Nfs

open List BTreeMap Function SlotWorld Option False

/-- The request has not been looked at by the session table. -/
def SlotPhase.Waiting : SlotPhase → Prop
  | .start | .gated => True
  | _ => False

/-- The request holds the guard of its slot. -/
def SlotPhase.Live : SlotPhase → Prop
  | .running .. | .replying .. => True
  | _ => False

/-- An end of a request that executed nothing: canceled, or answered with an error. -/
def SlotPhase.Refused : SlotPhase → Prop
  | .canceled => True
  | .answered reply => reply.status ≠ 0
  | _ => False

def SessionState.take (session : SessionState) (request : Compound) : SessionState :=
  { session with
    nextSequence := session.nextSequence.set request.slot ((request.sequence + 1) % 2 ^ 32)
    inFlight := session.inFlight.set request.slot (some request.sequence) }

inductive SlotStep (setup : SlotSetup) (world : SlotWorld) : SlotWorld → Prop
  | stay : SlotStep setup world world
  | arrive (i : ℕ) (phase : SlotPhase) : world.phase i = .start →
      (phase = .gated ∨ phase.Refused) →
      SlotStep setup world
        { world.setPhase i phase with received := world.received ++ [i] }
  | refuse (i : ℕ) (phase : SlotPhase) : (world.phase i).Waiting → phase.Refused →
      SlotStep setup world (world.setPhase i phase)
  | replay (i : ℕ) (session : SessionState) (cached : CachedReply) : (world.phase i) = .gated →
      world.sessions.get? (setup.requests i).session = some session →
      session.cached[(setup.requests i).slot]? = some (some cached) →
      cached.sequence = (setup.requests i).sequence →
      SlotStep setup world (world.setPhase i (.answered cached.body))
  | accept (i : ℕ) (session : SessionState) (results : List OpResult) : world.phase i = .gated →
      world.sessions.get? (setup.requests i).session = some session →
      session.nextSequence[(setup.requests i).slot]? = some (setup.requests i).sequence →
      SlotWorld.active session (setup.requests i).slot = none →
      SlotStep setup world
        { world.setPhase i (.running 0 results false session.maxCached) with
          sessions := world.sessions.insert (setup.requests i).session
            (session.take (setup.requests i))
          admissions := world.admissions ++ [setup.admission i] }
  | execute (i index : ℕ) (op : Op) (results results' : List OpResult) (mutated : Bool)
      (maxCached : ℕ) : world.phase i = .running index results mutated maxCached →
      (setup.requests i).ops[index]? = some op →
      SlotStep setup world
        { world.setPhase i (.running (index + 1) results' (mutated || op.mayMutate) maxCached) with
          log := world.log ++ [(setup.admission i, index)] }
  | finish (i index : ℕ) (results : List OpResult) (mutated : Bool) (maxCached : ℕ)
      (reply : Reply) (completed : Bool) :
      world.phase i = .running index results mutated maxCached →
      SlotStep setup world
        { world.setPhase i (.replying reply completed) with
          produced := update world.produced i (some reply) }
  | cache (i index : ℕ) (results : List OpResult) (mutated : Bool) (maxCached : ℕ)
      (reply body : Reply) : world.phase i = .running index results mutated maxCached →
      (body = reply ∨ body.status ≠ 0) →
      SlotStep setup world
        { (world.storeReply setup i body).setPhase i (.replying reply true) with
          produced := update world.produced i (some reply) }
  | drop (i : ℕ) (reply : Reply) (completed : Bool) :
      world.phase i = .replying reply completed →
      SlotStep setup world ((world.dropSlot setup i completed).setPhase i (.answered reply))
  | cancel (i index : ℕ) (results : List OpResult) (mutated : Bool) (maxCached : ℕ) :
      world.phase i = .running index results mutated maxCached →
      SlotStep setup world
        { (world.dropSlot setup i false).setPhase i .canceled with
          log := world.log ++ [(setup.admission i, index)] }
  | create (id clientid slots maxOperations maxCached : ℕ) : id ∉ world.used →
      SlotStep setup world
        { world with
          used := world.used ++ [id]
          sessions := world.sessions.insert id
            (freshSession id clientid slots maxOperations maxCached) }
  | remove (id : ℕ) :
      SlotStep setup world { world with sessions := world.sessions.erase id }

namespace SlotWorld

variable {setup : SlotSetup} {world : SlotWorld} {i : ℕ}

theorem refuse_step {code : ℕ} (results : List OpResult) (hw : (world.phase i).Waiting)
    (hc : code ≠ 0) : SlotStep setup world (world.refuse setup i code results) :=
  .refuse i _ hw hc

theorem admit_step (hp : world.phase i = .gated) : SlotStep setup world (world.accept setup i) := by
  have hw : (world.phase i).Waiting := by rw [hp]; exact trivial
  unfold accept
  dsimp only
  split
  · exact refuse_step [] hw (by decide)
  · rename_i session hs
    split
    · exact refuse_step [] hw (by decide)
    · rename_i expected he
      split
      · refine refuse_step [] hw ?_
        split <;> decide
      · rename_i ha
        split_ifs with hseq hh hm
        · exact refuse_step [] hw (by decide)
        · exact refuse_step [] hw (by decide)
        · subst hseq
          exact .accept i session _ hp hs he ha
        · split
          · rename_i cached hcached
            obtain ⟨hjoin, hsame⟩ := filter_eq_some_iff.1 hcached
            split_ifs with hcred
            · exact refuse_step _ hw (by decide)
            · exact .replay i session cached hp hs (join_eq_some_iff.1 hjoin)
                (by simpa using hsame)
          · exact refuse_step [] hw (by decide)

variable {maxCached : ℕ} {results : List OpResult}

theorem cachedBody_eq_some {reply body : Reply}
    (h : cachedBody setup i results maxCached reply = some body) :
    body = reply ∨ body.status ≠ 0 := by
  unfold cachedBody at h
  dsimp only at h
  split at h
  · exact .inl (some.inj h).symm
  · split at h
    · split at h
      · split at h
        · cases h
          exact .inr (show errRetryUncachedRep ≠ 0 by decide)
        · cases h
      · cases h
    · cases h

theorem finish_step {index : ℕ} {mutated : Bool}
    (hp : world.phase i = .running index results mutated maxCached) :
    SlotStep setup world (world.finish setup i results mutated maxCached) := by
  unfold finish
  dsimp only
  split
  · rename_i body hbody
    exact .cache i index results mutated maxCached _ body hp (cachedBody_eq_some hbody)
  · exact .finish i index results mutated maxCached _ _ hp

theorem step_step (i : ℕ) : SlotStep setup world (world.step setup i) := by
  unfold step
  dsimp only
  split
  · rename_i hp
    split
    · rename_i code hcode
      refine .arrive i _ hp (.inr ?_)
      obtain ⟨-, hbind⟩ := ite_none_left_eq_some.1 hcode
      obtain ⟨_, -, hmap⟩ := bind_eq_some_iff.1 hbind
      obtain ⟨_, -, rfl⟩ := map_eq_some_iff.1 hmap
      simp only [SlotPhase.Refused]
      split <;> decide
    · exact .arrive i _ hp (.inl rfl)
  · rename_i hp
    split_ifs
    · exact refuse_step [] (by rw [hp]; exact trivial) (by decide)
    · exact admit_step hp
  · rename_i index results mutated maxCached hp
    split
    · rename_i op hop
      split_ifs
      · exact .execute i index op _ _ _ _ hp hop
      · exact finish_step hp
    · exact finish_step hp
  · rename_i reply completed hp
    exact .drop i reply completed hp
  · exact .stay
  · exact .stay

theorem cancel_step (i : ℕ) : SlotStep setup world (world.cancel setup i) := by
  unfold cancel
  split
  · rename_i hp
    exact .refuse i _ (by rw [hp]; exact trivial) trivial
  · rename_i hp
    exact .refuse i _ (by rw [hp]; exact trivial) trivial
  · rename_i index results mutated maxCached hp
    split_ifs
    · exact .cancel i index results mutated maxCached hp
    · exact .stay
  · exact .stay
  · exact .stay
  · exact .stay

theorem apply_step (move : SlotMove) : SlotStep setup world (world.apply setup move) := by
  cases move with
  | run i => exact step_step i
  | cancel i => exact cancel_step i
  | createSession id clientid slots maxOperations maxCached =>
    simp only [apply]
    split_ifs with hid
    · exact .stay
    · exact .create id clientid slots maxOperations maxCached hid
  | removeSession id => exact .remove id

end SlotWorld

/-! ## Sessions of the server -/

/-- The slots of a server's session table, where every id that was used comes from a counter that
CREATE_SESSION has passed. -/
structure Issued (server : Server) (state : V4State) (world : SlotWorld) : Prop where
  sessions : world.sessions = state.sessions
  used : ∀ id ∈ world.used, ∃ counter < state.nextSession,
    id = sessionId state.seed server.verifierTag counter

theorem sessionId_injective (seed verifierTag : ℕ) : Injective (sessionId seed verifierTag) := by
  intro counter counter' h
  exact Nat.add_left_cancel h

/-- Until its counter ends, CREATE_SESSION leaves the session table or is the move with a new
id. -/
theorem createSession_move {server : Server} {state : V4State} {world : SlotWorld}
    (setup : SlotSetup) (h : Issued server state world) (hnext : state.nextSession < u64Max)
    (clientid sequence : ℕ) (fore back : ChannelAttrs) (now : ℕ) :
    let id := sessionId state.seed server.verifierTag state.nextSession
    ∃ next, (next = world ∨ id ∉ world.used ∧ ∃ slots maxOperations maxCached,
        next = world.apply setup (.createSession id clientid slots maxOperations maxCached)) ∧
      Issued server (state.createSession server clientid sequence fore back now).2 next := by
  intro id
  have hnew : id ∉ world.used := by
    intro hused
    obtain ⟨counter, hlt, heq⟩ := h.used id hused
    exact hlt.ne (sessionId_injective _ _ heq).symm
  unfold V4State.createSession
  split
  · exact ⟨world, .inl rfl, h⟩
  split
  · exact ⟨world, .inl rfl, h⟩
  split_ifs
  · exact ⟨world, .inl rfl, h⟩
  · exact ⟨world, .inl rfl, h.sessions, h.used⟩
  · exact ⟨world, .inl rfl, h.sessions, h.used⟩
  · refine ⟨_, .inr ⟨hnew,
      V4State.clamp fore.maxRequests 1
        (V4State.clamp server.maxForeSlots 1 V4State.defaultMaxSlots),
      V4State.clamp fore.maxOperations 1
        (V4State.clamp server.maxOperations 1 V4State.maxCompoundOps),
      min fore.maxResponseSizeCached (min server.maxCachedResponseSize u32Max), rfl⟩, ?_, ?_⟩
    · simp only [SlotWorld.apply, if_neg hnew, h.sessions]
      rfl
    · have hcounter : saturatingNext state.nextSession = state.nextSession + 1 := by
        unfold saturatingNext
        omega
      simp only [SlotWorld.apply, if_neg hnew, hcounter, mem_append, mem_singleton]
      rintro other (hold | rfl)
      · obtain ⟨counter, hlt, heq⟩ := h.used other hold
        exact ⟨counter, by omega, heq⟩
      · exact ⟨state.nextSession, by omega, rfl⟩

end MountRs.Nfs
