import MountRs.Model.Nfs.Operations
import MountRs.Verification.Nfs.Locks

/-! # Referential integrity of the tables

Every open and lock belongs to a client, every lock to a live open of the client and
file, and the pins are those of the opens. -/

namespace MountRs.Nfs

open V4State BTreeMap Function Option

/-! ### Pins -/

/-- How many opens keep the handle pinned. -/
def pinCount (opens : BTreeMap ℕ OpenState) (handle : ℕ) : ℕ :=
  opens.entries.countP fun entry => entry.2.handleId == handle

variable {opens : BTreeMap ℕ OpenState} {key : ℕ}

theorem pinCount_insert_new (h : opens.get? key = none) (opened : OpenState) (handle : ℕ) :
    pinCount (opens.insert key opened) handle =
      pinCount opens handle + if opened.handleId = handle then 1 else 0 := by
  unfold pinCount
  rw [(entries_insert_perm h opened).countP_eq, List.countP_cons]
  simp only [beq_iff_eq]

variable {opened : OpenState}

theorem pinCount_erase (h : opens.get? key = some opened) (handle : ℕ) : pinCount opens handle =
      pinCount (opens.erase key) handle + if opened.handleId = handle then 1 else 0 := by
  unfold pinCount
  rw [(entries_erase_perm h).countP_eq, List.countP_cons]
  simp only [beq_iff_eq]

variable {old new : OpenState}

theorem pinCount_replace (h : opens.get? key = some old) (hsame : new.handleId = old.handleId)
    (handle : ℕ) :
    pinCount (opens.insert key new) handle = pinCount opens handle := by
  have herase : (opens.insert key new) = (opens.erase key).insert key new := by
    apply ext_get?
    intro other
    rw [get?_insert, get?_insert, get?_erase]
    split_ifs <;> rfl
  rw [herase, pinCount_insert_new (get?_erase_self opens key), hsame, ← pinCount_erase h]

theorem pinCount_retain (opens : BTreeMap ℕ OpenState) (clientid handle : ℕ) :
    pinCount (opens.retain fun _ opened => opened.clientid != clientid) handle =
      pinCount opens handle - (opens.values.filter fun opened =>
        opened.clientid == clientid && opened.handleId == handle).length := by
  obtain ⟨entries, hsorted⟩ := opens
  simp only [pinCount, retain, values]
  clear hsorted
  have hsplit : entries.countP (fun entry => entry.2.handleId == handle) =
      (entries.filter fun entry => entry.2.clientid != clientid).countP
        (fun entry => entry.2.handleId == handle) +
      ((entries.map Prod.snd).filter fun opened =>
        opened.clientid == clientid && opened.handleId == handle).length := by
    induction entries with
    | nil => rfl
    | cons entry rest ih =>
      by_cases hclient : entry.2.clientid = clientid
      · by_cases hhandle : entry.2.handleId = handle
        · simp [hclient, hhandle, ih]
          omega
        · simp [hclient, hhandle, ih]
      · by_cases hhandle : entry.2.handleId = handle
        · simp [hclient, hhandle, ih]
          omega
        · simp [hclient, hhandle, ih]
  omega

/-! ### The invariant -/

/-- What holds in every state. Opens and locks sit under stateids allocated before, a
lock names a live open of its client and file, and the pins are those of the opens. -/
structure Linked (state : V4State) : Prop where
  openKeyed : ∀ key opened, state.opens.get? key = some opened → opened.stateid.other = key
  lockKeyed : ∀ key lock, state.locks.get? key = some lock → lock.stateid.other = key
  openIssued : ∀ key opened, state.opens.get? key = some opened →
    key < state.seed * 2 ^ 64 + state.nextStateid
  lockOpen : ∀ key lock, state.locks.get? key = some lock →
    ∃ opened, state.opens.get? lock.openOther = some opened ∧
      opened.clientid = lock.clientid ∧ opened.fileId = lock.fileId
  pinned : ∀ handle, state.pins handle = pinCount state.opens handle

/-- Every session, open and lock belongs to a client of the client table. -/
structure Owned (state : V4State) : Prop where
  session : ∀ session ∈ state.sessions.values, session.clientid ∈ state.clients.keys
  opens : ∀ opened ∈ state.opens.values, opened.clientid ∈ state.clients.keys
  lock : ∀ lock ∈ state.locks.values, lock.clientid ∈ state.clients.keys

def Sound (state : V4State) : Prop := Linked state ∧ Owned state

theorem sound_start (seed : ℕ) : Sound (start seed) := by
  constructor <;> constructor <;> simp [start, pinCount]

variable {state after : V4State}

theorem Linked.of_same (h : Linked state) (hopens : after.opens = state.opens)
    (hlocks : after.locks = state.locks) (hpins : after.pins = state.pins)
    (hseed : after.seed = state.seed) (hnext : after.nextStateid = state.nextStateid) :
    Linked after := by
  constructor
  · rw [hopens]
    exact h.openKeyed
  · rw [hlocks]
    exact h.lockKeyed
  · rw [hopens, hseed, hnext]
    exact h.openIssued
  · rw [hlocks, hopens]
    exact h.lockOpen
  · rw [hpins, hopens]
    exact h.pinned

/-! ### Clients and sessions -/

theorem exchangeId_cases (state : V4State) (owner verifier : String) (flags stateProtect now : ℕ) :
    (state.exchangeId owner verifier flags stateProtect now).2 = state ∨
      ∃ id client, (state.exchangeId owner verifier flags stateProtect now).2 =
        { state with
          nextClientid := saturatingNext state.nextClientid
          owners := state.owners.insert owner id
          clients := (match state.replaced owner verifier flags stateProtect with
            | some previous => state.clients.erase previous
            | none => state.clients).insert id client } := by
  by_cases hrefused : flags ||| exchgidArgMask ≠ exchgidArgMask ∨ stateProtect ≠ 0 ∨ owner = ""
  · left
    unfold exchangeId
    split_ifs with hflags hprotect hempty
    · rfl
    · rfl
    · rfl
    · tauto
  · obtain ⟨hflags, hprotect, hempty⟩ := not_or.mp hrefused |>.imp_right not_or.mp
    have hreplaced : state.replaced owner verifier flags stateProtect =
        (state.owners.get? owner).filter fun previous =>
          (state.clients.get? previous).all fun client => client.verifier != verifier :=
      if_neg hrefused
    rw [hreplaced]
    unfold exchangeId
    rw [if_neg hflags, if_neg hprotect, if_neg hempty]
    split
    · exact .inl rfl
    · next hunknown =>
        right
        cases hprevious : state.owners.get? owner with
        | none => exact ⟨_, _, rfl⟩
        | some previous =>
          -- The owner is known, so its client has another verifier or is gone.
          have hall : (state.clients.get? previous).all
              (fun client => client.verifier != verifier) = true := by
            cases hclient : state.clients.get? previous with
            | none => rfl
            | some =>
              simp only [hprevious, bind_some, hclient, ite_eq_right_iff] at hunknown
              simp only [all_some, bne_iff_ne]
              intro hsame
              cases hunknown hsame
          rw [filter_some, if_pos hall]
          exact ⟨_, _, rfl⟩

theorem sound_exchangeId (h : Sound state) {owner verifier : String} {flags stateProtect now : ℕ}
    (hunused : ∀ previous, state.replaced owner verifier flags stateProtect = some previous →
      state.Unused previous) :
    Sound (state.exchangeId owner verifier flags stateProtect now).2 := by
  rcases exchangeId_cases state owner verifier flags stateProtect now with hsame | ⟨_, _, hnew⟩
  · rw [hsame]
    exact h
  · rw [hnew]
    have hkept : ∀ clientid ∈ state.clients.keys,
        (∀ previous, state.replaced owner verifier flags stateProtect = some previous →
          clientid ≠ previous) →
        ∀ id client, clientid ∈ ((match state.replaced owner verifier flags stateProtect with
          | some previous => state.clients.erase previous
          | none => state.clients).insert id client).keys := by
      intro clientid hclient hother id client
      rw [mem_keys_insert]
      right
      cases hreplaced : state.replaced owner verifier flags stateProtect with
      | none => exact hclient
      | some previous => exact mem_keys_erase.mpr ⟨hother previous hreplaced, hclient⟩
    refine ⟨h.1.of_same rfl rfl rfl rfl rfl, ?_, ?_, ?_⟩
    · intro session hsession
      exact hkept _ (h.2.session session hsession)
        (fun previous hp => (hunused previous hp).1 session hsession) _ _
    · intro opened hopened
      exact hkept _ (h.2.opens opened hopened)
        (fun previous hp => (hunused previous hp).2.1 opened hopened) _ _
    · intro lock hlock
      exact hkept _ (h.2.lock lock hlock)
        (fun previous hp => (hunused previous hp).2.2 lock hlock) _ _

theorem mem_values_insert {β : Type*} {m : BTreeMap ℕ β} {new value : β}
    (h : value ∈ (m.insert key new).values) : value = new ∨ value ∈ m.values := by
  obtain ⟨other, hother⟩ := mem_values_iff.mp h
  rcases get?_insert_eq_some hother with ⟨-, rfl⟩ | ⟨-, hold⟩
  · exact .inl rfl
  · exact .inr (mem_values_iff.mpr ⟨other, hold⟩)

theorem mem_values_erase {β : Type*} {m : BTreeMap ℕ β} {value : β}
    (h : value ∈ (m.erase key).values) : value ∈ m.values := by
  obtain ⟨other, hother⟩ := mem_values_iff.mp h
  rw [get?_erase] at hother
  split_ifs at hother
  exact mem_values_iff.mpr ⟨other, hother⟩

theorem createSession_cases (server : Server) (state : V4State) (clientid sequence : ℕ)
    (fore back : ChannelAttrs) (now : ℕ) :
    (state.createSession server clientid sequence fore back now).2 = state ∨
      ∃ client next sessions, clientid ∈ state.clients.keys ∧ (∀ session ∈ values sessions,
          session ∈ state.sessions.values ∨ session.clientid = clientid) ∧
        (state.createSession server clientid sequence fore back now).2 =
          { state with
            nextSession := next
            sessions
            clients := state.clients.insert clientid client } := by
  unfold createSession
  split
  · exact .inl rfl
  · next client hclient =>
      have hmem : clientid ∈ state.clients.keys := mem_keys_iff.mpr ⟨client, hclient⟩
      split
      · exact .inl rfl
      · split_ifs
        · exact .inl rfl
        · exact .inr ⟨_, _, _, hmem, fun session hsession => .inl hsession, rfl⟩
        · exact .inr ⟨_, _, _, hmem, fun session hsession => .inl hsession, rfl⟩
        · refine .inr ⟨_, _, _, hmem, fun session hsession => ?_, rfl⟩
          exact (mem_values_insert hsession).symm.imp_right fun hnew => by rw [hnew]

theorem sound_createSession (h : Sound state) (server : Server) (clientid sequence : ℕ)
    (fore back : ChannelAttrs) (now : ℕ) :
    Sound (state.createSession server clientid sequence fore back now).2 := by
  rcases createSession_cases server state clientid sequence fore back now with
    hsame | ⟨_, _, _, hclient, hsessions, hnew⟩
  · rw [hsame]
    exact h
  · rw [hnew]
    refine ⟨h.1.of_same rfl rfl rfl rfl rfl, ?_, ?_, ?_⟩
    · intro session hsession
      apply mem_keys_insert.mpr
      rcases hsessions session hsession with hold | hown
      · exact .inr (h.2.session session hold)
      · exact .inl hown
    · intro opened hopened
      exact mem_keys_insert.mpr (.inr (h.2.opens opened hopened))
    · intro lock hlock
      exact mem_keys_insert.mpr (.inr (h.2.lock lock hlock))

theorem sound_destroySession (h : Sound state) (id : ℕ) : Sound (state.destroySession id).2 := by
  unfold destroySession
  split_ifs
  · exact ⟨h.1.of_same rfl rfl rfl rfl rfl,
      fun session hsession => h.2.session session (mem_values_erase hsession), h.2.opens, h.2.lock⟩
  · exact h

variable {clientid : ℕ}

theorem sound_destroyClientid (h : Sound state)
    (hopens : ∀ opened ∈ state.opens.values, opened.clientid = clientid →
      state.sessions.values.any (fun session => session.clientid == clientid) ∨
        state.locks.values.any (fun lock => lock.clientid == clientid)) :
    Sound (state.destroyClientid clientid).2 := by
  unfold destroyClientid
  split_ifs with hbusy
  · exact h
  · split
    · have hidle := hbusy
      simp only [List.any_eq_true, beq_iff_eq, not_or, not_exists, not_and] at hidle
      refine ⟨h.1.of_same rfl rfl rfl rfl rfl, ?_, ?_, ?_⟩
      · intro session hsession
        exact mem_keys_erase.mpr ⟨hidle.1 session hsession, h.2.session session hsession⟩
      · intro opened hopened
        refine mem_keys_erase.mpr ⟨fun hsame => ?_, h.2.opens opened hopened⟩
        exact hbusy (hopens opened hopened hsame)
      · intro lock hlock
        exact mem_keys_erase.mpr ⟨hidle.2 lock hlock, h.2.lock lock hlock⟩
    · exact h

/-! ### Expiry -/

theorem linked_expireClient (h : Linked state) (clientid : ℕ) :
    Linked (state.expireClient clientid) := by
  unfold expireClient
  split_ifs
  · constructor
    · intro key opened hopened
      exact h.openKeyed key opened (get?_retain_eq_some.mp hopened).1
    · intro key lock hlock
      exact h.lockKeyed key lock (get?_retain_eq_some.mp hlock).1
    · intro key opened hopened
      exact h.openIssued key opened (get?_retain_eq_some.mp hopened).1
    · intro key lock hlock
      obtain ⟨hlock, hother⟩ := get?_retain_eq_some.mp hlock
      obtain ⟨opened, hopened, hclient, hfile⟩ := h.lockOpen key lock hlock
      refine ⟨opened, get?_retain_eq_some.mpr ⟨hopened, ?_⟩, hclient, hfile⟩
      rw [hclient]
      exact hother
    · intro handle
      show state.pins handle - _ = _
      rw [h.pinned handle, pinCount_retain]
  · exact h

theorem mem_values_retain {β : Type*} {m : BTreeMap ℕ β} {p : ℕ → β → Bool} {value : β}
    (h : value ∈ (m.retain p).values) : value ∈ m.values ∧ ∃ key, p key value = true := by
  obtain ⟨key, hkey⟩ := mem_values_iff.mp h
  obtain ⟨hget, hp⟩ := get?_retain_eq_some.mp hkey
  exact ⟨mem_values_iff.mpr ⟨key, hget⟩, key, hp⟩

theorem owned_expireClient (h : Owned state) (clientid : ℕ) :
    Owned (state.expireClient clientid) := by
  unfold expireClient
  split_ifs
  · constructor
    · intro session hsession
      obtain ⟨hmem, _, hother⟩ := mem_values_retain hsession
      exact mem_keys_erase.mpr ⟨by simpa using hother, h.session session hmem⟩
    · intro opened hopened
      obtain ⟨hmem, _, hother⟩ := mem_values_retain hopened
      exact mem_keys_erase.mpr ⟨by simpa using hother, h.opens opened hmem⟩
    · intro lock hlock
      obtain ⟨hmem, _, hother⟩ := mem_values_retain hlock
      exact mem_keys_erase.mpr ⟨by simpa using hother, h.lock lock hmem⟩
  · exact h

theorem sound_expire (h : Sound state) (server : Server) (now : ℕ) :
    Sound (state.expireExpiredClients server now) := by
  unfold expireExpiredClients
  generalize (List.map Prod.fst _) = expired
  induction expired generalizing state with
  | nil => exact h
  | cons clientid rest ih =>
    exact ih ⟨linked_expireClient h.1 clientid, owned_expireClient h.2 clientid⟩

/-! ### Opens -/

@[simp] theorem unpin_pin (state : V4State) (id : ℕ) : (state.pin id).unpin id = state := by
  have hpins : update (update state.pins id (state.pins id + 1)) id
      (update state.pins id (state.pins id + 1) id - 1) = state.pins := by
    simp
  simp only [pin, unpin, hpins]

theorem Linked.replaceOpen (h : Linked state) (hold : state.opens.get? key = some old)
    (hother : new.stateid.other = old.stateid.other) (hclient : new.clientid = old.clientid)
    (hfile : new.fileId = old.fileId) (hhandle : new.handleId = old.handleId) :
    Linked { state with opens := state.opens.insert key new } := by
  constructor
  · intro place opened hopened
    rcases get?_insert_eq_some hopened with ⟨hsame, rfl⟩ | ⟨-, hopened⟩
    · rw [hother, hsame]
      exact h.openKeyed key old hold
    · exact h.openKeyed place opened hopened
  · exact h.lockKeyed
  · intro place opened hopened
    rw [get?_insert] at hopened
    split_ifs at hopened with hsame
    · rw [hsame]
      exact h.openIssued key old hold
    · exact h.openIssued place opened hopened
  · intro place lock hlock
    obtain ⟨opened, hopened, hc, hf⟩ := h.lockOpen place lock hlock
    by_cases hsame : lock.openOther = key
    · rw [hsame, hold] at hopened
      cases hopened
      rw [hsame]
      exact ⟨new, get?_insert_self _ _ _, hclient.trans hc, hfile.trans hf⟩
    · exact ⟨opened, (get?_insert_of_ne _ _ hsame).trans hopened, hc, hf⟩
  · intro handle
    show state.pins handle = _
    rw [h.pinned handle, pinCount_replace hold hhandle]

theorem Owned.replaceOpen (h : Owned state) (hold : state.opens.get? key = some old)
    (hclient : new.clientid = old.clientid) :
    Owned { state with opens := state.opens.insert key new } := by
  refine ⟨h.session, fun opened hopened => ?_, h.lock⟩
  rcases mem_values_insert hopened with rfl | hopened
  · rw [hclient]
    exact h.opens old (mem_values_iff.mpr ⟨key, hold⟩)
  · exact h.opens opened hopened

variable {args : OpenArgs}

theorem ownOpen_eq_some {fileid : ℕ} (h : state.ownOpen fileid clientid args = some (key, opened)) :
    state.opens.get? key = some opened :=
  get?_eq_some_iff.mpr (List.mem_of_find?_eq_some h)

theorem placeOpen_cases (server : Server) (state : V4State) (entry : Entry)
    (clientid access : ℕ) (args : OpenArgs) :
    ((state.pin entry.id).placeOpen server entry clientid access args).2 = state ∨
      (∃ key opened, state.opens.get? key = some opened ∧
        ((state.pin entry.id).placeOpen server entry clientid access args).2 =
          { state with opens := state.opens.insert key (upgraded opened access args) }) ∨
      ((state.pin entry.id).placeOpen server entry clientid access args).2 =
        { state.pin entry.id with
          nextStateid := state.nextStateid + 1
          opens := state.opens.insert (serverStateid 1 state.seed state.nextStateid).other
            (newOpen (serverStateid 1 state.seed state.nextStateid) entry clientid access args) } := by
  unfold placeOpen
  split
  · next key opened hown =>
      refine .inr (.inl ⟨key, opened, ownOpen_eq_some hown, ?_⟩)
      rw [unpin_pin]
      rfl
  · split_ifs
    · exact .inl (unpin_pin state entry.id)
    · unfold allocateStateid
      split_ifs
      · exact .inl (unpin_pin state entry.id)
      · exact .inr (.inr rfl)

theorem Linked.addOpen (h : Linked state) (entry : Entry) (clientid access : ℕ) (args : OpenArgs) :
    Linked { state.pin entry.id with
      nextStateid := state.nextStateid + 1
      opens := state.opens.insert (serverStateid 1 state.seed state.nextStateid).other
        (newOpen (serverStateid 1 state.seed state.nextStateid) entry clientid access args) } := by
  have hfresh : state.opens.get? (serverStateid 1 state.seed state.nextStateid).other = none := by
    rw [eq_none_iff_forall_ne_some]
    intro opened hopened
    have hbelow := h.openIssued _ opened hopened
    simp only [serverStateid] at hbelow
    omega
  constructor
  · intro key opened hopened
    rcases get?_insert_eq_some hopened with ⟨hsame, rfl⟩ | ⟨-, hopened⟩
    · exact hsame.symm
    · exact h.openKeyed key opened hopened
  · exact h.lockKeyed
  · intro key opened hopened
    simp only [get?_insert] at hopened
    show key < state.seed * 2 ^ 64 + (state.nextStateid + 1)
    split_ifs at hopened with hsame
    · rw [hsame]
      simp only [serverStateid]
      omega
    · have hbelow := h.openIssued key opened hopened
      omega
  · intro key lock hlock
    obtain ⟨opened, hopened, hrest⟩ := h.lockOpen key lock hlock
    refine ⟨opened, ?_, hrest⟩
    rw [get?_insert_of_ne]
    · exact hopened
    · intro hsame
      rw [hsame, hfresh] at hopened
      cases hopened
  · intro handle
    rw [pinCount_insert_new hfresh]
    show update state.pins entry.id _ handle = _ + if entry.id = handle then _ else _
    by_cases hsame : handle = entry.id
    · subst hsame
      simp [h.pinned]
    · simp [update_of_ne hsame, h.pinned, Ne.symm hsame]

theorem admitOpen_ok {server : Server} {cursor : Cursor} {access : ℕ}
    (h : state.admitOpen server args cursor = .ok (access, clientid)) :
    clientid ∈ state.clients.keys := by
  unfold admitOpen at h
  split at h
  · cases h
  · split_ifs at h
    split at h
    · cases h
    · next found _ =>
        split at h
        · cases h
        · next client hclient =>
            split_ifs at h
            cases h
            exact mem_keys_iff.mpr ⟨client, hclient⟩

theorem sound_openFile (h : Sound state) (server : Server) (args : OpenArgs) (cursor : Cursor)
    (file : Except Status Entry) :
    Sound (state.openFile server args cursor file).2 := by
  unfold openFile
  split
  · exact h
  · next access clientid hadmit =>
      split
      · exact h
      · next entry =>
          split_ifs
          · rw [unpin_pin]
            exact h
          · rcases placeOpen_cases server state entry clientid access args with
              hsame | ⟨key, opened, hopened, hnew⟩ | hnew
            · rw [hsame]
              exact h
            · rw [hnew]
              exact ⟨h.1.replaceOpen hopened rfl rfl rfl rfl, h.2.replaceOpen hopened rfl⟩
            · rw [hnew]
              refine ⟨h.1.addOpen entry clientid access args, h.2.session, fun opened hopened => ?_,
                h.2.lock⟩
              rcases mem_values_insert hopened with rfl | hopened
              · exact admitOpen_ok hadmit
              · exact h.2.opens opened hopened

theorem openDowngrade_cases (state : V4State) (stateid : Stateid) (shareAccess shareDeny : ℕ)
    (cursor : Cursor) :
    (state.openDowngrade stateid shareAccess shareDeny cursor).2 = state ∨
      ∃ opened access seqid, state.opens.get? stateid.other = some opened ∧
        (state.openDowngrade stateid shareAccess shareDeny cursor).2 =
          { state with
            opens := state.opens.insert stateid.other
              { opened with
                access
                deny := shareDeny
                stateid := { opened.stateid with seqid } } } := by
  unfold openDowngrade
  split
  · exact .inl rfl
  · split_ifs
    · exact .inl rfl
    · split
      · exact .inl rfl
      · unfold narrowOpen
        split
        · exact .inl rfl
        · next opened hopened =>
            split_ifs
            · exact .inl rfl
            · exact .inr ⟨opened, _, _, hopened, rfl⟩

theorem sound_openDowngrade (h : Sound state) (stateid : Stateid) (shareAccess shareDeny : ℕ)
    (cursor : Cursor) :
    Sound (state.openDowngrade stateid shareAccess shareDeny cursor).2 := by
  rcases openDowngrade_cases state stateid shareAccess shareDeny cursor with
    hsame | ⟨opened, _, _, hopened, hnew⟩
  · rw [hsame]
    exact h
  · rw [hnew]
    exact ⟨h.1.replaceOpen hopened rfl rfl rfl rfl, h.2.replaceOpen hopened rfl⟩

/-- The last section of CLOSE leaves the state or removes one open with its lock states
and its pin. -/
theorem removeOpen_cases (state : V4State) (stateid : Stateid) :
    (state.removeOpen stateid).2 = state ∨ ∃ opened, state.opens.get? stateid.other = some opened ∧
        (state.removeOpen stateid).2 =
          { state.unpin opened.handleId with
            locks := state.locks.retain fun _ lock =>
              !(lock.clientid == opened.clientid && lock.fileId == opened.fileId &&
                lock.openOther == opened.stateid.other)
            opens := state.opens.erase stateid.other } := by
  unfold removeOpen
  split
  · exact .inl rfl
  · next opened hopened =>
      dsimp only
      split_ifs
      · exact .inl rfl
      · exact .inr ⟨opened, hopened, rfl⟩

theorem closeOpen_snd (state : V4State) (stateid : Stateid) (cursor : Cursor)
    (closing : Option Status) :
    (state.closeOpen stateid cursor closing).2 = state ∨
      (state.closeOpen stateid cursor closing).2 = (state.removeOpen stateid).2 := by
  unfold closeOpen
  split
  · exact .inl rfl
  · right
    split
    · next after _ hremove =>
        rw [hremove]
    · rfl

theorem closeOpen_cases (state : V4State) (stateid : Stateid) (cursor : Cursor)
    (closing : Option Status) :
    (state.closeOpen stateid cursor closing).2 = state ∨
      ∃ opened, state.opens.get? stateid.other = some opened ∧
        (state.closeOpen stateid cursor closing).2 =
          { state.unpin opened.handleId with
            locks := state.locks.retain fun _ lock =>
              !(lock.clientid == opened.clientid && lock.fileId == opened.fileId &&
                lock.openOther == opened.stateid.other)
            opens := state.opens.erase stateid.other } := by
  rcases closeOpen_snd state stateid cursor closing with hsame | hsame
  · exact .inl hsame
  · rw [hsame]
    exact removeOpen_cases state stateid

theorem sound_closeOpen (h : Sound state) (stateid : Stateid) (cursor : Cursor)
    (closing : Option Status) :
    Sound (state.closeOpen stateid cursor closing).2 := by
  rcases closeOpen_cases state stateid cursor closing with hsame | ⟨opened, hopened, hnew⟩
  · rw [hsame]
    exact h
  · rw [hnew]
    have hback : ∀ key found, (state.opens.erase stateid.other).get? key = some found →
        key ≠ stateid.other ∧ state.opens.get? key = some found := by
      intro key found hfound
      rw [get?_erase] at hfound
      split_ifs at hfound with hsame
      exact ⟨hsame, hfound⟩
    refine ⟨?_, h.2.session, fun found hfound => h.2.opens found (mem_values_erase hfound),
      fun lock hlock => h.2.lock lock (mem_values_retain hlock).1⟩
    constructor
    · exact fun key found hfound => h.1.openKeyed key found (hback key found hfound).2
    · intro key lock hlock
      exact h.1.lockKeyed key lock (get?_retain_eq_some.mp hlock).1
    · exact fun key found hfound => h.1.openIssued key found (hback key found hfound).2
    · intro key lock hlock
      obtain ⟨hlock, hkept⟩ := get?_retain_eq_some.mp hlock
      obtain ⟨found, hfound, hclient, hfile⟩ := h.1.lockOpen key lock hlock
      refine ⟨found, ?_, hclient, hfile⟩
      rw [get?_erase_of_ne]
      · exact hfound
      · -- A lock of the closed open would have been removed with it.
        intro hsame
        rw [hsame, hopened] at hfound
        cases hfound
        rw [hclient, hfile, h.1.openKeyed _ opened hopened, hsame] at hkept
        simp at hkept
    · intro handle
      have hcount := pinCount_erase hopened handle
      show update state.pins opened.handleId _ handle = _
      by_cases hsame : handle = opened.handleId
      · subst hsame
        rw [update_self, h.1.pinned, hcount]
        simp
      · rw [update_of_ne hsame, h.1.pinned, hcount]
        simp [Ne.symm hsame]

/-! ### Locks -/

/-- The parts of a lock state that lock requests leave alone. -/
def SameLock (lock old : LockState) : Prop :=
  lock.stateid.other = old.stateid.other ∧ lock.clientid = old.clientid ∧
    lock.fileId = old.fileId ∧ lock.openOther = old.openOther

variable {holder : LockHolder}

theorem sameLock_clearRange {locks : BTreeMap ℕ LockState} {offset length : ℕ} {lock : LockState}
    (h : (clearRange locks holder offset length).get? key = some lock) :
    ∃ old, locks.get? key = some old ∧ SameLock lock old := by
  rw [clearRange, get?_mapValues, map_eq_some_iff] at h
  obtain ⟨old, hold, rfl⟩ := h
  refine ⟨old, hold, ?_⟩
  split_ifs
  · exact ⟨rfl, rfl, rfl, rfl⟩
  · exact ⟨rfl, rfl, rfl, rfl⟩

/-- A lock request changes only lock states, and may allocate a stateid for a new one. -/
structure LockStep (state after : V4State) : Prop where
  clients : after.clients = state.clients
  sessions : after.sessions = state.sessions
  opens : after.opens = state.opens
  pins : after.pins = state.pins
  seed : after.seed = state.seed
  next : state.nextStateid ≤ after.nextStateid
  locks : ∀ key lock, after.locks.get? key = some lock →
    (∃ old, state.locks.get? key = some old ∧ SameLock lock old) ∨
      (lock.stateid.other = key ∧ lock.clientid ∈ state.clients.keys ∧
        ∃ place opened, state.opens.get? place = some opened ∧
          opened.stateid.other = lock.openOther ∧ opened.clientid = lock.clientid ∧
          opened.fileId = lock.fileId)

theorem LockStep.refl (state : V4State) : LockStep state state :=
  ⟨rfl, rfl, rfl, rfl, rfl, le_rfl, fun _ lock hlock => .inl ⟨lock, hlock, rfl, rfl, rfl, rfl⟩⟩

theorem lockStep_grantRange {openOther : ℕ} {target : Option ℕ} (range : LockRange)
    (hclient : holder.clientid ∈ state.clients.keys)
    (hopen : target = none → ∃ place opened, state.opens.get? place = some opened ∧
      opened.stateid.other = openOther ∧ opened.clientid = holder.clientid ∧
      opened.fileId = holder.fileId) :
    LockStep state (state.grantRange holder openOther target range).2 := by
  unfold grantRange
  cases target with
  | some key =>
    dsimp only
    split
    · refine ⟨rfl, rfl, rfl, rfl, rfl, le_rfl, fun place lock hlock => ?_⟩
      exact .inl (sameLock_clearRange hlock)
    · next found hfound =>
        refine ⟨rfl, rfl, rfl, rfl, rfl, le_rfl, fun place lock hlock => ?_⟩
        rcases get?_insert_eq_some hlock with ⟨hsame, rfl⟩ | ⟨-, hlock⟩
        · obtain ⟨old, hold, hkept⟩ := sameLock_clearRange hfound
          rw [hsame]
          exact .inl ⟨old, hold, hkept⟩
        · exact .inl (sameLock_clearRange hlock)
  | none =>
    unfold allocateStateid
    split_ifs
    · exact .refl state
    · refine ⟨rfl, rfl, rfl, rfl, rfl, Nat.le_succ _, fun place lock hlock => ?_⟩
      rcases get?_insert_eq_some hlock with ⟨hsame, rfl⟩ | ⟨-, hlock⟩
      · exact .inr ⟨hsame.symm, hclient, hopen rfl⟩
      · exact .inl (sameLock_clearRange hlock)

theorem lockStep_perform (h : Linked state) (server : Server) (request : LockRequest) :
    LockStep state (request.perform server state) := by
  cases request with
  | lock lockType reclaim offset length locker cursor file =>
    show LockStep state (state.lock server lockType reclaim offset length locker cursor file).2
    unfold lock
    split
    · exact .refl state
    · next access holder openOther target htarget =>
        obtain ⟨_, hclient, _, hopen⟩ := lockTarget_ok h.lockKeyed htarget
        split
        · exact .refl state
        · split_ifs
          · exact .refl state
          · exact lockStep_grantRange _ hclient hopen
  | lockt => exact .refl state
  | locku stateid offset length cursor file =>
    show LockStep state (state.locku stateid offset length cursor file).2
    unfold locku
    split
    · exact .refl state
    · next lock htarget =>
        obtain ⟨_, hlock⟩ := lockuTarget_ok htarget
        refine ⟨rfl, rfl, rfl, rfl, rfl, le_rfl, fun place found hfound => ?_⟩
        rcases get?_insert_eq_some hfound with ⟨hsame, rfl⟩ | ⟨-, hfound⟩
        · rw [hsame]
          exact .inl ⟨lock, hlock, rfl, rfl, rfl, rfl⟩
        · exact .inl ⟨found, hfound, rfl, rfl, rfl, rfl⟩

theorem LockStep.linked (hstep : LockStep state after) (h : Linked state) : Linked after := by
  constructor
  · rw [hstep.opens]
    exact h.openKeyed
  · intro key lock hlock
    rcases hstep.locks key lock hlock with ⟨old, hold, hother, _⟩ | ⟨hother, _⟩
    · rw [hother]
      exact h.lockKeyed key old hold
    · exact hother
  · intro key opened hopened
    rw [hstep.opens] at hopened
    have hbelow := h.openIssued key opened hopened
    have hnext := hstep.next
    rw [hstep.seed]
    omega
  · intro key lock hlock
    rw [hstep.opens]
    rcases hstep.locks key lock hlock with ⟨old, hold, _, hclient, hfile, hopen⟩ |
      ⟨_, _, place, opened, hopened, hother, hclient, hfile⟩
    · rw [hclient, hfile, hopen]
      exact h.lockOpen key old hold
    · refine ⟨opened, ?_, hclient, hfile⟩
      rw [← hother, h.openKeyed place opened hopened]
      exact hopened
  · rw [hstep.pins, hstep.opens]
    exact h.pinned

theorem LockStep.owned (hstep : LockStep state after) (h : Owned state) : Owned after := by
  constructor
  · rw [hstep.sessions, hstep.clients]
    exact h.session
  · rw [hstep.opens, hstep.clients]
    exact h.opens
  · intro lock hlock
    obtain ⟨key, hkey⟩ := mem_values_iff.mp hlock
    rw [hstep.clients]
    rcases hstep.locks key lock hkey with ⟨old, hold, _, hclient, _⟩ | ⟨_, hclient, _⟩
    · rw [hclient]
      exact h.lock old (mem_values_iff.mpr ⟨key, hold⟩)
    · exact hclient

/-! ### Runs -/

/-- The condition of an operation: EXCHANGE_ID replaces only the record of a client
without sessions, opens and locks, and a client that DESTROY_CLIENTID finds without
sessions and locks has no opens either. -/
def Orderly (state : V4State) : Operation → Prop
  | .exchangeId owner verifier flags stateProtect _ =>
    ∀ previous, state.replaced owner verifier flags stateProtect = some previous →
      state.Unused previous
  | .destroyClientid clientid =>
    ∀ opened ∈ state.opens.values, opened.clientid = clientid →
      state.sessions.values.any (fun session => session.clientid == clientid) ∨
        state.locks.values.any (fun lock => lock.clientid == clientid)
  | _ => True

theorem Sound.perform (h : Sound state) (server : Server) {operation : Operation}
    (horderly : Orderly state operation) : Sound (operation.perform server state) := by
  cases operation with
  | exchangeId => exact sound_exchangeId h horderly
  | createSession clientid sequence fore back now =>
    exact sound_createSession h server clientid sequence fore back now
  | destroySession id => exact sound_destroySession h id
  | destroyClientid => exact sound_destroyClientid h horderly
  | openFile args cursor file => exact sound_openFile h server args cursor file
  | openDowngrade stateid shareAccess shareDeny cursor =>
    exact sound_openDowngrade h stateid shareAccess shareDeny cursor
  | close stateid cursor closing => exact sound_closeOpen h stateid cursor closing
  | lock request =>
    have hstep := lockStep_perform h.1 server request
    exact ⟨hstep.linked h.1, hstep.owned h.2⟩
  | expire now => exact sound_expire h server now

/-- The states reached from the start by operations that meet the condition. -/
inductive OrderlyRun (server : Server) (seed : ℕ) : V4State → Prop
  | start : OrderlyRun server seed (V4State.start seed)
  | step {state : V4State} {operation : Operation} : OrderlyRun server seed state →
      Orderly state operation → OrderlyRun server seed (operation.perform server state)

/-- In every run whose operations meet the condition, every session, open and lock
belongs to a client of the client table, every lock state names a live open of the
same client and file, and a handle has as many pins as opens. -/
theorem tables_refer_to_clients {server : Server} {seed : ℕ} {state : V4State}
    (h : OrderlyRun server seed state) :
    (∀ session ∈ state.sessions.values, session.clientid ∈ state.clients.keys) ∧
    (∀ opened ∈ state.opens.values, opened.clientid ∈ state.clients.keys) ∧
    (∀ lock ∈ state.locks.values, lock.clientid ∈ state.clients.keys ∧
      ∃ opened, state.opens.get? lock.openOther = some opened ∧
        opened.clientid = lock.clientid ∧ opened.fileId = lock.fileId) ∧
    ∀ handle, state.pins handle = pinCount state.opens handle := by
  have hsound : Sound state := by
    induction h with
    | start => exact sound_start seed
    | step _ horderly ih => exact ih.perform server horderly
  obtain ⟨hlinked, howned⟩ := hsound
  refine ⟨howned.session, howned.opens, fun lock hlock => ⟨howned.lock lock hlock, ?_⟩,
    hlinked.pinned⟩
  obtain ⟨key, hkey⟩ := mem_values_iff.mp hlock
  exact hlinked.lockOpen key lock hkey

def performAll (server : Server) (state : V4State) (operations : List Operation) : V4State :=
  operations.foldl (fun state operation => operation.perform server state) state

/-- Requests of one client: it registers, opens file 7 and locks its first byte. -/
def sampleOperations : List Operation :=
  [.exchangeId "c" "v" 0 0 0,
    .openFile ⟨3, 0, "o"⟩ { clientid := some 1, current := none } (.ok ⟨3, 7⟩),
    .lock (sampleLock "a" 0 1)]

/-- The client registers again with another verifier: its record is replaced, and the
open, its pin and the lock stay without a client. A lease expiry long after does not
remove them. -/
theorem restart_orphans_state :
    let state := performAll sampleServer (V4State.start 0)
      (sampleOperations ++ [.exchangeId "c" "w" 0 0 0, .expire 1000000])
    state.clients.keys = [] ∧
      (∃ opened ∈ state.opens.values, opened.clientid ∉ state.clients.keys) ∧
      (∃ lock ∈ state.locks.values, lock.clientid ∉ state.clients.keys) ∧
      state.pins 3 = 1 := by
  decide +kernel

theorem tables_refer_to_clients_locked :
    let state := performAll sampleServer (V4State.start 0) sampleOperations
    OrderlyRun sampleServer 0 state ∧ state.locks.keys = [2] ∧
      ∀ lock ∈ state.locks.values, lock.clientid ∈ state.clients.keys := by
  have hregister : Orderly (V4State.start 0) (.exchangeId "c" "v" 0 0 0) := by
    intro previous hprevious
    simp [V4State.replaced, V4State.start] at hprevious
  have hregistered : OrderlyRun sampleServer 0
      (performAll sampleServer (V4State.start 0) [.exchangeId "c" "v" 0 0 0]) :=
    .step .start hregister
  have hrun : OrderlyRun sampleServer 0
      (performAll sampleServer (V4State.start 0) sampleOperations) :=
    @OrderlyRun.step _ _ _ (.lock (sampleLock "a" 0 1))
      (@OrderlyRun.step _ _ _ (.openFile ⟨3, 0, "o"⟩ { clientid := some 1, current := none }
        (.ok ⟨3, 7⟩)) hregistered trivial) trivial
  refine ⟨hrun, by decide +kernel, fun lock hlock => ?_⟩
  exact ((tables_refer_to_clients hrun).2.2.1 lock hlock).1

end MountRs.Nfs
