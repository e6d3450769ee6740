import MountRs.Verification.Delegation.Runs

/-! # Retired tokens stay fenced

A receipt of a retired token is never removed, and no active grant shares a
fence or an identity with a receipt. -/

namespace MountRs.DelegationState

open List

/-! ## One state with a receipt -/

section Receipt

variable {state : DelegationState} {ns : Namespace} {token : GrantToken} {root : InodeId}
  {grant : DirectoryGrant}

theorem token_mem_values (hheld : state.grants.get? root = some grant) :
    grant.token ∈ state.grants.values.map DirectoryGrant.token :=
  mem_map.mpr ⟨grant, BTreeMap.mem_values_iff.mpr ⟨root, hheld⟩, rfl⟩

theorem fence_ne_of_retired (h : Authority state ns) (hretired : token ∈ state.retired)
    (hheld : state.grants.get? root = some grant) : grant.token.fence ≠ token.fence := by
  have hnodup := h.fences_nodup
  rw [tokens, map_append, nodup_append] at hnodup
  exact (hnodup.2.2 _ (mem_map_of_mem hretired) _
    (mem_map_of_mem (token_mem_values hheld))).symm

theorem identity_ne_of_retired (h : Authority state ns) (hretired : token ∈ state.retired)
    (hheld : state.grants.get? root = some grant) : grant.token.identity ≠ token.identity := by
  have hnodup := h.identities_nodup
  rw [tokens, map_append, nodup_append] at hnodup
  exact (hnodup.2.2 _ (mem_map_of_mem hretired) _
    (mem_map_of_mem (token_mem_values hheld))).symm

theorem not_authorizePublish_of_retired (hretired : token ∈ state.retired) (old new : Namespace)
    (state' : DelegationState) : state.authorizePublish old new token ≠ .ok state' := by
  intro hok
  obtain ⟨_, hauthorized⟩ := authorizePublish_eq_ok hok
  have hne := fence_ne_of_retired hauthorized.old_ok hretired hauthorized.held
  exact hne (congrArg GrantToken.fence hauthorized.token_eq)

theorem checkin_of_retired (h : Authority state ns) (hretired : token ∈ state.retired) :
    state.checkin token ns = .ok state := by
  simp [checkin, validate_iff.mpr h, hretired, pure, Except.pure]

theorem recover_of_retired (h : Authority state ns) (hretired : token ∈ state.retired) :
    state.recover token.root token.fence ns = .ok (state, ns) ∨
      ∃ grant, state.grants.get? token.root = some grant ∧
        state.recover token.root token.fence ns = .error (denied "recovery fence changed") := by
  cases hget : state.grants.get? token.root with
  | none =>
    left
    have hreceipt : ∃ t ∈ state.retired.keys, t.root = token.root ∧ t.fence = token.fence :=
      ⟨token, hretired, rfl, rfl⟩
    simp [recover, validate_iff.mpr h, hget, Except.failIf, hreceipt, pure, Except.pure]
  | some grant =>
    right
    have hne := fence_ne_of_retired h hretired hget
    refine ⟨grant, rfl, ?_⟩
    simp [recover, validate_iff.mpr h, hget, Except.failIf, hne]

end Receipt

end MountRs.DelegationState

namespace MountRs.Delegated

open DelegationState

variable {current next : Delegated} {token : GrantToken}

/-! ## Receipts along a run -/

theorem Transition.retired_mono (h : Transition current next)
    (hretired : token ∈ current.authority.retired) : token ∈ next.authority.retired := by
  cases h with
  | retry | issue => exact hretired
  | publish _ _ _ _ hauthorized =>
    obtain ⟨orphans, -, rfl⟩ := hauthorized.orphans
    exact hretired
  | retire => exact BTreeSet.mem_add.mpr (.inr hretired)

/-- The authority is valid and holds a receipt of the token. -/
def Fenced (token : GrantToken) (current : Delegated) : Prop :=
  Authority current.authority current.ns ∧ token ∈ current.authority.retired

theorem Fenced.attempt (h : Fenced token current) (call : Call) :
    Fenced token (current.attempt call) := by
  unfold Delegated.attempt
  cases hperform : current.perform call with
  | error e => exact h
  | ok =>
    have htransition := (perform_transition hperform).2
    exact ⟨htransition.authority h.1, htransition.retired_mono h.2⟩

theorem Fenced.run (h : Fenced token current) (calls : List Call) :
    Fenced token (current.run calls) := by
  induction calls generalizing current with
  | nil => exact h
  | cons call calls ih => exact ih (h.attempt call)

/-- A successful checkin retires its token, a successful recovery that of the grant it finds. -/
inductive Retires (current : Delegated) : Call → GrantToken → Prop
  | checkin (token : GrantToken) (next : Delegated)
      (hok : current.perform (.checkin token) = .ok next) : Retires current (.checkin token) token
  | recover (root : InodeId) (fence : ℕ) (grant : DirectoryGrant) (next : Delegated)
      (hheld : current.authority.grants.get? root = some grant)
      (hok : current.perform (.recover root fence) = .ok next) :
      Retires current (.recover root fence) grant.token

theorem Retires.fenced {call : Call} (h : Retires current call token) :
    Fenced token (current.attempt call) := by
  cases h with
  | checkin _ next hok =>
    have hauth := (perform_transition hok).2.authority (perform_transition hok).1
    rw [Delegated.attempt, hok]
    refine ⟨hauth, ?_⟩
    obtain ⟨_, hcheckin, h⟩ := Except.bind_eq_ok.mp hok
    cases Except.pure_eq_ok.mp h
    rcases (checkin_eq_ok hcheckin).2 with ⟨hretired, rfl⟩ | ⟨-, grant, -, -, -, rfl⟩
    · exact hretired
    · exact BTreeSet.mem_add.mpr (.inl rfl)
  | recover _ fence grant _ hheld hok =>
    have hauth := (perform_transition hok).2.authority (perform_transition hok).1
    rw [Delegated.attempt, hok]
    refine ⟨hauth, ?_⟩
    obtain ⟨⟨_, _⟩, hrecover, h⟩ := Except.bind_eq_ok.mp hok
    cases Except.pure_eq_ok.mp h
    obtain ⟨hold, hcase⟩ := recover_eq_ok hrecover
    rcases hcase with ⟨⟨receipt, hreceipt, -, hfence⟩, rfl, rfl⟩ | ⟨-, grant', hheld', -, -, -, rfl⟩
    · -- A receipt with this fence would share it with the grant, which then is not recovered.
      exfalso
      have hne := fence_ne_of_retired hold hreceipt hheld
      simp only [DelegationState.recover, Except.bind_eq_ok, Except.failIf_eq_ok, hheld,
        Option.any_some, bne_iff_ne, not_not] at hrecover
      obtain ⟨-, -, -, hmatch, -⟩ := hrecover
      exact hne (hmatch.trans hfence.symm)
    · rw [hheld] at hheld'
      cases hheld'
      exact BTreeSet.mem_add.mpr (.inl rfl)

/-- Once a token is retired it never authorizes, is never active and never
reissued in part, whatever is called afterwards; repeating its checkin or
recovery changes nothing. -/
theorem retired_token_stays_fenced {backing : ConcurrentBackingId} {ns : Namespace}
    {before later : List Call} {call : Call} {token : GrantToken} {current : Delegated}
    (hretires : Retires ((⟨DelegationState.new backing, ns⟩ : Delegated).run before) call token)
    (hcurrent : (((⟨DelegationState.new backing, ns⟩ : Delegated).run before).attempt call).run later
      = current) :
    (∀ old new state', current.authority.authorizePublish old new token ≠ .ok state') ∧
      (∀ root grant, current.authority.grants.get? root = some grant → grant.token ≠ token) ∧
      (∀ ns root owner grant state', current.authority.checkout ns root owner = .ok (grant, state') →
        grant.token.fence ≠ token.fence ∧
          ¬ (grant.token.root = token.root ∧ grant.token.owner = token.owner)) ∧
      current.perform (.checkin token) = .ok current ∧
      (current.perform (.recover token.root token.fence) = .ok current ∨
        ∃ grant e, current.authority.grants.get? token.root = some grant ∧
          current.perform (.recover token.root token.fence) = .error e) := by
  obtain ⟨hauth, hretired⟩ : Fenced token current := hcurrent ▸ hretires.fenced.run later
  refine ⟨not_authorizePublish_of_retired hretired, ?_, ?_, ?_, ?_⟩
  · intro root grant hheld heq
    exact fence_ne_of_retired hauth hretired hheld (congrArg GrantToken.fence heq)
  · intro ns root owner grant state' hcheckout
    -- The grant that a checkout returns is active in the state it leaves, which is valid.
    have hperform : (⟨current.authority, ns⟩ : Delegated).perform (.checkout root owner) =
        .ok ⟨state', ns⟩ := by
      simp [perform, hcheckout, pure, Except.pure]
    obtain ⟨hbefore, htransition⟩ := perform_transition hperform
    have hafter := htransition.authority hbefore
    have hkept := htransition.retired_mono hretired
    have hheld : state'.grants.get? root = some grant := by
      rcases (checkout_eq_ok hcheckout).2.2 with ⟨hheld, -, rfl⟩ | ⟨-, -, -, -, -, -, rfl⟩
      · exact hheld
      · exact BTreeMap.get?_insert_self _ _ _
    refine ⟨fence_ne_of_retired hafter hkept hheld, ?_⟩
    intro hsame
    apply identity_ne_of_retired hafter hkept hheld
    rw [GrantToken.identity, GrantToken.identity, hsame.1, hsame.2]
  · simp [perform, checkin_of_retired hauth hretired, pure, Except.pure]
  · rcases recover_of_retired hauth hretired with hok | ⟨grant, hheld, herror⟩
    · left
      simp [perform, hok, pure, Except.pure]
    · right
      exact ⟨grant, _, hheld, by simp [perform, herror]; rfl⟩

/-- The first directory is checked in and then checked out by another session. -/
def sampleRegranted : Delegated :=
  ((sampleStart.run [.checkout 2 "session-a"]).attempt (.checkin sampleToken)).run
    [.checkout 2 "new"]

theorem retired_token_stays_fenced_regranted :
    (sampleRegranted.authority.grants.get? 2).isSome = true ∧
      sampleRegranted.perform (.checkin sampleToken) = .ok sampleRegranted := by
  have hretires : Retires (sampleStart.run [.checkout 2 "session-a"]) (.checkin sampleToken)
      sampleToken := .checkin sampleToken _ rfl
  exact ⟨rfl, (retired_token_stays_fenced hretires rfl).2.2.2.1⟩

end MountRs.Delegated
