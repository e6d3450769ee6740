import MountRs.Verification.Delegation.Authority

/-! # What the operations of a delegation state do

One lemma for each operation says what its success means; every result about
runs is derived from these. -/

namespace MountRs.DelegationState

open Except List BTreeMap BTreeSet

/-! ## Tokens under granting and retiring -/

variable {state : DelegationState} {root : InodeId}

theorem tokens_grant (grant : DirectoryGrant) (next : ℕ) (h : state.grants.get? root = none) :
    { state with grants := state.grants.insert root grant, nextFence := next : DelegationState }.tokens
      ~ grant.token :: state.tokens := by
  have hperm := (entries_insert_perm h grant).map fun binding => binding.2.token
  simp only [tokens, values, map_map, Function.comp_def]
  exact (hperm.append_left _).trans perm_middle

theorem size_grant (grant : DirectoryGrant) (h : state.grants.get? root = none) :
    (state.grants.insert root grant).size = state.grants.size + 1 := by
  have := (entries_insert_perm h grant).length_eq
  simpa [size] using this

/-- The state in which the grant of a root has become a retired receipt. -/
def retire (state : DelegationState) (root : InodeId) (token : GrantToken) : DelegationState :=
  { state with grants := state.grants.erase root, retired := state.retired.add token }

section Retire

variable {state : DelegationState} {root : InodeId} {grant : DirectoryGrant}

theorem tokens_retire (hg : state.grants.get? root = some grant)
    (hnew : grant.token ∉ state.retired) :
    (state.retire root grant.token).tokens ~ state.tokens := by
  have herase := (entries_erase_perm hg).map fun binding => binding.2.token
  have hadd := (entries_insert_perm (get?_eq_none_iff.mpr hnew) ()).map Prod.fst
  simp only [tokens, retire, add, BTreeMap.keys, values, map_map,
    Function.comp_def]
  refine (hadd.append_right _).trans ?_
  simp only [map_cons, cons_append]
  exact perm_middle.symm.trans (herase.symm.append_left _)

theorem size_retire (hg : state.grants.get? root = some grant)
    (hnew : grant.token ∉ state.retired) :
    (state.retire root grant.token).grants.size + (state.retire root grant.token).retired.size =
      state.grants.size + state.retired.size := by
  have herase := (entries_erase_perm hg).length_eq
  have hadd := (entries_insert_perm (get?_eq_none_iff.mpr hnew) ()).length_eq
  simp only [retire, add, size, length_cons] at *
  omega

end Retire

/-! ## Checkout -/

variable {state' : DelegationState} {ns : Namespace}

theorem checkout_eq_ok {owner : String} {grant : DirectoryGrant}
    (h : state.checkout ns root owner = .ok (grant, state')) :
    Authority state ns ∧ owner ≠ "" ∧
      ((state.grants.get? root = some grant ∧ grant.token.owner = owner ∧ state' = state) ∨
        (state.grants.get? root = none ∧
          (∀ token ∈ state.retired, ¬ (token.root = root ∧ token.owner = owner)) ∧
          state.grants.size + state.retired.size < MAX_DELEGATION_IDENTITIES ∧
          (∃ claimed, subtree ns root = .ok claimed) ∧
          (∀ other ∈ state.grants.values, ∀ inode, ns.Below root inode →
            ¬ ns.Below other.token.root inode) ∧
          grant = { token := { root, owner, fence := state.nextFence }, orphanInodes := ∅ } ∧
          state' = { state with
            grants := state.grants.insert root grant
            nextFence := state.nextFence + 1 })) := by
  simp only [checkout, bind_eq_ok, failIf_eq_ok] at h
  obtain ⟨⟨⟩, hvalid, -, howner, h⟩ := h
  refine ⟨validate_iff.mp hvalid, howner, ?_⟩
  cases hget : state.grants.get? root with
  | some =>
    simp only [hget, bind_eq_ok, failIf_eq_ok, pure_eq_ok, not_not, Prod.mk.injEq] at h
    obtain ⟨-, hheld, rfl, rfl⟩ := h
    exact .inl ⟨rfl, hheld, rfl⟩
  | none =>
    simp only [hget, bind_eq_ok, failIf_eq_ok, okOr_eq_ok, checkedAdd_eq_some, forM_eq_ok,
      pure_eq_ok, not_exists, not_and, not_le, Prod.mk.injEq] at h
    obtain ⟨-, hret, -, hcap, _, ⟨-, rfl⟩, claimed, hclaimed, -, hdisj, rfl, rfl⟩ := h
    refine .inr ⟨rfl, ?_, hcap, ⟨claimed, hclaimed⟩, ?_, rfl, rfl⟩
    · rintro token htoken ⟨hroot, ho⟩
      exact hret token htoken hroot ho
    · intro other hother inode hin hbelow
      obtain ⟨_, hlinked, hnot⟩ := hdisj other hother
      exact hnot inode (((subtree_eq_ok.mp hclaimed).2.1 inode).mpr hin)
        (((subtree_eq_ok.mp hlinked).2.1 inode).mpr hbelow)

/-! ## Publication -/

structure Authorized (state : DelegationState) (old new : Namespace) (token : GrantToken)
    (grant : DirectoryGrant) (state' : DelegationState) : Prop where
  old_ok : Authority state old
  new_ok : Authority state' new
  held : state.grants.get? token.root = some grant
  token_eq : grant.token = token
  nextInode_le : old.nextInode ≤ new.nextInode
  before_ok : ∃ before, subtree old token.root = .ok before
  after_ok : ∃ after, subtree new token.root = .ok after
  /-- What the subtree holds afterwards was there before, or is new. -/
  inside : ∀ inode, new.Below token.root inode → inode ∈ old.nodes.keys → old.Below token.root inode
  changed : ∀ inode node, old.nodes.get? inode = some node → new.nodes.get? inode ≠ some node →
    Owns old (token.root, grant) inode ∧
      ∀ node', new.nodes.get? inode = some node' → identityChanged node node' = false
  fresh : ∀ inode, inode ∉ old.nodes.keys → inode ∈ new.nodes.keys →
    old.nextInode ≤ inode ∧ new.Below token.root inode
  orphans : ∃ orphans : BTreeSet InodeId,
    (∀ inode, inode ∈ orphans ↔ Owns old (token.root, grant) inode ∧
      ∃ node, new.nodes.get? inode = some node ∧ node.stats.nlink = 0) ∧
    state' = { state with
      grants := state.grants.modify token.root fun grant => { grant with orphanInodes := orphans } }

variable {old new : Namespace}

theorem authorizeInode_eq_ok {authority after : BTreeSet InodeId} {inode : InodeId}
    (h : authorizeInode old new authority after inode = .ok ()) :
    (∀ node, old.nodes.get? inode = some node → new.nodes.get? inode ≠ some node →
      inode ∈ authority ∧
        ∀ node', new.nodes.get? inode = some node' → identityChanged node node' = false) ∧
    (inode ∉ old.nodes.keys → inode ∈ new.nodes.keys → old.nextInode ≤ inode ∧ inode ∈ after) := by
  unfold authorizeInode at h
  split_ifs at h with hsame
  · refine ⟨fun node hold hnew => absurd (hsame ▸ hold) hnew, fun hold hnew => ?_⟩
    rw [← get?_eq_none_iff, hsame, get?_eq_none_iff] at hold
    exact absurd hnew hold
  cases hold : old.nodes.get? inode with
  | some =>
    simp only [hold, bind_eq_ok, failIf_eq_ok, Option.any_eq_true, not_exists, not_and,
      Bool.not_eq_true, not_not] at h
    obtain ⟨-, hident, -, hauth, -⟩ := h
    refine ⟨?_, fun habsent => ?_⟩
    · intro node' heq _
      cases heq
      exact ⟨hauth, fun node' hnode' => hident node' hnode'⟩
    · rw [← get?_eq_none_iff, hold] at habsent
      cases habsent
  | none =>
    simp only [hold, failIf_eq_ok, not_or, not_lt, not_not] at h
    exact ⟨by simp, fun _ _ => h⟩

variable {token : GrantToken}

theorem authorizePublish_eq_ok (h : state.authorizePublish old new token = .ok state') :
    ∃ grant, Authorized state old new token grant state' := by
  simp only [authorizePublish, bind_eq_ok, failIf_eq_ok, okOr_eq_ok, forM_eq_ok, pure_eq_ok,
    Option.filter_eq_some_iff, decide_eq_true_eq, Bool.not_eq_true] at h
  obtain ⟨⟨⟩, hold, ⟨⟩, hnew, grant, ⟨hheld, htoken⟩, -, hheader, before, hbefore, after, hafter, -,
    hinside, -, hnodes, ⟨⟩, -, ⟨⟩, hcandidate, rfl⟩ := h
  have hbefore' := (subtree_eq_ok.mp hbefore).2.1
  have hafter' := (subtree_eq_ok.mp hafter).2.1
  have hauthority : ∀ inode, inode ∈ before.addAll grant.orphanInodes.keys ↔
      Owns old (token.root, grant) inode := by
    intro inode
    rw [mem_addAll, hbefore', Owns]
    tauto
  refine ⟨grant, validate_iff.mp hold, validate_iff.mp hcandidate, hheld, htoken, ?_,
    ⟨before, hbefore⟩, ⟨after, hafter⟩, ?_, ?_, ?_, _, ?_, rfl⟩
  · simp only [headerChanged, Bool.or_eq_false_iff, decide_eq_false_iff_not, not_lt] at hheader
    exact hheader.2
  · intro inode hbelow hpresent
    by_contra hout
    exact hinside inode ((hafter' inode).mpr hbelow)
      ⟨contains_iff.mpr hpresent, fun hin => hout ((hbefore' inode).mp hin)⟩
  · intro inode node hnode hchanged
    have hmem := mem_keys_iff.mpr ⟨node, hnode⟩
    obtain ⟨hauth, hident⟩ :=
      (authorizeInode_eq_ok (hnodes inode (mem_append_left _ hmem))).1 node hnode hchanged
    exact ⟨(hauthority inode).mp hauth, hident⟩
  · intro inode habsent hpresent
    obtain ⟨hle, hin⟩ :=
      (authorizeInode_eq_ok (hnodes inode (mem_append_right _ hpresent))).2 habsent hpresent
    exact ⟨hle, (hafter' inode).mp hin⟩
  · intro inode
    simp [BTreeSet.mem_filter, hauthority, Option.any_eq_true]

/-! ## Checkin and recovery -/

theorem checkin_eq_ok (h : state.checkin token ns = .ok state') : Authority state ns ∧
      ((token ∈ state.retired ∧ state' = state) ∨
        (token ∉ state.retired ∧ ∃ grant, state.grants.get? token.root = some grant ∧
          grant.token = token ∧ grant.orphanInodes = ∅ ∧ state' = state.retire token.root token)) := by
  simp only [checkin, bind_eq_ok] at h
  obtain ⟨⟨⟩, hvalid, h⟩ := h
  refine ⟨validate_iff.mp hvalid, ?_⟩
  split_ifs at h with hretired
  · exact .inl ⟨hretired, (pure_eq_ok.mp h).symm⟩
  · simp only [bind_eq_ok, failIf_eq_ok, okOr_eq_ok, pure_eq_ok, Option.filter_eq_some_iff,
      decide_eq_true_eq, not_not] at h
    obtain ⟨grant, ⟨hheld, htoken⟩, -, hempty, rfl⟩ := h
    exact .inr ⟨hretired, grant, hheld, htoken, hempty, rfl⟩

theorem recover_eq_ok {fence : ℕ} {ns' : Namespace}
    (h : state.recover root fence ns = .ok (state', ns')) :
    Authority state ns ∧ (((∃ token ∈ state.retired, token.root = root ∧ token.fence = fence) ∧
          state' = state ∧ ns' = ns) ∨
        ((∀ token ∈ state.retired, ¬ (token.root = root ∧ token.fence = fence)) ∧
          ∃ grant, state.grants.get? root = some grant ∧ grant.token.fence = fence ∧
            ns' = removeNodes ns grant.orphanInodes.keys ∧ ns'.validate = .ok () ∧
            state' = state.retire root grant.token)) := by
  simp only [recover, bind_eq_ok, failIf_eq_ok] at h
  obtain ⟨⟨⟩, hvalid, -, -, h⟩ := h
  refine ⟨validate_iff.mp hvalid, ?_⟩
  split_ifs at h with hretired
  · simp only [pure_eq_ok, Prod.mk.injEq] at h
    exact .inl ⟨hretired, h.1.symm, h.2.symm⟩
  · simp only [bind_eq_ok, okOr_eq_ok, pure_eq_ok, Option.filter_eq_some_iff, decide_eq_true_eq,
      Prod.mk.injEq] at h
    obtain ⟨grant, ⟨hheld, hfence⟩, ⟨⟩, hns, rfl, rfl⟩ := h
    refine .inr ⟨fun token htoken hmatch => hretired ⟨token, htoken, hmatch⟩, grant, hheld, hfence,
      rfl, hns, rfl⟩

end MountRs.DelegationState
