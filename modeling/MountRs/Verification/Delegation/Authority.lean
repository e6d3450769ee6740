import MountRs.Verification.Delegation.Subtree

/-! # The authority that `DelegationState::validate` accepts -/

namespace MountRs.DelegationState

open Except BTreeMap List BTreeSet

/-! ## Identities -/

/-- What every token must satisfy on its own. -/
def TokenOk (nextFence : ℕ) (token : GrantToken) : Prop :=
  token.owner ≠ "" ∧ token.root ≠ 0 ∧ token.fence ≠ 0 ∧ token.fence < nextFence

variable {nextFence : ℕ}

theorem validateToken_eq_ok {seen seen' : BTreeSet ℕ × BTreeSet (ℕ ×ₗ String)} {token : GrantToken} :
    validateToken nextFence seen token = .ok seen' ↔
      (TokenOk nextFence token ∧ token.fence ∉ seen.1 ∧ token.identity ∉ seen.2) ∧
        (seen.1.add token.fence, seen.2.add token.identity) = seen' := by
  simp only [validateToken, bind_eq_ok, failIf_eq_ok, pure_eq_ok, TokenOk, not_or, not_le,
    exists_and_left, exists_const, and_assoc, ne_eq]

/-- The identity loop accepts exactly the lists of fresh, pairwise distinct identities. -/
theorem validateTokens_iff (tokens : List GrantToken) (seen : BTreeSet ℕ × BTreeSet (ℕ ×ₗ String)) :
    (∃ seen', tokens.foldlM (validateToken nextFence) seen = .ok seen') ↔
      (∀ token ∈ tokens, TokenOk nextFence token ∧ token.fence ∉ seen.1 ∧ token.identity ∉ seen.2) ∧
      (tokens.map GrantToken.fence).Nodup ∧ (tokens.map GrantToken.identity).Nodup := by
  induction tokens generalizing seen with
  | nil => simp [pure, Except.pure]
  | cons token _ ih =>
    simp only [foldlM_cons, bind_eq_ok, validateToken_eq_ok, map_cons, nodup_cons,
      mem_cons, forall_eq_or_imp]
    constructor
    · rintro ⟨result, _, ⟨hhead, rfl⟩, hrest⟩
      obtain ⟨hall, hfences, hids⟩ := (ih _).mp ⟨result, hrest⟩
      simp only [mem_add, not_or] at hall
      refine ⟨⟨hhead, ?_⟩, ⟨?_, hfences⟩, ?_, hids⟩
      · intro t ht
        obtain ⟨hok, ⟨-, hf⟩, -, hi⟩ := hall t ht
        exact ⟨hok, hf, hi⟩
      · intro hmem
        obtain ⟨t, ht, heq⟩ := mem_map.mp hmem
        exact (hall t ht).2.1.1 heq
      · intro hmem
        obtain ⟨t, ht, heq⟩ := mem_map.mp hmem
        exact (hall t ht).2.2.1 heq
    · rintro ⟨⟨hhead, hall⟩, ⟨hfence, hfences⟩, hid, hids⟩
      have htail := (ih (seen.1.add token.fence, seen.2.add token.identity)).mpr ⟨?_, hfences, hids⟩
      · obtain ⟨result, hresult⟩ := htail
        exact ⟨result, _, ⟨hhead, rfl⟩, hresult⟩
      · intro t ht
        obtain ⟨hok, hf, hi⟩ := hall t ht
        simp only [mem_add, not_or]
        refine ⟨hok, ⟨?_, hf⟩, ?_, hi⟩
        · intro heq
          exact hfence (mem_map.mpr ⟨t, ht, heq⟩)
        · intro heq
          exact hid (mem_map.mpr ⟨t, ht, heq⟩)

/-! ## Grants -/

/-- A grant owns what is linked below its root and its orphans. -/
def Owns (ns : Namespace) (binding : InodeId × DirectoryGrant) (inode : InodeId) : Prop :=
  ns.Below binding.1 inode ∨ inode ∈ binding.2.orphanInodes

/-- What every grant must satisfy on its own. -/
structure GrantOk (ns : Namespace) (binding : InodeId × DirectoryGrant) : Prop where
  key_eq : binding.1 = binding.2.token.root
  isSubtree : ∃ linked, subtree ns binding.1 = .ok linked
  orphan : ∀ inode ∈ binding.2.orphanInodes, isUnlinkedOrphan ns inode = true

theorem claimInodes_iff (inodes : List InodeId) (owned : BTreeSet InodeId) :
    (∃ owned', inodes.foldlM claimInode owned = .ok owned') ↔
      inodes.Nodup ∧ ∀ inode ∈ inodes, inode ∉ owned := by
  induction inodes generalizing owned with
  | nil => simp [pure, Except.pure]
  | cons i rest ih =>
    simp only [foldlM_cons, claimInode, bind_eq_ok, failIf_eq_ok, pure_eq_ok,
      nodup_cons, mem_cons, forall_eq_or_imp]
    constructor
    · rintro ⟨result, _, ⟨-, hi, rfl⟩, hrest⟩
      obtain ⟨hnodup, hall⟩ := (ih _).mp ⟨result, hrest⟩
      simp only [mem_add, not_or] at hall
      exact ⟨⟨fun hmem => (hall i hmem).1 rfl, hnodup⟩, hi, fun j hj => (hall j hj).2⟩
    · rintro ⟨⟨hnot, hnodup⟩, hi, hall⟩
      have htail := (ih (owned.add i)).mpr ⟨hnodup, ?_⟩
      · obtain ⟨result, hresult⟩ := htail
        exact ⟨result, _, ⟨(), hi, rfl⟩, hresult⟩
      · intro j hj
        simp only [mem_add, not_or]
        refine ⟨?_, hall j hj⟩
        rintro rfl
        exact hnot hj

variable {owned owned' : BTreeSet InodeId}

theorem claimInodes_mem {inodes : List InodeId} (h : inodes.foldlM claimInode owned = .ok owned')
    (j : InodeId) :
    j ∈ owned' ↔ j ∈ inodes ∨ j ∈ owned := by
  induction inodes generalizing owned with
  | nil =>
    rw [foldlM_nil, pure_eq_ok] at h
    subst h
    simp
  | cons i rest ih =>
    simp only [foldlM_cons, claimInode, bind_eq_ok, failIf_eq_ok, pure_eq_ok] at h
    obtain ⟨-, ⟨-, -, rfl⟩, hrest⟩ := h
    rw [ih hrest, mem_add, mem_cons]
    tauto

variable {ns : Namespace}

theorem not_below_of_isUnlinkedOrphan {root inode : InodeId} (hv : ns.Valid)
    (hroot : isDirectoryAt ns root = true) (h : isUnlinkedOrphan ns inode = true) :
    ¬ ns.Below root inode := by
  intro hbelow
  obtain ⟨_, hnode, hzero, -⟩ := isUnlinkedOrphan_iff.mp h
  exact hbelow.linked hv hroot hnode hzero

theorem validateGrant_iff (hv : ns.Valid) (owned : BTreeSet InodeId)
    (binding : InodeId × DirectoryGrant) :
    (∃ owned', validateGrant ns owned binding = .ok owned') ↔
      GrantOk ns binding ∧ ∀ inode, Owns ns binding inode → inode ∉ owned := by
  simp only [validateGrant, bind_eq_ok, failIf_eq_ok, forM_eq_ok, not_not, Bool.not_eq_false]
  constructor
  · rintro ⟨result, -, hkey, linked, hlinked, -, horphan, hclaim⟩
    obtain ⟨hroot, hmem, -⟩ := subtree_eq_ok.mp hlinked
    obtain ⟨-, hfree⟩ := (claimInodes_iff _ owned).mp ⟨result, hclaim⟩
    refine ⟨⟨hkey, ⟨linked, hlinked⟩, horphan⟩, fun inode howns => hfree inode ?_⟩
    rcases howns with hbelow | horph
    · exact mem_append_left _ ((hmem inode).mpr hbelow)
    · exact mem_append_right _ horph
  · rintro ⟨⟨hkey, ⟨linked, hlinked⟩, horphan⟩, hfree⟩
    obtain ⟨hroot, hmem, -⟩ := subtree_eq_ok.mp hlinked
    have hclaim := (claimInodes_iff (linked.keys ++ binding.2.orphanInodes.keys) owned).mpr
      ⟨.append linked.keys_nodup binding.2.orphanInodes.keys_nodup ?_, ?_⟩
    · obtain ⟨result, hresult⟩ := hclaim
      exact ⟨result, (), hkey, linked, hlinked, ⟨⟩, horphan, hresult⟩
    · intro inode hin horph
      exact not_below_of_isUnlinkedOrphan hv hroot (horphan inode horph) ((hmem inode).mp hin)
    · intro inode hin
      rcases mem_append.mp hin with hin | hin
      · exact hfree inode (.inl ((hmem inode).mp hin))
      · exact hfree inode (.inr hin)

theorem validateGrant_mem {binding : InodeId × DirectoryGrant}
    (h : validateGrant ns owned binding = .ok owned') (j : InodeId) :
    j ∈ owned' ↔ Owns ns binding j ∨ j ∈ owned := by
  simp only [validateGrant, bind_eq_ok, failIf_eq_ok, forM_eq_ok, not_not] at h
  obtain ⟨-, -, _, hlinked, -, -, hclaim⟩ := h
  obtain ⟨-, hmem, -⟩ := subtree_eq_ok.mp hlinked
  rw [claimInodes_mem hclaim, mem_append, Owns, ← hmem j]
  rfl

/-- The grant loop accepts exactly well-formed grants with pairwise disjoint ownership. -/
theorem validateGrants_iff (hv : ns.Valid) (bindings : List (InodeId × DirectoryGrant))
    (owned : BTreeSet InodeId) :
    (∃ owned', bindings.foldlM (validateGrant ns) owned = .ok owned') ↔
      (∀ binding ∈ bindings, GrantOk ns binding ∧ ∀ inode, Owns ns binding inode → inode ∉ owned) ∧
      bindings.Pairwise (fun a b => ∀ inode, Owns ns a inode → ¬ Owns ns b inode) := by
  induction bindings generalizing owned with
  | nil => simp [pure, Except.pure]
  | cons binding rest ih =>
    simp only [foldlM_cons, bind_eq_ok, mem_cons, forall_eq_or_imp, pairwise_cons]
    constructor
    · rintro ⟨result, owned', hhead, hrest⟩
      obtain ⟨hall, hpair⟩ := (ih owned').mp ⟨result, hrest⟩
      have hmem := validateGrant_mem hhead
      refine ⟨⟨(validateGrant_iff hv owned binding).mp ⟨owned', hhead⟩, ?_⟩, ?_, hpair⟩
      · intro b hb
        refine ⟨(hall b hb).1, fun inode howns hin => ?_⟩
        exact (hall b hb).2 inode howns ((hmem inode).mpr (.inr hin))
      · intro b hb inode hown howns
        exact (hall b hb).2 inode howns ((hmem inode).mpr (.inl hown))
    · rintro ⟨⟨hhead, hall⟩, hdisj, hpair⟩
      obtain ⟨owned', howned'⟩ := (validateGrant_iff hv owned binding).mpr hhead
      have hmem := validateGrant_mem howned'
      have htail := (ih owned').mpr ⟨?_, hpair⟩
      · obtain ⟨result, hresult⟩ := htail
        exact ⟨result, owned', howned', hresult⟩
      · intro b hb
        refine ⟨(hall b hb).1, fun inode howns hin => ?_⟩
        rcases (hmem inode).mp hin with hown | hin
        · exact hdisj b hb inode hown howns
        · exact (hall b hb).2 inode howns hin

/-! ## The whole authority -/

structure Authority (state : DelegationState) (ns : Namespace) : Prop where
  namespace_ok : ns.validate = .ok ()
  backing_ok : ∃ id, ConcurrentBackingId.fromBytes state.backing.bytes = .ok id
  nextFence_ne_zero : state.nextFence ≠ 0
  capacity : state.grants.size + state.retired.size ≤ MAX_DELEGATION_IDENTITIES
  token_ok : ∀ token ∈ state.tokens, TokenOk state.nextFence token
  fences_nodup : (state.tokens.map GrantToken.fence).Nodup
  identities_nodup : (state.tokens.map GrantToken.identity).Nodup
  grant_ok : ∀ binding ∈ state.grants.entries, GrantOk ns binding
  disjoint : state.grants.entries.Pairwise (fun a b => ∀ inode, Owns ns a inode → ¬ Owns ns b inode)

theorem validate_iff {state : DelegationState} :
    state.validate ns = .ok () ↔ Authority state ns := by
  simp only [validate, bind_eq_ok, failIf_eq_ok, not_or, not_lt]
  constructor
  · rintro ⟨⟨⟩, hns, id, hid, -, ⟨hfence, hcap⟩, seen, htokens, owned, hgrants, -⟩
    have hv := Namespace.valid_of_validate hns
    obtain ⟨htok, hf, hi⟩ := (validateTokens_iff state.tokens (∅, ∅)).mp ⟨seen, htokens⟩
    obtain ⟨hgr, hdisj⟩ := (validateGrants_iff hv _ ∅).mp ⟨owned, hgrants⟩
    exact ⟨hns, ⟨id, hid⟩, hfence, hcap, fun t ht => (htok t ht).1, hf, hi,
      fun b hb => (hgr b hb).1, hdisj⟩
  · intro h
    have hv := Namespace.valid_of_validate h.namespace_ok
    obtain ⟨id, hid⟩ := h.backing_ok
    obtain ⟨seen, hseen⟩ := (validateTokens_iff state.tokens (∅, ∅)).mpr
      ⟨fun t ht => ⟨h.token_ok t ht, by simp, by simp⟩, h.fences_nodup, h.identities_nodup⟩
    obtain ⟨owned, howned⟩ := (validateGrants_iff hv state.grants.entries ∅).mpr
      ⟨fun b hb => ⟨h.grant_ok b hb, by simp⟩, h.disjoint⟩
    exact ⟨(), h.namespace_ok, id, hid, (), ⟨h.nextFence_ne_zero, h.capacity⟩, seen, hseen, owned,
      howned, rfl⟩

namespace Authority

variable {state : DelegationState} {ns : Namespace}

variable (h : Authority state ns)
include h

theorem valid : ns.Valid := Namespace.valid_of_validate h.namespace_ok

theorem grant {root : InodeId} {grant : DirectoryGrant}
    (hg : state.grants.get? root = some grant) : GrantOk ns (root, grant) :=
  h.grant_ok _ (get?_eq_some_iff.mp hg)

theorem owns_disjoint {r₁ r₂ : InodeId} {g₁ g₂ : DirectoryGrant}
    (h₁ : state.grants.get? r₁ = some g₁) (h₂ : state.grants.get? r₂ = some g₂) (hne : r₁ ≠ r₂)
    {inode : InodeId} (ho : Owns ns (r₁, g₁) inode) : ¬ Owns ns (r₂, g₂) inode := by
  have hsymm : Std.Symm (fun a b : InodeId × DirectoryGrant =>
      ∀ inode, Owns ns a inode → ¬ Owns ns b inode) :=
    ⟨fun a b hab inode hb ha => hab inode ha hb⟩
  exact h.disjoint.forall (get?_eq_some_iff.mp h₁) (get?_eq_some_iff.mp h₂)
    (by simpa using fun hr => absurd hr hne) inode ho

end Authority

end MountRs.DelegationState
