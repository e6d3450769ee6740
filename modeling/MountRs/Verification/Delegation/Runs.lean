import MountRs.Verification.Delegation.Isolation

/-! # Runs of a delegated namespace

A provider keeps a delegation state and a namespace and changes them in one
transaction. A run is a sequence of calls against that pair. -/

namespace MountRs

open DelegationState Except BTreeMap

/-- What a provider persists. -/
structure Delegated where
  authority : DelegationState
  ns : Namespace
deriving DecidableEq

inductive Call
  | checkout (root : InodeId) (owner : String)
  | authorizePublish (proposed : Namespace) (token : GrantToken)
  | checkin (token : GrantToken)
  | recover (root : InodeId) (expectedFence : ℕ)

namespace Delegated

def perform (current : Delegated) : Call → Result Delegated
  | .checkout root owner => do
    let (_, authority) ← current.authority.checkout current.ns root owner
    return { current with authority }
  | .authorizePublish proposed token => do
    let authority ← current.authority.authorizePublish current.ns proposed token
    return { authority, ns := proposed }
  | .checkin token => do
    let authority ← current.authority.checkin token current.ns
    return { current with authority }
  | .recover root expectedFence => do
    let (authority, ns) ← current.authority.recover root expectedFence current.ns
    return { authority, ns }

/-- A failed call leaves the authority and the namespace as they were. -/
def attempt (current : Delegated) (call : Call) : Delegated :=
  match current.perform call with
  | .ok next => next
  | .error _ => current

def run (current : Delegated) (calls : List Call) : Delegated := calls.foldl attempt current

/-- A call that succeeds. -/
def Step (current next : Delegated) : Prop := ∃ call, current.perform call = .ok next

/-- A finite sequence of calls that all succeed. -/
def Reachable : Delegated → Delegated → Prop := Relation.ReflTransGen Step

/-! ## The four effects of a successful call -/

inductive Transition (current : Delegated) : Delegated → Prop
  /-- A repeated request finds its work done. -/
  | retry : Transition current current
  | issue (root : InodeId) (owner : String) (howner : owner ≠ "")
      (hfree : current.authority.grants.get? root = none)
      (hnew : ∀ token ∈ current.authority.retired, ¬ (token.root = root ∧ token.owner = owner))
      (hcapacity : current.authority.grants.size + current.authority.retired.size <
        MAX_DELEGATION_IDENTITIES)
      (hsubtree : ∃ claimed, subtree current.ns root = .ok claimed)
      (hdisjoint : ∀ other ∈ current.authority.grants.values, ∀ inode, current.ns.Below root inode →
        ¬ current.ns.Below other.token.root inode) :
      Transition current { current with
        authority := { current.authority with
          grants := current.authority.grants.insert root
            { token := { root, owner, fence := current.authority.nextFence }, orphanInodes := ∅ }
          nextFence := current.authority.nextFence + 1 } }
  | publish (proposed : Namespace) (token : GrantToken) (grant : DirectoryGrant)
      (authority : DelegationState)
      (hauthorized : Authorized current.authority current.ns proposed token grant authority) :
      Transition current { authority, ns := proposed }
  /-- Checkin is the retirement of a grant without orphans. -/
  | retire (root : InodeId) (grant : DirectoryGrant)
      (hheld : current.authority.grants.get? root = some grant)
      (hnew : grant.token ∉ current.authority.retired)
      (hvalid : (removeNodes current.ns grant.orphanInodes.keys).validate = .ok ()) :
      Transition current
        { authority := current.authority.retire root grant.token
          ns := removeNodes current.ns grant.orphanInodes.keys }

variable {current next : Delegated}

theorem perform_transition {call : Call} (h : current.perform call = .ok next) :
    Authority current.authority current.ns ∧ Transition current next := by
  cases call with
  | checkout root owner =>
    obtain ⟨⟨_, _⟩, hcheckout, h⟩ := bind_eq_ok.mp h
    cases pure_eq_ok.mp h
    obtain ⟨hauth, howner, hcase⟩ := checkout_eq_ok hcheckout
    refine ⟨hauth, ?_⟩
    rcases hcase with ⟨-, -, rfl⟩ | ⟨hfree, hnew, hcap, hsub, hdisj, rfl, rfl⟩
    · exact .retry
    · exact .issue root owner howner hfree hnew hcap hsub hdisj
  | authorizePublish proposed token =>
    obtain ⟨authority, hpublish, h⟩ := bind_eq_ok.mp h
    cases pure_eq_ok.mp h
    obtain ⟨grant, hauthorized⟩ := authorizePublish_eq_ok hpublish
    exact ⟨hauthorized.old_ok, .publish proposed token grant authority hauthorized⟩
  | checkin token =>
    obtain ⟨_, hcheckin, h⟩ := bind_eq_ok.mp h
    cases pure_eq_ok.mp h
    obtain ⟨hauth, hcase⟩ := checkin_eq_ok hcheckin
    refine ⟨hauth, ?_⟩
    rcases hcase with ⟨-, rfl⟩ | ⟨hnew, grant, hheld, rfl, hempty, rfl⟩
    · exact .retry
    · have hns : removeNodes current.ns grant.orphanInodes.keys = current.ns := by
        simp [removeNodes, hempty]
      have htransition := Transition.retire grant.token.root grant hheld hnew
        (by rw [hns]; exact hauth.namespace_ok)
      rwa [hns] at htransition
  | recover root =>
    obtain ⟨⟨_, _⟩, hrecover, h⟩ := bind_eq_ok.mp h
    cases pure_eq_ok.mp h
    obtain ⟨hauth, hcase⟩ := recover_eq_ok hrecover
    refine ⟨hauth, ?_⟩
    rcases hcase with ⟨-, rfl, rfl⟩ | ⟨hnew, grant, hheld, hfence, rfl, hvalid, rfl⟩
    · exact .retry
    · refine .retire root grant hheld ?_ hvalid
      intro hretired
      exact hnew grant.token hretired ⟨(hauth.grant hheld).key_eq.symm, hfence⟩

/-! ## Every call keeps the authority valid -/

variable {ns : Namespace}

theorem owns_symm {a b : InodeId × DirectoryGrant}
    (h : ∀ inode, Owns ns a inode → ¬ Owns ns b inode) (inode : InodeId) (hb : Owns ns b inode) :
    ¬ Owns ns a inode :=
  fun ha => h inode ha hb

variable {state : DelegationState} {root : InodeId}

theorem authority_issue {owner : String} (h : Authority state ns) (howner : owner ≠ "")
    (hfree : state.grants.get? root = none)
    (hnew : ∀ token ∈ state.retired, ¬ (token.root = root ∧ token.owner = owner))
    (hcapacity : state.grants.size + state.retired.size < MAX_DELEGATION_IDENTITIES)
    (hsubtree : ∃ claimed, subtree ns root = .ok claimed)
    (hdisjoint : ∀ other ∈ state.grants.values, ∀ inode, ns.Below root inode →
      ¬ ns.Below other.token.root inode) :
    Authority { state with
      grants := state.grants.insert root
        { token := { root, owner, fence := state.nextFence }, orphanInodes := ∅ }
      nextFence := state.nextFence + 1 } ns := by
  obtain ⟨claimed, hclaimed⟩ := hsubtree
  have hroot := (subtree_eq_ok.mp hclaimed).1
  have hroot_ne : root ≠ 0 := by
    obtain ⟨node, hnode, -⟩ := isDirectoryAt_iff.mp hroot
    exact h.valid.key_pos root (mem_keys_iff.mpr ⟨node, hnode⟩)
  generalize hgrant : DirectoryGrant.mk ⟨root, owner, state.nextFence⟩ ∅ = grant
  have htokens := tokens_grant grant (state.nextFence + 1) hfree
  have hentries := entries_insert_perm hfree grant
  subst hgrant
  refine ⟨h.namespace_ok, h.backing_ok, Nat.succ_ne_zero _, ?_, ?_, ?_, ?_, ?_, ?_⟩
  · have hsize := size_grant ⟨⟨root, owner, state.nextFence⟩, ∅⟩ hfree
    simp only
    omega
  · intro token htoken
    rcases List.mem_cons.mp (htokens.mem_iff.mp htoken) with rfl | hold
    · exact ⟨howner, hroot_ne, h.nextFence_ne_zero, Nat.lt_succ_self _⟩
    · obtain ⟨ho, hr, hz, hlt⟩ := h.token_ok token hold
      exact ⟨ho, hr, hz, Nat.lt_succ_of_lt hlt⟩
  · rw [(htokens.map _).nodup_iff, List.map_cons, List.nodup_cons]
    refine ⟨?_, h.fences_nodup⟩
    intro hmem
    obtain ⟨token, htoken, heq⟩ := List.mem_map.mp hmem
    exact absurd heq (h.token_ok token htoken).2.2.2.ne
  · rw [(htokens.map _).nodup_iff, List.map_cons, List.nodup_cons]
    refine ⟨?_, h.identities_nodup⟩
    intro hmem
    obtain ⟨token, htoken, heq⟩ := List.mem_map.mp hmem
    simp only [GrantToken.identity, EmbeddingLike.apply_eq_iff_eq, Prod.mk.injEq] at heq
    rcases List.mem_append.mp htoken with hretired | hactive
    · exact hnew token hretired heq
    · obtain ⟨_, hother, rfl⟩ := List.mem_map.mp hactive
      obtain ⟨_, hkey⟩ := mem_values_iff.mp hother
      rw [← heq.1, ← (h.grant hkey).key_eq, hkey] at hfree
      cases hfree
  · intro binding hbinding
    rcases List.mem_cons.mp (hentries.mem_iff.mp hbinding) with rfl | hold
    · exact ⟨rfl, ⟨claimed, hclaimed⟩, by simp⟩
    · exact h.grant_ok binding hold
  · rw [hentries.pairwise_iff fun hab => owns_symm hab, List.pairwise_cons]
    refine ⟨?_, h.disjoint⟩
    intro other hother inode hmine hother'
    have hbelow : ns.Below root inode := by simpa [Owns] using hmine
    have hok := h.grant_ok other hother
    rcases hother' with hlinked | horphan
    · refine hdisjoint other.2 (List.mem_map.mpr ⟨other, hother, rfl⟩) inode hbelow ?_
      rwa [← hok.key_eq]
    · exact not_below_of_isUnlinkedOrphan h.valid hroot (hok.orphan inode horphan) hbelow

variable {grant : DirectoryGrant}

theorem owns_removeNodes (h : Authority state ns) (hheld : state.grants.get? root = some grant)
    {other : InodeId × DirectoryGrant} (hother : other ∈ (state.grants.erase root).entries) :
    GrantOk (removeNodes ns grant.orphanInodes.keys) other ∧
      ∀ inode, Owns (removeNodes ns grant.orphanInodes.keys) other inode ↔ Owns ns other inode := by
  have horphan := (h.grant hheld).orphan
  have hget := get?_eq_some_iff.mpr hother
  have hne : other.1 ≠ root := by
    rintro rfl
    simp at hget
  rw [get?_erase_of_ne _ hne] at hget
  obtain ⟨hkey, ⟨linked, hlinked⟩, hunlinked⟩ := h.grant hget
  refine ⟨⟨hkey, ⟨linked, subtree_removeNodes horphan hlinked⟩, ?_⟩, ?_⟩
  · intro inode hinode
    have hkept : inode ∉ grant.orphanInodes.keys := fun hin =>
      h.owns_disjoint hget hheld hne (.inr hinode) (.inr hin)
    obtain ⟨node, hnode, hrest⟩ := isUnlinkedOrphan_iff.mp (hunlinked inode hinode)
    exact isUnlinkedOrphan_iff.mpr ⟨node, by simp [get?_removeNodes, hkept, hnode], hrest⟩
  · intro inode
    rw [Owns, Owns, below_removeNodes horphan]

theorem authority_retire (h : Authority state ns) (hheld : state.grants.get? root = some grant)
    (hnew : grant.token ∉ state.retired)
    (hvalid : (removeNodes ns grant.orphanInodes.keys).validate = .ok ()) :
    Authority (state.retire root grant.token) (removeNodes ns grant.orphanInodes.keys) := by
  have htokens := tokens_retire hheld hnew
  have hsize := size_retire hheld hnew
  refine ⟨hvalid, h.backing_ok, h.nextFence_ne_zero, ?_, ?_, ?_, ?_, ?_, ?_⟩
  · have := h.capacity
    omega
  · exact fun token htoken => h.token_ok token (htokens.mem_iff.mp htoken)
  · rw [(htokens.map _).nodup_iff]
    exact h.fences_nodup
  · rw [(htokens.map _).nodup_iff]
    exact h.identities_nodup
  · exact fun binding hbinding => (owns_removeNodes h hheld hbinding).1
  · have hall := h.disjoint
    rw [(entries_erase_perm hheld).pairwise_iff fun hab => owns_symm hab,
      List.pairwise_cons] at hall
    refine hall.2.imp_of_mem ?_
    intro a b ha hb hab inode howns
    rw [(owns_removeNodes h hheld ha).2] at howns
    rw [(owns_removeNodes h hheld hb).2]
    exact hab inode howns

theorem Transition.authority (h : Transition current next)
    (hauth : Authority current.authority current.ns) : Authority next.authority next.ns := by
  cases h with
  | retry => exact hauth
  | issue _ _ howner hfree hnew hcap hsub hdisj =>
    exact authority_issue hauth howner hfree hnew hcap hsub hdisj
  | publish _ _ _ _ hauthorized => exact hauthorized.new_ok
  | retire _ _ hheld hnew hvalid => exact authority_retire hauth hheld hnew hvalid

theorem authority_step (h : Step current next) : Authority next.authority next.ns := by
  obtain ⟨_, hcall⟩ := h
  obtain ⟨hauth, htransition⟩ := perform_transition hcall
  exact htransition.authority hauth

theorem authority_new {backing : ConcurrentBackingId} {bytes : Vector UInt8 16}
    (hbacking : ConcurrentBackingId.fromBytes bytes = .ok backing) (hns : ns.validate = .ok ()) :
    Authority (new backing) ns := by
  have hbytes : backing.bytes = bytes := by
    simp only [ConcurrentBackingId.fromBytes, bind_eq_ok, pure_eq_ok] at hbacking
    obtain ⟨-, -, rfl⟩ := hbacking
    rfl
  refine ⟨hns, ⟨backing, by rw [← hbytes] at hbacking; exact hbacking⟩, ?_, ?_, ?_, ?_, ?_, ?_, ?_⟩
    <;> simp [new, tokens, MAX_DELEGATION_IDENTITIES]

/-- From a fresh authority over a validated namespace every run of successful
calls keeps the authority valid: grants own disjoint sets, and no fence and no
identity is ever used twice. -/
theorem reachable_validates {bytes : Vector UInt8 16} {backing : ConcurrentBackingId}
    {ns : Namespace} {current : Delegated}
    (hbacking : ConcurrentBackingId.fromBytes bytes = .ok backing) (hns : ns.validate = .ok ())
    (hrun : Reachable ⟨DelegationState.new backing, ns⟩ current) :
    current.authority.validate current.ns = .ok () ∧
      (∀ r₁ g₁ r₂ g₂, current.authority.grants.get? r₁ = some g₁ →
        current.authority.grants.get? r₂ = some g₂ → r₁ ≠ r₂ →
        ∃ linked₁ linked₂, subtree current.ns r₁ = .ok linked₁ ∧
          subtree current.ns r₂ = .ok linked₂ ∧
          ∀ inode, inode ∈ linked₁ ∨ inode ∈ g₁.orphanInodes →
            ¬ (inode ∈ linked₂ ∨ inode ∈ g₂.orphanInodes)) ∧
      (current.authority.tokens.map GrantToken.fence).Nodup ∧
      (∀ token ∈ current.authority.tokens, token.fence < current.authority.nextFence) ∧
      (current.authority.tokens.map GrantToken.identity).Nodup := by
  have hauth : Authority current.authority current.ns := by
    cases hrun with
    | refl => exact authority_new hbacking hns
    | tail _ hstep => exact authority_step hstep
  refine ⟨validate_iff.mpr hauth, ?_, hauth.fences_nodup,
    fun token htoken => (hauth.token_ok token htoken).2.2.2, hauth.identities_nodup⟩
  intro r₁ g₁ r₂ g₂ h₁ h₂ hne
  obtain ⟨linked₁, hlinked₁⟩ := (hauth.grant h₁).isSubtree
  obtain ⟨linked₂, hlinked₂⟩ := (hauth.grant h₂).isSubtree
  refine ⟨linked₁, linked₂, hlinked₁, hlinked₂, ?_⟩
  intro inode hmine hother
  rw [(subtree_eq_ok.mp hlinked₁).2.1] at hmine
  rw [(subtree_eq_ok.mp hlinked₂).2.1] at hother
  exact hauth.owns_disjoint h₁ h₂ hne hmine hother

/-! ### Both directories are checked out and a file of the first is unlinked -/

def sampleStart : Delegated := ⟨DelegationState.new sampleBacking, sampleNamespace⟩

def samplePublished : Delegated := ⟨sampleGranted (BTreeSet.ofKeys [4]), sampleUnlinked⟩

theorem sampleStart_reachable : Reachable sampleStart ⟨sampleGranted ∅, sampleNamespace⟩ :=
  (Relation.ReflTransGen.single ⟨.checkout 2 "session-a", rfl⟩).tail ⟨.checkout 3 "session-b", rfl⟩

theorem samplePublished_step : Step ⟨sampleGranted ∅, sampleNamespace⟩ samplePublished :=
  ⟨.authorizePublish sampleUnlinked sampleToken, rfl⟩

theorem reachable_validates_published :
    samplePublished.authority.validate samplePublished.ns = .ok () :=
  have hbacking : ConcurrentBackingId.fromBytes (Vector.replicate 16 1) = .ok sampleBacking := rfl
  (reachable_validates hbacking rfl (sampleStart_reachable.tail samplePublished_step)).1

end Delegated

end MountRs
