import MountRs.Verification.Delegation.Runs

/-! # Accounting of unlinked nodes

A node without links is kept for the sessions that still have it open. It belongs
to exactly one active grant until that grant's owner drops it or is recovered. -/

namespace MountRs.Delegated

open DelegationState Except BTreeMap

def Unlinked (ns : Namespace) (inode : InodeId) : Prop :=
  ∃ node, ns.nodes.get? inode = some node ∧ node.stats.nlink = 0

def Recorded (state : DelegationState) (inode : InodeId) : Prop :=
  ∃ root grant, state.grants.get? root = some grant ∧ inode ∈ grant.orphanInodes

variable {current next : Delegated} {state : DelegationState} {inode : InodeId} {ns : Namespace}

theorem unlinked_of_recorded (h : Authority state ns) (hrecorded : Recorded state inode) :
    Unlinked ns inode := by
  obtain ⟨_, grant, hheld, horphan⟩ := hrecorded
  obtain ⟨node, hnode, hzero, -⟩ := isUnlinkedOrphan_iff.mp ((h.grant hheld).orphan inode horphan)
  exact ⟨node, hnode, hzero⟩

/-! ## One transition -/

variable {root : InodeId} {token : GrantToken}

theorem recorded_issue (fence : ℕ) (hfree : state.grants.get? root = none)
    (h : Recorded state inode) :
    Recorded { state with
      grants := state.grants.insert root { token, orphanInodes := ∅ }, nextFence := fence } inode := by
  obtain ⟨other, grant, hheld, horphan⟩ := h
  have hne : other ≠ root := by
    intro heq
    rw [heq, hfree] at hheld
    cases hheld
  exact ⟨other, grant, (get?_insert_of_ne _ _ hne).trans hheld, horphan⟩

variable {grant : DirectoryGrant}

theorem recorded_publish {state' : DelegationState} {old new : Namespace}
    (h : Authorized state old new token grant state')
    (hexact : ∀ inode, Unlinked old inode → Recorded state inode) (hunlinked : Unlinked new inode) :
    Recorded state' inode := by
  obtain ⟨node, hnode, hzero⟩ := hunlinked
  obtain ⟨orphans, horphans, hstate'⟩ := h.orphans
  have hmine : Owns old (token.root, grant) inode → Recorded state' inode := by
    intro howns
    refine ⟨token.root, { grant with orphanInodes := orphans }, ?_,
      (horphans inode).mpr ⟨howns, node, hnode, hzero⟩⟩
    simp [hstate', get?_modify, h.held]
  cases hold : old.nodes.get? inode with
  | none =>
    -- A fresh node lies below the root, where every node is linked.
    exfalso
    obtain ⟨_, hafter⟩ := h.after_ok
    have hfresh := h.fresh inode (get?_eq_none_iff.mp hold) (mem_keys_iff.mpr ⟨node, hnode⟩)
    exact hfresh.2.linked h.new_ok.valid (subtree_eq_ok.mp hafter).1 hnode hzero
  | some node' =>
    by_cases hsame : new.nodes.get? inode = some node'
    · rw [hsame] at hnode
      cases hnode
      obtain ⟨root, other, hheld, horphan⟩ := hexact inode ⟨node, hold, hzero⟩
      by_cases hroot : root = token.root
      · rw [hroot, h.held] at hheld
        cases hheld
        exact hmine (.inr horphan)
      · exact ⟨root, other, (h.get?_other hroot).trans hheld, horphan⟩
    · exact hmine (h.changed inode node' hold hsame).1

theorem recorded_retire (hheld : state.grants.get? root = some grant)
    (hexact : ∀ inode, Unlinked ns inode → Recorded state inode)
    (hunlinked : Unlinked (removeNodes ns grant.orphanInodes.keys) inode) :
    Recorded (state.retire root grant.token) inode := by
  obtain ⟨node, hnode, hzero⟩ := hunlinked
  rw [get?_removeNodes] at hnode
  split_ifs at hnode with hremoved
  obtain ⟨other, grant', hheld', horphan⟩ := hexact inode ⟨node, hnode, hzero⟩
  have hne : other ≠ root := by
    intro heq
    rw [heq, hheld] at hheld'
    cases hheld'
    exact hremoved horphan
  exact ⟨other, grant', (get?_erase_of_ne _ hne).trans hheld', horphan⟩

theorem Transition.recorded (h : Transition current next)
    (hexact : ∀ inode, Unlinked current.ns inode → Recorded current.authority inode)
    (inode : InodeId) (hunlinked : Unlinked next.ns inode) : Recorded next.authority inode := by
  cases h with
  | retry => exact hexact inode hunlinked
  | issue _ _ _ hfree => exact recorded_issue _ hfree (hexact inode hunlinked)
  | publish _ _ _ _ hauthorized =>
    exact recorded_publish hauthorized hexact hunlinked
  | retire _ _ hheld => exact recorded_retire hheld hexact hunlinked

/-! ## Whole runs -/

theorem Reachable.recorded {start : Delegated} (h : Reachable start current)
    (hstart : ∀ inode, Unlinked start.ns inode → Recorded start.authority inode) (inode : InodeId)
    (hunlinked : Unlinked current.ns inode) : Recorded current.authority inode := by
  induction h generalizing inode with
  | refl => exact hstart inode hunlinked
  | tail _ hstep ih =>
    obtain ⟨_, hcall⟩ := hstep
    exact (perform_transition hcall).2.recorded ih inode hunlinked

def Call.ends : Call → Bool
  | .checkin _ => true
  | .recover _ _ => true
  | _ => false

theorem linked_kept_of_ends {call : Call} (hends : Call.ends call = true)
    (h : current.perform call = .ok next) {node : NodeMetadata}
    (hnode : current.ns.nodes.get? inode = some node) (hlinked : node.stats.nlink ≠ 0) :
    next.ns.nodes.get? inode = some node := by
  have hauth := (perform_transition h).1
  cases call with
  | checkout | authorizePublish => cases hends
  | checkin =>
    obtain ⟨_, -, h⟩ := bind_eq_ok.mp h
    cases pure_eq_ok.mp h
    exact hnode
  | recover root =>
    obtain ⟨⟨_, _⟩, hrecover, h⟩ := bind_eq_ok.mp h
    cases pure_eq_ok.mp h
    rcases (recover_eq_ok hrecover).2 with ⟨-, -, rfl⟩ | ⟨-, grant, hheld, -, rfl, -, -⟩
    · exact hnode
    · have hkept : inode ∉ grant.orphanInodes.keys := by
        intro horphan
        obtain ⟨_, hnode', hzero⟩ :=
          unlinked_of_recorded hauth ⟨root, grant, hheld, horphan⟩
        rw [hnode] at hnode'
        cases hnode'
        exact hlinked hzero
      simp [get?_removeNodes, hkept, hnode]

/-- From a namespace without unlinked nodes every run keeps the unlinked nodes
the disjoint union of the orphan sets of the active grants; so without a grant
there are none, and ending a grant deletes no linked node. -/
theorem unlinked_iff_orphan_of_one_grant {backing : ConcurrentBackingId} {ns : Namespace}
    {current : Delegated}
    (hlinked : ∀ inode node, ns.nodes.get? inode = some node → 0 < node.stats.nlink)
    (hrun : Reachable ⟨DelegationState.new backing, ns⟩ current) :
    (∀ inode, (∃ node, current.ns.nodes.get? inode = some node ∧ node.stats.nlink = 0) ↔
      ∃! root, ∃ grant, current.authority.grants.get? root = some grant ∧
        inode ∈ grant.orphanInodes) ∧
      (current.authority.grants = ∅ → ∀ inode node, current.ns.nodes.get? inode = some node →
        0 < node.stats.nlink) ∧
      ∀ call next, Call.ends call = true → current.perform call = .ok next →
        ∀ inode node, current.ns.nodes.get? inode = some node → 0 < node.stats.nlink →
          next.ns.nodes.get? inode = some node := by
  have hrecorded : ∀ inode, Unlinked current.ns inode → Recorded current.authority inode := by
    refine hrun.recorded ?_
    rintro inode ⟨node, hnode, hzero⟩
    have := hlinked inode node hnode
    omega
  have hauth : current.authority.grants = ∅ ∨ Authority current.authority current.ns := by
    cases hrun with
    | refl => exact .inl rfl
    | tail _ hstep => exact .inr (authority_step hstep)
  refine ⟨?_, ?_, ?_⟩
  · intro inode
    rcases hauth with hnone | hauth
    · have : ¬ Recorded current.authority inode := by simp [Recorded, hnone]
      constructor
      · intro hunlinked
        exact absurd (hrecorded inode hunlinked) this
      · rintro ⟨root, ⟨grant, hheld, horphan⟩, -⟩
        exact absurd ⟨root, grant, hheld, horphan⟩ this
    · constructor
      · intro hunlinked
        obtain ⟨root, grant, hheld, horphan⟩ := hrecorded inode hunlinked
        refine ⟨root, ⟨grant, hheld, horphan⟩, ?_⟩
        rintro _ ⟨_, hheld', horphan'⟩
        by_contra hne
        exact hauth.owns_disjoint hheld' hheld hne (.inr horphan') (.inr horphan)
      · rintro ⟨root, ⟨grant, hheld, horphan⟩, -⟩
        exact unlinked_of_recorded hauth ⟨root, grant, hheld, horphan⟩
  · intro hnone inode node hnode
    by_contra hzero
    obtain ⟨_, _, hheld, -⟩ := hrecorded inode ⟨node, hnode, by omega⟩
    simp [hnone] at hheld
  · intro call next hends hperform inode node hnode hpos
    exact linked_kept_of_ends hends hperform hnode (by omega)

theorem unlinked_iff_orphan_of_one_grant_published :
    (∃ node, samplePublished.ns.nodes.get? 4 = some node ∧ node.stats.nlink = 0) ∧
      ∃! root, ∃ grant, samplePublished.authority.grants.get? root = some grant ∧
        4 ∈ grant.orphanInodes := by
  have hlinked : ∀ inode node, sampleNamespace.nodes.get? inode = some node →
      0 < node.stats.nlink := by
    have hall : ∀ binding ∈ sampleNamespace.nodes.entries, 0 < binding.2.stats.nlink := by decide
    exact fun inode node hnode => hall (inode, node) (get?_eq_some_iff.mp hnode)
  have hunlinked : ∃ node, samplePublished.ns.nodes.get? 4 = some node ∧ node.stats.nlink = 0 :=
    ⟨sampleFile 4 0, rfl, rfl⟩
  exact ⟨hunlinked, ((unlinked_iff_orphan_of_one_grant hlinked
    (sampleStart_reachable.tail samplePublished_step)).1 4).mp hunlinked⟩

end MountRs.Delegated
