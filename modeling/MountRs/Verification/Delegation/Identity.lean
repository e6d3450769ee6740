import MountRs.Verification.Delegation.Runs

/-! # Inode identity

An inode number names one object for the whole life of a delegated namespace,
whoever allocates, unlinks or recovers it. -/

namespace MountRs.Delegated

open DelegationState BTreeMap

/-- A later namespace allocates no number twice and keeps what makes up the
identity of the nodes that are still there. -/
structure Continues (before after : Namespace) : Prop where
  nextInode_le : before.nextInode ≤ after.nextInode
  absent : ∀ inode < before.nextInode, inode ∉ before.nodes.keys → inode ∉ after.nodes.keys
  identity : ∀ inode node node', before.nodes.get? inode = some node →
    after.nodes.get? inode = some node' → identityChanged node node' = false

theorem identityChanged_eq_false {node node' : NodeMetadata} : identityChanged node node' = false ↔
      node.stats.mode &&& S_IFMT = node'.stats.mode &&& S_IFMT ∧
        node.stats.dev = node'.stats.dev ∧ node.stats.birthtimeMs = node'.stats.birthtimeMs := by
  simp [identityChanged, and_assoc]

theorem Continues.refl (ns : Namespace) : Continues ns ns := by
  refine ⟨le_rfl, fun _ _ h => h, ?_⟩
  intro inode node node' hnode hnode'
  rw [hnode] at hnode'
  cases hnode'
  exact identityChanged_eq_false.mpr ⟨rfl, rfl, rfl⟩

theorem Continues.trans {a b c : Namespace} (ha : a.Valid) (hab : Continues a b)
    (hbc : Continues b c) : Continues a c := by
  refine ⟨hab.nextInode_le.trans hbc.nextInode_le, ?_, ?_⟩
  · intro inode hlt habsent
    exact hbc.absent inode (lt_of_lt_of_le hlt hab.nextInode_le) (hab.absent inode hlt habsent)
  · intro inode node node' hnode hnode'
    have hlt := ha.key_lt inode (mem_keys_iff.mpr ⟨node, hnode⟩)
    -- Between two namespaces that have the inode there is none that lacks it.
    have hbetween : inode ∈ b.nodes.keys := by
      by_contra hgone
      exact hbc.absent inode (lt_of_lt_of_le hlt hab.nextInode_le) hgone
        (mem_keys_iff.mpr ⟨node', hnode'⟩)
    obtain ⟨middle, hmiddle⟩ := mem_keys_iff.mp hbetween
    obtain ⟨hmode, hdev, hbirth⟩ :=
      identityChanged_eq_false.mp (hab.identity inode node middle hnode hmiddle)
    obtain ⟨hmode', hdev', hbirth'⟩ :=
      identityChanged_eq_false.mp (hbc.identity inode middle node' hmiddle hnode')
    exact identityChanged_eq_false.mpr ⟨hmode.trans hmode', hdev.trans hdev', hbirth.trans hbirth'⟩

theorem continues_publish {state state' : DelegationState} {old new : Namespace}
    {token : GrantToken} {grant : DirectoryGrant}
    (h : Authorized state old new token grant state') : Continues old new := by
  refine ⟨h.nextInode_le, ?_, ?_⟩
  · intro inode hlt habsent hpresent
    exact absurd (h.fresh inode habsent hpresent).1 (not_le.mpr hlt)
  · intro inode node node' hnode hnode'
    by_cases hsame : new.nodes.get? inode = some node
    · rw [hsame] at hnode'
      cases hnode'
      exact identityChanged_eq_false.mpr ⟨rfl, rfl, rfl⟩
    · exact (h.changed inode node hnode hsame).2 node' hnode'

theorem continues_removeNodes (ns : Namespace) (inodes : List InodeId) :
    Continues ns (removeNodes ns inodes) := by
  have hkept : ∀ inode node, (removeNodes ns inodes).nodes.get? inode = some node →
      ns.nodes.get? inode = some node := by
    intro inode node hnode
    rw [get?_removeNodes] at hnode
    split_ifs at hnode with hin
    exact hnode
  refine ⟨le_rfl, ?_, ?_⟩
  · intro inode _ habsent hpresent
    obtain ⟨node, hnode⟩ := mem_keys_iff.mp hpresent
    exact habsent (mem_keys_iff.mpr ⟨node, hkept inode node hnode⟩)
  · intro inode node node' hnode hnode'
    rw [hkept inode node' hnode'] at hnode
    cases hnode
    exact identityChanged_eq_false.mpr ⟨rfl, rfl, rfl⟩

variable {current : Delegated}

theorem Step.continues {next : Delegated} (h : Step current next) :
    Continues current.ns next.ns := by
  obtain ⟨_, hcall⟩ := h
  obtain ⟨-, htransition⟩ := perform_transition hcall
  cases htransition with
  | retry | issue => exact .refl _
  | publish _ _ _ _ hauthorized => exact continues_publish hauthorized
  | retire => exact continues_removeNodes _ _

variable {start : Delegated}

theorem Reachable.validate (h : Reachable start current) (hns : start.ns.validate = .ok ()) :
    current.ns.validate = .ok () := by
  cases h with
  | refl => exact hns
  | tail _ hstep => exact (authority_step hstep).namespace_ok

theorem Reachable.continues (h : Reachable start current) (hns : start.ns.validate = .ok ()) :
    Continues start.ns current.ns := by
  induction h with
  | refl => exact .refl _
  | tail _ hstep ih => exact ih.trans (Namespace.valid_of_validate hns) hstep.continues

/-- Along a run from a validated namespace the allocator never goes back, a
removed inode never comes back, and one that is still there is of the same kind,
on the same device and as old as it was. -/
theorem reachable_keeps_identity {start a b c : Delegated} (hns : start.ns.validate = .ok ())
    (ha : Reachable start a) (hab : Reachable a b) (hbc : Reachable b c) :
    a.ns.nextInode ≤ b.ns.nextInode ∧
      (∀ inode ∈ a.ns.nodes.keys, inode ∉ b.ns.nodes.keys → inode ∉ c.ns.nodes.keys) ∧
      ∀ inode node node', a.ns.nodes.get? inode = some node → c.ns.nodes.get? inode = some node' →
        node.stats.mode &&& S_IFMT = node'.stats.mode &&& S_IFMT ∧
          node.stats.dev = node'.stats.dev ∧ node.stats.birthtimeMs = node'.stats.birthtimeMs := by
  have hvalid := ha.validate hns
  have hfirst := hab.continues hvalid
  have hsecond := hbc.continues (hab.validate hvalid)
  refine ⟨hfirst.nextInode_le, ?_, ?_⟩
  · intro inode hpresent hgone
    have hlt := (Namespace.valid_of_validate hvalid).key_lt inode hpresent
    exact hsecond.absent inode (lt_of_lt_of_le hlt hfirst.nextInode_le) hgone
  · intro inode node node' hnode hnode'
    have hall := hfirst.trans (Namespace.valid_of_validate hvalid) hsecond
    exact identityChanged_eq_false.mp (hall.identity inode node node' hnode hnode')

/-- The crashed owner of the first directory is recovered, which removes its unlinked file. -/
def sampleRecovered : Delegated :=
  ⟨(sampleGranted (BTreeSet.ofKeys [4])).retire 2 sampleToken, removeNodes sampleUnlinked [4]⟩

theorem sampleRecovered_step : Step samplePublished sampleRecovered := ⟨.recover 2 1, rfl⟩

theorem reachable_keeps_identity_recovered :
    4 ∈ samplePublished.ns.nodes.keys ∧ 4 ∉ sampleRecovered.ns.nodes.keys ∧
      ∀ later, Reachable sampleRecovered later → 4 ∉ later.ns.nodes.keys := by
  have hpresent : 4 ∈ samplePublished.ns.nodes.keys := by decide
  have hgone : 4 ∉ sampleRecovered.ns.nodes.keys := by decide
  refine ⟨hpresent, hgone, fun later hlater => ?_⟩
  have hstart : sampleStart.ns.validate = .ok () := rfl
  exact (reachable_keeps_identity hstart (sampleStart_reachable.tail samplePublished_step)
    (.single sampleRecovered_step) hlater).2.1 4 hpresent hgone

end MountRs.Delegated
