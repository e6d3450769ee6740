import MountRs.Verification.Delegation.Operations

/-! # Isolation of the owners of disjoint directories

A publication is compared node by node with the authoritative namespace, so
whatever the publisher proposes, the subtrees and orphans of the other grants
come out of it unchanged. -/

namespace MountRs.DelegationState

open BTreeMap

/-! ## What a publication leaves alone -/

namespace Authorized

variable {state state' : DelegationState} {old new : Namespace} {token : GrantToken}
  {grant : DirectoryGrant} {inode : InodeId}

theorem unowned (h : Authorized state old new token grant state') {node : NodeMetadata}
    (hnode : old.nodes.get? inode = some node) (hout : ¬ Owns old (token.root, grant) inode) :
    new.nodes.get? inode = some node := by
  by_contra hchanged
  exact hout (h.changed inode node hnode hchanged).1

theorem get?_other (h : Authorized state old new token grant state') {root : InodeId}
    (hne : root ≠ token.root) : state'.grants.get? root = state.grants.get? root := by
  obtain ⟨orphans, -, rfl⟩ := h.orphans
  simp [get?_modify, hne]

variable {root : InodeId} {other : DirectoryGrant}

section

variable (h : Authorized state old new token grant state')
include h

section

variable (hother : state.grants.get? root = some other)
include hother

variable (hne : root ≠ token.root)
include hne

theorem owned_by_other (howns : Owns old (root, other) inode) :
    ∃ node, old.nodes.get? inode = some node ∧ new.nodes.get? inode = some node := by
  have hgrant := h.old_ok.grant hother
  have hpresent : inode ∈ old.nodes.keys := by
    rcases howns with hbelow | horphan
    · obtain ⟨_, hlinked⟩ := hgrant.isSubtree
      exact hbelow.present h.old_ok.valid (subtree_eq_ok.mp hlinked).1
    · obtain ⟨node, hnode, -⟩ := isUnlinkedOrphan_iff.mp (hgrant.orphan inode horphan)
      exact mem_keys_iff.mpr ⟨node, hnode⟩
  obtain ⟨node, hnode⟩ := mem_keys_iff.mp hpresent
  exact ⟨node, hnode, h.unowned hnode (h.old_ok.owns_disjoint hother h.held hne howns)⟩

theorem below_other (inode : InodeId) : new.Below root inode ↔ old.Below root inode := by
  apply below_congr
  intro x hx
  obtain ⟨_, hold, hnew⟩ := h.owned_by_other hother hne (.inl hx)
  rw [hold, hnew]

theorem subtree_other :
    ∃ linked, subtree old root = .ok linked ∧ subtree new root = .ok linked := by
  obtain ⟨linked, hlinked⟩ := (h.old_ok.grant hother).isSubtree
  obtain ⟨linked', hlinked'⟩ :=
    (h.new_ok.grant ((h.get?_other hne).trans hother)).isSubtree
  have heq : linked' = linked := by
    apply BTreeSet.ext
    intro inode
    rw [(subtree_eq_ok.mp hlinked').2.1, (subtree_eq_ok.mp hlinked).2.1]
    exact h.below_other hother hne inode
  exact ⟨linked, hlinked, heq ▸ hlinked'⟩

end

end

end Authorized

/-! ## The isolation theorem -/

/-- Whatever namespace a publisher proposes, an accepted publication changes only
nodes of its own grant, adds nodes only below its root, and leaves the subtree
and the orphans of every other grant as they were. -/
theorem authorizePublish_isolates {state state' : DelegationState} {old new : Namespace}
    {token : GrantToken} (h : state.authorizePublish old new token = .ok state') :
    ∃ grant before after, state.grants.get? token.root = some grant ∧ grant.token = token ∧
      subtree old token.root = .ok before ∧ subtree new token.root = .ok after ∧
      (∀ inode node, old.nodes.get? inode = some node → inode ∉ before →
        inode ∉ grant.orphanInodes → new.nodes.get? inode = some node) ∧
      (∀ inode ∈ new.nodes.keys, inode ∉ old.nodes.keys → inode ∈ after) ∧
      ∀ root other, state.grants.get? root = some other → root ≠ token.root →
        ∃ linked, subtree old other.token.root = .ok linked ∧
          subtree new other.token.root = .ok linked ∧
          (∀ inode ∈ linked, new.nodes.get? inode = old.nodes.get? inode) ∧
          ∀ inode ∈ other.orphanInodes, new.nodes.get? inode = old.nodes.get? inode := by
  obtain ⟨grant, hpub⟩ := authorizePublish_eq_ok h
  obtain ⟨before, hbefore⟩ := hpub.before_ok
  obtain ⟨after, hafter⟩ := hpub.after_ok
  have hmem := (subtree_eq_ok.mp hbefore).2.1
  refine ⟨grant, before, after, hpub.held, hpub.token_eq, hbefore, hafter, ?_, ?_, ?_⟩
  · intro inode node hnode hout horphan
    refine hpub.unowned hnode ?_
    rw [Owns, not_or]
    exact ⟨fun hbelow => hout ((hmem inode).mpr hbelow), horphan⟩
  · intro inode hpresent habsent
    exact ((subtree_eq_ok.mp hafter).2.1 inode).mpr (hpub.fresh inode habsent hpresent).2
  · intro root other hother hne
    have hsame : ∀ inode, Owns old (root, other) inode →
        new.nodes.get? inode = old.nodes.get? inode := by
      intro inode howns
      obtain ⟨_, hold, hnew⟩ := hpub.owned_by_other hother hne howns
      rw [hold, hnew]
    obtain ⟨linked, hlinked, hlinked'⟩ := hpub.subtree_other hother hne
    rw [← (hpub.old_ok.grant hother).key_eq]
    refine ⟨linked, hlinked, hlinked', ?_, fun inode horphan => hsame inode (.inr horphan)⟩
    intro inode hin
    exact hsame inode (.inl (((subtree_eq_ok.mp hlinked).2.1 inode).mp hin))

/-! ## A session on the namespace of the unit tests -/

def sampleChunker : ChunkerConfig :=
  { algorithm := "fixed-size", version := 1, parameters := BTreeMap.ofList [("chunk_size", 4096)] }

def sampleStats (ino : InodeId) (mode : UInt32) (nlink : ℕ) : Stats :=
  { dev := 1, ino, mode, nlink, uid := 0, gid := 0, rdev := 0, size := 0, blksize := 4096,
    blocks := 0, atimeMs := 0, mtimeMs := 0, ctimeMs := 0, birthtimeMs := 0 }

def sampleDirectory (ino : InodeId) (nlink : ℕ) (entries : List DirectoryEntry) : NodeMetadata :=
  { stats := sampleStats ino (S_IFDIR ||| 0o755) nlink, data := .directory entries }

def sampleFile (ino : InodeId) (nlink : ℕ) : NodeMetadata :=
  { stats := sampleStats ino (S_IFREG ||| 0o600) nlink,
    data := .file { chunker := sampleChunker, extents := [] } }

/-- The root has the directories `a` and `b`, each with one file. -/
def sampleNamespace : Namespace :=
  { formatVersion := 1, root := 1, nextInode := 8, defaultUid := 0, defaultGid := 0,
    umask := 0o022, defaultChunker := sampleChunker
    nodes := BTreeMap.ofList
      [(1, sampleDirectory 1 4 [⟨"a", 2⟩, ⟨"b", 3⟩]), (2, sampleDirectory 2 2 [⟨"file", 4⟩]),
        (3, sampleDirectory 3 2 [⟨"file", 5⟩]), (4, sampleFile 4 1), (5, sampleFile 5 1)] }

/-- The file of `a` has been unlinked and is still open. -/
def sampleUnlinked : Namespace :=
  { sampleNamespace with
    nodes := (sampleNamespace.nodes.insert 2 (sampleDirectory 2 2 [])).insert 4 (sampleFile 4 0) }

def sampleBacking : ConcurrentBackingId := ⟨Vector.replicate 16 1⟩

def sampleToken : GrantToken := { root := 2, owner := "session-a", fence := 1 }

/-- Both directories are checked out; the first grant owns the given orphans. -/
def sampleGranted (orphanInodes : BTreeSet InodeId) : DelegationState :=
  { backing := sampleBacking, nextFence := 3, retired := ∅
    grants := BTreeMap.ofList
      [(2, { token := sampleToken, orphanInodes }),
        (3, { token := { root := 3, owner := "session-b", fence := 2 }, orphanInodes := ∅ })] }

theorem authorizePublish_isolates_unlink :
    (sampleGranted ∅).authorizePublish sampleNamespace sampleUnlinked sampleToken =
        .ok (sampleGranted (BTreeSet.ofKeys [4])) ∧
      sampleUnlinked.nodes.get? 5 = sampleNamespace.nodes.get? 5 := by
  have hok : (sampleGranted ∅).authorizePublish sampleNamespace sampleUnlinked sampleToken =
      .ok (sampleGranted (BTreeSet.ofKeys [4])) := by rfl
  refine ⟨hok, ?_⟩
  obtain ⟨grant, before, _, hgrant, -, hbefore, -, hsame, -⟩ := authorizePublish_isolates hok
  have hb : before = BTreeSet.ofKeys [2, 4] := by
    have : subtree sampleNamespace sampleToken.root = .ok (BTreeSet.ofKeys [2, 4]) := by rfl
    rw [this] at hbefore
    exact (Except.ok.inj hbefore).symm
  have hg : grant.orphanInodes = ∅ := by
    have : (sampleGranted ∅).grants.get? sampleToken.root = some ⟨sampleToken, ∅⟩ := by rfl
    rw [this] at hgrant
    rw [← Option.some.inj hgrant]
  exact hsame 5 (sampleFile 5 1) rfl (by rw [hb]; decide) (by rw [hg]; decide)

end MountRs.DelegationState
