import MountRs.Model.Delegation
import MountRs.Verification.Storage.Validation

/-! # Subtrees of a namespace

`subtree` collects what is linked below a directory. Its result is the set of
reachable inodes, and it depends only on the nodes of that set and on the
entries outside that name one of them. -/

namespace MountRs

open Except BTreeMap Namespace

def Namespace.Below (ns : Namespace) (root inode : InodeId) : Prop :=
  Worklist.Reaches ns.childrenAt root inode

variable {ns : Namespace} {inode : InodeId}

theorem Namespace.childrenAt_of_not_mem (h : inode ∉ ns.nodes.keys) : ns.childrenAt inode = [] := by
  rw [← get?_eq_none_iff] at h
  simp [childrenAt, entriesAt, h]

variable {root x : InodeId}

theorem mem_explore_iff_below :
    x ∈ Worklist.explore ns.childrenAt (subtreeFuel ns) [root] ∅ ↔ ns.Below root x := by
  refine Worklist.mem_explore_iff ns.nodes.keys.toFinset ?_ ?_ x
  · intro y hy
    exact childrenAt_of_not_mem (by simpa using hy)
  · rw [List.sum_toFinset _ ns.nodes.keys_nodup]
    exact le_rfl

/-- No directory outside the subtree has an entry for one of its inodes, the root excepted. -/
def Namespace.Confined (ns : Namespace) (root : InodeId) : Prop :=
  ∀ parent child, ¬ ns.Below root parent → child ∈ ns.childrenAt parent → child ≠ root →
    ¬ ns.Below root child

theorem subtree_eq_ok {found : BTreeSet InodeId} : subtree ns root = .ok found ↔
      isDirectoryAt ns root = true ∧ (∀ x, x ∈ found ↔ ns.Below root x) ∧ ns.Confined root := by
  simp only [subtree, bind_eq_ok, failIf_eq_ok, forM_eq_ok, pure_eq_ok, Bool.not_eq_false]
  constructor
  · rintro ⟨-, hroot, -, hscan, rfl⟩
    refine ⟨hroot, fun x => mem_explore_iff_below, ?_⟩
    intro parent child hparent hchild hne hbelow
    obtain ⟨entry, hentry, rfl⟩ := List.mem_map.mp hchild
    cases hnode : ns.nodes.get? parent with
    | none => simp [entriesAt, hnode] at hentry
    | some node =>
      have hthis := hscan (parent, node) (get?_eq_some_iff.mp hnode)
      refine hthis ⟨fun hf => hparent (mem_explore_iff_below.mp hf), entry, ?_, hne,
        mem_explore_iff_below.mpr hbelow⟩
      simpa [entriesAt, hnode] using hentry
  · rintro ⟨hroot, hfound, hconf⟩
    refine ⟨(), hroot, ⟨⟩, ?_, BTreeSet.ext fun x => ?_⟩
    · rintro ⟨parent, _⟩ hbinding ⟨hparent, entry, hentry, hne, hin⟩
      have hnode := get?_eq_some_iff.mpr hbinding
      refine hconf parent entry.inode (fun hb => hparent (mem_explore_iff_below.mpr hb))
        (List.mem_map_of_mem ?_) hne (mem_explore_iff_below.mp hin)
      simpa [entriesAt, hnode] using hentry
    · rw [mem_explore_iff_below, hfound x]

theorem isDirectoryAt_iff : isDirectoryAt ns inode = true ↔
      ∃ node, ns.nodes.get? inode = some node ∧ node.data.isDirectory = true := by
  simp [isDirectoryAt, Option.any_eq_true]

/-! ## Subtrees hold present, linked nodes -/

theorem Namespace.Below.present (hv : ns.Valid) (hroot : isDirectoryAt ns root = true)
    (h : ns.Below root x) : x ∈ ns.nodes.keys := by
  induction h with
  | refl =>
    obtain ⟨node, hnode, -⟩ := isDirectoryAt_iff.mp hroot
    exact mem_keys_iff.mpr ⟨node, hnode⟩
  | tail _ hstep _ => exact hv.child_present hstep

theorem Namespace.Below.linked {node : NodeMetadata} (hv : ns.Valid)
    (hroot : isDirectoryAt ns root = true) (h : ns.Below root x)
    (hnode : ns.nodes.get? x = some node) : node.stats.nlink ≠ 0 := by
  cases h with
  | refl =>
    obtain ⟨_, hnode', hdir⟩ := isDirectoryAt_iff.mp hroot
    rw [hnode] at hnode'
    cases hnode'
    have := hv.directory_nlink root node hnode hdir
    omega
  | tail _ hstep => exact hv.nlink_pos hnode hstep

/-! ## Frames -/

variable {ns' : Namespace}

theorem childrenAt_congr (h : ns'.nodes.get? x = ns.nodes.get? x) :
    ns'.childrenAt x = ns.childrenAt x := by
  simp [childrenAt, entriesAt, h]

theorem below_congr (h : ∀ x, ns.Below root x → ns'.nodes.get? x = ns.nodes.get? x) (x : InodeId) :
    ns'.Below root x ↔ ns.Below root x := by
  constructor
  · intro hx
    induction hx with
    | refl => exact .refl
    | tail _ hstep ih =>
      rw [childrenAt_congr (h _ ih)] at hstep
      exact ih.tail hstep
  · intro hx
    induction hx with
    | refl => exact .refl
    | tail hinit hstep ih =>
      refine ih.tail ?_
      rw [childrenAt_congr (h _ hinit)]
      exact hstep

/-! ## Removing unlinked nodes -/

namespace DelegationState

theorem get?_removeNodes (ns : Namespace) (inodes : List InodeId) (x : InodeId) :
    (removeNodes ns inodes).nodes.get? x = if x ∈ inodes then none else ns.nodes.get? x := by
  have hfold : ∀ (inodes : List InodeId) (nodes : BTreeMap InodeId NodeMetadata),
      (inodes.foldl (fun nodes inode => nodes.erase inode) nodes).get? x =
        if x ∈ inodes then none else nodes.get? x := by
    intro inodes
    induction inodes with
    | nil => simp
    | cons i rest ih =>
      intro nodes
      rw [List.foldl_cons, ih, get?_erase]
      by_cases hx : x = i
      · simp [hx]
      · simp [hx]
  exact hfold inodes ns.nodes

variable {ns : Namespace} {inode : InodeId}

theorem isUnlinkedOrphan_iff : isUnlinkedOrphan ns inode = true ↔
      ∃ node, ns.nodes.get? inode = some node ∧ node.stats.nlink = 0 ∧
        node.data.isDirectory = false := by
  simp [isUnlinkedOrphan, Option.any_eq_true]

theorem childrenAt_of_isUnlinkedOrphan (h : isUnlinkedOrphan ns inode = true) :
    ns.childrenAt inode = [] := by
  obtain ⟨node, hnode, -, hdir⟩ := isUnlinkedOrphan_iff.mp h
  have hnil : node.data.entries = [] := by
    cases hdata : node.data with
    | directory => simp [hdata, NodeData.isDirectory] at hdir
    | file | symlink | special => rfl
  simp [childrenAt, entriesAt, hnode, hnil]

variable {ns : Namespace} {inodes : List InodeId}

section

variable (horphan : ∀ i ∈ inodes, isUnlinkedOrphan ns i = true)
include horphan

theorem childrenAt_removeNodes
    (x : InodeId) : (removeNodes ns inodes).childrenAt x = ns.childrenAt x := by
  by_cases hx : x ∈ inodes
  · rw [childrenAt_of_isUnlinkedOrphan (horphan x hx)]
    simp [childrenAt, entriesAt, get?_removeNodes, hx]
  · exact childrenAt_congr (by simp [get?_removeNodes, hx])

theorem below_removeNodes
    (root : InodeId) : (removeNodes ns inodes).Below root = ns.Below root := by
  unfold Namespace.Below Worklist.Reaches
  simp only [childrenAt_removeNodes horphan]

theorem subtree_removeNodes
    {root : InodeId} {found : BTreeSet InodeId} (h : subtree ns root = .ok found) :
    subtree (removeNodes ns inodes) root = .ok found := by
  obtain ⟨hroot, hfound, hconf⟩ := subtree_eq_ok.mp h
  refine subtree_eq_ok.mpr ⟨?_, ?_, ?_⟩
  · obtain ⟨node, hnode, hdir⟩ := isDirectoryAt_iff.mp hroot
    have hnot : root ∉ inodes := by
      intro hmem
      obtain ⟨_, hnode', -, hfile⟩ := isUnlinkedOrphan_iff.mp (horphan root hmem)
      rw [hnode] at hnode'
      cases hnode'
      rw [hdir] at hfile
      cases hfile
    exact isDirectoryAt_iff.mpr ⟨node, by simp [get?_removeNodes, hnot, hnode], hdir⟩
  · intro x
    rw [below_removeNodes horphan]
    exact hfound x
  · intro parent child hparent hchild hne
    rw [below_removeNodes horphan] at hparent ⊢
    rw [childrenAt_removeNodes horphan] at hchild
    exact hconf parent child hparent hchild hne

end

end DelegationState

end MountRs
