import MountRs.Verification.Chunked.Extents
import MountRs.Verification.Storage.Validation

/-! # The namespaces that validation accepts

`Namespace::validate` accepts exactly the well-formed namespaces. With one parent for every
directory but the root, its traversal meets no directory twice, and it meets all of them
exactly when all are reachable. -/

namespace MountRs

open Except BTreeMap Namespace Worklist List

variable {ns : Namespace}

/-- The directories that a directory names. -/
def Namespace.subdirectories (ns : Namespace) (inode : InodeId) : List InodeId :=
  (ns.childrenAt inode).filter ns.isDirectory

/-- The data of a node is what its mode says, and the extents of a file are in order. -/
def NodeMetadata.KindMatches (node : NodeMetadata) : Prop :=
  let kind := node.stats.mode &&& S_IFMT
  match node.data with
  | .directory _ => kind = S_IFDIR
  | .file layout => kind = S_IFREG ∧ Chunked.GoodExtents layout.extents node.stats.size
  | .symlink _ => kind = S_IFLNK
  | .special => kind = S_IFBLK ∨ kind = S_IFCHR ∨ kind = S_IFIFO ∨ kind = S_IFSOCK

structure Namespace.WellFormed (ns : Namespace) : Prop where
  root : ∃ node, ns.nodes.get? ns.root = some node ∧ node.stats.mode &&& S_IFMT = S_IFDIR
  keys : ∀ inode node, ns.nodes.get? inode = some node →
    inode ≠ 0 ∧ node.stats.ino = inode ∧ inode < ns.nextInode ∧ inode ≠ U64_MAX
  kinds : ∀ inode node, ns.nodes.get? inode = some node → node.KindMatches
  entries : ∀ inode node, ns.nodes.get? inode = some node → EntriesValid ns node.data.entries
  parents : ∀ inode, ns.isDirectory inode = true →
    ns.referenceCount inode = if inode = ns.root then 0 else 1
  reachable : ∀ inode, ns.isDirectory inode = true →
    Worklist.Reaches ns.subdirectories ns.root inode
  directoryLinks : ∀ inode node, ns.nodes.get? inode = some node → node.data.isDirectory = true →
    node.stats.nlink = 2 + (ns.subdirectories inode).length
  links : ∀ inode node, ns.nodes.get? inode = some node → node.data.isDirectory = false →
    node.stats.nlink = ns.referenceCount inode

/-! ## Single checks -/

variable {node : NodeMetadata}

theorem NodeMetadata.KindMatches.isDirectory_of_mode (h : node.KindMatches)
    (hmode : node.stats.mode &&& S_IFMT = S_IFDIR) : node.data.isDirectory = true := by
  unfold NodeMetadata.KindMatches at h
  rw [hmode] at h
  cases hdata : node.data with
  | directory => rfl
  | file =>
    simp only [hdata] at h
    exact absurd h.1 (by decide)
  | symlink | special =>
    simp only [hdata] at h
    exact absurd h (by decide)

theorem NodeData.entries_eq_nil {data : NodeData} (h : data.isDirectory = false) :
    data.entries = [] := by
  cases data with
  | directory => simp [NodeData.isDirectory] at h
  | _ => rfl

variable {inode : InodeId}

theorem isDirectory_iff : ns.isDirectory inode = true ↔
    ∃ node, ns.nodes.get? inode = some node ∧ node.data.isDirectory = true := by
  unfold isDirectory
  cases ns.nodes.get? inode <;> simp

theorem childrenAt_of_get? (h : ns.nodes.get? inode = some node) :
    ns.childrenAt inode = node.data.entries.map DirectoryEntry.inode := by
  simp [childrenAt, entriesAt, h]

theorem childDirectories_eq (h : ns.nodes.get? inode = some node) :
    childDirectories ns node = ns.subdirectories inode := by
  rw [subdirectories, childrenAt_of_get? h]
  rfl

theorem validateNodeKind_eq_ok
    (hchunker : ∀ layout, node.data = .file layout → ∃ c, fromConfig layout.chunker = .ok c) :
    validateNodeKind node = .ok () ↔ node.KindMatches := by
  unfold validateNodeKind NodeMetadata.KindMatches
  cases hdata : node.data with
  | directory | symlink => simp
  | special => simp [or_iff_not_imp_left]
  | file layout =>
    have hlayout : validateFileLayout layout node.stats.size = .ok () ↔
        Chunked.GoodExtents layout.extents node.stats.size := by
      rw [Chunked.validateFileLayout_eq_ok]
      exact and_iff_right (hchunker layout hdata)
    by_cases hmode : node.stats.mode &&& S_IFMT = S_IFREG
    · simp only [hmode, if_true, true_and, ← hlayout, bind_eq_ok, pure_eq_ok, failIf_eq_ok]
      constructor
      · rintro ⟨⟨⟩, h, -⟩
        exact h
      · exact fun h => ⟨(), h, by simp⟩
    · simp [hmode]

theorem validateNodeLinks_eq_ok {references : BTreeMap InodeId ℕ} :
    validateNodeLinks ns references = .ok () ↔ ∀ inode node, ns.nodes.get? inode = some node →
      node.data.isDirectory = false → node.stats.nlink = (references.get? inode).getD 0 := by
  refine ⟨fun h inode node => validateNodeLinks_spec h, fun h => forM_eq_ok.mpr ?_⟩
  rintro ⟨inode, node⟩ hmem
  have hnlink := h inode node (get?_eq_some_iff.mpr hmem)
  cases hdir : node.data.isDirectory with
  | true => simp [pure_eq_ok]
  | false =>
    simp only [Bool.false_eq_true, if_false, hnlink hdir]
    split <;> simp_all

/-! ## The traversal -/

theorem visitDirectories_eq (fuel : ℕ) (pending : List InodeId) (visited : BTreeSet InodeId)
    (h : ∀ inode ∈ pending, ns.isDirectory inode = true) :
    visitDirectories ns fuel pending visited =
      okOr (visit ns.subdirectories fuel pending visited)
        (invalidNamespace "directory graph contains a cycle or hard-linked directory") := by
  induction fuel generalizing pending visited with
  | zero => rfl
  | succ fuel ih =>
    cases pending with
    | nil => rfl
    | cons inode =>
      obtain ⟨_, hnode, -⟩ := isDirectory_iff.mp (h inode mem_cons_self)
      rw [visitDirectories, visit, hnode]
      by_cases hvisited : inode ∈ visited
      · simp [hvisited, failIf, okOr]
      · simp only [hvisited, failIf, if_false, ok_bind, okOr, childDirectories_eq hnode]
        apply ih
        intro other hother
        rcases mem_append.mp hother with hother | hother
        · exact (mem_filter.mp (mem_reverse.mp hother)).2
        · exact h other (mem_cons_of_mem _ hother)

def Namespace.directories (ns : Namespace) : Finset InodeId :=
  ns.nodes.keys.toFinset.filter fun inode => ns.isDirectory inode = true

theorem mem_directories : inode ∈ ns.directories ↔ ns.isDirectory inode = true := by
  rw [directories, Finset.mem_filter, mem_toFinset]
  refine ⟨fun h => h.2, fun h => ⟨?_, h⟩⟩
  obtain ⟨node, hnode, -⟩ := isDirectory_iff.mp h
  exact mem_keys_iff.mpr ⟨node, hnode⟩

variable {child : InodeId} {parent : InodeId}

theorem isDirectory_of_mem_childrenAt (h : child ∈ ns.childrenAt parent) :
    ns.isDirectory parent = true := by
  obtain ⟨_, hentry, -⟩ := mem_map.mp h
  unfold entriesAt at hentry
  cases hnode : ns.nodes.get? parent with
  | none => simp [hnode] at hentry
  | some node =>
    refine isDirectory_iff.mpr ⟨node, hnode, ?_⟩
    by_contra hdir
    simp [hnode, NodeData.entries_eq_nil (Bool.eq_false_iff.mpr hdir)] at hentry

theorem indegree_directories (h : ns.isDirectory inode = true) :
    indegree ns.subdirectories ns.directories inode = ns.referenceCount inode := by
  have hcount : ∀ x, (ns.subdirectories x).count inode = (ns.childrenAt x).count inode :=
    fun x => count_filter h
  have hnone : ∀ x ∈ ns.nodes.keys.toFinset, ¬ ns.isDirectory x = true →
      (ns.childrenAt x).count inode = 0 := by
    intro x _ hx
    exact count_eq_zero.mpr fun hmem => hx (isDirectory_of_mem_childrenAt hmem)
  unfold indegree directories
  simp only [hcount]
  rw [Finset.sum_filter_of_ne fun x hx hne => by_contra fun hdir => hne (hnone x hx hdir),
    sum_toFinset _ ns.nodes.keys_nodup, referenceCount_eq, map_flatMap,
    count_flatMap, BTreeMap.keys, map_map]
  refine congrArg List.sum (map_congr_left ?_)
  rintro ⟨_, _⟩ hmem
  simp [childrenAt_of_get? (get?_eq_some_iff.mpr hmem)]

theorem card_directories (ns : Namespace) : ns.directories.card =
    (ns.nodes.values.filter fun node => node.data.isDirectory).length := by
  have hkeys : ns.directories = ((ns.nodes.entries.filter fun binding =>
      binding.2.data.isDirectory).map Prod.fst).toFinset := by
    ext inode
    rw [mem_directories, isDirectory_iff, mem_toFinset, mem_map]
    constructor
    · rintro ⟨node, hnode, hdir⟩
      exact ⟨(inode, node), mem_filter.mpr ⟨get?_eq_some_iff.mp hnode, hdir⟩, rfl⟩
    · rintro ⟨⟨_, node⟩, hmem, rfl⟩
      rw [mem_filter] at hmem
      exact ⟨node, get?_eq_some_iff.mpr hmem.1, hmem.2⟩
  rw [hkeys, toFinset_card_of_nodup, length_map, values, filter_map,
    length_map]
  · rfl
  · exact ns.nodes.keys_nodup.sublist (filter_sublist.map _)

/-- Once every directory has its one parent, the traversal succeeds and meets all of them
exactly when all are reachable. -/
theorem traversal_iff (hroot : ns.isDirectory ns.root = true)
    (hparents : ∀ inode, ns.isDirectory inode = true →
      ns.referenceCount inode = if inode = ns.root then 0 else 1) :
    (∃ visited, visitDirectories ns (ns.nodes.size + 1) [ns.root] ∅ = .ok visited ∧
        visited.size = (ns.nodes.values.filter fun node => node.data.isDirectory).length) ↔
      ∀ inode, ns.isDirectory inode = true → Worklist.Reaches ns.subdirectories ns.root inode := by
  have hstart : Worklist.Visiting ns.subdirectories ns.directories ns.root [ns.root] ∅ := by
    refine ⟨?_, fun y => ?_⟩
    · rintro x (hx | hx)
      · rw [mem_singleton.mp hx]
        exact ⟨mem_directories.mpr hroot, .refl⟩
      · exact absurd hx (BTreeSet.not_mem_empty x)
    · have hcount : [ns.root].count y = if y = ns.root then 1 else 0 := by
        rw [count_singleton]
        exact if_congr (beq_iff_eq.trans eq_comm) rfl rfl
      simp [indegree, hcount]
  have hclosed : ∀ x ∈ ns.directories, ∀ y ∈ ns.subdirectories x, y ∈ ns.directories :=
    fun x _ y hy => mem_directories.mpr (mem_filter.mp hy).2
  have hdegree : ∀ y ∈ ns.directories, indegree ns.subdirectories ns.directories y =
      if y = ns.root then 0 else 1 := by
    intro y hy
    rw [indegree_directories (mem_directories.mp hy), hparents y (mem_directories.mp hy)]
  have hfuel : ns.directories.card < (∅ : BTreeSet InodeId).size + (ns.nodes.size + 1) := by
    have hle : ns.directories.card ≤ ns.nodes.keys.toFinset.card :=
      Finset.card_le_card (Finset.filter_subset _ _)
    rw [← size_eq_card_keys] at hle
    omega
  obtain ⟨_, hlast, hsubset, hreaches⟩ := visit_spec hclosed hdegree hstart hfuel
  rw [visitDirectories_eq _ _ _ (by simpa using hroot), hlast, ← card_directories]
  simp only [okOr, Except.ok.injEq, exists_eq_left', size_eq_card_keys]
  constructor
  · intro hcard inode hdir
    have heq := Finset.eq_of_subset_of_card_le hsubset hcard.ge
    rw [← hreaches]
    exact mem_toFinset.mp (heq ▸ mem_directories.mpr hdir)
  · intro hall
    refine le_antisymm (Finset.card_le_card hsubset) (Finset.card_le_card ?_)
    intro inode hdir
    exact mem_toFinset.mpr ((hreaches inode).mpr (hall inode (mem_directories.mp hdir)))

/-! ## The whole check -/

theorem validate_eq_ok (hversion : ns.formatVersion = NAMESPACE_FORMAT_VERSION)
    (hdefault : ∃ c, fromConfig ns.defaultChunker = .ok c) :
    ns.validate = .ok () ↔
      (∃ last, ns.nodes.keys.getLast? = some last ∧ last ≠ U64_MAX ∧ last < ns.nextInode) ∧
      (ns.root ≠ 0 ∧ ∃ root, ns.nodes.get? ns.root = some root ∧
        root.stats.mode &&& S_IFMT = S_IFDIR) ∧
      (∀ binding ∈ ns.nodes.entries, validateNodeIdentity binding = .ok ()) ∧
      ∃ counts, ns.nodes.entries.foldlM (scanNode ns) ⟨∅, ∅, ∅⟩ = .ok counts ∧
        validateDirectoryLinks ns counts.directoryReferences counts.directoryChildren = .ok () ∧
        validateNodeLinks ns counts.references = .ok () := by
  obtain ⟨_, hchunker⟩ := hdefault
  simp only [validate, validateFormatVersion, hversion, hchunker, bind_eq_ok, okOr_eq_ok,
    failIf_eq_ok, forM_eq_ok, lt_irrefl, not_false_eq_true, not_not, not_le, ok_bind]
  constructor
  · rintro ⟨-, -, last, hlast, -, hmax, -, hnext, -, hzero, root, hroot, -, hmode, -, hnodes, counts,
      hcounts, ⟨⟩, hdirs, hlinks⟩
    exact ⟨⟨last, hlast, hmax, hnext⟩, ⟨hzero, root, hroot, hmode⟩, hnodes, counts, hcounts, hdirs,
      hlinks⟩
  · rintro ⟨⟨last, hlast, hmax, hnext⟩, ⟨hzero, root, hroot, hmode⟩, hnodes, counts, hcounts, hdirs,
      hlinks⟩
    exact ⟨(), ⟨(), trivial, trivial⟩, last, hlast, (), hmax, (), hnext, (), hzero, root, hroot, (),
      hmode, (), hnodes, counts, hcounts, (), hdirs, hlinks⟩

theorem scan_succeeds (hvalid : ∀ binding ∈ ns.nodes.entries, EntriesValid ns binding.2.data.entries)
    (hcount : ∀ inode, ns.referenceCount inode ≤ U64_MAX)
    (hchildren : ∀ binding ∈ ns.nodes.entries, (childDirectories ns binding.2).length < U64_MAX) :
    ∃ counts, ns.nodes.entries.foldlM (scanNode ns) ⟨∅, ∅, ∅⟩ = .ok counts := by
  refine foldlM_exists (ScannedNodes ns) ?_ (scannedNodes_empty ns)
  intro done counts binding hinit hscanned
  suffices hok : ∃ counts', scanNode ns counts binding = .ok counts' by
    obtain ⟨counts', hcounts'⟩ := hok
    exact ⟨counts', hcounts', hscanned.step hinit hcounts'⟩
  have hmem : binding ∈ ns.nodes.entries := hinit.subset (by simp)
  unfold scanNode
  split
  · rename_i entries hdata
    have hentries : binding.2.data.entries = entries := by rw [hdata]; rfl
    have hvalid := hvalid binding hmem
    have hchildren := hchildren binding hmem
    rw [hentries] at hvalid
    rw [childDirectories, hentries] at hchildren
    obtain ⟨scan, hscan⟩ : ∃ scan, entries.foldlM (scanEntry ns) ⟨∅, 0, counts⟩ = .ok scan := by
      refine foldlM_exists (fun seen scan => Scanned ns _ seen _ scan) ?_ hscanned.start
      intro seen scan entry hseen hscan
      suffices hok : ∃ scan', scanEntry ns scan entry = .ok scan' by
        obtain ⟨scan', hscan'⟩ := hok
        exact ⟨scan', hscan', hscan.step hscan'⟩
      obtain ⟨rest, rfl⟩ := hseen
      obtain ⟨_, hlater⟩ := hinit
      apply hscan.progress
      · refine ⟨fun e he => hvalid.names e (mem_append_left _ he), ?_,
          fun e he => hvalid.present e (mem_append_left _ he)⟩
        exact hvalid.unique.sublist ((sublist_append_left _ _).map _)
      · have htotal := hcount entry.inode
        rw [referenceCount_eq, ← hlater] at htotal
        simp only [flatMap_append, flatMap_singleton, hentries, map_append,
          count_append, map_singleton, count_singleton_self] at htotal ⊢
        omega
      · refine lt_of_le_of_lt (List.Sublist.length_le ?_) hchildren
        exact ((sublist_append_left seen _).trans (sublist_append_left _ rest)).map _
          |>.filter _
    exact ⟨_, by rw [hscan]; rfl⟩
  · exact ⟨counts, rfl⟩

theorem validateDirectoryLinks_eq_ok {counts : LinkCounts}
    (h : ScannedNodes ns ns.nodes.entries counts) :
    validateDirectoryLinks ns counts.directoryReferences counts.directoryChildren = .ok () ↔
      (∀ inode node, ns.nodes.get? inode = some node → node.data.isDirectory = true →
        ns.referenceCount inode = (if inode = ns.root then 0 else 1) ∧
        node.stats.nlink = 2 + (ns.subdirectories inode).length ∧
        2 + (ns.subdirectories inode).length ≤ U64_MAX) ∧
      ∃ visited, visitDirectories ns (ns.nodes.size + 1) [ns.root] ∅ = .ok visited ∧
        visited.size = (ns.nodes.values.filter fun node => node.data.isDirectory).length := by
  have hcheck : ∀ inode node, ns.nodes.get? inode = some node → node.data.isDirectory = true →
      (validateDirectoryLinkCounts (decide (inode = ns.root))
          ((counts.directoryReferences.get? inode).getD 0)
          ((counts.directoryChildren.get? inode).getD 0) node.stats.nlink = .ok () ↔
        ns.referenceCount inode = (if inode = ns.root then 0 else 1) ∧
        node.stats.nlink = 2 + (ns.subdirectories inode).length ∧
        2 + (ns.subdirectories inode).length ≤ U64_MAX) := by
    intro inode node hnode hdir
    have hreferences := h.counted.directories inode
    rw [if_pos (isDirectory_iff.mpr ⟨node, hnode, hdir⟩), ← referenceCount_eq] at hreferences
    rw [validateDirectoryLinkCounts_eq_ok, hreferences,
      h.children (inode, node) (get?_eq_some_iff.mp hnode) hdir, Option.getD_some,
      childDirectories_eq hnode]
    simp only [decide_eq_true_eq]
  simp only [validateDirectoryLinks, bind_eq_ok, forM_eq_ok, failIf_eq_ok, not_not]
  constructor
  · rintro ⟨-, hcounts, visited, hvisited, hsize⟩
    refine ⟨fun inode node hnode hdir => (hcheck inode node hnode hdir).mp ?_, visited, hvisited, hsize⟩
    simpa [hdir] using hcounts (inode, node) (get?_eq_some_iff.mp hnode)
  · rintro ⟨hcounts, visited, hvisited, hsize⟩
    refine ⟨(), ?_, visited, hvisited, hsize⟩
    rintro ⟨inode, node⟩ hmem
    split
    · rename_i hdir
      have hnode := get?_eq_some_iff.mpr hmem
      exact (hcheck inode node hnode hdir).mpr (hcounts inode node hnode hdir)
    · rfl

theorem present_of_childrenAt (h : ∀ inode node, ns.nodes.get? inode = some node →
    ∀ entry ∈ node.data.entries, entry.inode ∈ ns.nodes.keys)
    (hchild : child ∈ ns.childrenAt parent) : ∃ node, ns.nodes.get? child = some node := by
  cases hparent : ns.nodes.get? parent with
  | none => simp [childrenAt, entriesAt, hparent] at hchild
  | some node =>
    rw [childrenAt_of_get? hparent] at hchild
    obtain ⟨entry, hentry, rfl⟩ := mem_map.mp hchild
    exact mem_keys_iff.mp (h parent node hparent entry hentry)

theorem Namespace.WellFormed.referenceCount_le (h : ns.WellFormed)
    (hnlink : ∀ inode node, ns.nodes.get? inode = some node → node.stats.nlink ≤ U64_MAX)
    (inode : InodeId) : ns.referenceCount inode ≤ U64_MAX := by
  rcases Nat.eq_zero_or_pos (ns.referenceCount inode) with hzero | hpos
  · omega
  · obtain ⟨_, hchild⟩ := referenceCount_pos_iff.mp hpos
    obtain ⟨node, hnode⟩ := present_of_childrenAt (fun inode node hnode =>
      (h.entries inode node hnode).present) hchild
    cases hdir : node.data.isDirectory with
    | true =>
      rw [h.parents inode (isDirectory_iff.mpr ⟨node, hnode, hdir⟩)]
      split <;> decide
    | false =>
      rw [← h.links inode node hnode hdir]
      exact hnlink inode node hnode

theorem parent_unique (hparents : ∀ inode, ns.isDirectory inode = true →
      ns.referenceCount inode = if inode = ns.root then 0 else 1) {a b : InodeId}
    (ha : child ∈ ns.subdirectories a) (hb : child ∈ ns.subdirectories b) :
    child ≠ ns.root ∧ a = b := by
  have hdir : ns.isDirectory child = true := (mem_filter.mp ha).2
  have hsum : ∀ x, child ∈ ns.subdirectories x → x ∈ ns.directories := fun x hx =>
    mem_directories.mpr (isDirectory_of_mem_childrenAt (mem_filter.mp hx).1)
  have hdegree := (indegree_directories hdir).trans (hparents child hdir)
  have hpos := count_pos_iff.mpr ha
  unfold indegree at hdegree
  have hle := Finset.single_le_sum (f := fun x => (ns.subdirectories x).count child)
    (fun _ _ => Nat.zero_le _) (hsum a ha)
  refine ⟨fun hroot => ?_, by_contra fun hne => ?_⟩
  · rw [if_pos hroot] at hdegree
    omega
  · have hpair := Finset.add_le_sum (f := fun x => (ns.subdirectories x).count child)
      (fun _ _ => Nat.zero_le _) (hsum a ha) (hsum b hb) hne
    have hpos' := count_pos_iff.mpr hb
    split_ifs at hdegree <;> omega

/-- No directory lies below itself: a cycle would hold the parent of each of its members, and
so the root. -/
theorem Namespace.WellFormed.acyclic (h : ns.WellFormed) (hinode : ns.isDirectory inode = true)
    (hchild : child ∈ ns.subdirectories inode) :
    ¬ Worklist.Reaches ns.subdirectories child inode := by
  have hreaches := h.reachable inode hinode
  clear hinode
  induction hreaches generalizing child with
  | refl =>
    intro hcycle
    rcases Relation.ReflTransGen.cases_tail hcycle with heq | ⟨parent, -, hparent⟩
    · exact (parent_unique h.parents hchild hchild).1 heq.symm
    · exact (parent_unique h.parents hparent hparent).1 rfl
  | @tail _ _ _ hparent ih =>
    intro hcycle
    refine ih hparent ?_
    rcases Relation.ReflTransGen.cases_tail hcycle with rfl | ⟨last, hlast, hstep⟩
    · obtain ⟨-, rfl⟩ := parent_unique h.parents hparent hchild
      exact .refl
    · obtain ⟨-, rfl⟩ := parent_unique h.parents hparent hstep
      exact .head hchild hlast

theorem validate_eq_ok_iff_wellFormed (hversion : ns.formatVersion = NAMESPACE_FORMAT_VERSION)
    (hdefault : ∃ c, fromConfig ns.defaultChunker = .ok c)
    (hchunkers : ∀ inode node layout, ns.nodes.get? inode = some node → node.data = .file layout →
      ∃ c, fromConfig layout.chunker = .ok c) (hnext : ns.nextInode ≤ U64_MAX)
    (hnlink : ∀ inode node, ns.nodes.get? inode = some node → node.stats.nlink ≤ U64_MAX) :
    ns.validate = .ok () ↔ ns.WellFormed := by
  have hidentity : ∀ inode node, ns.nodes.get? inode = some node →
      (validateNodeIdentity (inode, node) = .ok () ↔
        inode ≠ 0 ∧ node.stats.ino = inode ∧ node.KindMatches) := by
    intro inode node hnode
    simp only [validateNodeIdentity, bind_eq_ok, failIf_eq_ok, not_not,
      validateNodeKind_eq_ok fun layout => hchunkers inode node layout hnode]
    constructor
    · rintro ⟨-, hzero, -, hino, hkind⟩
      exact ⟨hzero, hino, hkind⟩
    · rintro ⟨hzero, hino, hkind⟩
      exact ⟨(), hzero, (), hino, hkind⟩
  rw [validate_eq_ok hversion hdefault]
  constructor
  · rintro ⟨⟨_, hlast, -, hbelow⟩, ⟨-, root, hroot, hmode⟩, hnodes, _, hcounts, hdirs, hlinks⟩
    have hscanned := scannedNodes hcounts
    have hnode : ∀ inode node, ns.nodes.get? inode = some node →
        inode ≠ 0 ∧ node.stats.ino = inode ∧ node.KindMatches := fun inode node h =>
      (hidentity inode node h).mp (hnodes (inode, node) (get?_eq_some_iff.mp h))
    have hrootDir : ns.isDirectory ns.root = true := by
      exact isDirectory_iff.mpr
        ⟨root, hroot, (hnode ns.root root hroot).2.2.isDirectory_of_mode hmode⟩
    obtain ⟨hcount, hvisit⟩ := (validateDirectoryLinks_eq_ok hscanned).mp hdirs
    have hparents : ∀ inode, ns.isDirectory inode = true →
        ns.referenceCount inode = if inode = ns.root then 0 else 1 := by
      intro inode hdir
      obtain ⟨node, hget, hdir⟩ := isDirectory_iff.mp hdir
      exact (hcount inode node hget hdir).1
    refine ⟨⟨root, hroot, hmode⟩, ?_, fun inode node h => (hnode inode node h).2.2,
      fun inode node h => hscanned.valid (inode, node) (get?_eq_some_iff.mp h), hparents,
      (traversal_iff hrootDir hparents).mp hvisit,
      fun inode node h hdir => (hcount inode node h hdir).2.1, ?_⟩
    · intro inode node h
      obtain ⟨hzero, hino, -⟩ := hnode inode node h
      have hle := mem_keys_le_getLast hlast (mem_keys_iff.mpr ⟨node, h⟩)
      have hlt := lt_of_le_of_lt hle hbelow
      exact ⟨hzero, hino, hlt, (lt_of_lt_of_le hlt hnext).ne⟩
    · intro inode node h hfile
      rw [validateNodeLinks_spec hlinks h hfile, hscanned.counted.references, referenceCount_eq]
  · intro h
    obtain ⟨root, hroot, hmode⟩ := h.root
    have hrootDir : ns.isDirectory ns.root = true := by
      exact isDirectory_iff.mpr ⟨root, hroot, (h.kinds ns.root root hroot).isDirectory_of_mode hmode⟩
    have hdirectory : ∀ inode node, ns.nodes.get? inode = some node → node.data.isDirectory = true →
        2 + (ns.subdirectories inode).length ≤ U64_MAX := fun inode node hnode hdir =>
      h.directoryLinks inode node hnode hdir ▸ hnlink inode node hnode
    obtain ⟨counts, hcounts⟩ : ∃ counts,
        ns.nodes.entries.foldlM (scanNode ns) ⟨∅, ∅, ∅⟩ = .ok counts := by
      apply scan_succeeds
      · exact fun binding hmem => h.entries binding.1 binding.2 (get?_eq_some_iff.mpr hmem)
      · exact h.referenceCount_le hnlink
      · rintro ⟨inode, node⟩ hmem
        have hnode := get?_eq_some_iff.mpr hmem
        rw [childDirectories_eq hnode]
        cases hdir : node.data.isDirectory with
        | true => exact lt_of_lt_of_le (by omega) (hdirectory inode node hnode hdir)
        | false =>
          simp [subdirectories, childrenAt_of_get? hnode, NodeData.entries_eq_nil hdir,
            U64_MAX]
    have hscanned := scannedNodes hcounts
    refine ⟨?_, ⟨(h.keys ns.root root hroot).1, root, hroot, hmode⟩, ?_, counts, hcounts, ?_, ?_⟩
    · obtain ⟨last, hlast⟩ : ∃ last, ns.nodes.keys.getLast? = some last :=
        getLast?_isSome.mpr (ne_nil_of_mem (mem_keys_iff.mpr ⟨root, hroot⟩))
          |> Option.isSome_iff_exists.mp
      obtain ⟨node, hnode⟩ := mem_keys_iff.mp (mem_of_getLast? hlast)
      obtain ⟨-, -, hbelow, hmax⟩ := h.keys last node hnode
      exact ⟨last, hlast, hmax, hbelow⟩
    · rintro ⟨inode, node⟩ hmem
      have hnode := get?_eq_some_iff.mpr hmem
      obtain ⟨hzero, hino, -⟩ := h.keys inode node hnode
      exact (hidentity inode node hnode).mpr ⟨hzero, hino, h.kinds inode node hnode⟩
    · refine (validateDirectoryLinks_eq_ok hscanned).mpr
        ⟨fun inode node hnode hdir => ⟨?_, h.directoryLinks inode node hnode hdir,
          hdirectory inode node hnode hdir⟩, (traversal_iff hrootDir h.parents).mpr h.reachable⟩
      exact h.parents inode (isDirectory_iff.mpr ⟨node, hnode, hdir⟩)
    · refine validateNodeLinks_eq_ok.mpr fun inode node hnode hfile => ?_
      rw [hscanned.counted.references, ← referenceCount_eq]
      exact h.links inode node hnode hfile

/-- With a supported version and supported chunkers, and numbers in the range of `u64`,
validation accepts exactly the well-formed namespaces, and in these no directory lies below
itself. -/
theorem validate_iff_wellFormed (ns : Namespace)
    (hversion : ns.formatVersion = NAMESPACE_FORMAT_VERSION)
    (hdefault : ∃ c, fromConfig ns.defaultChunker = .ok c)
    (hchunkers : ∀ inode node layout, ns.nodes.get? inode = some node → node.data = .file layout →
      ∃ c, fromConfig layout.chunker = .ok c) (hnext : ns.nextInode ≤ U64_MAX)
    (hnlink : ∀ inode node, ns.nodes.get? inode = some node → node.stats.nlink ≤ U64_MAX) :
    (ns.validate = .ok () ↔ ns.WellFormed) ∧
      (ns.WellFormed → ∀ inode, ns.isDirectory inode = true → ∀ child ∈ ns.subdirectories inode,
        ¬ Worklist.Reaches ns.subdirectories child inode) :=
  ⟨validate_eq_ok_iff_wellFormed hversion hdefault hchunkers hnext hnlink,
    fun h _ hinode _ hchild => h.acyclic hinode hchild⟩

theorem validate_iff_wellFormed_linkedTree :
    linkedTree.validate = .ok () ∧ linkedTree.WellFormed := by
  have hvalid : linkedTree.validate = .ok () := by decide +kernel
  have hlinks : ∀ e ∈ linkedTree.nodes.entries, e.2.stats.nlink ≤ U64_MAX := by decide
  refine ⟨hvalid, (validate_iff_wellFormed linkedTree rfl ⟨_, rfl⟩ ?_ (by decide) ?_).1.1 hvalid⟩
  · intro inode node layout h hdata
    simp only [linkedTree, BTreeMap.ofList, foldl_cons, foldl_nil, get?_insert] at h
    split_ifs at h
    · cases h
      cases hdata
      exact ⟨_, rfl⟩
    all_goals cases h <;> cases hdata
  · intro inode node h
    exact hlinks _ (get?_eq_some_iff.1 h)

/-- One file of one byte whose only extent lies in a block. -/
def oneByteFile (block : BlockId) : Namespace :=
  { emptyRoot with
    nextInode := 3
    nodes := BTreeMap.ofList [
      (1, { stats := smallStats 1 (S_IFDIR ||| 0o755) 2 0
            data := .directory [⟨"f", 2⟩] }),
      (2, { stats := smallStats 2 (S_IFREG ||| 0o644) 1 1
            data := .file
              { chunker := emptyRoot.defaultChunker
                extents := [{ fileOffset := 0, blockOffset := 0, length := 1, block }] } })] }

/-- Two namespaces that differ only in the name of a block, of which one is rejected. -/
theorem oneByteFile_unnamed_rejected : (oneByteFile "b").validate = .ok () ∧
    (oneByteFile "").validate = .error (invalidNamespace "file extents must name a block") := by
  decide +kernel

end MountRs
