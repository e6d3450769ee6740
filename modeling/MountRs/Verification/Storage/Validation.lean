import MountRs.Model.Storage

/-! # What a validated namespace satisfies -/

namespace MountRs

open Except BTreeMap List Namespace

/-! ## Reference counts -/

/-- How many directory entries name an inode. -/
def Namespace.referenceCount (ns : Namespace) (inode : InodeId) : ℕ :=
  ((ns.nodes.values.flatMap fun node => node.data.entries).map DirectoryEntry.inode).count inode

variable {inode : InodeId} {counts : BTreeMap InodeId ℕ}

theorem incrementCount_spec {counts' : BTreeMap InodeId ℕ} {what : String}
    (h : incrementCount counts inode what = .ok counts') (j : InodeId) :
    (counts'.get? j).getD 0 = (counts.get? j).getD 0 + if inode = j then 1 else 0 := by
  simp only [incrementCount, bind_eq_ok, okOr_eq_ok, checkedAdd_eq_some, pure_eq_ok] at h
  obtain ⟨_, ⟨-, rfl⟩, rfl⟩ := h
  rw [get?_insert]
  by_cases hj : j = inode
  · subst hj
    simp
  · simp [hj, Ne.symm hj]

theorem incrementCount_ok (what : String) (h : (counts.get? inode).getD 0 < U64_MAX) :
    ∃ counts', incrementCount counts inode what = .ok counts' := by
  refine ⟨counts.insert inode ((counts.get? inode).getD 0 + 1), ?_⟩
  simp only [incrementCount, bind_eq_ok, okOr_eq_ok, checkedAdd_eq_some, pure_eq_ok]
  exact ⟨_, ⟨h, rfl⟩, rfl⟩

/-! ## The scan of the directories -/

def Namespace.isDirectory (ns : Namespace) (inode : InodeId) : Bool :=
  (ns.nodes.get? inode).any fun node => node.data.isDirectory

structure Counted (ns : Namespace) (entries : List DirectoryEntry) (counts : LinkCounts) : Prop where
  references : ∀ j, (counts.references.get? j).getD 0 = (entries.map DirectoryEntry.inode).count j
  directories : ∀ j, (counts.directoryReferences.get? j).getD 0 =
    if ns.isDirectory j then (entries.map DirectoryEntry.inode).count j else 0

/-- What the checks on the entries of one directory establish. -/
structure EntriesValid (ns : Namespace) (entries : List DirectoryEntry) : Prop where
  names : ∀ entry ∈ entries, validateEntryName entry.name = .ok ()
  unique : (entries.map DirectoryEntry.name).Nodup
  present : ∀ entry ∈ entries, entry.inode ∈ ns.nodes.keys

structure Scanned (ns : Namespace) (seen done : List DirectoryEntry) (table : BTreeMap InodeId ℕ)
    (scan : EntryScan) : Prop where
  counts : Counted ns (seen ++ done) scan.counts
  valid : EntriesValid ns done
  names : ∀ name, name ∈ scan.names ↔ name ∈ done.map DirectoryEntry.name
  children : scan.childDirectories = ((done.map DirectoryEntry.inode).filter ns.isDirectory).length
  table : scan.counts.directoryChildren = table

variable {ns : Namespace} {seen done : List DirectoryEntry} {table : BTreeMap InodeId ℕ}
  {scan scan' : EntryScan} {entry : DirectoryEntry} {counts : LinkCounts}
  {counts' : LinkCounts} {references : BTreeMap InodeId ℕ}

theorem Counted.snoc (h : Counted ns seen counts)
    (hrefs : incrementCount counts.references entry.inode "inode reference count" = .ok references)
    (hreferences : counts'.references = references)
    (hdirectories : ∀ j, (counts'.directoryReferences.get? j).getD 0 =
      (counts.directoryReferences.get? j).getD 0 +
        if entry.inode = j ∧ ns.isDirectory j = true then 1 else 0) :
    Counted ns (seen ++ [entry]) counts' := by
  refine ⟨fun j => ?_, fun j => ?_⟩
  · rw [hreferences, incrementCount_spec hrefs j, h.references]
    simp [count_singleton]
  · rw [hdirectories, h.directories]
    by_cases hj : ns.isDirectory j = true
    · simp [hj, count_singleton]
    · simp [hj]

theorem Scanned.step (h : Scanned ns seen done table scan) (hstep : scanEntry ns scan entry = .ok scan') :
    Scanned ns seen (done ++ [entry]) table scan' := by
  simp only [scanEntry, bind_eq_ok, failIf_eq_ok, okOr_eq_ok] at hstep
  obtain ⟨⟨⟩, hname, -, hfresh, child, hchild, references, hrefs, hstep⟩ := hstep
  have hvalid : EntriesValid ns (done ++ [entry]) := by
    refine ⟨?_, ?_, ?_⟩
    · simpa [or_imp, forall_and] using ⟨h.valid.names, hname⟩
    · rw [map_append, nodup_append]
      refine ⟨h.valid.unique, by simp, ?_⟩
      intro name hmem last hlast
      rw [map_singleton, mem_singleton] at hlast
      subst hlast
      rintro rfl
      exact hfresh ((h.names _).mpr hmem)
    · simpa [or_imp, forall_and] using ⟨h.valid.present, mem_keys_iff.mpr ⟨child, hchild⟩⟩
  have hnames : ∀ name, name ∈ scan.names.add entry.name ↔
      name ∈ (done ++ [entry]).map DirectoryEntry.name := by
    intro name
    rw [BTreeSet.mem_add, h.names]
    simp [or_comm]
  have hdir : ns.isDirectory entry.inode = child.data.isDirectory := by
    simp [isDirectory, hchild]
  split at hstep
  · rename_i hchildDir
    simp only [bind_eq_ok, okOr_eq_ok, checkedAdd_eq_some, pure_eq_ok] at hstep
    obtain ⟨children, ⟨-, rfl⟩, _, hdirs, rfl⟩ := hstep
    refine ⟨?_, hvalid, hnames, ?_, h.table⟩
    · refine append_assoc seen done [entry] ▸ h.counts.snoc hrefs rfl fun j => ?_
      rw [incrementCount_spec hdirs j]
      by_cases hj : entry.inode = j
      · subst hj
        simp [hdir, hchildDir]
      · simp [hj]
    · simp [h.children, hdir, hchildDir]
  · rename_i hchildDir
    rw [pure_eq_ok] at hstep
    subst hstep
    refine ⟨?_, hvalid, hnames, ?_, h.table⟩
    · refine append_assoc seen done [entry] ▸ h.counts.snoc hrefs rfl fun j => ?_
      by_cases hj : entry.inode = j
      · subst hj
        simp [hdir, hchildDir]
      · simp [hj]
    · simp [h.children, hdir, hchildDir]

theorem Scanned.progress (h : Scanned ns seen done table scan)
    (hvalid : EntriesValid ns (done ++ [entry]))
    (hcount : ((seen ++ done).map DirectoryEntry.inode).count entry.inode < U64_MAX)
    (hchildren : ((done.map DirectoryEntry.inode).filter ns.isDirectory).length < U64_MAX) :
    ∃ scan', scanEntry ns scan entry = .ok scan' := by
  obtain ⟨_, hchild⟩ := mem_keys_iff.mp (hvalid.present entry (by simp))
  have hfresh : entry.name ∉ scan.names := by
    rw [h.names]
    have hunique := hvalid.unique
    rw [map_append, nodup_append] at hunique
    exact fun hmem => hunique.2.2 _ hmem _ (by simp) rfl
  obtain ⟨references, hrefs⟩ := incrementCount_ok "inode reference count"
    ((h.counts.references entry.inode).trans_lt hcount)
  have hdirs : (scan.counts.directoryReferences.get? entry.inode).getD 0 < U64_MAX := by
    rw [h.counts.directories]
    split
    · exact hcount
    · decide
  obtain ⟨_, hdirectories⟩ := incrementCount_ok "directory parent count" hdirs
  simp only [scanEntry, hvalid.names entry (by simp), failIf, hfresh, hchild, okOr, hrefs, ok_bind,
    if_false]
  split
  · have hadd : checkedAdd scan.childDirectories 1 = some (scan.childDirectories + 1) :=
      checkedAdd_eq_some.mpr ⟨by rw [h.children]; exact hchildren, rfl⟩
    rw [hadd]
    simp only [ok_bind, hdirectories]
    exact ⟨_, rfl⟩
  · exact ⟨_, rfl⟩

/-- The state of the scan after some nodes. -/
structure ScannedNodes (ns : Namespace) (done : List (InodeId × NodeMetadata))
    (counts : LinkCounts) : Prop where
  counted : Counted ns (done.flatMap fun binding => binding.2.data.entries) counts
  valid : ∀ binding ∈ done, EntriesValid ns binding.2.data.entries
  children : ∀ binding ∈ done, binding.2.data.isDirectory = true →
    counts.directoryChildren.get? binding.1 = some (childDirectories ns binding.2).length

theorem entries_of_not_directory {data : NodeData} (h : ∀ entries, data ≠ .directory entries) :
    data.entries = [] ∧ data.isDirectory = false := by
  cases data with
  | directory entries => exact absurd rfl (h entries)
  | _ => exact ⟨rfl, rfl⟩

variable {done : List (InodeId × NodeMetadata)}

theorem ScannedNodes.start (h : ScannedNodes ns done counts) :
    Scanned ns (done.flatMap fun binding => binding.2.data.entries) [] counts.directoryChildren
      ⟨∅, 0, counts⟩ :=
  ⟨by simpa using h.counted, ⟨by simp, by simp, by simp⟩, by simp, rfl, rfl⟩

theorem ScannedNodes.step {binding : InodeId × NodeMetadata} (h : ScannedNodes ns done counts)
    (hinit : done ++ [binding] <+: ns.nodes.entries)
    (hstep : scanNode ns counts binding = .ok counts') :
    ScannedNodes ns (done ++ [binding]) counts' := by
  have hflat : ((done ++ [binding]).flatMap fun binding => binding.2.data.entries) =
      (done.flatMap fun binding => binding.2.data.entries) ++ binding.2.data.entries := by simp
  have hfresh : ∀ other ∈ done, other.1 ≠ binding.1 := by
    intro other hother
    have hnodup := ns.nodes.keys_nodup.sublist (hinit.sublist.map Prod.fst)
    rw [map_append, nodup_append] at hnodup
    exact fun heq => hnodup.2.2 _ (mem_map_of_mem hother) _ (by simp) heq
  unfold scanNode at hstep
  split at hstep
  · rename_i entries hdata
    simp only [bind_eq_ok, pure_eq_ok] at hstep
    obtain ⟨scan, hscan, rfl⟩ := hstep
    have hscanned := foldlM_prefix (fun done scan => Scanned ns _ done _ scan)
      (fun _ _ _ _ _ hs hf => hs.step hf) h.start hscan
    have hentries : binding.2.data.entries = entries := by rw [hdata]; rfl
    refine ⟨⟨fun j => ?_, fun j => ?_⟩, ?_, ?_⟩
    · rw [hflat, hentries]
      exact hscanned.counts.references j
    · rw [hflat, hentries]
      exact hscanned.counts.directories j
    · intro other hother
      rcases mem_append.mp hother with hother | hother
      · exact h.valid other hother
      · rw [mem_singleton.mp hother, hentries]
        exact hscanned.valid
    · intro other hother hdir
      rw [get?_insert]
      rcases mem_append.mp hother with hother | hother
      · rw [if_neg (hfresh other hother), hscanned.table]
        exact h.children other hother hdir
      · rw [mem_singleton.mp hother, if_pos rfl, hscanned.children, childDirectories, hentries]
        rfl
  · rename_i hdata
    rw [pure_eq_ok] at hstep
    subst hstep
    obtain ⟨hentries, hdir⟩ := entries_of_not_directory hdata
    refine ⟨by rw [hflat, hentries, append_nil]; exact h.counted, ?_, ?_⟩
    · intro other hother
      rcases mem_append.mp hother with hother | hother
      · exact h.valid other hother
      · rw [mem_singleton.mp hother, hentries]
        exact ⟨by simp, by simp, by simp⟩
    · intro other hother hother'
      rcases mem_append.mp hother with hother | hother
      · exact h.children other hother hother'
      · rw [mem_singleton.mp hother, hdir] at hother'
        cases hother'

theorem scannedNodes_empty (ns : Namespace) : ScannedNodes ns [] ⟨∅, ∅, ∅⟩ :=
  ⟨⟨by simp, by simp⟩, by simp, by simp⟩

theorem scannedNodes (h : ns.nodes.entries.foldlM (scanNode ns) ⟨∅, ∅, ∅⟩ = .ok counts) :
    ScannedNodes ns ns.nodes.entries counts :=
  foldlM_prefix (ScannedNodes ns) (fun _ _ _ _ hinit hs hf => hs.step hinit hf)
    (scannedNodes_empty ns) h

theorem referenceCount_eq (ns : Namespace) (j : InodeId) : ns.referenceCount j =
    ((ns.nodes.entries.flatMap fun binding => binding.2.data.entries).map
      DirectoryEntry.inode).count j := by
  simp [referenceCount, values, flatMap_map]

/-! ## The validated facts -/

/-- The facts about a validated namespace that the authority protocol rests on. -/
structure Namespace.Valid (ns : Namespace) : Prop where
  key_pos : ∀ inode ∈ ns.nodes.keys, inode ≠ 0
  key_lt : ∀ inode ∈ ns.nodes.keys, inode < ns.nextInode
  entry_present : ∀ inode, ∀ entry ∈ ns.entriesAt inode, entry.inode ∈ ns.nodes.keys
  directory_nlink : ∀ inode node, ns.nodes.get? inode = some node → node.data.isDirectory →
    2 ≤ node.stats.nlink
  file_nlink : ∀ inode node, ns.nodes.get? inode = some node → node.data.isDirectory = false →
    node.stats.nlink = ns.referenceCount inode

theorem mem_keys_le_getLast {nodes : BTreeMap InodeId NodeMetadata} {last : InodeId}
    (hlast : nodes.keys.getLast? = some last) (h : inode ∈ nodes.keys) : inode ≤ last := by
  obtain ⟨_, hfront⟩ := getLast?_eq_some_iff.mp hlast
  have hsorted := nodes.keys_sorted
  rw [hfront] at hsorted h
  rcases mem_append.mp h with h | h
  · exact ((pairwise_append.mp hsorted).2.2 inode h last (by simp)).le
  · exact (mem_singleton.mp h).le

theorem validateDirectoryLinkCounts_eq_ok {isRoot : Bool} {parents children nlink : ℕ} :
    validateDirectoryLinkCounts isRoot parents children nlink = .ok () ↔
      (parents = if isRoot then 0 else 1) ∧ nlink = 2 + children ∧ 2 + children ≤ U64_MAX := by
  unfold validateDirectoryLinkCounts
  cases isRoot <;>
    simp only [bind_eq_ok, okOr_eq_ok, checkedAdd_eq_some, failIf_eq_ok, Bool.false_eq_true, if_true,
      if_false, not_not]
  all_goals
    constructor
    · rintro ⟨⟨⟩, hparents, _, ⟨hbound, rfl⟩, hnlink⟩
      exact ⟨hparents, hnlink, hbound⟩
    · rintro ⟨hparents, hnlink, hbound⟩
      exact ⟨(), hparents, _, ⟨hbound, rfl⟩, hnlink⟩

variable {ns : Namespace} {node : NodeMetadata}

theorem validateNodeLinks_spec (h : validateNodeLinks ns references = .ok ())
    (hnode : ns.nodes.get? inode = some node) (hfile : node.data.isDirectory = false) :
    node.stats.nlink = (references.get? inode).getD 0 := by
  have hall := forM_eq_ok.mp h (inode, node) (get?_eq_some_iff.mp hnode)
  simp only [hfile, Bool.false_eq_true, if_false] at hall
  split at hall
  · next hzero =>
      rw [failIf_eq_ok, not_not] at hall
      rw [hall, hzero]
  · simpa using hall

theorem Namespace.valid_of_validate (h : ns.validate = .ok ()) : ns.Valid := by
  simp only [validate, bind_eq_ok, okOr_eq_ok, failIf_eq_ok] at h
  obtain ⟨-, -, -, -, last, hlast, -, -, -, hnext, -, -, root, hroot, -, -, _, hnodes, counts,
    hcounts, _, hdirs, hfiles⟩ := h
  have hident := forM_eq_ok.mp hnodes
  have hscanned := scannedNodes hcounts
  refine ⟨?_, ?_, ?_, ?_, ?_⟩
  · intro inode hinode
    obtain ⟨node, hnode⟩ := mem_keys_iff.mp hinode
    have hid := hident (inode, node) (get?_eq_some_iff.mp hnode)
    simp only [validateNodeIdentity, bind_eq_ok, failIf_eq_ok] at hid
    obtain ⟨-, hpos, -⟩ := hid
    exact hpos
  · intro inode hinode
    exact lt_of_le_of_lt (mem_keys_le_getLast hlast hinode) (not_le.mp hnext)
  · intro inode entry hentry
    unfold entriesAt at hentry
    cases hnode : ns.nodes.get? inode with
    | none => simp [hnode] at hentry
    | some node =>
      exact (hscanned.valid (inode, node) (get?_eq_some_iff.mp hnode)).present entry
        (by simpa [hnode] using hentry)
  · intro inode node hnode hdir
    simp only [validateDirectoryLinks, bind_eq_ok] at hdirs
    obtain ⟨_, hcount, -⟩ := hdirs
    have hthis := forM_eq_ok.mp hcount (inode, node) (get?_eq_some_iff.mp hnode)
    rw [if_pos hdir] at hthis
    have hnlink : node.stats.nlink = 2 + _ := (validateDirectoryLinkCounts_eq_ok.mp hthis).2.1
    omega
  · intro inode node hnode hfile
    rw [validateNodeLinks_spec hfiles hnode hfile, hscanned.counted.references, referenceCount_eq]

/-! ## Linked and unlinked nodes -/

theorem Namespace.referenceCount_pos_iff :
    0 < ns.referenceCount inode ↔ ∃ parent, inode ∈ ns.childrenAt parent := by
  rw [referenceCount, count_pos_iff, mem_map]
  constructor
  · rintro ⟨_, hentry, rfl⟩
    obtain ⟨_, hnode, hmem⟩ := mem_flatMap.mp hentry
    obtain ⟨parent, hparent⟩ := mem_values_iff.mp hnode
    refine ⟨parent, mem_map_of_mem ?_⟩
    simpa [entriesAt, hparent] using hmem
  · rintro ⟨parent, hmem⟩
    obtain ⟨entry, hentry, rfl⟩ := mem_map.mp hmem
    refine ⟨entry, ?_, rfl⟩
    cases hnode : ns.nodes.get? parent with
    | none => simp [entriesAt, hnode] at hentry
    | some node =>
      refine mem_flatMap.mpr ⟨node, mem_values_iff.mpr ⟨parent, hnode⟩, ?_⟩
      simpa [entriesAt, hnode] using hentry

variable {parent : InodeId}

theorem Namespace.Valid.nlink_pos (hv : ns.Valid) (hnode : ns.nodes.get? inode = some node)
    (hchild : inode ∈ ns.childrenAt parent) :
    node.stats.nlink ≠ 0 := by
  cases hdir : node.data.isDirectory with
  | true =>
    have := hv.directory_nlink inode node hnode hdir
    omega
  | false =>
    rw [hv.file_nlink inode node hnode hdir]
    exact (referenceCount_pos_iff.mpr ⟨parent, hchild⟩).ne'

theorem Namespace.Valid.child_present (hv : ns.Valid) (hchild : inode ∈ ns.childrenAt parent) :
    inode ∈ ns.nodes.keys := by
  obtain ⟨entry, hentry, rfl⟩ := mem_map.mp hchild
  exact hv.entry_present parent entry hentry

/-! ## Small namespaces -/

/-- An empty root directory. -/
def emptyRoot : Namespace :=
  { formatVersion := 1, root := 1, nextInode := 2, defaultUid := 0, defaultGid := 0, umask := 0o022
    defaultChunker := FixedSizeChunker.config ⟨4096, by decide⟩
    nodes := BTreeMap.ofList [(1,
      { stats :=
          { dev := 1, ino := 1, mode := S_IFDIR ||| 0o755, nlink := 2, uid := 0, gid := 0, rdev := 0
            size := 0, blksize := 4096, blocks := 0, atimeMs := 0, mtimeMs := 0, ctimeMs := 0
            birthtimeMs := 0 }
        data := .directory [] })] }

example : emptyRoot.validate = .ok () := by decide +kernel

def smallStats (ino : ℕ) (mode : UInt32) (nlink size : ℕ) : Stats :=
  { dev := 1, ino, mode, nlink, uid := 0, gid := 0, rdev := 0, size, blksize := 4096, blocks := 0
    atimeMs := 0, mtimeMs := 0, ctimeMs := 0, birthtimeMs := 0 }

/-- A directory `d`, a link `l` to it, and a file with the names `d/f` and `g`. -/
def linkedTree : Namespace :=
  { emptyRoot with
    nextInode := 5
    nodes := BTreeMap.ofList [
      (1, ⟨smallStats 1 (S_IFDIR ||| 0o755) 3 0, .directory [⟨"d", 2⟩, ⟨"g", 4⟩, ⟨"l", 3⟩]⟩),
      (2, ⟨smallStats 2 (S_IFDIR ||| 0o755) 2 0, .directory [⟨"f", 4⟩]⟩),
      (3, ⟨smallStats 3 (S_IFLNK ||| 0o777) 1 1, .symlink "d"⟩),
      (4, ⟨smallStats 4 (S_IFREG ||| 0o644) 2 3, .file
        { chunker := emptyRoot.defaultChunker
          extents := [⟨0, "b", 0, 1⟩, ⟨1, "c", 4, 2⟩] }⟩)] }

example : linkedTree.validate = .ok () := by decide +kernel

end MountRs
