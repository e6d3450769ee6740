import MountRs.Verification.Guarded.Guards
import MountRs.Verification.Path
import MountRs.Verification.Storage.WellFormed

/-! # Path resolution

The path of a resolved entry has no symbolic link and no `..` left: its components lead
from the root through directories to the parent of the entry. -/

namespace MountRs.Chunked

open Except Worklist List Namespace

/-- The names lead through directories. -/
inductive Descends (ns : Namespace) (start : InodeId) : List String → InodeId → Prop
  | refl : Descends ns start [] start
  | step {names : List String} {dir : InodeId} {entry : DirectoryEntry} :
    Descends ns start names dir → entry ∈ ns.entriesAt dir →
    ns.isDirectory entry.inode = true → Descends ns start (names ++ [entry.name]) entry.inode

structure Resolved (ns : Namespace) (entry : Entry) : Prop where
  directory : ns.isDirectory entry.parent = true
  names : ∃ names, splitPath entry.path = names ++ [entry.name] ∧
    Descends ns ns.root names entry.parent

variable {ns : Namespace} {entry : Entry} {syscall path : String} {followFinal : Bool}

/-- What a walk without following the last component returns for the path of the entry. -/
structure Stays (ns : Namespace) (entry : Entry) : Prop where
  kind : entry = ⟨ns.root, "", some ns.root, "/"⟩ ∨ Resolved ns entry
  normalized : normalizePath entry.path = entry.path
  again : ∀ syscall, walk ns entry.path false syscall = .ok entry

section Turn

variable {normalized name : String} {follow : String → Result Entry} {current : InodeId}
  {seen rest : List String}

/-- A turn of the walk ends it, goes on with a rewritten path or enters the child. Only the second
depends on whether links are followed. -/
theorem walkSegments_cases (h : walkSegments ns followFinal syscall normalized follow current seen
      (name :: rest) = .ok entry) : ns.isDirectory current = true ∧
    (rest = [] ∧ entry = ⟨current, name, ((ns.entriesAt current).find? fun e => e.name == name).map
        DirectoryEntry.inode, normalized⟩ ∧ (∀ syscall follow,
          walkSegments ns false syscall normalized follow current seen [name] = .ok entry) ∨
      (∃ target, follow (rewriteLink seen rest target) = .ok entry) ∨
      ∃ found ∈ ns.entriesAt current, found.name = name ∧ ∀ followFinal syscall follow,
        walkSegments ns followFinal syscall normalized follow current seen (name :: rest) =
          walkSegments ns followFinal syscall normalized follow found.inode (seen ++ [name])
            rest) := by
  -- Every walk that comes here looks at the same node, name and child.
  have hturn : ∀ followFinal syscall follow rest', walkSegments ns followFinal syscall normalized
      follow current seen (name :: rest') = _ := fun _ _ _ _ => walkSegments_cons ..
  rw [hturn] at h
  simp only [walkComponent] at hturn h
  obtain ⟨node, hnode, h⟩ := bind_eq_ok.mp h
  rw [okOr_eq_ok] at hnode
  simp only [hnode, okOr, ok_bind] at hturn
  cases hdata : node.data with
  | file | symlink | special => simp [hdata] at h
  | directory entries =>
    have hentries : ns.entriesAt current = entries := by
      simp [entriesAt, hnode, hdata, NodeData.entries]
    refine ⟨by simp [Namespace.isDirectory, hnode, hdata, NodeData.isDirectory], ?_⟩
    rw [hentries]
    simp only [hdata] at hturn h
    cases hfind : entries.find? fun e => e.name == name with
    | none =>
      simp only [hfind] at hturn h
      split_ifs at h with hrest
      obtain rfl := pure_eq_ok.mp h
      exact .inl ⟨hrest, rfl, fun _ _ => (hturn ..).trans (if_pos rfl)⟩
    | some found =>
      simp only [hfind] at hturn h
      obtain ⟨child, hchild, h⟩ := bind_eq_ok.mp h
      rw [okOr_eq_ok] at hchild
      simp only [hchild, ok_bind] at hturn
      have hname : found.name = name := by simpa using find?_some hfind
      cases hchilddata : child.data <;> cases rest <;> simp only [hchilddata] at hturn h
      case symlink.nil target =>
        split_ifs at h with hfinal
        · obtain ⟨-, -, h⟩ := bind_eq_ok.mp h
          exact .inr (.inl ⟨_, h⟩)
        · obtain rfl := pure_eq_ok.mp h
          exact .inl ⟨rfl, rfl, fun _ _ => hturn ..⟩
      case symlink.cons target next rest =>
        obtain ⟨-, -, h⟩ := bind_eq_ok.mp h
        exact .inr (.inl ⟨_, h⟩)
      case file.nil | directory.nil | special.nil =>
        obtain rfl := pure_eq_ok.mp h
        exact .inl ⟨rfl, rfl, fun _ _ => hturn ..⟩
      case file.cons | directory.cons | special.cons =>
        exact .inr (.inr ⟨found, mem_of_find?_eq_some hfind, hname, fun _ _ _ => hturn ..⟩)

end Turn

theorem walkSegments_stays {normalized : String} {follow : String → Result Entry}
    (hfollow : ∀ path entry, follow path = .ok entry → Stays ns entry) (segments : List String) :
    ∀ (current : InodeId) (seen : List String), splitPath normalized = seen ++ segments →
      -- A component that is not a directory is found out by the next one.
      (ns.isDirectory current = true → Descends ns ns.root seen current) →
      walkSegments ns followFinal syscall normalized follow current seen segments = .ok entry →
      Stays ns entry ∨ Resolved ns entry ∧ entry.path = normalized ∧ ∀ syscall follow,
        walkSegments ns false syscall normalized follow current seen segments = .ok entry := by
  induction segments with
  | nil =>
    intro current seen _ _ h
    cases h
  | cons name rest ih =>
    intro current seen hsplit hdescends h
    obtain ⟨hdir, ⟨rfl, hentry, hagain⟩ | ⟨target, h⟩ | ⟨found, hmem, rfl, hnext⟩⟩ :=
      walkSegments_cases h
    · have hresolved : Resolved ns entry := by
        rw [hentry]
        exact ⟨hdir, seen, hsplit, hdescends hdir⟩
      subst hentry
      exact .inr ⟨hresolved, rfl, hagain⟩
    · exact .inl (hfollow _ _ h)
    · rw [hnext] at h
      refine (ih found.inode _ (by simp [hsplit])
        (fun hchild => (hdescends hdir).step hmem hchild) h).imp_right ?_
      rintro ⟨hresolved, hpath, hagain⟩
      exact ⟨hresolved, hpath, fun _ _ => (hnext ..).trans (hagain ..)⟩

theorem walkDepth_stays (depth : ℕ) : ∀ path entry,
    walkDepth ns followFinal syscall depth path = .ok entry → Stays ns entry := by
  induction depth with
  | zero =>
    intro path entry h
    cases h
  | succ depth ih =>
    intro path entry h
    simp only [walkDepth] at h
    split_ifs at h with hroot
    · obtain rfl := Except.ok.inj h
      rw [hroot]
      refine ⟨.inl rfl, normalizePath_root, fun _ => ?_⟩
      rw [walk, walkDepth, normalizePath_root]
      exact if_pos rfl
    · rcases walkSegments_stays ih _ _ _ (nil_append _).symm (fun _ => .refl) h with
        hstays | ⟨hresolved, hpath, hagain⟩
      · exact hstays
      have hnormal : normalizePath entry.path = entry.path := by
        rw [hpath, normalizePath_normalizePath]
      refine ⟨.inr hresolved, hnormal, fun _ => ?_⟩
      rw [walk, walkDepth]
      simp only [hnormal]
      rw [hpath, if_neg hroot]
      exact hagain _ _

/-- The names on the way to a directory lead to directories. -/
theorem Descends.of_append {start dir : InodeId} {names rest : List String}
    (h : Descends ns start (names ++ rest) dir) (hstart : ns.isDirectory start = true) :
    ∃ mid, Descends ns start names mid ∧ ns.isDirectory mid = true := by
  generalize hall : names ++ rest = all at h
  induction h generalizing rest with
  | refl =>
    rw [(append_eq_nil_iff.1 hall).1]
    exact ⟨start, .refl, hstart⟩
  | step hprior hentry hdir ih =>
    rcases eq_nil_or_concat rest with rfl | ⟨init, last, rfl⟩
    · rw [append_nil] at hall
      exact ⟨_, hall ▸ hprior.step hentry hdir, hdir⟩
    · rw [concat_eq_append, ← append_assoc] at hall
      exact ih (append_inj' hall rfl).1

theorem isDirectory_root_of_validate (h : ns.validate = .ok ()) :
    ns.isDirectory ns.root = true := by
  simp only [validate, bind_eq_ok, okOr_eq_ok, failIf_eq_ok, forM_eq_ok, not_not] at h
  obtain ⟨-, -, -, -, -, -, -, -, -, -, -, -, root, hroot, -, hmode, -, hnodes, -⟩ := h
  have hvalid := hnodes (ns.root, root) (BTreeMap.get?_eq_some_iff.mp hroot)
  simp only [validateNodeIdentity, bind_eq_ok] at hvalid
  obtain ⟨-, -, -, -, hkind⟩ := hvalid
  refine isDirectory_iff.mpr ⟨root, hroot, ?_⟩
  cases hdata : root.data with
  | directory => rfl
  | _ =>
    rw [validateNodeKind, hdata] at hkind
    simp [hmode, S_IFDIR, S_IFREG, S_IFLNK, S_IFBLK, S_IFCHR, S_IFIFO, S_IFSOCK] at hkind

/-- The path of a walk's entry has no link left. -/
theorem walk_canonical (ns : Namespace) (path : String) (followFinal : Bool) (syscall : String)
    (entry : Entry) (hvalid : ns.validate = .ok ())
    (h : walk ns path followFinal syscall = .ok entry) :
    normalizePath entry.path = entry.path ∧
    (∀ names rest, splitPath entry.path = names ++ rest → rest ≠ [] →
      ∃ dir, Descends ns ns.root names dir ∧ ns.isDirectory dir = true) ∧
    (Descends ns ns.root (splitPath (dirname entry.path)) entry.parent ∧
      ns.isDirectory entry.parent = true) ∧
    ∀ syscall, walk ns entry.path false syscall = .ok entry := by
  obtain ⟨hkind, hnormal, hagain⟩ := walkDepth_stays _ _ _ h
  have hroot := isDirectory_root_of_validate hvalid
  refine ⟨hnormal, ?_, ?_, hagain⟩
  · intro names rest hsplit hne
    rcases hkind with rfl | hresolved
    · exact absurd (List.append_eq_nil_iff.1 (hsplit.symm.trans splitPath_root)).2 hne
    · obtain ⟨prior, hprior, hdescends⟩ := hresolved.names
      obtain ⟨init, last, rfl⟩ := (List.eq_nil_or_concat rest).resolve_left hne
      rw [hprior, List.concat_eq_append, ← List.append_assoc] at hsplit
      obtain ⟨rfl, -⟩ := List.append_inj' hsplit rfl
      exact hdescends.of_append hroot
  · rw [splitPath_dirname]
    rcases hkind with rfl | hresolved
    · rw [splitPath_root]
      exact ⟨.refl, hroot⟩
    · obtain ⟨prior, hprior, hdescends⟩ := hresolved.names
      rw [hprior, List.dropLast_concat]
      exact ⟨hdescends, hresolved.directory⟩

theorem walk_canonical_linkedTree : linkedTree.validate = .ok () ∧
    walk linkedTree "d/../l/f" true "stat" = .ok ⟨2, "f", some 4, "/d/f"⟩ ∧
    Descends linkedTree linkedTree.root ["d"] 2 ∧
    walk linkedTree "/d/f" false "open" = .ok ⟨2, "f", some 4, "/d/f"⟩ := by
  have hvalid : linkedTree.validate = .ok () := by decide +kernel
  have hwalk : walk linkedTree "d/../l/f" true "stat" = .ok ⟨2, "f", some 4, "/d/f"⟩ := by
    decide +kernel
  have hdir : splitPath (dirname "/d/f") = ["d"] := by decide +kernel
  obtain ⟨-, -, ⟨hdescends, -⟩, hagain⟩ := walk_canonical _ _ _ _ _ hvalid hwalk
  exact ⟨hvalid, hwalk, hdir ▸ hdescends, hagain "open"⟩

end MountRs.Chunked
