import MountRs.Verification.WebDav.Enforcement

/-! # Locks below an absent destination

A COPY or MOVE to a destination that does not exist creates the image of every resource of
the source. The locks that cover these images are not checked. -/

namespace MountRs.WebDav

open FileTree List Option

/-- No call fails. -/
def faultless : Faults := fun _ => none

theorem faultless_honest : Honest faultless := fun _ _ h => by cases h

variable {levels : ℕ} {tree : FileTree} {driver : Driver} {path destination : TreePath}
  {name : Name}

/-! ## Calls that do not fail -/

theorem read_faultless {α : Type} (query : FileTree → Except ErrorCode α) :
    driver.read faultless query = (query driver.tree, driver.tick) := rfl

theorem mutate_faultless {mutation : Mutation} {touched : List TreePath}
    (h : mutation driver.tree = .ok (tree, touched)) : driver.mutate faultless mutation =
      (.ok (), { tree, calls := driver.calls + 1, touched := driver.touched ++ touched }) := by
  simp [Driver.mutate, faultless, h]

section Calls

variable (hw : tree.WellFormed) (hlinks : NoLinks tree)
  (hparent : tree.node path = some .directory)
include hw hparent

theorem mkdir_of_absent (hn : tree.node (path ++ [name]) = none) :
    mkdir (path ++ [name]) tree =
      .ok (tree.set (path ++ [name]) (some .directory), [path ++ [name]]) := by
  simp [mkdir, locate_append (directory_of_node hw hparent) name, hn]

include hlinks

theorem write_of_absent (hn : tree.node (path ++ [name]) = none) (data : List UInt8) :
    write (path ++ [name]) data tree =
      .ok (tree.set (path ++ [name]) (some (.file data)), [path ++ [name]]) := by
  simp [write, locate_append (directory_of_node hw hparent) name,
    resolve_of_parent hw hlinks hparent, hn]

theorem stat_of_absent (hn : tree.node (path ++ [name]) = none) :
    tree.stat (path ++ [name]) = .error .enoent := by
  simp [stat, resolve_of_parent hw hlinks hparent, hn]

end Calls

theorem lstat_of_node (hw : tree.WellFormed) {node : Node} (hpath : path ≠ [])
    (hn : tree.node path = some node) : tree.lstat path = .ok node := by
  obtain ⟨parent, name, rfl⟩ := eq_nil_or_concat' path |>.resolve_left hpath
  have hparent := hw.parent parent name (by simp [hn])
  simp [lstat, locate_append (directory_of_node hw hparent) name, hn]

theorem mem_readdir (hw : tree.WellFormed) {node : Node}
    (hn : tree.node (path ++ [name]) = some node) :
    ∃ entries, tree.readdir path = .ok entries ∧ (name, node) ∈ entries := by
  have hdir := directory_of_node hw (hw.parent path name (by simp [hn]))
  refine ⟨_, by rw [readdir, hdir], mem_filterMap.2 ⟨name, mem_names.2 (by simp [hn]), ?_⟩⟩
  simp [hn]

/-- The listing of a directory has one entry for each member. -/
theorem readdir_split (hw : tree.WellFormed) {node : Node}
    (hn : tree.node (path ++ [name]) = some node) {entries : List (Name × Node)}
    (hentries : tree.readdir path = .ok entries) :
    ∃ before after, entries = before ++ (name, node) :: after ∧
      ∀ entry ∈ before, entry.1 ≠ name := by
  obtain ⟨_, hentries', hmem⟩ := mem_readdir hw hn
  obtain rfl := Except.ok.inj (hentries.symm.trans hentries')
  obtain ⟨_, -, hnodup, -⟩ := readdir_eq_ok hentries
  obtain ⟨before, after, rfl⟩ := append_of_mem hmem
  refine ⟨before, after, rfl, ?_⟩
  rintro entry hentry rfl
  rw [map_append, nodup_append] at hnodup
  exact hnodup.2.2 _ (mem_map_of_mem hentry) _ (by simp) rfl

/-! ## Copies that do not fail -/

section Copies

variable {faults : Faults} {source : TreePath} {stats : Node}

/-- A path below a member of the destination other than the named one. -/
def Beside (destination : TreePath) (name : Name) (path : TreePath) : Prop :=
  ∃ other, other ≠ name ∧ destination ++ [other] <+: path

/-- The entries before the named one are copied beside it. -/
theorem writes_entries_beside {entries : List (Name × Node)}
    (hne : ∀ entry ∈ entries, entry.1 ≠ name) : ∀ traversal : Traversal,
      NoLinks traversal.2.2.tree → Writes (Beside destination name) traversal.2.2
        (entries.foldl (copyEntry faults (fun driver source destination stats =>
          copyTree faults levels driver source destination stats true) source destination)
          traversal).2.2 := by
  induction entries with
  | nil => exact fun traversal _ => (Quiet.refl _).writes
  | cons entry entries ih =>
    intro traversal hlinks
    have hbeside : ∀ rest, Beside destination name (destination ++ [entry.1] ++ rest) :=
      fun rest => ⟨entry.1, hne entry mem_cons_self, prefix_append _ _⟩
    have hcopies : Copies faults (fun driver => NoLinks driver.tree)
        (Writes (Beside destination name)) (destination ++ [entry.1] ++ []) :=
      ⟨.trans, Quiet.writes, fun h hwrites => hwrites.noLinks h,
        fun h => writes_mkdir h (hbeside []), fun h => writes_write h (hbeside [])⟩
    have hfirst : Writes (Beside destination name) traversal.2.2 (copyEntry faults
        (fun driver source destination stats =>
          copyTree faults levels driver source destination stats true) source destination
        traversal entry).2.2 := by
      refine hcopies.copyEntry traversal entry (fun driver stats hlinks _ => ?_) hlinks
      refine (writes_copyTree_root (S := fun _ => True) (fun _ _ _ => trivial) levels
        ⟨hlinks, fun _ _ => trivial⟩ trivial).mono ?_
      rintro _ ⟨rest, rfl, -⟩
      exact hbeside rest
    exact hfirst.trans (ih (fun other hother => hne other (mem_cons_of_mem _ hother)) _
      (hfirst.noLinks hlinks))

theorem mutate_extends {mutation : Mutation} {result : Except ErrorCode Unit} {next : Driver}
    (h : driver.mutate faults mutation = (result, next)) : driver.touched <+: next.touched := by
  rcases mutate_cases h with ⟨-, hl, -⟩ | ⟨touched, -, hl, -⟩
  · rw [hl]
  · rw [hl]
    exact prefix_append _ _

theorem extends_entries (entries : List (Name × Node)) (traversal : Traversal) :
    traversal.2.2.touched <+: (entries.foldl (copyEntry faults
      (fun driver source destination stats =>
        copyTree faults levels driver source destination stats true) source destination)
      traversal).2.2.touched := by
  have hcopies : ∀ path, Copies faults (fun _ => True)
      (fun driver next => driver.touched <+: next.touched) path := fun _ =>
    ⟨IsPrefix.trans, fun h => h.2 ▸ prefix_rfl, fun _ _ => trivial,
      fun _ => mutate_extends, fun _ => mutate_extends⟩
  refine (hcopies destination).foldl (fun traversal entry _ =>
    (hcopies destination).copyEntry traversal entry (fun driver stats _ _ => ?_) trivial) entries
    traversal trivial
  have hextends : driver.touched <+: (copyTree faults levels driver (source ++ [entry.1] ++ [])
      (destination ++ [entry.1] ++ []) stats true).2.2.touched :=
    copies_copyTree (S := fun _ => True) (fun _ _ => hcopies _) (fun _ _ _ _ _ => trivial) levels
      driver [] stats true trivial trivial
  rwa [append_nil, append_nil] at hextends

/-- Neither path is below the other. -/
def Apart (source destination : TreePath) : Prop :=
  ¬ source <+: destination ∧ ¬ destination <+: source

theorem Apart.child (h : Apart source destination) :
    Apart (source ++ [name]) (destination ++ [name]) := by
  constructor
  · intro hpre
    rcases prefix_concat_iff.1 hpre with heq | hpre
    · exact h.1 ((append_inj' heq rfl).1 ▸ prefix_rfl)
    · exact h.1 ((prefix_append _ _).trans hpre)
  · intro hpre
    rcases prefix_concat_iff.1 hpre with heq | hpre
    · exact h.2 ((append_inj' heq rfl).1 ▸ prefix_rfl)
    · exact h.2 ((prefix_append _ _).trans hpre)

theorem Apart.not_below (h : Apart source destination) (rest : TreePath) :
    ¬ destination <+: source ++ rest := fun hpre =>
  ( prefix_or_prefix_of_prefix hpre (prefix_append source rest)).elim h.2 h.1

theorem copyFile_creates (hw : driver.tree.WellFormed) (hlinks : NoLinks driver.tree)
    {data : List UInt8} (hsource : driver.tree.node source = some (.file data))
    (hparent : driver.tree.node path = some .directory)
    (habsent : driver.tree.node (path ++ [name]) = none) (size : ℕ) :
    path ++ [name] ∈ (copyFile faultless driver source (path ++ [name]) size).2.touched := by
  have hopen : openRead source driver.tree = .ok data := by
    simp [openRead, stat_of_node hw hlinks hsource]
  have hwrite : write (path ++ [name]) [] driver.tick.tree = _ :=
    write_of_absent hw hlinks hparent habsent []
  unfold copyFile
  rw [read_faultless, hopen]
  dsimp only
  rw [mutate_faultless hwrite]
  dsimp only
  have hmem : path ++ [name] ∈ driver.touched ++ [path ++ [name]] :=
    mem_append_right _ mem_cons_self
  split
  · exact hmem
  split
  · rename_i hm
    exact (mutate_extends hm).subset hmem
  · rename_i hm
    rw [read_faultless]
    exact (mutate_extends hm).subset hmem

/-- A directory is made, and then its entries are copied. -/
theorem copyTree_directory (hw : driver.tree.WellFormed) (hlinks : NoLinks driver.tree)
    (hsource : driver.tree.node source = some .directory)
    (hparent : driver.tree.node path = some .directory)
    (habsent : driver.tree.node (path ++ [name]) = none) :
    ∃ entries listed, Writes (fun other => other = path ++ [name]) driver listed ∧
      listed.tree = driver.tree.set (path ++ [name]) (some .directory) ∧
      listed.touched = driver.touched ++ [path ++ [name]] ∧
      listed.tree.readdir source = .ok entries ∧
      copyTree faultless (levels + 1) driver source (path ++ [name]) .directory true =
        entries.foldl (copyEntry faultless (fun driver source destination stats =>
          copyTree faultless levels driver source destination stats true) source
          (path ++ [name])) ([], true, listed) := by
  have hmkdir := mutate_faultless (mkdir_of_absent hw hparent habsent)
  have hwrites := writes_mkdir (P := fun other => other = path ++ [name]) hlinks rfl hmkdir
  have hne : source ≠ path ++ [name] := by
    rintro rfl
    rw [habsent] at hsource
    cases hsource
  have hdir := directory_of_node (hwrites.wellFormed hlinks hw)
    ((set_node_of_ne hne _).trans hsource)
  obtain ⟨entries, hentries⟩ : ∃ entries,
      (driver.tree.set (path ++ [name]) (some .directory)).readdir source = .ok entries :=
    ⟨_, by rw [readdir, hdir]⟩
  let made : Driver :=
    { tree := driver.tree.set (path ++ [name]) (some .directory), calls := driver.calls + 1
      touched := driver.touched ++ [path ++ [name]] }
  refine ⟨entries, made.tick, hwrites.trans (Quiet.writes ⟨rfl, rfl⟩), rfl, rfl, hentries, ?_⟩
  conv_lhs => rw [copyTree]
  rw [hmkdir]
  dsimp only
  rw [if_neg (by simp), read_faultless]
  dsimp only
  rw [hentries]

/-- The copies of the earlier entries are beside this one: they leave the source as it was, and
the entry's place in the new directory is free. -/
theorem reached_beside {child : Name} {listed reached : Driver} (hw : driver.tree.WellFormed)
    (habsent : driver.tree.node (path ++ [name]) = none) (hapart : Apart source (path ++ [name]))
    (htree : listed.tree = driver.tree.set (path ++ [name]) (some .directory))
    (hwrites : Writes (Beside (path ++ [name]) child) listed reached) :
    (∀ other, reached.tree.node (source ++ other) = listed.tree.node (source ++ other)) ∧
      reached.tree.node (path ++ [name]) = some .directory ∧
      reached.tree.node (path ++ [name] ++ [child]) = none := by
  refine ⟨fun other => hwrites.effect.node_eq ?_, ?_, ?_⟩
  · rintro ⟨_, -, hpre⟩
    exact hapart.not_below other ((prefix_append _ _).trans hpre)
  · rw [hwrites.effect.node_eq, htree, set_node_self]
    rintro ⟨_, -, hpre⟩
    simpa using hpre.length_le
  · rw [hwrites.effect.node_eq, htree, set_node_of_ne (by simp)]
    · by_contra hsome
      have hdir := hw.parent _ _ hsome
      rw [habsent] at hdir
      cases hdir
    · rintro ⟨other, hother, hpre⟩
      have heq := hpre.eq_of_length (by simp)
      exact hother (by simpa using heq)

/-- A copy to an absent destination creates the image of every resource of the source. -/
theorem copyTree_creates (rest : TreePath) : ∀ {levels : ℕ} {driver : Driver}
    {source path : TreePath} {name : Name} {stats : Node}, driver.tree.WellFormed →
      NoLinks driver.tree → driver.tree.node source = some stats →
      driver.tree.node path = some .directory → driver.tree.node (path ++ [name]) = none →
      Apart source (path ++ [name]) → rest.length < levels →
      driver.tree.node (source ++ rest) ≠ none → path ++ [name] ++ rest ∈
        (copyTree faultless levels driver source (path ++ [name]) stats true).2.2.touched := by
  induction rest with
  | nil =>
    intro levels driver source path name stats hw hlinks hsource hparent habsent _ hlevels _
    obtain ⟨levels, rfl⟩ := Nat.exists_eq_add_one.2 hlevels
    rw [append_nil]
    cases stats with
    | symlink link => exact absurd hsource (hlinks _ _)
    | file data =>
      have hfile := copyFile_creates hw hlinks hsource hparent habsent data.length
      unfold copyTree
      dsimp only
      split
      all_goals
        rename_i hcopy
        rwa [hcopy] at hfile
    | directory =>
      obtain ⟨entries, listed, -, -, htouched, -, hcopy⟩ :=
        copyTree_directory hw hlinks hsource hparent habsent
      rw [hcopy]
      refine (extends_entries entries ([], true, listed)).subset ?_
      rw [htouched]
      exact mem_append_right _ mem_cons_self
  | cons child rest ih =>
    intro levels driver source path name stats hw hlinks hsource hparent habsent hapart hlevels hn
    obtain ⟨levels, rfl⟩ := Nat.exists_eq_add_one.2 (Nat.zero_lt_of_lt hlevels)
    obtain rfl : stats = .directory := by
      have hdir := (hw.below _ hn (by simp)).directory
      exact some.inj (hsource.symm.trans hdir)
    obtain ⟨entries, listed, hmade, htree, -, hentries, hcopy⟩ :=
      copyTree_directory hw hlinks hsource hparent habsent
    -- What is not below the destination is as it was.
    have hsame : ∀ other, listed.tree.node (source ++ other) = driver.tree.node (source ++ other) :=
      fun other => hmade.effect.node_eq fun heq => hapart.not_below other (heq ▸ prefix_rfl)
    have hchild : driver.tree.node (source ++ [child]) ≠ none := by
      rw [append_cons] at hn
      exact hw.above hn
    obtain ⟨node, hnode⟩ := ne_none_iff_exists'.1 hchild
    rw [← hsame] at hnode
    have hlistedWf := hmade.wellFormed hlinks hw
    obtain ⟨before, after, rfl, hbefore⟩ := readdir_split hlistedWf hnode hentries
    rw [hcopy, foldl_append, foldl_cons]
    refine (extends_entries after _).subset ?_
    have hwrites : Writes (Beside (path ++ [name]) child) listed (before.foldl
        (copyEntry faultless (fun driver source destination stats =>
          copyTree faultless levels driver source destination stats true) source
          (path ++ [name])) ([], true, listed)).2.2 :=
      writes_entries_beside hbefore ([], true, listed) (hmade.noLinks hlinks)
    generalize hfold : before.foldl _ ([], true, listed) = traversal at hwrites ⊢
    obtain ⟨failures, mutated, reached⟩ := traversal
    have hreachedLinks := hwrites.noLinks (hmade.noLinks hlinks)
    have hreachedWf := hwrites.wellFormed (hmade.noLinks hlinks) hlistedWf
    obtain ⟨hkept, hdestination, hfree⟩ := reached_beside hw habsent hapart htree hwrites
    have hstat := stat_of_node hreachedWf hreachedLinks ((hkept [child]).trans hnode)
    have hstep : statOrAbsent faultless reached (source ++ [child]) =
        (.ok (some node), reached.tick) := by
      simp [statOrAbsent, read_faultless, hstat]
    have hdeeper : reached.tick.tree.node (source ++ [child] ++ rest) ≠ none := by
      rw [append_cons] at hn
      show reached.tree.node _ ≠ none
      rw [append_assoc, hkept, hsame]
      rwa [append_assoc] at hn
    have hfound : reached.tick.tree.node (source ++ [child]) = some node :=
      (hkept [child]).trans hnode
    have hcreates : path ++ [name] ++ child :: rest ∈ (copyTree faultless levels reached.tick
        (source ++ [child]) (path ++ [name] ++ [child]) node true).2.2.touched := by
      have hwf : reached.tick.tree.WellFormed := hreachedWf
      have hmem := ih hwf hreachedLinks hfound hdestination hfree hapart.child
        (Nat.lt_of_succ_lt_succ hlevels) hdeeper
      rwa [append_assoc _ [child], singleton_append] at hmem
    unfold copyEntry
    dsimp only
    rw [hstep]
    cases node with
    | symlink link => exact absurd hnode (hmade.noLinks hlinks _ link)
    | file | directory => exact hcreates

end Copies

/-! ## COPY and MOVE -/

variable {table : DavLockTable} {guard : Guard} {moving overwrite : Bool} {depth : Depth}

section Requests

variable (hw : driver.tree.WellFormed) (hlinks : NoLinks driver.tree)
include hw hlinks

theorem checkSource_faultless {stats : Node} (hsource : driver.tree.node path = some stats)
    (hroot : path ≠ []) (hne : destination ≠ path) (houtside : ¬ path <+: destination) :
    ∃ next, Quiet driver next ∧
      checkSource faultless driver path destination moving .infinity = (.ok stats, next) := by
  have hstat := stat_of_node hw hlinks hsource
  have hlstat := lstat_of_node hw hroot hsource
  cases hlink : decide (moving = false ∧ stats.isDirectory = true) with
  | true =>
    obtain ⟨rfl, hdir⟩ := of_decide_eq_true hlink
    obtain rfl := isDirectory_iff.1 hdir
    refine ⟨driver.tick.tick, ⟨rfl, rfl⟩, ?_⟩
    have hlstat : driver.tick.tree.lstat path = .ok .directory := hlstat
    simp [checkSource, statResource, linkStat, read_faultless, hstat, hlstat, hroot, hne, houtside,
      Node.isDirectory]
  | false =>
    have hlink := of_decide_eq_false hlink
    exact ⟨driver.tick, ⟨rfl, rfl⟩, by
      simp [checkSource, statResource, read_faultless, hstat, hroot, hne, houtside, hlink]⟩

theorem checkDestination_faultless {name : Name}
    (h : CreatesDestination table guard driver.tree path (destination ++ [name]) moving depth) :
    ∃ next, Quiet driver next ∧ checkDestination faultless table guard driver path
      (destination ++ [name]) moving overwrite = (.ok none, next) := by
  have hparent : driver.tree.node destination = some .directory := by simpa using h.parent
  have hstat := stat_of_node hw hlinks hparent
  have habsent : driver.tick.tree.stat (destination ++ [name]) = .error .enoent :=
    stat_of_absent hw hlinks hparent h.absent
  have hlocked : (if moving = true then lockedMembers table guard path else []) = [] := by
    split_ifs with hmoving
    · exact (h.sourceLocks hmoving).2
    · rfl
  have hwritable : ¬ (moving = true ∧ requireWritable table guard path true = false) := by
    rintro ⟨hmoving, hfalse⟩
    rw [(h.sourceLocks hmoving).1] at hfalse
    cases hfalse
  refine ⟨driver.tick.tick, ⟨rfl, rfl⟩, ?_⟩
  simp [checkDestination, requireCollection, statOrAbsent, read_faultless, hstat, habsent, isAbsent,
    hwritable, h.targetLocks, hlocked]

omit hlinks in
theorem rename_creates (hsource : driver.tree.node path ≠ none) (hroot : path ≠ [])
    (hparent : driver.tree.node destination = some .directory)
    (habsent : driver.tree.node (destination ++ [name]) = none)
    (houtside : ¬ path <+: destination ++ [name]) {rest : TreePath}
    (hn : driver.tree.node (path ++ rest) ≠ none) : ∃ renamed,
      driver.mutate faultless (rename path (destination ++ [name])) = (.ok (), renamed) ∧
        destination ++ [name] ++ rest ∈ renamed.touched := by
  obtain ⟨node, hsource⟩ := ne_none_iff_exists'.1 hsource
  have hlocate : driver.tree.locate path = .ok path := by
    obtain ⟨parent, last, rfl⟩ := eq_nil_or_concat' path |>.resolve_left hroot
    exact locate_append (directory_of_node hw (hw.parent parent last (by simp [hsource]))) last
  have hne : path ≠ destination ++ [name] := by
    rintro rfl
    exact houtside prefix_rfl
  have hblocked : driver.tree.renameBlocked node (destination ++ [name]) = none := by
    unfold renameBlocked
    rw [habsent]
  have hrename : rename path (destination ++ [name]) driver.tree =
      let below := driver.tree.paths.filter fun other =>
        path <+: other ∧ (driver.tree.node other).isSome
      .ok (driver.tree.move path (destination ++ [name]),
        below ++ below.map fun other => destination ++ [name] ++ other.drop path.length) := by
    unfold rename
    rw [hlocate, locate_append (directory_of_node hw hparent) name]
    dsimp only
    rw [hsource]
    dsimp only
    rw [if_neg hne, if_neg houtside, hblocked]
  refine ⟨_, mutate_faultless hrename, mem_append_right _ (mem_append_right _ ?_)⟩
  refine mem_map.2 ⟨path ++ rest, mem_filter.2 ⟨driver.tree.support _ hn, ?_⟩, by simp⟩
  simpa [isSome_iff_ne_none] using hn

theorem copyOrMove_creates
    (h : CreatesDestination table guard driver.tree path destination moving depth)
    (hlevels : ∀ path, driver.tree.node path ≠ none → path.length < levels) {rest : TreePath}
    (hn : driver.tree.node (path ++ rest) ≠ none) : destination ++ rest ∈
      (copyOrMove faultless table guard levels driver path destination moving overwrite
        depth).2.touched := by
  obtain rfl := h.deep
  have hne : destination ≠ [] := by
    rintro rfl
    have habsent := h.absent
    rw [hw.root] at habsent
    cases habsent
  obtain ⟨parent, name, rfl⟩ := eq_nil_or_concat' destination |>.resolve_left hne
  have hsource : driver.tree.node path ≠ none := hw.above hn
  obtain ⟨stats, hstats⟩ := ne_none_iff_exists'.1 hsource
  have hparent : driver.tree.node parent = some .directory := by simpa using h.parent
  have happart : Apart path (parent ++ [name]) := by
    refine ⟨h.outside, ?_⟩
    rintro ⟨below, rfl⟩
    exact hw.above hsource h.absent
  -- The checks pass without a change.
  obtain ⟨checked, hchecked, hsourceOk⟩ : ∃ next, Quiet driver next ∧ checkSource faultless driver
      path (parent ++ [name]) moving .infinity = (.ok stats, next) :=
    checkSource_faultless hw hlinks hstats h.not_root (fun heq => hsource (heq ▸ h.absent)) h.outside
  rw [← hchecked.1] at hw hlinks h hn hsource hstats hparent
  obtain ⟨read, hread, htargetOk⟩ : ∃ next, Quiet checked next ∧ checkDestination faultless table
      guard checked path (parent ++ [name]) moving overwrite = (.ok none, next) :=
    checkDestination_faultless hw hlinks h
  rw [← hread.1] at hw hlinks h hn hsource hstats hparent
  unfold copyOrMove
  rw [hsourceOk]
  dsimp only
  rw [htargetOk]
  dsimp only [clearDestination]
  cases moving with
  | true =>
    obtain ⟨renamed, hrename, hmem⟩ :=
      rename_creates hw hsource h.not_root hparent h.absent h.outside hn
    rw [if_pos rfl, hrename]
    dsimp only
    rw [(durabilityBarrier_quiet _ _).2]
    exact hmem
  | false =>
    have hlength : rest.length < levels := by
      have hle := hlevels (path ++ rest) (by rwa [← hchecked.1, ← hread.1])
      rw [length_append] at hle
      omega
    have hmem := copyTree_creates rest hw hlinks hstats hparent h.absent happart hlength hn
    rw [if_neg (by simp)]
    split
    · rw [(durabilityBarrier_quiet _ _).2]
      exact hmem
    · exact hmem

end Requests

/-! ## Enforcement -/

theorem isComponent_s : IsComponent "s" := by
  unfold IsComponent
  decide

theorem isComponent_c : IsComponent "c" := by
  unfold IsComponent
  decide

/-- A collection `s` with a member `c`. -/
def memberTree : FileTree :=
  FileTree.ofEntries
    [([], .directory), ([⟨"s", isComponent_s⟩], .directory),
      ([⟨"s", isComponent_s⟩, ⟨"c", isComponent_c⟩], .file [1])]

/-- A lock on the member `c` of an absent collection `d`. -/
def childLock : DavLock :=
  { token := "t", path := "/d/c", collection := false, depth := .zero, exclusive := true
    owner := none, timeoutSeconds := 600, expiresAt := 600000 }

def childLockTable : DavLockTable := (DavLockTable.new {}).insertLock childLock

instance (table : DavLockTable) (guard : Guard) (path : TreePath) :
    Decidable (Submitted table guard path) := by
  unfold Submitted
  infer_instance

/-- A lock on a member of `d` that `s` does not have. -/
def otherLock : DavLock := { childLock with token := "u", path := "/d/s" }

end MountRs.WebDav
