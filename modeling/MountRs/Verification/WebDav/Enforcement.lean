import MountRs.Verification.WebDav.Locks
import MountRs.Verification.WebDav.Copies
import MountRs.Verification.Path

/-! # Lock enforcement

The locks are checked on a few paths before the first mutation. On a tree without links
every path touched afterwards is below a checked path, except below a destination that
does not exist. -/

namespace MountRs.WebDav

open FileTree BTreeMap List Option

variable {faults : Faults} {table : DavLockTable} {guard : Guard} {levels : ℕ}

/-! ## Spellings -/

variable {path : TreePath}

theorem isComponent_of_mem_map (path : TreePath) :
    ∀ name ∈ path.map Subtype.val, IsComponent name := by
  intro name hname
  obtain ⟨component, -, rfl⟩ := mem_map.1 hname
  exact component.2

theorem canonical_render (path : TreePath) : Canonical path.render := by
  unfold Canonical TreePath.render
  rw [normalizePath_eq, splitPath_render (isComponent_of_mem_map path)]

theorem closed_render (path : TreePath) :
    closed path.render = '/' :: path.flatMap fun name => name.val.toList ++ ['/'] := by
  by_cases hne : path = []
  · subst hne
    rfl
  · have hroot : path.render ≠ "/" := by
      intro heq
      have hsplit := splitPath_render (isComponent_of_mem_map path)
      rw [← TreePath.render, heq] at hsplit
      exact hne (map_eq_nil_iff.1 (hsplit.symm.trans (by decide)))
    rw [closed, if_neg hroot, TreePath.render, String.toList_append, append_assoc,
      joinSlash_closed (fun hnil => hne (map_eq_nil_iff.1 hnil)), flatMap_map]
    rfl

variable {target : TreePath}

theorem inside_render (h : path <+: target) :
    canonicalPathInside target.render path.render = true := by
  rw [canonicalPathInside_iff (canonical_render _) (canonical_render _), closed_render,
    closed_render]
  obtain ⟨_, rfl⟩ := h
  exact ⟨_, by rw [flatMap_append, cons_append]⟩

/-! ## The checks -/

/-- Every unexpired lock whose scope contains the path has its token submitted. -/
def Submitted (table : DavLockTable) (guard : Guard) (path : TreePath) : Prop :=
  ∀ lock ∈ table.listed, guard.now < lock.expiresAt →
    lockCoversPath lock.path lock.depth path.render = true → lock.token ∈ guard.submitted

variable {lock : DavLock}

theorem mem_listed_sweep {now : ℤ} (h : lock ∈ table.listed) (hlive : now < lock.expiresAt) :
    lock ∈ (table.sweep now).listed := by
  unfold DavLockTable.listed at h ⊢
  obtain ⟨token, htoken, hget⟩ := mem_filterMap.1 h
  have hsweep : (table.sweep now).locks.get? token = some lock := get?_sweep.2 ⟨hget, hlive⟩
  refine mem_filterMap.2 ⟨token, mem_filter.2 ⟨htoken, ?_⟩, hsweep⟩
  exact contains_iff.2 (mem_keys_iff.2 ⟨lock, hsweep⟩)

theorem submitted_of_blocking (h : blocking table guard path = []) :
    Submitted table guard path := by
  intro lock hlock hlive hcovers
  by_contra hnot
  have hmem : lock ∈ blocking table guard path := by
    refine mem_filter.2 ⟨mem_filter.2 ⟨mem_listed_sweep hlock hlive, hcovers⟩, ?_⟩
    simpa using hnot
  rw [h] at hmem
  cases hmem

theorem submitted_of_lockedMembers (h : lockedMembers table guard path = [])
    (hlock : lock ∈ table.listed) (hlive : guard.now < lock.expiresAt)
    (hinside : normalizedPathInside lock.path path.render = true) (hne : lock.path ≠ path.render) :
    lock.token ∈ guard.submitted := by
  by_contra hnot
  have hmem : lock ∈ (table.within path.render guard.now).1.filter fun lock =>
      lock.path != path.render && !guard.submitted.contains lock.token := by
    refine mem_filter.2 ⟨mem_filter.2 ⟨mem_listed_sweep hlock hlive, hinside⟩, ?_⟩
    simpa using ⟨hne, hnot⟩
  rw [map_eq_nil_iff.1 h] at hmem
  cases hmem

theorem submitted_of_writable {membership : Bool}
    (h : requireWritable table guard path membership = true) : Submitted table guard path := by
  rw [requireWritable, Bool.and_eq_true, List.isEmpty_iff] at h
  exact submitted_of_blocking h.1

/-- The paths of all locks are normalized. -/
def CanonicalLocks (table : DavLockTable) : Prop := ∀ lock ∈ table.listed, Canonical lock.path

/-- A lock that covers a path below a checked one covers the checked one or is rooted
strictly inside it. -/
theorem covers_below (hlock : Canonical lock.path) (hpre : path <+: target)
    (h : lockCoversPath lock.path lock.depth target.render = true) :
    lockCoversPath lock.path lock.depth path.render = true ∨
      normalizedPathInside lock.path path.render = true ∧ lock.path ≠ path.render := by
  have hinside := inside_render hpre
  rw [lockCoversPath_eq _ hlock (canonical_render _)] at h ⊢
  have hnormal : normalizedPathInside lock.path path.render =
      canonicalPathInside lock.path path.render := by
    rw [normalizedPathInside, hlock, canonical_render path]
  rw [hnormal]
  by_cases hroot : lock.path = path.render
  · exact .inl (by simp [canonicalLockCovers, hroot])
  simp only [canonicalLockCovers, Bool.or_eq_true, beq_iff_eq, Bool.and_eq_true] at h ⊢
  rcases h with heq | ⟨hdepth, hcovers⟩
  · rw [heq]
    exact .inr ⟨hinside, fun heq' => hroot (heq.trans heq')⟩
  · rcases inside_or_inside (canonical_render _) hlock (canonical_render _) hcovers hinside with
      hlow | hhigh
    · exact .inr ⟨hlow, hroot⟩
    · exact .inl (.inr ⟨hdepth, hhigh⟩)

theorem submitted_below (hcanonical : CanonicalLocks table)
    (hsubmitted : Submitted table guard path) (hmembers : lockedMembers table guard path = [])
    (hpre : path <+: target) : Submitted table guard target := by
  intro lock hlock hlive hcovers
  rcases covers_below (hcanonical lock hlock) hpre hcovers with hpath | ⟨hinside, hne⟩
  · exact hsubmitted lock hlock hlive hpath
  · exact submitted_of_lockedMembers hmembers hlock hlive hinside hne

/-! ## Trees without links -/

def NoLinks (tree : FileTree) : Prop := ∀ path link, tree.node path ≠ some (.symlink link)

section NoLinks

variable {tree : FileTree}

theorem walk_noLinks (h : NoLinks tree) {follow : TreePath → Except ErrorCode TreePath}
    (rest : TreePath) :
    ∀ {base target}, tree.walk follow base rest = .ok target → target = base ++ rest := by
  induction rest with
  | nil =>
    intro base target hw
    cases hw
    simp
  | cons name rest ih =>
    intro base target hw
    unfold walk at hw
    split at hw
    · rename_i link hlink
      exact absurd hlink (h _ _)
    · rw [ih hw]
      simp
    all_goals
      split at hw
      · rename_i hrest
        cases hw
        simp [hrest]
      · cases hw

variable {path target : TreePath}

section

variable (h : NoLinks tree)
include h

theorem resolve_noLinks (hr : tree.resolve path = .ok target) : target = path := by
  have hw := walk_noLinks h path hr
  simpa using hw

theorem directory_noLinks (hd : tree.directory path = .ok target) : target = path :=
  resolve_noLinks h (directory_eq_ok.1 hd).1

theorem locate_noLinks {entry : TreePath} (hl : tree.locate path = .ok entry) : entry = path := by
  obtain ⟨name, _, hname, hparent, rfl⟩ := locate_eq_ok.1 hl
  rw [directory_noLinks h hparent]
  exact dropLast_append_getLast? name hname

theorem stat_noLinks {node : Node} (hs : tree.stat path = .ok node) :
    tree.node path = some node := by
  obtain ⟨_, hr, hn⟩ := stat_eq_ok hs
  rwa [resolve_noLinks h hr] at hn

theorem doomed_noLinks (hd : Doomed tree path target) : path <+: target := by
  rcases hd with ⟨root, hroot, hbelow⟩ | hl
  · rw [directory_noLinks h hroot] at hbelow
    exact hbelow.strict.1
  · rw [locate_noLinks h hl]

end

section

variable (hw : tree.WellFormed) (hlinks : NoLinks tree)
include hw

theorem directory_of_node (hn : tree.node path = some .directory) :
    tree.directory path = .ok path := by
  induction path using reverseRecOn with
  | nil => exact directory_eq_ok.2 ⟨rfl, hn⟩
  | append_singleton path name ih =>
    exact directory_append (ih (hw.parent path name (by simp [hn]))) hn

include hlinks

theorem resolve_of_parent {name : Name} (hn : tree.node path = some .directory) :
    tree.resolve (path ++ [name]) = .ok (path ++ [name]) :=
  resolve_append (directory_of_node hw hn) (hlinks _)

theorem stat_of_node {node : Node} (hn : tree.node path = some node) :
    tree.stat path = .ok node := by
  have hr : tree.resolve path = .ok path := by
    induction path using reverseRecOn with
    | nil => rfl
    | append_singleton path name => exact resolve_of_parent hw hlinks (hw.parent path name (by simp [hn]))
  simp [stat, hr, hn]

end

theorem NoLinks.sub {larger : FileTree} (h : NoLinks larger) (hsub : tree.Sub larger) :
    NoLinks tree :=
  fun path link hn => h path link (hsub _ _ hn)

theorem NoLinks.set (h : NoLinks tree) {node : Node} (hnode : ∀ link, node ≠ .symlink link) :
    NoLinks (tree.set path (some node)) := by
  intro other link hn
  by_cases hother : other = path
  · rw [hother, set_node_self] at hn
    exact hnode link (some.inj hn)
  · rw [set_node_of_ne hother] at hn
    exact h other link hn

theorem noLinks_ofEntries {entries : List (TreePath × Node)}
    (h : (entries.all fun entry => match entry.2 with
      | .symlink _ => false
      | _ => true) = true) : NoLinks (ofEntries entries) := by
  intro path link hn
  induction entries with
  | nil => cases hn
  | cons entry _ ih =>
    rw [all_cons, Bool.and_eq_true] at h
    obtain ⟨first, _⟩ := entry
    by_cases hpath : path = first
    · subst hpath
      simp only [ofEntries, lookup_cons_self, some.injEq] at hn
      subst hn
      simp at h
    · have hne : (path == first) = false := by simpa using hpath
      simp only [ofEntries, lookup_cons, hne] at hn
      exact ih h.2 hn

end NoLinks

/-! ## The traversals -/

/-- The mutations of a phase satisfy `P`, add no link, and keep the tree well formed. -/
structure Writes (P : TreePath → Prop) (driver next : Driver) : Prop where
  effect : Effect P driver next
  noLinks : NoLinks driver.tree → NoLinks next.tree
  wellFormed : NoLinks driver.tree → driver.tree.WellFormed → next.tree.WellFormed

variable {P : TreePath → Prop}

theorem Writes.trans {a b c : Driver} (hab : Writes P a b) (hbc : Writes P b c) : Writes P a c :=
  ⟨hab.effect.trans hbc.effect, fun h => hbc.noLinks (hab.noLinks h),
    fun h hw => hbc.wellFormed (hab.noLinks h) (hab.wellFormed h hw)⟩

theorem Writes.mono {Q : TreePath → Prop} {a b : Driver} (h : Writes P a b)
    (hpq : ∀ path, P path → Q path) : Writes Q a b :=
  ⟨h.effect.mono hpq, h.noLinks, h.wellFormed⟩

theorem Quiet.writes {a b : Driver} (h : Quiet a b) : Writes P a b :=
  ⟨h.effect, fun hlinks => by rwa [h.1], fun _ hw => by rwa [h.1]⟩

/-- A node is set in a directory, in the place of none or of one without members. -/
theorem FileTree.WellFormed.set {tree : FileTree} {entry : TreePath} (hw : tree.WellFormed)
    (hlinks : NoLinks tree) (hl : tree.locate path = .ok entry)
    (hnode : tree.node path ≠ some .directory) (node : Node) :
    (tree.set path (some node)).WellFormed := by
  obtain ⟨name, parent, hname, hparent, -⟩ := locate_eq_ok.1 hl
  have hdir := (directory_eq_ok.1 hparent).2
  rw [directory_noLinks hlinks hparent] at hdir
  have hpath : path.dropLast ++ [name] = path := dropLast_append_getLast? name hname
  have hne : ∀ other, tree.node other = some .directory → other ≠ path := by
    rintro _ hother rfl
    exact hnode hother
  refine ⟨by rw [set_node_of_ne (hne [] hw.root), hw.root], fun other child hn => ?_⟩
  have hother : tree.node other = some .directory := by
    by_cases heq : other ++ [child] = path
    · rw [← hpath] at heq
      rw [(append_inj' heq rfl).1]
      exact hdir
    · rw [set_node_of_ne heq] at hn
      exact hw.parent other child hn
  rw [set_node_of_ne (hne other hother), hother]

variable {driver next : Driver} {result : Except ErrorCode Unit}

theorem writes_mkdir (hlinks : NoLinks driver.tree) (hpath : P path)
    (h : driver.mutate faults (mkdir path) = (result, next)) :
    Writes P driver next := by
  refine ⟨mutate_effect h ?_, fun _ => ?_, fun _ hw => ?_⟩
  · intro tree' touched hok
    obtain ⟨_, hl, -, rfl, rfl⟩ := mkdir_eq_ok hok
    rw [locate_noLinks hlinks hl]
    exact ⟨fun other hother => mem_singleton.1 hother ▸ hpath, set_logged⟩
  · rcases mutate_cases h with ⟨ht, -⟩ | ⟨touched, hok, -⟩
    · rwa [ht]
    · obtain ⟨_, -, -, ht, -⟩ := mkdir_eq_ok hok
      rw [ht]
      exact hlinks.set fun link hlink => by cases hlink
  · rcases mutate_cases h with ⟨ht, -⟩ | ⟨touched, hok, -⟩
    · rwa [ht]
    · obtain ⟨_, hl, hnone, ht, -⟩ := mkdir_eq_ok hok
      rw [locate_noLinks hlinks hl] at hnone ht
      rw [ht]
      exact hw.set hlinks hl (by simp [hnone]) _

theorem writes_write {data : List UInt8} (hlinks : NoLinks driver.tree) (hpath : P path)
    (h : driver.mutate faults (write path data) = (result, next)) :
    Writes P driver next := by
  refine ⟨mutate_effect h ?_, fun _ => ?_, fun _ hw => ?_⟩
  · intro tree' touched hok
    obtain ⟨_, hr, -, -, rfl, rfl⟩ := write_eq_ok hok
    rw [resolve_noLinks hlinks hr]
    exact ⟨fun other hother => mem_singleton.1 hother ▸ hpath, set_logged⟩
  · rcases mutate_cases h with ⟨ht, -⟩ | ⟨touched, hok, -⟩
    · rwa [ht]
    · obtain ⟨_, -, -, -, ht, -⟩ := write_eq_ok hok
      rw [ht]
      exact hlinks.set fun link hlink => by cases hlink
  · rcases mutate_cases h with ⟨ht, -⟩ | ⟨touched, hok, -⟩
    · rwa [ht]
    · obtain ⟨_, hr, hnode, ⟨_, hl⟩, ht, -⟩ := write_eq_ok hok
      rw [resolve_noLinks hlinks hr] at hnode ht
      rw [ht]
      exact hw.set hlinks hl hnode _

variable {destination : TreePath}

theorem writes_copyTree_leaf (hlinks : NoLinks driver.tree) (hpath : P destination)
    (source : TreePath) {stats : Node} {deep : Bool}
    (hleaf : stats.isDirectory = false ∨ deep = false) :
    Writes P driver (copyTree faults levels driver source destination stats deep).2.2 := by
  have hcopies : Copies faults (fun driver => NoLinks driver.tree) (Writes P) destination :=
    ⟨.trans, Quiet.writes, fun h hw => hw.noLinks h, fun h => writes_mkdir h hpath,
      fun h => writes_write h hpath⟩
  exact hcopies.copyTree_leaf hlinks source hleaf

section Copy

variable {S : TreePath → Prop} {source destination : TreePath}

def Image (S : TreePath → Prop) (source destination target : TreePath) : Prop :=
  ∃ rest, target = destination ++ rest ∧ S (source ++ rest)

/-- What exists below the source is in `S`. -/
def Within (S : TreePath → Prop) (source : TreePath) (driver : Driver) : Prop :=
  NoLinks driver.tree ∧ ∀ rest, driver.tree.node (source ++ rest) ≠ none → S (source ++ rest)

variable (hclosed : ∀ rest, source <+: destination ++ rest → S (source ++ rest) → S (destination ++ rest))
include hclosed

theorem Within.writes {driver next : Driver}
    (h : Within S source driver) (hw : Writes (Image S source destination) driver next) :
    Within S source next := by
  refine ⟨hw.noLinks h.1, fun rest hn => ?_⟩
  by_cases himage : Image S source destination (source ++ rest)
  · obtain ⟨other, heq, hother⟩ := himage
    rw [heq]
    exact hclosed other ⟨rest, heq⟩ hother
  · rw [hw.effect.node_eq himage] at hn
    exact h.2 rest hn

theorem writes_copyTree_root (levels : ℕ) {driver : Driver}
    {stats : Node} {deep : Bool} (hwithin : Within S source driver) (hs : S source) :
    Writes (Image S source destination) driver
      (copyTree faults levels driver source destination stats deep).2.2 := by
  have hcopies : ∀ rest, S (source ++ rest) → Copies faults (Within S source)
      (Writes (Image S source destination)) (destination ++ rest) := fun rest hrest =>
    ⟨.trans, Quiet.writes, fun h hw => h.writes hclosed hw,
      fun h => writes_mkdir h.1 ⟨rest, rfl, hrest⟩, fun h => writes_write h.1 ⟨rest, rfl, hrest⟩⟩
  have hwrites := copies_copyTree hcopies (fun driver rest stats h hstat =>
    h.2 rest (by rw [stat_noLinks h.1 hstat]; simp)) levels driver [] stats deep hwithin
    (by rwa [append_nil])
  rwa [append_nil, append_nil] at hwrites

end Copy

/-! ## Requests -/

/-- The checks of a COPY or MOVE of a whole collection pass, and nothing exists at its
destination. -/
structure CreatesDestination (table : DavLockTable) (guard : Guard) (tree : FileTree)
    (path destination : TreePath) (moving : Bool) (depth : Depth) : Prop where
  deep : depth = .infinity
  not_root : path ≠ []
  outside : ¬ path <+: destination
  parent : tree.node destination.dropLast = some .directory
  absent : tree.node destination = none
  sourceLocks : moving = true →
    requireWritable table guard path true = true ∧ lockedMembers table guard path = []
  targetLocks : requireWritable table guard destination true = true

/-- The request creates a resource below an absent destination that an unsubmitted lock
covers. -/
def CreatesLocked (table : DavLockTable) (guard : Guard) (tree : FileTree) : DavRequest → Prop
  | .copyOrMove path destination moving _ depth =>
    CreatesDestination table guard tree path destination moving depth ∧
      ∃ rest, tree.node (path ++ rest) ≠ none ∧ ¬ Submitted table guard (destination ++ rest)
  | _ => False

theorem effect_touched (h : Effect P driver next) (hempty : driver.touched = []) :
    ∀ path ∈ next.touched, P path := by
  obtain ⟨_, hnew, hp, -⟩ := h.log
  rw [hnew, hempty, nil_append]
  exact hp

variable {tree : FileTree}

theorem put_effect (ht : driver.tree = tree) (hlinks : NoLinks tree) (path : TreePath)
    (contentRange : Bool) (conditionals : Option Node → Bool) (body : Option (List UInt8)) :
    Effect (Submitted table guard) driver
      (put faults table guard driver path contentRange conditionals body).2 := by
  unfold put
  split
  · exact .refl _
  split
  · exact .refl _
  split
  · rename_i hs
    exact (statOrAbsent_quiet hs).1.effect
  · rename_i hs
    exact (statOrAbsent_quiet hs).1.effect
  rename_i existing read _ hs
  have hread := (statOrAbsent_quiet hs).1
  split
  · rename_i hc
    exact (hread.trans (requireCollection_quiet hc).1).effect
  rename_i checked hc
  have hchecked := hread.trans (requireCollection_quiet hc).1
  split
  · exact hchecked.effect
  rename_i hwritable
  have hpath : Submitted table guard path :=
    submitted_of_writable (Bool.not_eq_false _ ▸ hwritable)
  have hlinks' : NoLinks checked.tree := by rwa [hchecked.1, ht]
  split
  · exact hchecked.effect
  split
  · exact hchecked.effect
  split
  · rename_i hm
    exact hchecked.effect.trans (writes_write hlinks' hpath hm).effect
  · rename_i hm
    exact (hchecked.effect.trans (writes_write hlinks' hpath hm).effect).trans
      (durabilityBarrier_quiet _ _).effect

theorem mkcol_effect (ht : driver.tree = tree) (hlinks : NoLinks tree) (path : TreePath)
    (emptyBody : Bool) :
    Effect (Submitted table guard) driver (mkcol faults table guard driver path emptyBody).2 := by
  unfold mkcol
  split
  · exact .refl _
  split
  · exact .refl _
  split
  · rename_i hs
    exact (statOrAbsent_quiet hs).1.effect
  · rename_i hs
    exact (statOrAbsent_quiet hs).1.effect
  rename_i read hs
  have hread := (statOrAbsent_quiet hs).1
  split
  · rename_i hc
    exact (hread.trans (requireCollection_quiet hc).1).effect
  rename_i checked hc
  have hchecked := hread.trans (requireCollection_quiet hc).1
  split
  · exact hchecked.effect
  rename_i hwritable
  have hpath : Submitted table guard path :=
    submitted_of_writable (Bool.not_eq_false _ ▸ hwritable)
  have hlinks' : NoLinks checked.tree := by rwa [hchecked.1, ht]
  split
  · rename_i hm
    exact hchecked.effect.trans (writes_mkdir hlinks' hpath hm).effect
  · rename_i hm
    exact (hchecked.effect.trans (writes_mkdir hlinks' hpath hm).effect).trans
      (durabilityBarrier_quiet _ _).effect

theorem setTimes_effect (hpath : P path) (outcomes : List (ℕ × Bool)) :
    ∀ {driver next : Driver} {result : Except ErrorCode Unit}, NoLinks driver.tree →
      setTimes faults path outcomes driver = (result, next) → Effect P driver next := by
  induction outcomes with
  | nil =>
    intro driver next result _ h
    cases h
    exact .refl _
  | cons outcome outcomes ih =>
    intro driver next result hlinks h
    obtain ⟨status, sets⟩ := outcome
    cases sets with
    | false => exact ih hlinks h
    | true =>
      have hlogged : Logged (utimes path) driver.tree P ∧
          ∀ tree' touched, utimes path driver.tree = .ok (tree', touched) →
            tree' = driver.tree := by
        unfold Logged utimes
        cases hr : driver.tree.resolve path with
        | error => simp
        | ok =>
          rw [resolve_noLinks hlinks hr]
          cases hn : driver.tree.node path with
          | none => simp [hn]
          | some =>
            simp only [hn, Except.ok.injEq, Prod.mk.injEq, and_imp]
            refine ⟨?_, fun tree' touched ht _ => ht.symm⟩
            rintro _ _ rfl rfl
            exact ⟨fun other hother => mem_singleton.1 hother ▸ hpath,
              fun other hother => absurd rfl hother⟩
      unfold setTimes at h
      split at h
      · rename_i hm
        cases h
        exact mutate_effect hm hlogged.1
      · rename_i set hm
        refine (mutate_effect hm hlogged.1).trans (ih ?_ h)
        rcases mutate_cases hm with ⟨ht, -⟩ | ⟨touched, hok, -⟩
        · rwa [ht]
        · rwa [hlogged.2 _ _ hok]

theorem proppatch_effect (ht : driver.tree = tree) (hlinks : NoLinks tree) (path : TreePath)
    (outcomes : List (ℕ × Bool)) :
    Effect (Submitted table guard) driver
      (proppatch faults table guard driver path outcomes).2 := by
  unfold proppatch
  split
  · rename_i hs
    exact (statResource_quiet hs).1.effect
  rename_i read hs
  have hread := (statResource_quiet hs).1
  have hlinks' : NoLinks read.tree := by rwa [hread.1, ht]
  split
  · exact hread.effect
  rename_i hwritable
  have hpath : Submitted table guard path :=
    submitted_of_writable (Bool.not_eq_false _ ▸ hwritable)
  split
  · exact hread.effect
  split
  · rename_i hm
    exact hread.effect.trans (setTimes_effect hpath outcomes hlinks' hm)
  · rename_i hm
    exact (hread.effect.trans (setTimes_effect hpath outcomes hlinks' hm)).trans
      (durabilityBarrier_quiet _ _).effect

theorem delete_effect (ht : driver.tree = tree) (hlinks : NoLinks tree)
    (hcanonical : CanonicalLocks table) (path : TreePath) (depth : Depth) :
    Effect (Submitted table guard) driver
      (delete faults table guard levels driver path depth).2 := by
  unfold delete
  split
  · exact .refl _
  split
  · rename_i hs
    exact (linkStat_quiet hs).effect
  rename_i stats read hs
  have hread := linkStat_quiet hs
  have hsub : read.tree.Sub tree := .of_eq (hread.1.trans ht)
  split
  · exact hread.effect
  split
  · exact hread.effect
  rename_i hwritable
  split
  · exact hread.effect
  rename_i hmembers
  have hbelow : ∀ target, Doomed tree path target → Submitted table guard target :=
    fun target hdoomed => submitted_below hcanonical
      (submitted_of_writable (Bool.not_eq_false _ ▸ hwritable)) (not_not.1 hmembers)
      (doomed_noLinks hlinks hdoomed)
  split
  · split
    · rename_i hm
      exact hread.effect.trans ((removesEntry_unlink hsub hm).deletes.1.mono hbelow)
    · rename_i hm
      exact (hread.effect.trans ((removesEntry_unlink hsub hm).deletes.1.mono hbelow)).trans
        (durabilityBarrier_quiet _ _).effect
  · have hdeletes : Deletes tree path read (deleteTree faults levels read path).2.2 :=
      deletes_deleteTree tree levels read path hsub
    split
    rename_i hdelete
    rw [hdelete] at hdeletes
    split
    · exact (hread.effect.trans (hdeletes.1.mono hbelow)).trans (durabilityBarrier_quiet _ _).effect
    · exact hread.effect.trans (hdeletes.1.mono hbelow)

theorem FileTree.WellFormed.above (hw : tree.WellFormed) {rest : TreePath}
    (hn : tree.node (path ++ rest) ≠ none) : tree.node path ≠ none := by
  by_cases hrest : rest = []
  · rwa [hrest, append_nil] at hn
  · rw [(hw.below rest hn hrest).directory]
    simp

theorem copyTree_existing (hlinks : NoLinks driver.tree) (hn : driver.tree.node destination ≠ none)
    (source : TreePath) (deep : Bool) :
    Quiet driver (copyTree faults levels driver source destination .directory deep).2.2 := by
  cases levels with
  | zero => exact .refl _
  | succ levels =>
    unfold copyTree
    dsimp only
    split
    · rename_i hm
      exact mutate_error hm
    · rename_i hm
      obtain ⟨_, hok⟩ := mutate_ok hm
      obtain ⟨_, hl, hnone, -⟩ := mkdir_eq_ok hok
      rw [locate_noLinks hlinks hl] at hnone
      exact absurd hnone hn

theorem FileTree.WellFormed.not_prefix_of_leaf (hw : tree.WellFormed) {stats : Node}
    (hstats : tree.node path = some stats) (hleaf : stats ≠ .directory)
    (hparent : tree.node destination.dropLast = some .directory)
    (habsent : tree.node destination = none) : ¬ path <+: destination := by
  rintro ⟨rest, rfl⟩
  have hrest : rest ≠ [] := by
    rintro rfl
    rw [append_nil, hstats] at habsent
    cases habsent
  rw [dropLast_append_of_ne_nil hrest] at hparent
  have hdir : tree.node path = some .directory := by
    by_cases hnil : rest.dropLast = []
    · rwa [hnil, append_nil] at hparent
    · exact (hw.below _ (by rw [hparent]; simp) hnil).directory
  rw [hstats] at hdir
  exact hleaf (some.inj hdir)

theorem rename_touched {cleared renamed : Driver} (hlinks : NoLinks cleared.tree)
    (h : cleared.mutate faults (rename path destination) = (result, renamed)) :
    ∀ target ∈ renamed.touched, target ∈ cleared.touched ∨
      ∃ rest, cleared.tree.node (path ++ rest) ≠ none ∧
        (target = path ++ rest ∨ target = destination ++ rest) := by
  intro target htarget
  rcases mutate_cases h with ⟨-, hl, -⟩ | ⟨touched, hok, hl, -⟩
  · rw [hl] at htarget
    exact .inl htarget
  · rw [hl] at htarget
    refine (mem_append.1 htarget).imp_right fun hmem => ?_
    obtain ⟨entry, new, hentry, hnew, -, ⟨-, -, hnil⟩ | ⟨-, -, htouched⟩⟩ := rename_eq_ok hok
    · rw [hnil] at hmem
      cases hmem
    · have hrest := htouched target hmem
      rwa [locate_noLinks hlinks hentry, locate_noLinks hlinks hnew] at hrest

/-- Unless the request creates a locked resource, the image of the source below an absent
destination is submitted. -/
theorem submitted_image (hw : tree.WellFormed) (hlinks : NoLinks tree) {stats : Node}
    {existing : Option Node} {moving overwrite : Bool} {depth : Depth}
    (hsource : CheckedSource tree path destination moving depth stats)
    (hchecked : CheckedDestination faults table guard tree path destination moving overwrite
      existing)
    (hfaults : Honest faults) (hunlocked : ¬ CreatesLocked table guard tree
      (.copyOrMove path destination moving overwrite depth))
    (hdeep : moving = true ∨ depth = .infinity) (hnone : existing = none) (rest : TreePath)
    (hn : tree.node (path ++ rest) ≠ none) : Submitted table guard (destination ++ rest) := by
  have hnode := stat_noLinks hlinks hsource.source
  have hparent := stat_noLinks hlinks hchecked.parent
  obtain ⟨code, -, herror⟩ := hchecked.target.absent (by rw [hnone]) hfaults
  have habsent : tree.node destination = none := by
    by_contra hsome
    obtain ⟨node, hsome⟩ := ne_none_iff_exists'.1 hsome
    rw [stat_of_node hw hlinks hsome] at herror
    cases herror
  have htargetLocks := hchecked.targetLocks
  rw [hnone] at htargetLocks
  by_contra hnot
  refine hunlocked ⟨⟨hdeep.elim hsource.deep id, hsource.not_root, ?_, hparent, habsent,
    hchecked.sourceLocks, htargetLocks⟩, rest, hn, hnot⟩
  by_cases hdirectory : stats = .directory
  · exact hsource.outside (isDirectory_iff.2 hdirectory)
  · exact hw.not_prefix_of_leaf hnode hdirectory hparent habsent

theorem copyOrMove_touched (hw : tree.WellFormed) (hlinks : NoLinks tree)
    (hcanonical : CanonicalLocks table) {final : Driver} (ht : driver.tree = tree)
    (hempty : driver.touched = []) {moving overwrite : Bool} {depth : Depth} {answer : Answer}
    (h : copyOrMove faults table guard levels driver path destination moving overwrite depth =
      (answer, final))
    (hfaults : Honest faults) (hunlocked : ¬ CreatesLocked table guard tree
      (.copyOrMove path destination moving overwrite depth)) :
    ∀ target ∈ final.touched, Submitted table guard target := by
  rcases copyOrMove_cases h with hquiet | ⟨stats, existing, read, failures, mutated, cleared,
    hsource, hchecked, hread, hclear, -, hrest⟩
  · rw [hquiet.2, hempty]
    exact fun target hmem => by cases hmem
  rw [ht] at hsource hchecked
  have hnode := stat_noLinks hlinks hsource.source
  have hreadTree : read.tree = tree := hread.1.trans ht
  have hsub : read.tree.Sub tree := .of_eq hreadTree
  obtain ⟨hdeletes, -, hnone⟩ := clearDestination_deletes hsub hclear
  have hself : Submitted table guard destination := submitted_of_writable hchecked.targetLocks
  have hclearedLinks : NoLinks cleared.tree := hlinks.sub (hdeletes.2.trans hsub)
  -- Below an existing destination every lock was checked.
  have hexisting : existing.isSome = true → ∀ target, destination <+: target →
      Submitted table guard target :=
    fun hsome target hpre => submitted_below hcanonical hself (hchecked.targetMembers hsome)
      hpre
  have hcleared : Effect (Submitted table guard) driver cleared := by
    refine hread.effect.trans ?_
    cases hexists : existing with
    | none => exact (hnone hexists).effect
    | some =>
      exact hdeletes.1.mono fun target hdoomed =>
        hexisting (by rw [hexists]; rfl) target (doomed_noLinks hlinks hdoomed)
  -- Without one, the tree is as it was and the condition speaks of it.
  have himage : moving = true ∨ depth = .infinity → existing.isSome = false → ∀ rest,
      tree.node (path ++ rest) ≠ none → Submitted table guard (destination ++ rest) := by
    intro hdeep hnone
    rw [isSome_eq_false_iff, isNone_iff_eq_none] at hnone
    exact submitted_image hw hlinks hsource hchecked hfaults hunlocked hdeep hnone
  have hsame : existing.isSome = false → cleared.tree = tree := by
    intro habsent
    rw [isSome_eq_false_iff, isNone_iff_eq_none] at habsent
    exact (hnone habsent).1.trans hreadTree
  cases hrest with
  | stops hquiet => exact effect_touched (hcleared.trans hquiet.effect) hempty
  | renames _ _ hmoving hm hquiet =>
    rw [hquiet.2]
    intro target htarget
    obtain ⟨hsource, hmembers⟩ := hchecked.sourceLocks hmoving
    rcases rename_touched hclearedLinks hm target htarget with hold | ⟨rest, hn, rfl | rfl⟩
    · exact effect_touched hcleared hempty target hold
    · exact submitted_below hcanonical (submitted_of_writable hsource) hmembers
        (prefix_append _ _)
    · cases hexists : existing.isSome with
      | true => exact hexisting hexists _ (prefix_append _ _)
      | false =>
        rw [hsame hexists] at hn
        exact himage (.inl hmoving) hexists rest hn
  | copies _ hquiet =>
    refine effect_touched ((hcleared.trans ?_).trans hquiet.effect) hempty
    by_cases hleaf : stats.isDirectory = false ∨ (depth == .infinity) = false
    · exact (writes_copyTree_leaf hclearedLinks hself path hleaf).effect
    rw [not_or, Bool.not_eq_false, Bool.not_eq_false, isDirectory_iff, beq_iff_eq] at hleaf
    obtain ⟨hdirectory, hdepth⟩ := hleaf
    cases hexists : existing.isSome with
    | true =>
      refine (writes_copyTree_root (S := fun _ => True) (fun _ _ _ => trivial) levels
        ⟨hclearedLinks, fun _ _ => trivial⟩ trivial).effect.mono ?_
      rintro _ ⟨_, rfl, -⟩
      exact hexisting hexists _ (prefix_append _ _)
    | false =>
      have hwithin : Within (fun target => tree.node target ≠ none) path cleared := by
        rw [Within, hsame hexists]
        exact ⟨hlinks, fun rest hn => hn⟩
      by_cases hinto : destination <+: path
      · -- The destination is above the source: it exists, and `mkdir` fails.
        obtain ⟨_, rfl⟩ := hinto
        rw [hdirectory]
        refine (copyTree_existing hclearedLinks ?_ _ _).effect
        rw [hsame hexists]
        exact hw.above (by rw [hnode]; simp)
      · have happart : ∀ rest, ¬ path <+: destination ++ rest := by
          intro rest hpre
          rcases prefix_or_prefix_of_prefix hpre (prefix_append _ _) with
            hout | hin
          · exact hsource.outside (isDirectory_iff.2 hdirectory) hout
          · exact hinto hin
        refine (writes_copyTree_root (fun rest hpre => absurd hpre (happart rest))
          levels hwithin (by rw [hnode]; simp)).effect.mono ?_
        rintro _ ⟨rest, rfl, hn⟩
        exact himage (.inr hdepth) hexists rest hn

end MountRs.WebDav
