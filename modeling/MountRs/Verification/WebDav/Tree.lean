import MountRs.Model.WebDav.Session
import Mathlib.Data.List.Induction
import Mathlib.Tactic.SplitIfs

/-! # Effects on the driver tree

What a path resolves to survives in any tree that has the nodes on the way. A traversal
that deletes therefore acts, at every point of its run, on the directories its path named
when it started. -/

namespace MountRs.WebDav

open FileTree List Option

/-! ## Resolution in a larger tree -/

/-- Every node of the first tree is in the second. -/
def FileTree.Sub (tree larger : FileTree) : Prop :=
  ∀ path node, tree.node path = some node → larger.node path = some node

theorem FileTree.Sub.refl (tree : FileTree) : tree.Sub tree := fun _ _ h => h

variable {a b : FileTree}

theorem FileTree.Sub.of_eq (h : a = b) : a.Sub b := by
  rw [h]
  exact .refl b

theorem FileTree.Sub.trans {c : FileTree} (hab : a.Sub b) (hbc : b.Sub c) : a.Sub c :=
  fun path node h => hbc path node (hab path node h)

variable {tree larger : FileTree} {follow : TreePath → Except ErrorCode TreePath}

theorem walk_sub (h : tree.Sub larger) {follow' : TreePath → Except ErrorCode TreePath}
    (hfollow : ∀ path target, follow path = .ok target → tree.node target ≠ none →
      follow' path = .ok target) (rest : TreePath) :
    ∀ {base target}, tree.walk follow base rest = .ok target → tree.node target ≠ none →
      larger.walk follow' base rest = .ok target := by
  induction rest with
  | nil => exact fun hw _ => hw
  | cons name rest ih =>
    intro base target hw hnode
    unfold walk at hw ⊢
    cases hn : tree.node (base ++ [name]) with
    | none =>
      simp only [hn] at hw
      split_ifs at hw
      cases hw
      exact absurd hn hnode
    | some node =>
      simp only [hn] at hw
      simp only [h _ _ hn]
      cases node with
      | directory => exact ih hw hnode
      | file => exact hw
      | symlink => exact hfollow _ _ hw hnode

theorem resolveLinks_sub (h : tree.Sub larger) (links : ℕ) :
    ∀ {path target}, tree.resolveLinks links path = .ok target → tree.node target ≠ none →
      larger.resolveLinks links path = .ok target := by
  induction links with
  | zero =>
    intro path target hr
    cases hr
  | succ links ih =>
    intro path target hr hnode
    exact walk_sub h (fun _ _ hf hn => ih hf hn) path hr hnode

variable {path target : TreePath}

theorem directory_eq_ok : tree.directory path = .ok target ↔
      tree.resolve path = .ok target ∧ tree.node target = some .directory := by
  unfold directory
  cases hr : tree.resolve path with
  | error => simp
  | ok found =>
    dsimp only
    split
    · rename_i hn
      constructor
      · intro h
        cases h
        exact ⟨rfl, hn⟩
      · rintro ⟨h, -⟩
        cases h
        rfl
    · rename_i node hne hn
      constructor
      · intro h
        cases h
      · rintro ⟨h, hdir⟩
        cases h
        rw [hdir] at hn
        exact (hne (some.inj hn).symm).elim
    · rename_i hn
      constructor
      · intro h
        cases h
      · rintro ⟨h, hdir⟩
        cases h
        rw [hdir] at hn
        cases hn

theorem directory_sub (h : tree.Sub larger) (hd : tree.directory path = .ok target) :
    larger.directory path = .ok target := by
  rw [directory_eq_ok] at hd ⊢
  refine ⟨resolveLinks_sub h 41 hd.1 (by rw [hd.2]; simp), h _ _ hd.2⟩

variable {entry : TreePath}

theorem locate_eq_ok : tree.locate path = .ok entry ↔
      ∃ name parent, path.getLast? = some name ∧ tree.directory path.dropLast = .ok parent ∧
        entry = parent ++ [name] := by
  unfold locate
  cases hl : path.getLast? with
  | none => simp
  | some name =>
    cases hd : tree.directory path.dropLast with
    | error => simp
    | ok parent =>
      constructor
      · intro h
        cases h
        exact ⟨name, parent, rfl, rfl, rfl⟩
      · rintro ⟨_, _, hname, hparent, rfl⟩
        cases hname
        cases hparent
        rfl

theorem locate_sub (h : tree.Sub larger) (hl : tree.locate path = .ok entry) :
    larger.locate path = .ok entry := by
  rw [locate_eq_ok] at hl ⊢
  obtain ⟨name, parent, hname, hparent, rfl⟩ := hl
  exact ⟨name, parent, hname, directory_sub h hparent, rfl⟩

theorem locate_append (hd : tree.directory path = .ok target) (name : Name) :
    tree.locate (path ++ [name]) = .ok (target ++ [name]) := by
  rw [locate_eq_ok]
  exact ⟨name, target, by simp, by simpa using hd, rfl⟩

theorem stat_eq_ok {node : Node} (h : tree.stat path = .ok node) :
    ∃ target, tree.resolve path = .ok target ∧ tree.node target = some node := by
  unfold stat at h
  cases hr : tree.resolve path with
  | error =>
    rw [hr] at h
    cases h
  | ok target =>
    rw [hr] at h
    cases hn : tree.node target with
    | none => simp [hn] at h
    | some =>
      simp only [hn, elim_some] at h
      cases h
      exact ⟨target, rfl, hn⟩

/-! ## One more component -/

variable {name : Name}

theorem walk_append (hdir : tree.node target = some .directory)
    (hlink : ∀ link, tree.node (target ++ [name]) ≠ some (.symlink link))
    (hfollow : ∀ path, follow path = .ok target → follow (path ++ [name]) = .ok (target ++ [name]))
    (rest : TreePath) :
    ∀ {base}, tree.walk follow base rest = .ok target →
      tree.walk follow base (rest ++ [name]) = .ok (target ++ [name]) := by
  induction rest with
  | nil =>
    intro base hw
    cases hw
    rw [nil_append, walk]
    cases hn : tree.node (target ++ [name]) with
    | none => simp
    | some node =>
      cases node with
      | directory => rfl
      | file => simp
      | symlink link => exact absurd hn (hlink link)
  | cons next rest ih =>
    intro base hw
    rw [cons_append, walk]
    rw [walk] at hw
    cases hn : tree.node (base ++ [next]) with
    | none =>
      simp only [hn] at hw
      split_ifs at hw
      cases hw
      rw [hdir] at hn
      cases hn
    | some node =>
      simp only [hn] at hw
      cases node with
      | directory => exact ih hw
      | file =>
        dsimp only at hw
        split_ifs at hw
        cases hw
        rw [hdir] at hn
        cases hn
      | symlink =>
        have hnext := hfollow _ hw
        rwa [append_assoc] at hnext

theorem resolve_append (hd : tree.directory path = .ok target)
    (hlink : ∀ link, tree.node (target ++ [name]) ≠ some (.symlink link)) :
    tree.resolve (path ++ [name]) = .ok (target ++ [name]) := by
  obtain ⟨hr, hdir⟩ := directory_eq_ok.1 hd
  have hlinks : ∀ links path, tree.resolveLinks links path = .ok target →
      tree.resolveLinks links (path ++ [name]) = .ok (target ++ [name]) := by
    intro links
    induction links with
    | zero =>
      intro path h
      cases h
    | succ links ih => exact fun path h => walk_append hdir hlink ih path h
  exact hlinks 41 path hr

theorem directory_append (hd : tree.directory path = .ok target)
    (hn : tree.node (target ++ [name]) = some .directory) :
    tree.directory (path ++ [name]) = .ok (target ++ [name]) := by
  rw [directory_eq_ok]
  exact ⟨resolve_append hd (by simp [hn]), hn⟩

theorem mem_names : name ∈ tree.names path ↔ tree.node (path ++ [name]) ≠ none := by
  unfold names
  rw [mem_filter, mem_dedup, isSome_iff_ne_none]
  constructor
  · exact And.right
  · intro h
    refine ⟨mem_filterMap.2 ⟨path ++ [name], ?_, by simp⟩, h⟩
    exact mem_filter.2 ⟨tree.support _ h, by simp⟩

theorem readdir_eq_ok {entries : List (Name × Node)} (h : tree.readdir path = .ok entries) :
    ∃ target, tree.directory path = .ok target ∧ (entries.map Prod.fst).Nodup ∧
      ∀ entry ∈ entries, tree.node (target ++ [entry.1]) = some entry.2 := by
  unfold readdir at h
  cases hd : tree.directory path with
  | error =>
    rw [hd] at h
    cases h
  | ok target =>
    rw [hd] at h
    cases h
    refine ⟨target, rfl, ?_, ?_⟩
    · have hnames : (tree.names target).Nodup := (nodup_dedup _).filter _
      rw [map_filterMap]
      refine hnames.filterMap ?_
      intro a b c hc hc'
      simp only [mem_def, map_eq_some_iff] at hc hc'
      obtain ⟨_, ⟨_, _, rfl⟩, rfl⟩ := hc
      obtain ⟨_, ⟨_, _, rfl⟩, h⟩ := hc'
      exact h.symm
    · intro entry hentry
      obtain ⟨_, -, hmap⟩ := mem_filterMap.1 hentry
      obtain ⟨_, hnode, rfl⟩ := map_eq_some_iff.1 hmap
      exact hnode

/-! ## Effects -/

/-- The paths touched from one driver to the next satisfy `P`, and no other node changes. -/
structure Effect (P : TreePath → Prop) (driver next : Driver) : Prop where
  log : ∃ new, next.touched = driver.touched ++ new ∧ (∀ path ∈ new, P path) ∧
    ∀ path, next.tree.node path ≠ driver.tree.node path → path ∈ new

namespace Effect

variable {P Q : TreePath → Prop} {a b c : Driver}

theorem of_eq (ht : b.tree = a.tree) (hl : b.touched = a.touched) : Effect P a b :=
  ⟨[], by simp [hl], by simp, fun path h => absurd (by rw [ht]) h⟩

theorem refl (a : Driver) : Effect P a a := of_eq rfl rfl

theorem trans (hab : Effect P a b) (hbc : Effect P b c) : Effect P a c := by
  obtain ⟨new, hl, hp, hn⟩ := hab.log
  obtain ⟨new', hl', hp', hn'⟩ := hbc.log
  refine ⟨new ++ new', by rw [hl', hl, append_assoc], ?_, ?_⟩
  · intro path hpath
    exact (mem_append.1 hpath).elim (hp path) (hp' path)
  · intro path hne
    by_cases hb : b.tree.node path = a.tree.node path
    · exact mem_append_right _ (hn' path (by rwa [hb]))
    · exact mem_append_left _ (hn path hb)

theorem mono (h : Effect P a b) (hpq : ∀ path, P path → Q path) : Effect Q a b := by
  obtain ⟨new, hl, hp, hn⟩ := h.log
  exact ⟨new, hl, fun path hpath => hpq path (hp path hpath), hn⟩

theorem node_eq (h : Effect P a b) {path : TreePath} (hpath : ¬ P path) :
    b.tree.node path = a.tree.node path := by
  obtain ⟨_, -, hp, hn⟩ := h.log
  by_contra hne
  exact hpath (hp path (hn path hne))

end Effect

variable {faults : Faults} {α : Type} {driver next : Driver} {P : TreePath → Prop}

variable {query : FileTree → Except ErrorCode α}

theorem read_effect {result : Except ErrorCode α}
    (h : driver.read faults query = (result, next)) :
    Effect P driver next ∧ next.tree = driver.tree := by
  unfold Driver.read at h
  split at h
  · cases h
    exact ⟨.of_eq rfl rfl, rfl⟩
  · cases h
    exact ⟨.of_eq rfl rfl, rfl⟩

theorem read_ok {value : α}
    (h : driver.read faults query = (.ok value, next)) :
    query driver.tree = .ok value := by
  unfold Driver.read at h
  split at h
  · cases h
  · exact (Prod.mk.inj h).1

/-- A mutation whose log has every node it changes. -/
def Logged (mutation : Mutation) (tree : FileTree) (P : TreePath → Prop) : Prop :=
  ∀ tree' touched, mutation tree = .ok (tree', touched) → (∀ path ∈ touched, P path) ∧
    ∀ path, tree'.node path ≠ tree.node path → path ∈ touched

variable {mutation : Mutation} {result : Except ErrorCode Unit}

theorem mutate_cases (h : driver.mutate faults mutation = (result, next)) :
    next.tree = driver.tree ∧ next.touched = driver.touched ∧ (∃ code, result = .error code) ∨
      ∃ touched, mutation driver.tree = .ok (next.tree, touched) ∧
        next.touched = driver.touched ++ touched ∧ result = .ok () := by
  unfold Driver.mutate at h
  split at h
  · rename_i code _
    cases h
    exact .inl ⟨rfl, rfl, code, rfl⟩
  · split at h
    · rename_i code _
      cases h
      exact .inl ⟨rfl, rfl, code, rfl⟩
    · rename_i tree' touched hm
      cases h
      exact .inr ⟨touched, hm, rfl, rfl⟩

theorem mutate_ok (h : driver.mutate faults mutation = (.ok (), next)) :
    ∃ touched, mutation driver.tree = .ok (next.tree, touched) := by
  rcases mutate_cases h with ⟨-, -, code, hcode⟩ | ⟨touched, hok, -⟩
  · cases hcode
  · exact ⟨touched, hok⟩

theorem mutate_effect (h : driver.mutate faults mutation = (result, next))
    (hm : Logged mutation driver.tree P) : Effect P driver next := by
  rcases mutate_cases h with ⟨ht, hl, -⟩ | ⟨touched, hok, hl, -⟩
  · exact .of_eq ht hl
  · obtain ⟨hp, hn⟩ := hm _ _ hok
    exact ⟨touched, hl, hp, hn⟩

theorem set_logged {value : Option Node} (other : TreePath)
    (h : (tree.set path value).node other ≠ tree.node other) : other ∈ [path] := by
  by_contra hne
  exact h (Function.update_of_ne (fun heq => hne (mem_singleton.2 heq)) _ _)

variable {tree' : FileTree} {touched : List TreePath}

theorem unlink_eq_ok (h : unlink path tree = .ok (tree', touched)) :
    ∃ entry, tree.locate path = .ok entry ∧ tree.node entry ≠ some .directory ∧
      tree' = tree.set entry none ∧ touched = [entry] := by
  unfold unlink at h
  split at h
  · cases h
  · rename_i entry hl
    split at h
    · cases h
    · cases h
    · rename_i node hne hn
      cases h
      refine ⟨entry, hl, ?_, rfl, rfl⟩
      rw [hn]
      exact fun heq => hne (some.inj heq)

theorem rmdir_eq_ok (h : rmdir path tree = .ok (tree', touched)) :
    ∃ entry, tree.locate path = .ok entry ∧ tree.names entry = [] ∧
      tree' = tree.set entry none ∧ touched = [entry] := by
  unfold rmdir at h
  split at h
  · cases h
  · rename_i entry hl
    split at h
    · cases h
    · split_ifs at h with hempty
      cases h
      exact ⟨entry, hl, hempty, rfl, rfl⟩
    · cases h

theorem mkdir_eq_ok (h : mkdir path tree = .ok (tree', touched)) :
    ∃ entry, tree.locate path = .ok entry ∧ tree.node entry = none ∧
      tree' = tree.set entry (some .directory) ∧ touched = [entry] := by
  unfold mkdir at h
  split at h
  · cases h
  · rename_i entry hl
    split at h
    · cases h
    · rename_i hn
      cases h
      exact ⟨entry, hl, hn, rfl, rfl⟩

theorem write_eq_ok {data : List UInt8} (h : write path data tree = .ok (tree', touched)) :
    ∃ target, tree.resolve path = .ok target ∧ tree.node target ≠ some .directory ∧
      (∃ entry, tree.locate path = .ok entry) ∧
      tree' = tree.set target (some (.file data)) ∧ touched = [target] := by
  unfold write at h
  split at h
  · cases h
  · rename_i entry hl
    split at h
    · cases h
    · rename_i target hr
      split at h
      · cases h
      · rename_i hne
        cases h
        exact ⟨target, hr, hne, ⟨entry, hl⟩, rfl, rfl⟩

theorem set_node_self (path : TreePath) (value : Option Node) :
    (tree.set path value).node path = value := by
  simp [FileTree.set]

theorem set_node_of_ne {other : TreePath} (h : other ≠ path) (value : Option Node) :
    (tree.set path value).node other = tree.node other := by
  simp [FileTree.set, Function.update_of_ne h]

theorem set_none_sub (path : TreePath) : (tree.set path none).Sub tree := by
  intro other node h
  by_cases hpath : other = path
  · subst hpath
    rw [set_node_self] at h
    cases h
  · rwa [set_node_of_ne hpath] at h

/-! ## Deletion -/

/-- A path below a directory by way of real directories. -/
inductive Below (tree : FileTree) (root : TreePath) : TreePath → Prop
  | child (name : Name) : tree.node root = some .directory → Below tree root (root ++ [name])
  | deeper {path : TreePath} (name : Name) : Below tree root path →
      tree.node path = some .directory → Below tree root (path ++ [name])

variable {root : TreePath}

theorem Below.of_child (hroot : tree.node root = some .directory)
    (h : Below tree (root ++ [name]) path) :
    Below tree root path := by
  induction h with
  | child next hdir => exact .deeper next (.child name hroot) hdir
  | deeper next _ hdir ih => exact .deeper next ih hdir

theorem Below.strict (h : Below tree root path) : root <+: path ∧ path ≠ root := by
  induction h with
  | child => exact ⟨prefix_append _ _, by simp⟩
  | deeper name _ _ ih =>
    refine ⟨ih.1.trans (prefix_append _ _), ?_⟩
    intro heq
    have hlen := ih.1.length_le
    rw [← heq] at hlen
    simp at hlen

/-- What the deletion of a collection can remove: the entry the path names, and what is
below the directory it resolves to. -/
def Doomed (tree : FileTree) (path target : TreePath) : Prop :=
  (∃ root, tree.directory path = .ok root ∧ Below tree root target) ∨ tree.locate path = .ok target

theorem Doomed.of_child (hd : tree.directory path = .ok root)
    (hn : tree.node (root ++ [name]) = some .directory) (h : Doomed tree (path ++ [name]) target) :
    Doomed tree path target := by
  have hroot := (directory_eq_ok.1 hd).2
  rcases h with ⟨root', hd', hbelow⟩ | hl
  · rw [directory_append hd hn] at hd'
    cases hd'
    exact .inl ⟨root, hd, hbelow.of_child hroot⟩
  · rw [locate_append hd] at hl
    cases hl
    exact .inl ⟨root, hd, .child name hroot⟩

/-- What a deletion does from a driver whose tree is part of `tree`. -/
def Deletes (tree : FileTree) (path : TreePath) (driver next : Driver) : Prop :=
  Effect (Doomed tree path) driver next ∧ next.tree.Sub driver.tree

theorem Deletes.trans {a b c : Driver} (hab : Deletes tree path a b) (hbc : Deletes tree path b c) :
    Deletes tree path a c :=
  ⟨hab.1.trans hbc.1, hbc.2.trans hab.2⟩

theorem Deletes.of_read {result : Except ErrorCode α}
    (h : driver.read faults query = (result, next)) : Deletes tree path driver next := by
  obtain ⟨he, ht⟩ := read_effect h
  exact ⟨he, .of_eq ht⟩

/-- A call that removes at most the entry its path names in `tree`. -/
def RemovesEntry (tree : FileTree) (path : TreePath) (driver next : Driver) : Prop :=
  Effect (fun target => tree.locate path = .ok target) driver next ∧ next.tree.Sub driver.tree

theorem RemovesEntry.deletes (h : RemovesEntry tree path driver next) :
    Deletes tree path driver next :=
  ⟨h.1.mono fun _ hl => .inr hl, h.2⟩

theorem removesEntry (hsub : driver.tree.Sub tree)
    (h : driver.mutate faults mutation = (result, next))
    (hm : ∀ tree' touched, mutation driver.tree = .ok (tree', touched) →
      ∃ entry, driver.tree.locate path = .ok entry ∧ tree' = driver.tree.set entry none ∧
        touched = [entry]) : RemovesEntry tree path driver next := by
  refine ⟨mutate_effect h ?_, ?_⟩
  · intro tree' touched hok
    obtain ⟨_, hl, rfl, rfl⟩ := hm _ _ hok
    refine ⟨?_, fun other hne => set_logged other hne⟩
    intro other hother
    rw [mem_singleton.1 hother]
    exact locate_sub hsub hl
  · rcases mutate_cases h with ⟨ht, -⟩ | ⟨touched, hok, -⟩
    · exact .of_eq ht
    · obtain ⟨entry, -, hset, -⟩ := hm _ _ hok
      rw [hset]
      exact set_none_sub entry

theorem removesEntry_unlink (hsub : driver.tree.Sub tree)
    (h : driver.mutate faults (unlink path) = (result, next)) :
    RemovesEntry tree path driver next :=
  removesEntry hsub h fun _ _ hok => by
    obtain ⟨entry, hl, -, hset, ht⟩ := unlink_eq_ok hok
    exact ⟨entry, hl, hset, ht⟩

theorem removesEntry_rmdir (hsub : driver.tree.Sub tree)
    (h : driver.mutate faults (rmdir path) = (result, next)) :
    RemovesEntry tree path driver next :=
  removesEntry hsub h fun _ _ hok => by
    obtain ⟨entry, hl, -, hset, ht⟩ := rmdir_eq_ok hok
    exact ⟨entry, hl, hset, ht⟩

variable {recurse : Driver → TreePath → Traversal}

theorem deletes_deleteEntry {entry : Name × Node} {failures : List Failure} {mutated : Bool}
    (hd : tree.directory path = .ok root) (hn : tree.node (root ++ [entry.1]) = some entry.2)
    (hrecurse : ∀ driver path, driver.tree.Sub tree →
      Deletes tree path driver (recurse driver path).2.2) (hsub : driver.tree.Sub tree) :
    Deletes tree path driver
      (deleteEntry faults recurse path (failures, mutated, driver) entry).2.2 := by
  obtain ⟨name, node⟩ := entry
  unfold deleteEntry
  dsimp only
  split_ifs with hdir
  · have hnode : tree.node (root ++ [name]) = some .directory := by
      cases node with
      | directory => exact hn
      | file | symlink => cases hdir
    obtain ⟨heffect, hless⟩ := hrecurse driver (path ++ [name]) hsub
    exact ⟨heffect.mono fun _ hdoomed => hdoomed.of_child hd hnode, hless⟩
  · cases hm : driver.mutate faults (unlink (path ++ [name])) with
    | mk result next =>
      obtain ⟨heffect, hless⟩ := removesEntry_unlink hsub hm
      have hdeletes : Deletes tree path driver next := by
        refine ⟨heffect.mono ?_, hless⟩
        intro target hl
        rw [locate_append hd] at hl
        cases hl
        exact .inl ⟨root, hd, .child name (directory_eq_ok.1 hd).2⟩
      cases result with
      | ok _ => exact hdeletes
      | error =>
        dsimp only
        split_ifs
        · exact hdeletes
        · exact hdeletes

theorem deletes_foldl (hd : tree.directory path = .ok root)
    (hrecurse : ∀ driver path, driver.tree.Sub tree →
      Deletes tree path driver (recurse driver path).2.2) (entries : List (Name × Node))
    (hn : ∀ entry ∈ entries, tree.node (root ++ [entry.1]) = some entry.2) :
    ∀ traversal : Traversal, traversal.2.2.tree.Sub tree → Deletes tree path traversal.2.2
        (entries.foldl (deleteEntry faults recurse path) traversal).2.2 := by
  induction entries with
  | nil => exact fun traversal _ => ⟨.refl _, .refl _⟩
  | cons entry _ ih =>
    rintro ⟨failures, mutated, driver⟩ hsub
    have hstep : Deletes tree path driver
        (deleteEntry faults recurse path (failures, mutated, driver) entry).2.2 :=
      deletes_deleteEntry hd (hn entry (mem_cons_self ..)) hrecurse hsub
    have hrest := ih (fun other hother => hn other (mem_cons_of_mem _ hother))
      (deleteEntry faults recurse path (failures, mutated, driver) entry)
      (hstep.2.trans hsub)
    exact hstep.trans hrest

theorem deletes_deleteTree (tree : FileTree) (levels : ℕ) :
    ∀ (driver : Driver) (path : TreePath), driver.tree.Sub tree →
      Deletes tree path driver (deleteTree faults levels driver path).2.2 := by
  induction levels with
  | zero => exact fun driver path _ => ⟨.refl _, .refl _⟩
  | succ levels ih =>
    intro driver path hsub
    unfold deleteTree
    cases hread : driver.read faults fun tree => tree.readdir path with
    | mk result listed =>
      have hlisted : Deletes tree path driver listed := .of_read hread
      cases result with
      | error =>
        dsimp only
        split_ifs
        · exact hlisted
        · exact hlisted
      | ok entries =>
        obtain ⟨root, hd, -, hn⟩ := readdir_eq_ok (read_ok hread)
        have hfold : Deletes tree path listed (entries.foldl
            (deleteEntry faults (deleteTree faults levels) path) ([], false, listed)).2.2 :=
          deletes_foldl (directory_sub hsub hd) ih entries
            (fun entry hentry => hsub _ _ (hn entry hentry)) ([], false, listed)
            (hlisted.2.trans hsub)
        have hall := hlisted.trans hfold
        dsimp only
        split
        · rename_i mutated cleared heq
          rw [heq] at hall
          cases hrm : cleared.mutate faults (rmdir path) with
          | mk result =>
            have hrmdir := (removesEntry_rmdir (hall.2.trans hsub) hrm).deletes
            cases result with
            | ok _ => exact hall.trans hrmdir
            | error =>
              dsimp only
              split_ifs
              · exact hall.trans hrmdir
              · exact hall.trans hrmdir
        · exact hall

/-! ## Well-formed trees -/

/-- The root is a directory, and so is the parent of every node. -/
structure FileTree.WellFormed (tree : FileTree) : Prop where
  root : tree.node [] = some .directory
  parent : ∀ path name, tree.node (path ++ [name]) ≠ none → tree.node path = some .directory

theorem FileTree.WellFormed.below (hw : tree.WellFormed) (rest : TreePath) :
    tree.node (root ++ rest) ≠ none → rest ≠ [] → Below tree root (root ++ rest) := by
  induction rest using List.reverseRecOn with
  | nil => exact fun _ h => absurd rfl h
  | append_singleton rest name ih =>
    intro hn _
    rw [← append_assoc] at hn ⊢
    have hparent := hw.parent _ _ hn
    by_cases hrest : rest = []
    · subst hrest
      rw [append_nil] at hparent ⊢
      exact .child name hparent
    · exact .deeper name (ih (by rw [hparent]; simp) hrest) hparent

theorem Below.directory (h : Below tree root path) : tree.node root = some .directory := by
  induction h with
  | child _ hdir => exact hdir
  | deeper _ _ _ ih => exact ih

/-! ## Finite trees -/

/-- The tree with the given nodes. -/
def FileTree.ofEntries (entries : List (TreePath × Node)) : FileTree where
  node path := entries.lookup path
  paths := entries.map Prod.fst
  support := by
    intro path h
    by_contra hnot
    refine h (List.lookup_eq_none_iff.2 fun entry hentry => ?_)
    rw [bne_iff_ne]
    rintro rfl
    exact hnot (List.mem_map.2 ⟨entry, hentry, rfl⟩)

theorem FileTree.ofEntries_wellFormed {entries : List (TreePath × Node)}
    (hroot : entries.lookup [] = some .directory)
    (hparent : ∀ entry ∈ entries, entry.1 = [] ∨
      entries.lookup entry.1.dropLast = some .directory) :
    (ofEntries entries).WellFormed := by
  refine ⟨hroot, fun path name h => ?_⟩
  obtain ⟨entry, hentry, hpath⟩ := mem_map.1 ((ofEntries entries).support _ h)
  rcases hparent entry hentry with hnil | hdir
  · rw [hnil] at hpath
    simp at hpath
  · rwa [hpath, dropLast_concat] at hdir

end MountRs.WebDav
