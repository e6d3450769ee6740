import MountRs.Verification.WebDav.Session

/-! # The phases of COPY and MOVE

What the traversal of a copy relates before and after it, and what the removal of an existing
destination and the rename change. -/

namespace MountRs.WebDav

open FileTree List

variable {faults : Faults} {levels : ℕ} {tree : FileTree} {driver : Driver} {node : Node}

theorem isDirectory_iff : node.isDirectory = true ↔ node = .directory := by
  cases node <;> simp [Node.isDirectory]

/-! ## Copies -/

/-- `R` relates the states before and after each call that a copy to `path` makes from a state
with `I`. -/
structure Copies (faults : Faults) (I : Driver → Prop) (R : Driver → Driver → Prop)
    (path : TreePath) : Prop where
  trans : ∀ {a b c}, R a b → R b c → R a c
  quiet : ∀ {a b}, Quiet a b → R a b
  keep : ∀ {a b}, I a → R a b → I b
  mkdir : ∀ {a b result}, I a → a.mutate faults (FileTree.mkdir path) = (result, b) → R a b
  write : ∀ {a b result data}, I a →
    a.mutate faults (FileTree.write path data) = (result, b) → R a b

section Copies

variable {I : Driver → Prop} {R : Driver → Driver → Prop} {source destination : TreePath}

section

variable (h : Copies faults I R destination)
include h

theorem Copies.copyFile (hI : I driver) (source : TreePath)
    (size : ℕ) : R driver (copyFile faults driver source destination size).2 := by
  unfold WebDav.copyFile
  split
  · rename_i hr
    exact h.quiet (read_quiet hr)
  rename_i data opened hr
  have hopened := h.quiet (read_quiet hr)
  split
  · rename_i hm
    exact h.trans hopened (h.write (h.keep hI hopened) hm)
  rename_i created hm
  have hcreated := h.trans hopened (h.write (h.keep hI hopened) hm)
  split
  · exact hcreated
  split
  · rename_i hm
    exact h.trans hcreated (h.write (h.keep hI hcreated) hm)
  rename_i written hm
  have hwritten := h.trans hcreated (h.write (h.keep hI hcreated) hm)
  cases hc : written.read faults fun _ => .ok () with
  | mk => exact h.trans hwritten (h.quiet (read_quiet hc))

theorem Copies.copyTree_leaf (hI : I driver) (source : TreePath) {stats : Node} {deep : Bool}
    (hleaf : stats.isDirectory = false ∨ deep = false) :
    R driver (copyTree faults levels driver source destination stats deep).2.2 := by
  cases levels with
  | zero => exact h.quiet (.refl driver)
  | succ levels =>
    unfold copyTree
    cases stats with
    | symlink => exact h.quiet (.refl driver)
    | file data =>
      have hfile := h.copyFile hI source data.length
      dsimp only
      split
      all_goals
        rename_i hc
        rwa [hc] at hfile
    | directory =>
      dsimp only
      split
      · rename_i hm
        exact h.mkdir hI hm
      · rename_i made hm
        rw [if_pos (hleaf.resolve_left (by simp [Node.isDirectory]))]
        exact h.mkdir hI hm

theorem Copies.foldl {α : Type} {step : Traversal → α → Traversal}
    (hstep : ∀ traversal entry, I traversal.2.2 → R traversal.2.2 (step traversal entry).2.2)
    (entries : List α) : ∀ traversal : Traversal, I traversal.2.2 →
      R traversal.2.2 (entries.foldl step traversal).2.2 := by
  induction entries with
  | nil => exact fun traversal _ => h.quiet (.refl traversal.2.2)
  | cons entry _ ih =>
    intro traversal hI
    have hfirst := hstep traversal entry hI
    exact h.trans hfirst (ih _ (h.keep hI hfirst))

theorem Copies.copyEntry {recurse : Driver → TreePath → TreePath → Node → Traversal}
    {target : TreePath} (traversal : Traversal) (entry : Name × Node)
    (hrecurse : ∀ driver stats, I driver → driver.tree.stat (source ++ [entry.1]) = .ok stats →
      R driver (recurse driver (source ++ [entry.1]) (target ++ [entry.1]) stats).2.2)
    (hI : I traversal.2.2) :
    R traversal.2.2 (copyEntry faults recurse source target traversal entry).2.2 := by
  obtain ⟨failures, mutated, driver⟩ := traversal
  obtain ⟨name, node⟩ := entry
  unfold WebDav.copyEntry
  dsimp only
  split
  · rename_i hs
    exact h.quiet (statOrAbsent_quiet hs).1
  · rename_i hs
    exact h.quiet (statOrAbsent_quiet hs).1
  · rename_i stats read hs
    obtain ⟨hquiet, hstat⟩ := statOrAbsent_quiet hs
    have hread := h.quiet hquiet
    split
    · exact hread
    · refine h.trans hread (hrecurse read stats (h.keep hI hread) ?_)
      rw [hquiet.1]
      exact hstat.found stats rfl

end

/-- Every step of the copy of a tree is to the image of a path that exists below the source. -/
theorem copies_copyTree {S : TreePath → Prop}
    (hpaths : ∀ rest, S rest → Copies faults I R (destination ++ rest))
    (hfound : ∀ driver rest stats, I driver → driver.tree.stat (source ++ rest) = .ok stats → S rest)
    (levels : ℕ) :
    ∀ (driver : Driver) (rest : TreePath) (stats : Node) (deep : Bool), I driver → S rest →
      R driver
        (copyTree faults levels driver (source ++ rest) (destination ++ rest) stats deep).2.2 := by
  induction levels with
  | zero => exact fun driver rest _ _ _ hs => (hpaths rest hs).quiet (.refl driver)
  | succ levels ih =>
    intro driver rest stats deep hI hs
    have h := hpaths rest hs
    by_cases hleaf : stats.isDirectory = false ∨ deep = false
    · exact h.copyTree_leaf hI _ hleaf
    rw [not_or, Bool.not_eq_false, Bool.not_eq_false, isDirectory_iff] at hleaf
    obtain ⟨rfl, rfl⟩ := hleaf
    unfold copyTree
    dsimp only
    split
    · rename_i hm
      exact h.mkdir hI hm
    rename_i made hm
    have hmade := h.mkdir hI hm
    rw [if_neg (by simp)]
    split
    · rename_i hr
      exact h.trans hmade (h.quiet (read_quiet hr))
    rename_i entries listed hr
    have hlisted := h.trans hmade (h.quiet (read_quiet hr))
    refine h.trans hlisted (h.foldl (fun traversal entry =>
      h.copyEntry traversal entry fun driver stats hI hstat => ?_) entries
      ([], true, listed) (h.keep hI hlisted))
    rw [append_assoc] at hstat ⊢
    rw [append_assoc]
    exact ih driver (rest ++ [entry.1]) stats true hI (hfound driver _ stats hI hstat)

end Copies

/-! ## Removal and rename -/

variable {destination : TreePath} {cleared : Driver}

theorem clearDestination_deletes {existing : Option Node} {failures : List Failure} {mutated : Bool}
    (hsub : driver.tree.Sub tree)
    (h : clearDestination faults levels driver destination existing =
      (failures, mutated, cleared)) :
    Deletes tree destination driver cleared ∧
      (existing ≠ some .directory → RemovesEntry tree destination driver cleared) ∧
      (existing = none → Quiet driver cleared) := by
  unfold clearDestination at h
  split at h
  · cases h
    exact ⟨⟨.refl _, .refl _⟩, fun _ => ⟨.refl _, .refl _⟩,
      fun _ => .refl _⟩
  · have hdeletes : Deletes tree destination driver
        (deleteTree faults levels driver destination).2.2 :=
      deletes_deleteTree tree levels driver destination hsub
    rw [h] at hdeletes
    exact ⟨hdeletes, fun hne => absurd rfl hne, fun hnone => by cases hnone⟩
  · rename_i node hnode
    have hremoves : RemovesEntry tree destination driver cleared := by
      split at h
      · rename_i hm
        cases h
        exact removesEntry_unlink hsub hm
      · rename_i hm
        split at h
        all_goals
          cases h
          exact removesEntry_unlink hsub hm
    exact ⟨hremoves.deletes, fun _ => hremoves, fun hnone => by cases hnone⟩

theorem rename_eq_ok {tree' : FileTree} {source : TreePath} {touched : List TreePath}
    (h : rename source destination tree = .ok (tree', touched)) :
    ∃ entry target, tree.locate source = .ok entry ∧ tree.locate destination = .ok target ∧
      tree.node entry ≠ none ∧
      (entry = target ∧ tree' = tree ∧ touched = [] ∨
        ¬ entry <+: target ∧ tree' = tree.move entry target ∧
        ∀ path ∈ touched, ∃ rest, tree.node (entry ++ rest) ≠ none ∧
          (path = entry ++ rest ∨ path = target ++ rest)) := by
  unfold rename at h
  split at h
  · cases h
  rename_i entry hentry
  split at h
  · cases h
  rename_i target htarget
  split at h
  · cases h
  rename_i node hnode
  refine ⟨entry, target, hentry, htarget, by simp [hnode], ?_⟩
  split at h
  · rename_i heq
    cases h
    exact .inl ⟨heq, rfl, rfl⟩
  split at h
  · cases h
  rename_i hinside
  split at h
  · cases h
  dsimp only at h
  cases h
  refine .inr ⟨hinside, rfl, ?_⟩
  have hbelow : ∀ path ∈ tree.paths.filter fun path => entry <+: path ∧ (tree.node path).isSome,
      ∃ rest, tree.node (entry ++ rest) ≠ none ∧ path = entry ++ rest := by
    intro path hpath
    obtain ⟨-, hcond⟩ := mem_filter.1 hpath
    obtain ⟨⟨rest, rfl⟩, hsome⟩ := of_decide_eq_true hcond
    exact ⟨rest, Option.isSome_iff_ne_none.1 hsome, rfl⟩
  intro path hpath
  rcases mem_append.1 hpath with hold | hnew
  · obtain ⟨rest, hn, rfl⟩ := hbelow path hold
    exact ⟨rest, hn, .inl rfl⟩
  · obtain ⟨old, hold, rfl⟩ := mem_map.1 hnew
    obtain ⟨rest, hn, rfl⟩ := hbelow old hold
    exact ⟨rest, hn, .inr (by simp)⟩

end MountRs.WebDav
