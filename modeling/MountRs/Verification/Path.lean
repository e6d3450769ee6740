import MountRs.Model.Path
import Mathlib.Tactic.SplitIfs

/-! # Normalized paths

A normalized path is the spelling of its components, and it is read back as these. -/

namespace MountRs

open String List

/-- A component of a normalized path. -/
def IsComponent (name : String) : Prop :=
  name ≠ "" ∧ name ≠ "." ∧ name ≠ ".." ∧ '/' ∉ name.toList

variable {names : List String} {path : String}

/-! ## Spellings -/

theorem toList_joinSlash (names : List String) :
    (joinSlash names).toList = ['/'].intercalate (names.map toList) := by
  induction names with
  | nil => rfl
  | cons name names ih =>
    cases names with
    | nil => simp [joinSlash]
    | cons =>
      simp only [map_cons, List.intercalate_cons_cons] at ih ⊢
      rw [joinSlash, toList_append, toList_append, ih]
      · rfl
      · simp

theorem joinSlash_closed (hne : names ≠ []) :
    (joinSlash names).toList ++ ['/'] = names.flatMap fun name => name.toList ++ ['/'] := by
  induction names with
  | nil => exact absurd rfl hne
  | cons name names ih =>
    cases names with
    | nil => simp [joinSlash]
    | cons =>
      have hrest := ih (by simp)
      rw [joinSlash, toList_append, toList_append, List.append_assoc, hrest]
      · simp
      · simp

theorem splitSlash_slash (first second : String) :
    splitSlash (first ++ "/" ++ second) = splitSlash first ++ splitSlash second := by
  have hsplit : (first ++ "/" ++ second).toList.splitOn '/' =
      first.toList.splitOn '/' ++ second.toList.splitOn '/' := by
    rw [toList_append, toList_append, List.append_assoc]
    exact splitOn_append_cons_self _ _
  rw [splitSlash, hsplit, map_append]
  rfl

theorem splitSlash_joinSlash (hne : names ≠ []) (h : ∀ name ∈ names, IsComponent name) :
    splitSlash (joinSlash names) = names := by
  have hslash : ∀ l ∈ names.map toList, '/' ∉ l := by
    intro l hl
    obtain ⟨name, hname, rfl⟩ := mem_map.1 hl
    exact (h name hname).2.2.2
  rw [splitSlash, toList_joinSlash, splitOn_intercalate _ hslash (by simpa using hne)]
  simp

theorem splitSlash_append (path : String) (hne : names ≠ [])
    (h : ∀ name ∈ names, IsComponent name) :
    splitSlash (path ++ "/" ++ joinSlash names) = splitSlash path ++ names := by
  rw [splitSlash_slash, splitSlash_joinSlash hne h]

theorem splitSlash_render (hne : names ≠ []) (h : ∀ name ∈ names, IsComponent name) :
    splitSlash ("/" ++ joinSlash names) = "" :: names :=
  splitSlash_append "" hne h

theorem foldl_pushSegment (h : ∀ name ∈ names, IsComponent name) (segments : List String) :
    names.foldl pushSegment segments = names.reverse ++ segments := by
  induction names generalizing segments with
  | nil => rfl
  | cons name names ih =>
    obtain ⟨hempty, hdot, hdots, -⟩ := h name mem_cons_self
    rw [foldl_cons, ih fun n hn => h n (mem_cons_of_mem _ hn), reverse_cons,
      List.append_assoc]
    simp [pushSegment, hempty, hdot, hdots]

/-! ## Components -/

theorem of_mem_splitOn {chars : List Char} :
    ∀ part ∈ chars.splitOn '/', '/' ∉ part ∧ part ⊆ chars := by
  unfold List.splitOn
  induction chars with
  | nil => simp
  | cons c chars ih =>
    rw [splitOnP_cons_eq_if_modifyHead]
    split_ifs with hc
    · simp only [forall_mem_cons]
      exact ⟨by simp, fun part hpart => ⟨(ih part hpart).1,
        fun d hd => mem_cons_of_mem _ ((ih part hpart).2 hd)⟩⟩
    · cases hparts : chars.splitOnP (· == '/') with
      | nil => simp
      | cons =>
        rw [hparts] at ih
        simp only [modifyHead_cons, forall_mem_cons] at ih ⊢
        refine ⟨⟨?_, cons_subset_cons c ih.1.2⟩, fun part hpart => ⟨(ih.2 part hpart).1,
          fun d hd => mem_cons_of_mem _ ((ih.2 part hpart).2 hd)⟩⟩
        simp only [mem_cons, not_or]
        exact ⟨fun heq => hc (by simp [← heq]), ih.1.1⟩

theorem of_mem_foldl {P : String → Prop} {parts : List String}
    (hparts : ∀ part ∈ parts, part ≠ "" → part ≠ "." → part ≠ ".." → P part)
    (segments : List String) (hsegments : ∀ name ∈ segments, P name) :
    ∀ name ∈ parts.foldl pushSegment segments, P name := by
  induction parts generalizing segments with
  | nil => exact hsegments
  | cons part parts ih =>
    refine ih (fun p hp => hparts p (mem_cons_of_mem _ hp)) _ ?_
    unfold pushSegment
    split_ifs with hskip hdots
    · exact hsegments
    · exact fun name hname => hsegments name (mem_of_mem_tail hname)
    · exact forall_mem_cons.2 ⟨hparts part mem_cons_self (fun h => hskip (.inl h))
        (fun h => hskip (.inr h)) hdots, hsegments⟩

theorem of_mem_segments : ∀ name ∈ ((splitSlash path).foldl pushSegment []).reverse,
      IsComponent name ∧ name.toList ⊆ path.toList := by
  intro name hname
  refine of_mem_foldl (P := fun name => IsComponent name ∧ name.toList ⊆ path.toList)
    (fun part hpart hempty hdot hdots => ?_) [] (by simp) name (mem_reverse.1 hname)
  obtain ⟨chars, hchars, rfl⟩ := mem_map.1 hpart
  obtain ⟨hslash, hsub⟩ := of_mem_splitOn chars hchars
  rw [← toList_ofList (l := chars)] at hslash hsub
  exact ⟨⟨hempty, hdot, hdots, hslash⟩, hsub⟩

theorem splitPath_eq (path : String) :
    splitPath path = ((splitSlash path).foldl pushSegment []).reverse := by
  have hcomponents := fun name hname => (@of_mem_segments path name hname).1
  unfold splitPath normalizePath
  generalize ((splitSlash path).foldl pushSegment []).reverse = segments at hcomponents ⊢
  cases segments with
  | nil => decide
  | cons =>
    dsimp only
    rw [splitSlash_render (by simp) hcomponents, filter_cons_of_neg (by simp)]
    exact filter_eq_self.2 fun n hn => by simpa using (hcomponents n hn).1

theorem isComponent_of_mem_splitPath {name : String} (h : name ∈ splitPath path) :
    IsComponent name :=
  (of_mem_segments name (splitPath_eq path ▸ h)).1

theorem subset_of_mem_splitPath {name : String} (h : name ∈ splitPath path) :
    name.toList ⊆ path.toList :=
  (of_mem_segments name (splitPath_eq path ▸ h)).2

theorem normalizePath_eq (path : String) : normalizePath path = "/" ++ joinSlash (splitPath path) := by
  rw [splitPath_eq, normalizePath]
  split <;> rename_i h
  · rw [h]
    rfl
  · rfl

theorem splitPath_render (h : ∀ name ∈ names, IsComponent name) :
    splitPath ("/" ++ joinSlash names) = names := by
  rw [splitPath_eq]
  by_cases hne : names = []
  · rw [hne]
    decide
  · rw [splitSlash_render hne h, foldl_cons, foldl_pushSegment h]
    simp [pushSegment]

theorem splitPath_normalizePath (path : String) :
    splitPath (normalizePath path) = splitPath path := by
  rw [normalizePath_eq]
  exact splitPath_render fun name hname => isComponent_of_mem_splitPath hname

theorem splitPath_append (path : String) (hne : names ≠ []) (h : ∀ name ∈ names, IsComponent name) :
    splitPath (path ++ "/" ++ joinSlash names) = splitPath path ++ names := by
  rw [splitPath_eq, splitSlash_append path hne h, foldl_append, foldl_pushSegment h,
    reverse_append, reverse_reverse, ← splitPath_eq]

theorem splitPath_joinSlash (h : ∀ name ∈ names, IsComponent name) :
    splitPath (joinSlash names) = names := by
  by_cases hne : names = []
  · rw [hne]
    decide
  · rw [splitPath_eq, splitSlash_joinSlash hne h, foldl_pushSegment h]
    simp

theorem normalizePath_normalizePath (path : String) :
    normalizePath (normalizePath path) = normalizePath path := by
  rw [normalizePath_eq, splitPath_normalizePath, ← normalizePath_eq]

theorem joinPath_splitPath (path : String) : joinPath (splitPath path) = normalizePath path := by
  rw [joinPath, normalizePath_eq, splitPath_joinSlash fun _ => isComponent_of_mem_splitPath,
    ← normalizePath_eq]

variable {parent : String}

theorem isPathInside_of_isPrefix (h : splitPath parent <+: splitPath path) :
    isPathInside path parent = true := by
  obtain ⟨rest, hrest⟩ := h
  rw [isPathInside, hasComponentPrefix, normalizePath_eq, normalizePath_eq parent, ← hrest]
  by_cases hparent : splitPath parent = []
  · simp [hparent, joinSlash]
  by_cases hnil : rest = []
  · simp [hnil]
  -- Both spellings are the components, each closed by a slash but the last one.
  have hclosed := @joinSlash_closed (splitPath parent ++ rest) (by simp [hnil])
  rw [flatMap_append, ← joinSlash_closed hparent, ← joinSlash_closed hnil, ← List.append_assoc,
    append_cancel_right_eq] at hclosed
  simp only [Bool.or_eq_true]
  refine .inr <| isPrefixOf_iff_prefix.2 ⟨(joinSlash rest).toList, ?_⟩
  simp [toList_append, hclosed]

theorem isPathInside_iff : isPathInside path parent = true ↔ splitPath parent <+: splitPath path := by
  refine ⟨fun h => ?_, isPathInside_of_isPrefix⟩
  simp only [isPathInside, hasComponentPrefix, Bool.or_eq_true, Bool.and_eq_true, beq_iff_eq,
    isPrefixOf_iff_prefix] at h
  unfold splitPath
  rcases h with (h | ⟨h, -⟩) | ⟨rest, h⟩
  · rewrite [h]
    exact prefix_rfl
  · rw [h]
    exact nil_prefix
  · -- A slash after the parent's spelling ends its last component.
    have hpath : normalizePath path = normalizePath parent ++ "/" ++ .ofList rest := by
      rw [← toList_inj, ← h]
      simp
    rw [hpath, splitSlash_slash, filter_append]
    exact prefix_append _ _

/-- Without `..` nothing is taken from the stack. -/
theorem suffix_foldl_pushSegment {parts : List String} (h : ".." ∉ parts) (segments : List String) :
    segments <:+ parts.foldl pushSegment segments := by
  induction parts generalizing segments with
  | nil => exact suffix_rfl
  | cons part parts ih =>
    rw [mem_cons, not_or] at h
    obtain ⟨hpart, hparts⟩ := h
    refine .trans ?_ (ih hparts _)
    unfold pushSegment
    split_ifs with hskip hdots
    · exact suffix_rfl
    · exact absurd hdots.symm hpart
    · exact suffix_cons _ _

theorem isPathInside_join {dir relative : String} (h : ".." ∉ splitSlash relative) :
    isPathInside (joinPath [dir, relative]) dir = true := by
  rw [isPathInside_iff, joinPath, splitPath_normalizePath, joinSlash, joinSlash, splitPath_eq,
    splitPath_eq, splitSlash_slash, foldl_append, reverse_prefix]
  · exact suffix_foldl_pushSegment h _
  · simp

theorem normalizePath_root : normalizePath "/" = "/" := by decide

theorem splitPath_root : splitPath "/" = [] := by decide

theorem splitPath_dirname (path : String) :
    splitPath (dirname path) = (splitPath path).dropLast := by
  -- What stands before the last slash.
  have hbefore : ∀ chars last : List Char, '/' ∉ last →
      ((chars ++ ['/'] ++ last).reverse.dropWhile (· ≠ '/')).tail.reverse = chars := by
    intro chars last hlast
    rw [reverse_append, dropWhile_append_of_pos fun c hc => ?_]
    · simp
    · simpa using ne_of_mem_of_not_mem (mem_reverse.1 hc) hlast
  have hcomponents : ∀ name ∈ splitPath path, IsComponent name :=
    fun _ => isComponent_of_mem_splitPath
  rw [dirname, normalizePath_eq]
  generalize splitPath path = names at hcomponents ⊢
  rcases eq_nil_or_concat names with rfl | ⟨init, last, rfl⟩
  · exact splitPath_root
  · rw [concat_eq_append] at hcomponents ⊢
    have hlast := (hcomponents last (by simp)).2.2.2
    by_cases hinit : init = []
    · have hchars : ("/" ++ joinSlash (init ++ [last])).toList = [] ++ ['/'] ++ last.toList := by
        simp [hinit, joinSlash]
      rw [hchars, hbefore _ _ hlast, hinit]
      exact splitPath_root
    · have hclosed := @joinSlash_closed (init ++ [last]) (by simp)
      rw [flatMap_append, ← joinSlash_closed hinit, flatMap_singleton,
        ← List.append_assoc, append_cancel_right_eq] at hclosed
      have hchars : ("/" ++ joinSlash (init ++ [last])).toList =
          ("/" ++ joinSlash init).toList ++ ['/'] ++ last.toList := by
        simp [hclosed]
      rw [hchars, hbefore _ _ hlast, dropLast_concat]
      have hrender :=
        splitPath_render fun name hname => hcomponents name (mem_append_left _ hname)
      split
      · simp_all
      · rw [ofList_toList]
        exact hrender

theorem joinPath_root (path : String) : joinPath ("/" :: splitPath path) = normalizePath path := by
  have hcomponents : ∀ name ∈ splitPath path, IsComponent name :=
    fun _ => isComponent_of_mem_splitPath
  have hsplit : splitPath (joinSlash ("/" :: splitPath path)) = splitPath path := by
    by_cases hne : splitPath path = []
    · rw [hne]
      decide
    · rw [joinSlash, splitPath_append _ hne hcomponents]
      · rfl
      · exact hne
  rw [joinPath, normalizePath_eq, hsplit, ← normalizePath_eq]

/-- The laws of paths, for all strings. -/
theorem path_algebra (p q : String) :
    normalizePath (normalizePath p) = normalizePath p ∧
    (normalizePath p = "/" ++ joinSlash (splitPath p) ∧ ∀ name ∈ splitPath p, IsComponent name) ∧
    (joinPath (splitPath p) = normalizePath p ∧ joinPath ("/" :: splitPath p) = normalizePath p) ∧
    (isPathInside p q = true ↔ splitPath q <+: splitPath p) ∧
    -- Hence an order on normalized paths, that tells names apart which start alike.
    (isPathInside p p = true ∧
      (∀ r, isPathInside p q = true → isPathInside q r = true → isPathInside p r = true) ∧
      (normalizePath p = p → normalizePath q = q → isPathInside p q = true →
        isPathInside q p = true → p = q) ∧
      ∀ a b, IsComponent a → IsComponent b → isPathInside ("/" ++ a) ("/" ++ b) = true → a = b) ∧
    (normalizePath p = p → ".." ∉ splitSlash q →
      isPathInside (normalizePath (joinPath [p, q])) p = true) := by
  refine ⟨normalizePath_normalizePath p, ⟨normalizePath_eq p, fun _ => isComponent_of_mem_splitPath⟩,
    ⟨joinPath_splitPath p, joinPath_root p⟩, isPathInside_iff, ⟨?_, ?_, ?_, ?_⟩, fun _ h => ?_⟩
  · exact isPathInside_iff.2 List.prefix_rfl
  · intro r hpq hqr
    exact isPathInside_iff.2 ((isPathInside_iff.1 hqr).trans (isPathInside_iff.1 hpq))
  · intro hp hq hpq hqp
    have hnames : splitPath p = splitPath q := (isPathInside_iff.1 hqp).eq_of_length_le
      (isPathInside_iff.1 hpq).length_le
    rw [← hp, ← hq, normalizePath_eq, normalizePath_eq q, hnames]
  · intro a b ha hb hinside
    have hname : ∀ name, IsComponent name → splitPath ("/" ++ name) = [name] := fun name h => by
      simpa only [joinSlash] using @splitPath_render [name] (List.forall_mem_singleton.2 h)
    rw [isPathInside_iff, hname a ha, hname b hb] at hinside
    exact (List.singleton_inj.1 (hinside.eq_of_length rfl)).symm
  · rw [joinPath, normalizePath_normalizePath]
    exact isPathInside_join h

end MountRs
