import MountRs.Model.MemFs
import MountRs.Verification.Path
import MountRs.Verification.Guarded.Guards
import MountRs.Verification.Storage.Validation

/-! # The memory filesystem resolves paths like the chunked one -/

namespace MountRs.MemFs

open Except
open Chunked (Entry rewriteLink errorWithPath)

/-- Two nodes have the same kind, and their children or targets correspond. -/
def SameNode (same : ℕ → InodeId → Prop) (node : Node) : NodeData → Prop
  | .directory entries => node.isDirectory = true ∧ node.isSymlink = false ∧ ∀ name,
      Option.Rel same (node.child name)
        ((entries.find? fun entry => entry.name == name).map DirectoryEntry.inode)
  | .symlink target => node.isDirectory = false ∧ node.isSymlink = true ∧ node.target = some target
  | _ => node.isDirectory = false ∧ node.isSymlink = false

/-- The two roots carry the same names, kinds and targets. -/
structure SameTree (same : ℕ → InodeId → Prop) (state : MemoryState) (ns : Namespace) : Prop where
  root : same state.root ns.root
  nodes : ∀ a b, same a b → ∃ node other, state.nodes.get? a = some node ∧
    ns.nodes.get? b = some other ∧ SameNode same node other.data

/-- Two walks reach corresponding entries, or fail with the same code. -/
inductive SameEntry (same : ℕ → InodeId → Prop) : Result Entry → Result Entry → Prop
  | ok {a b : Entry} : same a.parent b.parent → a.name = b.name → Option.Rel same a.node b.node →
    SameEntry same (.ok a) (.ok b)
  | error {e e' : FsError} : e.code = e'.code → SameEntry same (.error e) (.error e')

def NulFree (text : String) : Prop := '\x00' ∉ text.toList

variable {same : ℕ → InodeId → Prop} {state : MemoryState} {ns : Namespace} {followFinal : Bool}
  {syscall : String}

/-! ## Rewritten paths -/

theorem nulFree_joinSlash {names : List String} (h : ∀ name ∈ names, NulFree name) :
    NulFree (joinSlash names) := by
  fun_induction joinSlash names with
  | case1 => simp [NulFree]
  | case2 name => exact h name List.mem_cons_self
  | case3 name rest _ ih =>
    rw [List.forall_mem_cons] at h
    have hrest := ih h.2
    simp_all [NulFree]

theorem nulFree_rewriteLink {seen rest : List String} {target : String}
    (hseen : ∀ name ∈ seen, NulFree name) (hrest : ∀ name ∈ rest, NulFree name)
    (htarget : NulFree target) : NulFree (rewriteLink seen rest target) := by
  have hseen := nulFree_joinSlash hseen
  have hrest := nulFree_joinSlash hrest
  unfold rewriteLink
  split_ifs <;> simp_all [NulFree]

theorem nulFree_splitPath {path : String} (h : NulFree path) :
    ∀ name ∈ splitPath (normalizePath path), NulFree name := by
  intro name hname hnul
  rw [splitPath_normalizePath] at hname
  exact h (subset_of_mem_splitPath hname hnul)

/-! ## Walks -/

/-- The component loops are related when the walks of every path that they rewrite are: `names` are
the components of the path. -/
theorem walkSegments_related (h : SameTree same state ns) {normalized : String}
    {follow live : String → Result Entry} {R : Result Entry → Result Entry → Prop}
    (hsame : ∀ mem live, SameEntry same mem live → R mem live) {names : List String}
    (hfollow : ∀ inode node target seen rest, state.nodes.get? inode = some node →
      node.target = some target → seen ⊆ names → rest ⊆ names →
        R (follow (rewriteLink seen rest target)) (live (rewriteLink seen rest target)))
    (segments : List String) : ∀ a b seen, same a b → seen ⊆ names → segments ⊆ names →
      R (walkSegments state followFinal syscall normalized follow a seen segments)
        (Chunked.walkSegments ns followFinal syscall normalized live b seen segments) := by
  induction segments with
  | nil => exact fun _ _ _ _ _ _ => hsame _ _ (.error rfl)
  | cons name rest ih =>
    intro a b seen hab hseen hnames
    obtain ⟨hname, hrest⟩ := List.cons_subset.1 hnames
    rw [Chunked.walkSegments_cons, walkSegments]
    unfold Chunked.walkComponent
    obtain ⟨node, other, hnode, hother, hdata⟩ := h.nodes a b hab
    simp only [hnode, hother, okOr, ok_bind]
    cases hkind : other.data with
    | directory entries =>
      rw [hkind] at hdata
      obtain ⟨hdir, -, hchildren⟩ := hdata
      have hchildren := hchildren name
      simp only [hdir, failIf, Bool.true_eq_false, if_false, ok_bind]
      revert hchildren
      cases node.child name <;> cases entries.find? fun entry => entry.name == name <;>
        intro hchildren
      case none.none =>
        dsimp only
        split_ifs
        · exact hsame _ _ (.ok hab rfl .none)
        · exact hsame _ _ (.error rfl)
      case some.some inode entry =>
        have hinode : same inode entry.inode := by cases hchildren; assumption
        obtain ⟨child, found, hget, hfound, hchild⟩ := h.nodes inode entry.inode hinode
        simp only [hget, hfound, ok_bind]
        cases hkind : found.data with
        | symlink target =>
          rw [hkind] at hchild
          obtain ⟨-, hlink, htarget⟩ := hchild
          have hgo : ∀ rest ⊆ names, R
              (do failIf (target = "") (errorWithPath .enoent syscall normalized)
                  follow (rewriteLink seen rest target))
              (do failIf (target = "") (errorWithPath .enoent syscall normalized)
                  live (rewriteLink seen rest target)) := by
            intro rest hrest
            unfold failIf
            split_ifs
            · exact hsame _ _ (.error rfl)
            · exact hfollow inode child target seen rest hget htarget hseen hrest
          simp only [hlink, htarget, Option.getD_some, true_and]
          cases rest with
          | nil =>
            cases followFinal with
            | true => exact hgo [] hrest
            | false => exact hsame _ _ (.ok hab rfl (.some hinode))
          | cons next rest => exact hgo _ hrest
        | _ =>
          rw [hkind] at hchild
          have hlink : child.isSymlink = false := by first | exact hchild.2 | exact hchild.2.1
          simp only [hlink, Bool.false_eq_true, false_and, if_false]
          cases rest with
          | nil => exact hsame _ _ (.ok hab rfl (.some hinode))
          | cons next rest =>
            refine ih _ _ _ hinode ?_ hrest
            exact List.append_subset.2 ⟨hseen, List.cons_subset.2 ⟨hname, List.nil_subset _⟩⟩
      all_goals cases hchildren
    | _ =>
      rw [hkind] at hdata
      simp only [hdata.1, failIf, if_true]
      exact hsame _ _ (.error rfl)

/-- Without NUL characters the two walks agree as long as they may follow the same number of
links. -/
theorem walkDepth_same (h : SameTree same state ns)
    (htargets : ∀ inode node target, state.nodes.get? inode = some node →
      node.target = some target → NulFree target) (depth : ℕ) : ∀ path, NulFree path →
    SameEntry same (walkDepth state followFinal syscall depth path)
      (Chunked.walkDepth ns followFinal syscall depth path) := by
  induction depth with
  | zero =>
    intro path hpath
    rw [walkDepth, failIf, if_neg hpath]
    exact .error rfl
  | succ depth ih =>
    intro path hpath
    simp only [walkDepth, Chunked.walkDepth, failIf, if_neg hpath, ok_bind]
    have hnames := nulFree_splitPath hpath
    split_ifs
    · exact .ok h.root rfl (.some h.root)
    · refine walkSegments_related h (fun _ _ => id) ?_ _ _ _ _ h.root (List.nil_subset _)
        (List.Subset.refl _)
      intro inode node target seen rest hget htarget hseen hrest
      refine ih _ (nulFree_rewriteLink ?_ ?_ (htargets inode node target hget htarget))
      · exact fun name hname => hnames name (hseen hname)
      · exact fun name hname => hnames name (hrest hname)

/-- Corresponding walks, unless the first one ran out of links or met a NUL character. -/
def Near (same : ℕ → InodeId → Prop) (mem live : Result Entry) : Prop :=
  SameEntry same mem live ∨ ∃ e, mem = .error e ∧ e.code ∈ [.eloop, .einval]

/-- The live walk may follow one link more. -/
theorem walkDepth_near (h : SameTree same state ns) (depth : ℕ) : ∀ path,
    Near same (walkDepth state followFinal syscall depth path)
      (Chunked.walkDepth ns followFinal syscall (depth + 1) path) := by
  induction depth with
  | zero =>
    intro path
    unfold walkDepth failIf
    split_ifs
    · exact .inr ⟨_, rfl, .tail _ (.head _)⟩
    · exact .inr ⟨_, rfl, .head _⟩
  | succ depth ih =>
    intro path
    by_cases hnul : '\x00' ∈ path.toList
    · exact .inr ⟨_, by simp only [walkDepth, failIf, hnul, if_true]; rfl, .tail _ (.head _)⟩
    · simp only [walkDepth, Chunked.walkDepth, failIf, hnul, if_false, ok_bind]
      split_ifs
      · exact .inl (.ok h.root rfl (.some h.root))
      · exact walkSegments_related h (fun _ _ => .inl) (fun _ _ _ _ _ _ _ _ _ => ih _) _ _ _ _
          h.root (List.nil_subset _) (List.Subset.refl _)

/-- Five links in the root, each but the last one leading twice through the next. -/
def doublingState : MemoryState :=
  { root := 1
    nodes := BTreeMap.ofList [
      (1, ⟨S_IFDIR, none, [("a", 2), ("b", 3), ("c", 4), ("d", 5), ("e", 6)]⟩),
      (2, ⟨S_IFLNK, some "b/b", []⟩), (3, ⟨S_IFLNK, some "c/c", []⟩),
      (4, ⟨S_IFLNK, some "d/d", []⟩), (5, ⟨S_IFLNK, some "e/e", []⟩),
      (6, ⟨S_IFLNK, some ".", []⟩)] }

/-- The same tree as a namespace. -/
def doublingNamespace : Namespace :=
  let node (inode : InodeId) (mode : UInt32) (nlink : ℕ) (data : NodeData) :=
    (inode, { stats := Chunked.baseStats inode mode 0 0 nlink 0 0 0, data : NodeMetadata })
  let link (inode : InodeId) (target : String) := node inode S_IFLNK 1 (.symlink target)
  { emptyRoot with
    nextInode := 7
    nodes := BTreeMap.ofList [
      node 1 S_IFDIR 2 (.directory [⟨"a", 2⟩, ⟨"b", 3⟩, ⟨"c", 4⟩, ⟨"d", 5⟩, ⟨"e", 6⟩]),
      link 2 "b/b", link 3 "c/c", link 4 "d/d", link 5 "e/e", link 6 "."] }

/-- The six nodes have the same numbers in both. -/
def Numbered (a b : ℕ) : Prop := a = b ∧ a ∈ List.range' 1 6

theorem doubling_same : SameTree Numbered doublingState doublingNamespace := by
  refine ⟨⟨rfl, by decide⟩, ?_⟩
  rintro a _ ⟨rfl, ha⟩
  fin_cases ha
  · refine ⟨_, _, rfl, rfl, rfl, rfl, fun name => ?_⟩
    simp only [Node.child, List.find?_cons]
    repeat' split
    all_goals simp [Numbered]
  all_goals exact ⟨_, _, rfl, rfl, rfl, rfl, rfl⟩

theorem doubling_nulFree : ∀ inode node target, doublingState.nodes.get? inode = some node →
    node.target = some target → NulFree target := by
  have hall : ∀ e ∈ doublingState.nodes.entries, ∀ target ∈ e.2.target, '\x00' ∉ target.toList := by
    decide +kernel
  intro inode node target hget htarget
  exact hall (inode, node) (BTreeMap.get?_eq_some_iff.1 hget) target htarget

end MountRs.MemFs
