import MountRs.Library.EState
import MountRs.Model.Chunked.Guarded

/-! # What guards say about a namespace

A guard speaks about names and identities. It does not change its truth when only the
access times of nodes change. -/

namespace MountRs.Chunked

open Except GuardedMutation Chunked

/-! ## Guards -/

structure PathGuard.Holds (guard : PathGuard) (ns : Namespace) (syscall : String)
    (inode : InodeId) : Prop where
  named : guard.identity.ino ≠ 0
  resolves : resolve ns (normalizePath guard.path) false syscall = .ok inode
  node : ∃ node, ns.nodes.get? inode = some node ∧ node.stats.dev = guard.identity.dev ∧
    node.stats.ino = guard.identity.ino

/-- What was seen at a name is what is there. -/
def ObservedEntry.Holds (observed : ObservedEntry) (ns : Namespace) (inode : Option InodeId) :
    Prop :=
  match observed with
  | .any => True
  | .absent => inode = none
  | .identity known => known.ino ≠ 0 ∧ ∃ number node, inode = some number ∧
      ns.nodes.get? number = some node ∧ node.stats.dev = known.dev ∧
      node.stats.ino = known.ino

def ChildHolds (ns : Namespace) (parent : PathGuard) (name : String) (observed : ObservedEntry)
    (syscall : String) : Prop :=
  ∃ inode path entry, parent.Holds ns syscall inode ∧ isDirectory ns inode = true ∧
    guardedChildPath parent name syscall = .ok path ∧ walk ns path false syscall = .ok entry ∧
    entry.parent = inode ∧ observed.Holds ns entry.node

/-- Every guard and every expectation of a request holds in a namespace. -/
def GuardedMutation.GuardsHold (ns : Namespace) : GuardedMutation → Prop
  | setattr target _ => ∃ inode, target.Holds ns "setattr" inode
  | openChild parent name observed _ _ => ChildHolds ns parent name observed "open"
  | mkdir parent name _ => ChildHolds ns parent name .any "mkdir"
  | symlink parent name _ => ChildHolds ns parent name .any "symlink"
  | mknod parent name _ _ => ChildHolds ns parent name .any "mknod"
  | unlink parent name entry => ChildHolds ns parent name entry "unlink"
  | rmdir parent name entry => ChildHolds ns parent name entry "rmdir"
  | rename fromParent fromName source toParent toName destination =>
    ChildHolds ns fromParent fromName source "rename" ∧
      ChildHolds ns toParent toName destination "rename"
  | link source toParent toName destination =>
    (∃ inode, source.Holds ns "link" inode) ∧ ChildHolds ns toParent toName destination "link"

section Checks

variable {ns : Namespace} {syscall : String}

theorem mapError_eq_ok {α : Type} {result : Result α} {f : FsError → FsError} {a : α} :
    result.mapError f = .ok a ↔ result = .ok a := by
  cases result <;> simp [Except.mapError]

theorem checkPathGuard_ok {guard : PathGuard} {inode : InodeId}
    (h : checkPathGuard ns guard syscall = .ok inode) : guard.Holds ns syscall inode := by
  simp only [checkPathGuard, bind_eq_ok, failIf_eq_ok, okOr_eq_ok,
    pure_eq_ok, mapError_eq_ok, not_or, not_not] at h
  obtain ⟨_, hnamed, _, hresolves, node, hnode, _, ⟨hdev, hino⟩, rfl⟩ := h
  exact ⟨hnamed, hresolves, node, hnode, hdev, hino⟩

variable {observed : ObservedEntry}

theorem checkObservedEntry_ok {inode : Option InodeId} {path : String}
    (h : checkObservedEntry ns inode observed path syscall = .ok ()) : observed.Holds ns inode := by
  cases observed with
  | any => trivial
  | absent => simpa [checkObservedEntry, ObservedEntry.Holds] using h
  | identity =>
    simp only [checkObservedEntry, bind_eq_ok, failIf_eq_ok, okOr_eq_ok,
      not_or, not_not, Option.bind_eq_some_iff] at h
    obtain ⟨_, hnamed, node, ⟨number, hnumber, hnode⟩, hdev, hino⟩ := h
    exact ⟨hnamed, number, node, hnumber, hnode, hdev, hino⟩

theorem guardedChildEntry_ok {parent : PathGuard} {name : String} {entry : Entry}
    (h : guardedChildEntry ns parent name observed syscall = .ok entry) :
    ChildHolds ns parent name observed syscall := by
  simp only [guardedChildEntry, bind_eq_ok, failIf_eq_ok, okOr_eq_ok,
    pure_eq_ok, not_not, Bool.not_eq_false] at h
  obtain ⟨inode, hguard, node, hnode, _, hdirectory, path, hpath, entry', hwalk, _, hparent, _,
    hobserved, rfl⟩ := h
  refine ⟨inode, path, entry', checkPathGuard_ok hguard, ?_, hpath, hwalk, hparent,
    checkObservedEntry_ok hobserved⟩
  simp [isDirectory, hnode, hdirectory]

end Checks

/-! ## Edits -/

section Edits

variable {draft after : Draft} {ctx : MutationContext} {clock : Clock}

theorem ofResult_eq_ok {α : Type} {result : Result α} {a : α} :
    (ofResult result).run draft = .ok a after ↔ result = .ok a ∧ draft = after := by
  cases result with
  | ok b => exact (estate_pure_eq_ok).trans (by simp)
  | error e =>
    change EStateM.Result.error e draft = .ok a after ↔ _
    simp

variable {ns : Namespace}

theorem getNamespace_eq_ok :
    getNamespace.run draft = .ok ns after ↔ draft.ns = ns ∧ draft = after := by
  change EStateM.Result.ok draft.ns draft = .ok ns after ↔ _
  simp

variable {parent : PathGuard} {name : String} {observed : ObservedEntry}

theorem guardChild_ok {syscall path : String}
    (h : (guardChild parent name observed syscall).run draft = .ok path after) :
    ChildHolds draft.ns parent name observed syscall ∧ draft = after := by
  simp only [guardChild, estate_bind_eq_ok, getNamespace_eq_ok, ofResult_eq_ok] at h
  obtain ⟨_, _, ⟨rfl, rfl⟩, _, _, ⟨hentry, rfl⟩, _, rfl⟩ := h
  exact ⟨guardedChildEntry_ok hentry, rfl⟩

theorem edit_guards {request : GuardedMutation} {value : GuardedMutationResult}
    (hopen : ∀ parent name observed flags mode,
      request ≠ .openChild parent name observed flags mode)
    (h : (request.edit ctx clock).run draft = .ok value after) : request.GuardsHold draft.ns := by
  cases request with
  | setattr =>
    simp only [edit, applyGuardedSetattr, estate_bind_eq_ok, getNamespace_eq_ok,
      ofResult_eq_ok] at h
    obtain ⟨_, _, ⟨ns, _, ⟨rfl, rfl⟩, inode, _, ⟨hguard, _⟩, _⟩, _⟩ := h
    exact ⟨inode, checkPathGuard_ok hguard⟩
  | openChild => exact absurd rfl (hopen _ _ _ _ _)
  | mkdir | symlink | mknod | unlink | rmdir =>
    simp only [edit, estate_bind_eq_ok] at h
    obtain ⟨_, _, hguard, _⟩ := h
    exact (guardChild_ok hguard).1
  | rename =>
    simp only [edit, estate_bind_eq_ok] at h
    obtain ⟨_, _, hsource, _, _, hdestination, _⟩ := h
    obtain ⟨hfrom, rfl⟩ := guardChild_ok hsource
    exact ⟨hfrom, (guardChild_ok hdestination).1⟩
  | link =>
    simp only [edit, estate_bind_eq_ok, getNamespace_eq_ok, ofResult_eq_ok] at h
    obtain ⟨_, _, ⟨rfl, rfl⟩, inode, _, ⟨hguard, rfl⟩, _, _, hdestination, _⟩ := h
    exact ⟨⟨inode, checkPathGuard_ok hguard⟩, (guardChild_ok hdestination).1⟩

theorem guardedOpenNamespace_guards {normalized : String} {flags : OpenFlags} {mode : UInt32}
    {concurrent : Bool} {opened : OpenedFile}
    (h : guardedOpenNamespace ns normalized parent name observed flags mode concurrent clock =
      .ok opened) : ChildHolds ns parent name observed "open" := by
  simp only [guardedOpenNamespace, checkOpenGuard, bind_eq_ok] at h
  obtain ⟨_, _, _, ⟨_, hentry, _⟩, _⟩ := h
  exact guardedChildEntry_ok hentry

end Edits

/-! ## Access times -/

def walkComponent (ns : Namespace) (followFinal : Bool) (syscall normalized : String)
    (follow : String → Result Entry) (next : InodeId → List String → Result Entry)
    (current : InodeId) (seen : List String) (name : String) (rest : List String) :
    Result Entry := do
  let node ← okOr (ns.nodes.get? current) (errorWithPath .estale syscall normalized)
  match node.data with
  | .directory entries =>
    match entries.find? (fun entry => entry.name == name) with
    | none =>
      if rest = [] then return { parent := current, name, node := none, path := normalized }
      else .error (errorWithPath .enoent syscall normalized)
    | some entry => do
      let child ← okOr (ns.nodes.get? entry.inode) (errorWithPath .estale syscall normalized)
      match child.data, rest with
      | .symlink target, [] =>
        if followFinal then do
          failIf (target = "") (errorWithPath .enoent syscall normalized)
          follow (rewriteLink seen [] target)
        else return { parent := current, name, node := some entry.inode, path := normalized }
      | .symlink target, rest => do
        failIf (target = "") (errorWithPath .enoent syscall normalized)
        follow (rewriteLink seen rest target)
      | _, [] => return { parent := current, name, node := some entry.inode, path := normalized }
      | _, _ => next entry.inode (seen ++ [name])
  | _ => .error (errorWithPath .enotdir syscall normalized)

theorem walkSegments_cons (ns : Namespace) (followFinal : Bool) (syscall normalized : String)
    (follow : String → Result Entry) (current : InodeId) (seen : List String) (name : String)
    (rest : List String) :
    walkSegments ns followFinal syscall normalized follow current seen (name :: rest) =
      walkComponent ns followFinal syscall normalized follow
        (fun inode seen => walkSegments ns followFinal syscall normalized follow inode seen rest)
        current seen name rest := by
  unfold walkComponent
  delta walkSegments
  conv_lhs => simp only [List.brecOn, walkSegments._f]
  cases ns.nodes.get? current with
  | none => rfl
  | some node =>
    simp only [okOr, ok_bind]
    cases node.data with
    | file | symlink | special => rfl
    | directory entries =>
      dsimp only
      cases entries.find? fun entry => entry.name == name with
      | none => rfl
      | some entry =>
        dsimp only
        cases ns.nodes.get? entry.inode with
        | none => rfl
        | some child =>
          obtain ⟨_, data⟩ := child
          cases data <;> cases rest <;> rfl

/-- The same names and identities; the rest of the attributes may differ. -/
structure SameNames (ns other : Namespace) : Prop where
  root : other.root = ns.root
  nodes : ∀ inode, (other.nodes.get? inode).map (fun node => (node.data, node.stats.dev,
    node.stats.ino)) = (ns.nodes.get? inode).map fun node => (node.data, node.stats.dev,
    node.stats.ino)

namespace SameNames

variable {ns other third : Namespace} {inode : InodeId}

theorem refl (ns : Namespace) : SameNames ns ns := ⟨rfl, fun _ => rfl⟩

section

variable (h : SameNames ns other)
include h

theorem symm : SameNames other ns :=
  ⟨h.root.symm, fun inode => (h.nodes inode).symm⟩

theorem trans (h' : SameNames other third) : SameNames ns third :=
  ⟨h'.root.trans h.root, fun inode => (h'.nodes inode).trans (h.nodes inode)⟩

theorem get {node : NodeMetadata} (hnode : ns.nodes.get? inode = some node) :
    ∃ node', other.nodes.get? inode = some node' ∧ node'.data = node.data ∧
      node'.stats.dev = node.stats.dev ∧ node'.stats.ino = node.stats.ino := by
  have hnodes := h.nodes inode
  rw [hnode, Option.map_some, Option.map_eq_some_iff] at hnodes
  obtain ⟨node', hnode', heq⟩ := hnodes
  simp only [Prod.mk.injEq] at heq
  exact ⟨node', hnode', heq⟩

theorem get_none (hnode : ns.nodes.get? inode = none) : other.nodes.get? inode = none := by
  have hnodes := h.nodes inode
  rw [hnode] at hnodes
  simpa using hnodes

end

variable {syscall : String} {followFinal : Bool}

section

variable (h : SameNames ns other)
include h

theorem walkSegments {normalized : String} {follow : String → Result Entry}
    (segments : List String) :
    ∀ (current : InodeId) (seen : List String),
      walkSegments other followFinal syscall normalized follow current seen segments =
        walkSegments ns followFinal syscall normalized follow current seen segments := by
  induction segments with
  | nil => intro _ _; rfl
  | cons name rest ih =>
    intro current seen
    simp only [walkSegments_cons, walkComponent, ih]
    cases hnode : ns.nodes.get? current with
    | none => simp only [h.get_none hnode, okOr, error_bind]
    | some node =>
      obtain ⟨_, hnode', hdata, -, -⟩ := h.get hnode
      simp only [hnode', okOr, ok_bind, hdata]
      cases node.data with
      | file | symlink | special => rfl
      | directory entries =>
        dsimp only
        cases entries.find? fun entry => entry.name == name with
        | none => rfl
        | some entry =>
          dsimp only
          cases hchild : ns.nodes.get? entry.inode with
          | none => simp only [h.get_none hchild, error_bind]
          | some =>
            obtain ⟨_, hchild', hdata', -, -⟩ := h.get hchild
            simp only [hchild', ok_bind, hdata']

theorem walkDepth (depth : ℕ) : ∀ path, Chunked.walkDepth other followFinal syscall depth path =
      Chunked.walkDepth ns followFinal syscall depth path := by
  induction depth with
  | zero => intro _; rfl
  | succ depth ih =>
    intro path
    have hfollow : Chunked.walkDepth other followFinal syscall depth =
        Chunked.walkDepth ns followFinal syscall depth := funext ih
    simp only [Chunked.walkDepth, h.root, hfollow, h.walkSegments]

theorem walk (path : String) (followFinal : Bool) (syscall : String) :
    walk other path followFinal syscall = walk ns path followFinal syscall :=
  h.walkDepth _ path

theorem pathGuard {guard : PathGuard}
    (hguard : guard.Holds ns syscall inode) : guard.Holds other syscall inode := by
  obtain ⟨node, hnode, hdev, hino⟩ := hguard.node
  obtain ⟨node', hnode', -, hdev', hino'⟩ := h.get hnode
  refine ⟨hguard.named, ?_, node', hnode', hdev'.trans hdev, hino'.trans hino⟩
  have hresolves := hguard.resolves
  unfold resolve at hresolves ⊢
  rwa [h.walk]

end

theorem observed (h : SameNames ns other) {observed : ObservedEntry} {inode : Option InodeId}
    (hobserved : observed.Holds ns inode) : observed.Holds other inode := by
  cases observed with
  | any => trivial
  | absent => exact hobserved
  | identity =>
    obtain ⟨hnamed, number, _, hnumber, hnode, hdev, hino⟩ := hobserved
    obtain ⟨node', hnode', -, hdev', hino'⟩ := h.get hnode
    exact ⟨hnamed, number, node', hnumber, hnode', hdev'.trans hdev, hino'.trans hino⟩

theorem child (h : SameNames ns other) {parent : PathGuard} {name : String}
    {observed : ObservedEntry} (hchild : ChildHolds ns parent name observed syscall) :
    ChildHolds other parent name observed syscall := by
  obtain ⟨inode, path, entry, hguard, hdirectory, hpath, hwalk, hparent, hobserved⟩ := hchild
  refine ⟨inode, path, entry, h.pathGuard hguard, ?_, hpath, (h.walk ..).trans hwalk, hparent,
    h.observed hobserved⟩
  unfold isDirectory at hdirectory ⊢
  rw [Option.any_eq_true_iff_get] at hdirectory
  cases hnode : ns.nodes.get? inode with
  | none => simp [hnode] at hdirectory
  | some =>
    obtain ⟨_, hnode', hdata, -, -⟩ := h.get hnode
    obtain ⟨_, hdirectory⟩ := hdirectory
    simpa [hnode, hnode', hdata] using hdirectory

theorem guards (h : SameNames ns other) {request : GuardedMutation}
    (hguards : request.GuardsHold ns) : request.GuardsHold other := by
  cases request with
  | setattr =>
    obtain ⟨inode, hguard⟩ := hguards
    exact ⟨inode, h.pathGuard hguard⟩
  | openChild | mkdir | symlink | mknod | unlink | rmdir => exact h.child hguards
  | rename =>
    exact ⟨h.child hguards.1, h.child hguards.2⟩
  | link =>
    obtain ⟨⟨inode, hguard⟩, hchild⟩ := hguards
    exact ⟨⟨inode, h.pathGuard hguard⟩, h.child hchild⟩

theorem raiseAtime (ns : Namespace) (binding : InodeId × ℤ) :
    SameNames ns (RuntimeState.raiseAtime ns binding) := by
  unfold RuntimeState.raiseAtime
  split
  · rename_i node hnode
    refine ⟨rfl, fun inode => ?_⟩
    by_cases heq : inode = binding.1
    · subst heq
      simp [setNode, hnode]
    · simp [setNode, BTreeMap.get?_insert_of_ne _ _ heq]
  · exact refl ns

theorem foldAtime (times : List (InodeId × ℤ)) :
    ∀ ns, SameNames ns (times.foldl RuntimeState.raiseAtime ns) := by
  induction times with
  | nil => exact refl
  | cons binding rest ih => exact fun ns => (raiseAtime ns binding).trans (ih _)

end SameNames

end MountRs.Chunked
