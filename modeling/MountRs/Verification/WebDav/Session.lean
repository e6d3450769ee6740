import MountRs.Verification.WebDav.Tree

/-! # The phases of a request

The checks of DELETE, COPY and MOVE only read, and `copyOrMove_cases` splits a COPY or MOVE
into the phases that follow. -/

namespace MountRs.WebDav

open FileTree

variable {faults : Faults} {table : DavLockTable} {guard : Guard} {levels : ℕ}

/-! ## Calls that only read -/

/-- Nothing was changed and nothing touched. -/
def Quiet (driver next : Driver) : Prop :=
  next.tree = driver.tree ∧ next.touched = driver.touched

theorem Quiet.refl (driver : Driver) : Quiet driver driver := ⟨rfl, rfl⟩

theorem Quiet.trans {a b c : Driver} (hab : Quiet a b) (hbc : Quiet b c) : Quiet a c :=
  ⟨hbc.1.trans hab.1, hbc.2.trans hab.2⟩

variable {driver next : Driver} {path : TreePath} {result : Except Answer Node}

theorem Quiet.effect {P : TreePath → Prop} (h : Quiet driver next) : Effect P driver next :=
  .of_eq h.1 h.2

/-- No call fails with a code that the handlers take for the absence of a resource. -/
def Honest (faults : Faults) : Prop :=
  ∀ call code, faults call = some code → isAbsent code = false

theorem read_quiet {α : Type} {query : FileTree → Except ErrorCode α}
    {result : Except ErrorCode α} (h : driver.read faults query = (result, next)) :
    Quiet driver next := by
  unfold Driver.read at h
  split at h
  · cases h
    exact ⟨rfl, rfl⟩
  · cases h
    exact ⟨rfl, rfl⟩

theorem read_absent {α : Type} {query : FileTree → Except ErrorCode α}
    {code : ErrorCode} (hfaults : Honest faults) (hcode : isAbsent code = true)
    (h : driver.read faults query = (.error code, next)) : query driver.tree = .error code := by
  unfold Driver.read at h
  split at h
  · rename_i other hother
    cases h
    rw [hfaults _ _ hother] at hcode
    cases hcode
  · exact (Prod.mk.inj h).1

theorem mutate_error {mutation : Mutation} {code : ErrorCode}
    (h : driver.mutate faults mutation = (.error code, next)) : Quiet driver next := by
  rcases mutate_cases h with ⟨ht, hl, -⟩ | ⟨touched, -, -, hok⟩
  · exact ⟨ht, hl⟩
  · cases hok

theorem statResource_quiet (h : statResource faults driver path = (result, next)) :
    Quiet driver next ∧ ∀ node, result = .ok node → driver.tree.stat path = .ok node := by
  unfold statResource at h
  cases hr : driver.read faults fun tree => tree.stat path with
  | mk answer =>
    rw [hr] at h
    cases answer with
    | ok =>
      cases h
      exact ⟨read_quiet hr, fun node' hnode => by cases hnode; exact read_ok hr⟩
    | error =>
      cases h
      exact ⟨read_quiet hr, fun node' hnode => by cases hnode⟩

structure StatOrAbsent (faults : Faults) (tree : FileTree) (path : TreePath)
    (result : Except Answer (Option Node)) : Prop where
  found : ∀ node, result = .ok (some node) → tree.stat path = .ok node
  absent : result = .ok none → Honest faults →
    ∃ code, isAbsent code = true ∧ tree.stat path = .error code

theorem statOrAbsent_quiet
    {result : Except Answer (Option Node)}
    (h : statOrAbsent faults driver path = (result, next)) :
    Quiet driver next ∧ StatOrAbsent faults driver.tree path result := by
  unfold statOrAbsent at h
  cases hr : driver.read faults fun tree => tree.stat path with
  | mk answer =>
    rw [hr] at h
    cases answer with
    | ok =>
      cases h
      refine ⟨read_quiet hr, fun node' hnode => ?_, fun hnone => by cases hnone⟩
      cases hnode
      exact read_ok hr
    | error code =>
      dsimp only at h
      split_ifs at h with hcode
      · cases h
        refine ⟨read_quiet hr, ?_, fun _ hfaults =>
          ⟨code, hcode, read_absent hfaults hcode hr⟩⟩
        intro node' hnode
        cases hnode
      · cases h
        refine ⟨read_quiet hr, ?_, fun hnone => by cases hnone⟩
        intro node' hnode
        cases hnode

theorem linkStat_quiet (h : linkStat faults driver path = (result, next)) : Quiet driver next := by
  unfold linkStat at h
  cases hr : driver.read faults fun tree => tree.lstat path with
  | mk answer read =>
    rw [hr] at h
    have hread := read_quiet hr
    cases answer with
    | ok =>
      cases h
      exact hread
    | error code =>
      dsimp only at h
      split at h
      · exact hread.trans (statResource_quiet h).1
      · cases h
        exact hread

theorem requireCollection_quiet
    {result : Except Answer Unit} (h : requireCollection faults driver path = (result, next)) :
    Quiet driver next ∧ (result = .ok () → driver.tree.stat path = .ok .directory) := by
  unfold requireCollection at h
  cases hs : statOrAbsent faults driver path with
  | mk answer read =>
    rw [hs] at h
    obtain ⟨hread, hstat⟩ := statOrAbsent_quiet hs
    split at h
    all_goals
      rename_i heq
      cases heq
      cases h
    · exact ⟨hread, fun hok => by cases hok⟩
    · exact ⟨hread, fun _ => hstat.found _ rfl⟩
    · exact ⟨hread, fun hok => by cases hok⟩

theorem durabilityBarrier_quiet (driver : Driver) (answer : Answer) :
    Quiet driver (durabilityBarrier faults driver answer).2 := by
  unfold durabilityBarrier
  cases hr : driver.read faults fun _ => .ok () with
  | mk result =>
    cases result with
    | ok | error => exact read_quiet hr

theorem quiet_of_barrier {driver final : Driver} {answer result : Answer}
    (h : durabilityBarrier faults driver answer = (result, final)) : Quiet driver final := by
  have hquiet : Quiet driver (durabilityBarrier faults driver answer).2 :=
    durabilityBarrier_quiet driver answer
  rwa [h] at hquiet

/-! ## COPY and MOVE -/

variable {path destination : TreePath}

/-- What a passed check of the source establishes. -/
structure CheckedSource (tree : FileTree) (path destination : TreePath) (moving : Bool)
    (depth : Depth) (stats : Node) : Prop where
  source : tree.stat path = .ok stats
  not_root : path ≠ []
  outside : stats.isDirectory = true → ¬ path <+: destination
  deep : moving = true → depth = .infinity

theorem checkSource_quiet {moving : Bool}
    {depth : Depth}
    (h : checkSource faults driver path destination moving depth = (result, next)) :
    Quiet driver next ∧ ∀ stats, result = .ok stats →
      CheckedSource driver.tree path destination moving depth stats := by
  have herror : ∀ {answer : Answer}, (∀ stats, (.error answer : Except Answer Node) = .ok stats →
      CheckedSource driver.tree path destination moving depth stats) :=
    fun stats hok => by cases hok
  unfold checkSource at h
  split at h
  · cases h
    exact ⟨.refl _, herror⟩
  rename_i hdepth
  split at h
  · cases h
    exact ⟨.refl _, herror⟩
  split at h
  · rename_i hs
    cases h
    exact ⟨(statResource_quiet hs).1, herror⟩
  rename_i stats read hs
  obtain ⟨hread, hstat⟩ := statResource_quiet hs
  split at h
  · cases h
    exact ⟨hread, herror⟩
  rename_i hroot
  split at h
  · cases h
    exact ⟨hread, herror⟩
  -- The `lstat` of a COPY is one more call that only reads.
  have hlink : ∀ link linked, (if moving = false ∧ stats.isDirectory = true then
      linkStat faults read path else (.ok .directory, read)) = (link, linked) →
      Quiet driver linked := by
    intro link linked heq
    split at heq
    · exact hread.trans (linkStat_quiet heq)
    · cases heq
      exact hread
  split at h
  · rename_i heq
    cases h
    exact ⟨hlink _ _ heq, herror⟩
  · rename_i heq
    cases h
    exact ⟨hlink _ _ heq, herror⟩
  · rename_i heq
    split at h
    · cases h
      exact ⟨hlink _ _ heq, herror⟩
    · rename_i hinside
      cases h
      refine ⟨hlink _ _ heq, fun other hother => ?_⟩
      cases hother
      exact ⟨hstat _ rfl, hroot, fun hdir hpre => hinside ⟨hdir, hpre⟩,
        fun hmoving => not_not.1 fun hne => hdepth ⟨hmoving, hne⟩⟩

/-- What a passed check of the destination establishes. -/
structure CheckedDestination (faults : Faults) (table : DavLockTable) (guard : Guard)
    (tree : FileTree) (path destination : TreePath) (moving overwrite : Bool)
    (existing : Option Node) : Prop where
  parent : tree.stat destination.dropLast = .ok .directory
  target : StatOrAbsent faults tree destination (.ok existing)
  overwrites : existing.isSome = true → overwrite = true
  sourceLocks : moving = true →
    requireWritable table guard path true = true ∧ lockedMembers table guard path = []
  targetLocks : requireWritable table guard destination existing.isNone = true
  targetMembers : existing.isSome = true → lockedMembers table guard destination = []

theorem checkDestination_quiet
    {moving overwrite : Bool} {result : Except Answer (Option Node)}
    (h : checkDestination faults table guard driver path destination moving overwrite =
      (result, next)) :
    Quiet driver next ∧ ∀ existing, result = .ok existing →
      CheckedDestination faults table guard driver.tree path destination moving overwrite
        existing := by
  have herror : ∀ {answer : Answer}, (∀ existing,
      (.error answer : Except Answer (Option Node)) = .ok existing →
      CheckedDestination faults table guard driver.tree path destination moving overwrite
        existing) := fun existing hok => by cases hok
  unfold checkDestination at h
  split at h
  · rename_i hc
    cases h
    exact ⟨(requireCollection_quiet hc).1, herror⟩
  rename_i collection hc
  obtain ⟨hcollection, hparent⟩ := requireCollection_quiet hc
  split at h
  · rename_i hs
    cases h
    exact ⟨hcollection.trans (statOrAbsent_quiet hs).1, herror⟩
  rename_i existing read hs
  obtain ⟨hread, htarget⟩ := statOrAbsent_quiet hs
  rw [hcollection.1] at htarget
  have hquiet := hcollection.trans hread
  split at h
  · cases h
    exact ⟨hquiet, herror⟩
  rename_i hsource
  split at h
  · cases h
    exact ⟨hquiet, herror⟩
  rename_i hwritable
  dsimp only at h
  generalize hlist : (if moving = true then lockedMembers table guard path else []) ++
    (if existing.isSome = true then lockedMembers table guard destination else []) = locked at h
  split at h
  · cases h
    exact ⟨hquiet, herror⟩
  rename_i hlocked
  split at h
  · cases h
    exact ⟨hquiet, herror⟩
  rename_i hoverwrite
  cases h
  refine ⟨hquiet, fun other hother => ?_⟩
  cases hother
  obtain ⟨hsourceMembers, htargetMembers⟩ :=
    List.append_eq_nil_iff.1 (hlist.trans (not_not.1 hlocked))
  refine ⟨hparent rfl, htarget, fun hsome => ?_, fun hmoving => ⟨?_, ?_⟩, ?_, fun hsome => ?_⟩
  · exact Bool.not_eq_false _ ▸ fun hfalse => hoverwrite ⟨hsome, hfalse⟩
  · exact Bool.not_eq_false _ ▸ fun hfalse => hsource ⟨hmoving, hfalse⟩
  · rwa [if_pos hmoving] at hsourceMembers
  · exact Bool.not_eq_false _ ▸ hwritable
  · rwa [if_pos hsome] at htargetMembers

/-- What follows the removal of an existing destination. -/
inductive Continues (faults : Faults) (levels : ℕ) (path destination : TreePath) (moving : Bool)
    (stats : Node) (deep : Bool) (cleared final : Driver) : Prop
  | stops : Quiet cleared final → Continues faults levels path destination moving stats deep
      cleared final
  | renames (result : Except ErrorCode Unit) (renamed : Driver) : moving = true →
      cleared.mutate faults (FileTree.rename path destination) = (result, renamed) →
      Quiet renamed final → Continues faults levels path destination moving stats deep cleared
        final
  | copies : moving = false →
      Quiet (copyTree faults levels cleared path destination stats deep).2.2 final →
      Continues faults levels path destination moving stats deep cleared final

/-- A COPY or MOVE stops at its checks, or removes what exists at the destination and, if all
of that went, renames or copies. -/
theorem copyOrMove_cases {driver final : Driver}
    {moving overwrite : Bool} {depth : Depth} {answer : Answer}
    (h : copyOrMove faults table guard levels driver path destination moving overwrite depth =
      (answer, final)) :
    Quiet driver final ∨ ∃ stats existing read failures mutated cleared,
      CheckedSource driver.tree path destination moving depth stats ∧
      CheckedDestination faults table guard driver.tree path destination moving overwrite
        existing ∧
      Quiet driver read ∧
      clearDestination faults levels read destination existing = (failures, mutated, cleared) ∧
      (failures ≠ [] → Quiet cleared final) ∧
      Continues faults levels path destination moving stats (depth == .infinity) cleared
        final := by
  unfold copyOrMove at h
  split at h
  · rename_i hs
    cases h
    exact .inl (checkSource_quiet hs).1
  rename_i stats checked hs
  obtain ⟨hchecked, hstat⟩ := checkSource_quiet hs
  split at h
  · rename_i hd
    cases h
    exact .inl (hchecked.trans (checkDestination_quiet hd).1)
  rename_i existing read hd
  obtain ⟨hread, htarget⟩ := checkDestination_quiet hd
  rw [hchecked.1] at htarget
  refine .inr ⟨stats, existing, read, ?_⟩
  split at h
  · rename_i mutated cleared hclear
    refine ⟨[], mutated, cleared, hstat _ rfl, htarget _ rfl,
      hchecked.trans hread, hclear, fun hne => absurd rfl hne, ?_⟩
    split at h
    · rename_i hmoving
      split at h
      · rename_i hm
        cases h
        exact .renames _ _ hmoving hm (.refl _)
      · rename_i renamed hm
        exact .renames _ _ hmoving hm (quiet_of_barrier h)
    · rename_i hmoving
      split at h
      rename_i failures changed copied hcopy
      refine .copies (Bool.not_eq_true _ ▸ hmoving) ?_
      rw [hcopy]
      split at h
      · exact quiet_of_barrier h
      · cases h
        exact .refl _
  · rename_i failures mutated cleared hne hclear
    have hquiet : Quiet cleared final := by
      split at h
      · exact quiet_of_barrier h
      · cases h
        exact .refl _
    exact ⟨failures, mutated, cleared, hstat _ rfl, htarget _ rfl,
      hchecked.trans hread, hclear, fun _ => hquiet, .stops hquiet⟩

end MountRs.WebDav
