import MountRs.Verification.Reclamation.Steps

/-! # Calls of the coordinators

Every program of a task keeps the invariant of the store. -/

namespace MountRs.Reclamation

open Memory MetadataState ObjectStore Except Discipline List Coordinator World Consistent Option

variable {setup : Setup} {i c : ℕ} {s t : World} {α β : Type}

/-! ## Programs that keep their locks -/

/-- The other tasks do not take it away. -/
def Stable (i : ℕ) (K : World → Prop) : Prop := ∀ {s t}, Respects i s t → K s → K t

/-- The program keeps `K`, and what it returns satisfies `P`. -/
def Runs (setup : Setup) (i : ℕ) (K : World → Prop) (p : Call α) (P : α → World → Prop)
    (s : World) : Prop :=
  (sharing setup).wp i p (fun result t => K t ∧ ∀ a, result = .ok a → P a t) K s

namespace Runs

variable {K : World → Prop} {P : α → World → Prop} {P' : β → World → Prop} {p : Call α}

theorem pure {a : α} (hK : K s) (hP : P a s) : Runs setup i K (pure a) P s := by
  refine wp_pure.mpr ⟨hK, fun b hb => ?_⟩
  cases hb
  exact hP

theorem fail {e : FsError} (hK : K s) : Runs setup i K (Async.fail e) P s :=
  wp_fail.mpr ⟨hK, fun _ hb => by cases hb⟩

theorem lift {result : Result α} (hK : K s) (hP : ∀ a, result = .ok a → P a s) :
    Runs setup i K (liftM result) P s :=
  wp_lift.mpr ⟨hK, hP⟩

theorem bind {f : α → Call β} (h : Runs setup i K p P s)
    (hf : ∀ a t, K t → P a t → Runs setup i K (f a) P' t) : Runs setup i K (p >>= f) P' s :=
  wp_bind h (fun a t ht => hf a t ht.1 (ht.2 a rfl)) (fun _ _ ht => ⟨ht.1, fun _ hb => by cases hb⟩)

variable {J : World → Prop}

theorem bind_of {f : α → Call β} (h : Runs setup i J p P s) (hK : ∀ t, J t → K t)
    (hf : ∀ a t, J t → P a t → Runs setup i K (f a) P' t) :
    Runs setup i K (p >>= f) P' s :=
  wp_bind (wp_mono h (fun _ _ ht => ht) hK) (fun a t ht => hf a t ht.1 (ht.2 a rfl))
    (fun _ _ ht => ⟨hK _ ht.1, fun _ hb => by cases hb⟩)

theorem weaken (h : Runs setup i J p P s) (hK : ∀ t, J t → K t) :
    Runs setup i K p (fun a t => J t ∧ P a t) s :=
  wp_mono h (fun _ _ ht => ⟨hK _ ht.1, fun a ha => ⟨ht.1, ht.2 a ha⟩⟩) hK

theorem lift_bind {result : Result α} {f : α → Call β} (hK : K s)
    (hf : ∀ a, result = .ok a → Runs setup i K (f a) P' s) :
    Runs setup i K (liftM result >>= f) P' s :=
  wp_lift_bind hf (fun _ _ => ⟨hK, fun _ hb => by cases hb⟩)

theorem attempt_bind {f : Result α → Call β} (h : Runs setup i J p P s) (hK : ∀ t, J t → K t)
    (hf : ∀ result t, J t → (∀ a, result = .ok a → P a t) → Runs setup i K (f result) P' t) :
    Runs setup i K (p.attempt >>= f) P' s :=
  wp_attempt_bind (wp_mono h (fun _ _ ht => ht) hK) (fun result t ht => hf result t ht.1 ht.2)

theorem orElse {handler : FsError → Call α} (h : Runs setup i K p P s)
    (hf : ∀ e t, K t → Runs setup i K (handler e) P t) : Runs setup i K (p.orElse handler) P s :=
  wp_orElse h (fun _ _ ht => ⟨ht.1, ht.2⟩) (fun e t ht => hf e t ht.1)

theorem imp {P' : α → World → Prop} (h : Runs setup i K p P s) (hP : ∀ a t, P a t → P' a t) :
    Runs setup i K p P' s :=
  wp_mono h (fun _ _ ht => ⟨ht.1, fun a ha => hP a _ (ht.2 a ha)⟩) (fun _ ht => ht)

theorem step {f : Answer → World → Result α × World} (hstable : Stable i K) (hK : K s)
    (h : ∀ t, Respects i s t → Consistent setup t → K t → ∀ answer,
      (sharing setup).Move i t (f answer t).2 ∧ K (f answer t).2 ∧
        ∀ a, (f answer t).1 = .ok a → P a (f answer t).2) : Runs setup i K (Async.atomic f) P s :=
  wp_atomic (fun t hrely hinv answer => h t hrely hinv (hstable hrely hK) answer)
    (fun _ hrely _ => hstable hrely hK)

theorem query {f : Answer → World → Result α} (hstable : Stable i K) (hK : K s)
    (h : ∀ t, Respects i s t → Consistent setup t → K t → ∀ answer a, f answer t = .ok a → P a t) :
    Runs setup i K (query f) P s :=
  step hstable hK fun t hrespects hinv ht answer =>
    ⟨.refl hinv, ht, h t hrespects hinv ht answer⟩

theorem provider {f : Answer → MetadataState → Result (α × MetadataState)}
    {note : Ledger → Ledger} (hstable : Stable i K) (hK : K s)
    (h : ∀ t, Respects i s t → Consistent setup t → K t → ∀ answer a metadata,
      f answer t.metadata = .ok (a, metadata) →
      (sharing setup).Move i t { t with metadata, ledger := note t.ledger } ∧
        K { t with metadata, ledger := note t.ledger } ∧
        P a { t with metadata, ledger := note t.ledger }) :
    Runs setup i K (provider f note) P s := by
  refine step hstable hK fun t hrespects hinv ht answer => ?_
  split
  · exact ⟨.refl hinv, ht, fun _ hb => by cases hb⟩
  · exact ⟨.refl hinv, ht, fun _ hb => by cases hb⟩
  · rename_i outcome a metadata hok _
    obtain ⟨hmove, hK', hP⟩ := h t hrespects hinv ht answer a metadata hok
    refine ⟨hmove, hK', fun b hb => ?_⟩
    unfold Outcome.respond at hb
    split at hb <;> cases hb
    exact hP

theorem onDrop {cleanup : World → World} (h : Runs setup i K p P s)
    (hcleanup : ∀ t, Consistent setup t → K t →
      (sharing setup).Move i t (cleanup t) ∧ K (cleanup t)) :
    Runs setup i K (p.onDrop cleanup) P s :=
  wp_onDrop h fun _ => hcleanup

end Runs

/-! ## Locks -/

inductive Mode
  | plain
  | reading (blocks : List BlockId)
  | writing
  | reclaiming

/-- How the task holds the lifecycle of the coordinator. A reader keeps the blocks that it
has stored; when a coordinator reconciles, no mutation of it is under way. -/
def Holding (mode : Mode) (i c : ℕ) (world : World) : Prop :=
  match mode with
  | .plain => (world.fs c).opened = true
  | .reading blocks => i ∈ (world.fs c).readers ∧ ∀ id ∈ blocks, (c, id) ∈ world.ledger.stored
  | .writing => (world.fs c).writer = some i
  | .reclaiming => (world.fs c).writer = some i ∧ c ∈ world.ledger.reclaiming ∧
      ∀ id, (c, id) ∉ world.ledger.stored

/-- The task also holds the gate. -/
structure Locked (mode : Mode) (i c : ℕ) (world : World) : Prop where
  gate : (world.fs c).gate = some i
  holding : Holding mode i c world

theorem Holding.stable (mode : Mode) : Stable i (Holding mode i c) := by
  intro s t hrespects h
  cases mode with
  | plain => exact hrespects.opened c h
  | reading =>
    obtain ⟨hreader, hstored⟩ := hrespects.reader c h.1
    exact ⟨hreader, fun id hid => hstored id (h.2 id hid)⟩
  | writing => exact (hrespects.writer c h).1
  | reclaiming =>
    obtain ⟨hwriter, hmem, hstored⟩ := hrespects.writer c h.1
    exact ⟨hwriter, hmem.mpr h.2.1, fun id hid => h.2.2 id ((hstored id).mp hid)⟩

theorem Locked.stable (mode : Mode) : Stable i (Locked mode i c) := fun hrespects h =>
  ⟨(hrespects.gate c h.gate).1, .stable mode hrespects h.holding⟩

variable {mode : Mode}

theorem Holding.congr (h : Holding mode i c s) (hopened : (t.fs c).opened = (s.fs c).opened)
    (hreaders : (t.fs c).readers = (s.fs c).readers) (hwriter : (t.fs c).writer = (s.fs c).writer)
    (hreclaiming : t.ledger.reclaiming = s.ledger.reclaiming)
    (hstored : t.ledger.stored = s.ledger.stored) : Holding mode i c t := by
  cases mode with
  | plain => exact hopened.trans h
  | reading =>
    obtain ⟨hreader, hblocks⟩ := h
    rw [← hreaders] at hreader
    rw [← hstored] at hblocks
    exact ⟨hreader, hblocks⟩
  | writing => exact hwriter.trans h
  | reclaiming =>
    obtain ⟨hwriter', hmem, hnone⟩ := h
    rw [← hreclaiming] at hmem
    rw [← hstored] at hnone
    exact ⟨hwriter.trans hwriter', hmem, hnone⟩

theorem Locked.congr (h : Locked mode i c s) (hlocks : SameLocks (s.fs c) (t.fs c))
    (hreclaiming : t.ledger.reclaiming = s.ledger.reclaiming)
    (hstored : t.ledger.stored = s.ledger.stored) : Locked mode i c t :=
  ⟨hlocks.gate.trans h.gate, h.holding.congr hlocks.opened hlocks.readers hlocks.writer hreclaiming hstored⟩

theorem Locked.setFs (h : Locked mode i c s) {coordinator : Coordinator}
    (hlocks : SameLocks (s.fs c) coordinator) : Locked mode i c (s.setFs c coordinator) :=
  h.congr (by rw [setFs_fs_self]; exact hlocks) rfl rfl

theorem Holding.opened (h : Holding mode i c s) (hinv : Consistent setup s) :
    (s.fs c).opened = true := by
  by_contra hclosed
  obtain ⟨-, hreaders, hwriter, -⟩ := hinv.unopened c (Bool.not_eq_true _ ▸ hclosed)
  cases mode with
  | plain => exact hclosed h
  | reading =>
    have hreader := h.1
    rw [hreaders] at hreader
    cases hreader
  | writing => exact absurd (hwriter.symm.trans h) (by simp)
  | reclaiming => exact absurd (hwriter.symm.trans h.1) (by simp)

theorem move_relock (hinv : Consistent setup s) {lock : Coordinator}
    (hsame : SameState (s.fs c) lock) (hopened : (s.fs c).opened = true)
    (hexclusive : lock.writer ≠ none → lock.readers = [])
    (hgate : ∀ j, j ≠ i → (s.fs c).gate = some j → lock.gate = some j)
    (hreaders : ∀ j, j ≠ i → j ∈ (s.fs c).readers → j ∈ lock.readers)
    (hwriter : lock.writer = (s.fs c).writer) : (sharing setup).Move i s (s.setFs c lock) :=
  move_of (hinv.relock hsame ⟨rfl, rfl, rfl⟩ hopened hexclusive fun _ _ hid => hid) fun j hj =>
    respects_relock hsame ⟨rfl, rfl, rfl⟩ (hgate j hj)
      (fun hd => ⟨hreaders j hj hd, fun _ hid => hid⟩)
      (fun hd => ⟨hwriter.trans hd, .rfl, fun _ => .rfl⟩)
      fun _ _ => ⟨.rfl, fun _ => .rfl⟩

theorem Runs.withGate {p : Call α} (hK : Holding mode i c s) (h : ∀ t, Locked mode i c t →
      Runs setup i (Locked mode i c) p (fun _ _ => True) t) :
    Runs setup i (Holding mode i c) ((setup.caller i c).withGate p) (fun _ _ => True) s := by
  have hrelock : ∀ u gate, Consistent setup u → Holding mode i c u →
      (∀ j, j ≠ i → (u.fs c).gate ≠ some j) →
      (sharing setup).Move i u (u.setFs c { u.fs c with gate }) ∧
        Holding mode i c (u.setFs c { u.fs c with gate }) := by
    intro u gate hinv hholding hfree
    have hself := setFs_fs_self u c { u.fs c with gate }
    exact ⟨move_relock hinv ⟨rfl, rfl, rfl, rfl, rfl, rfl, rfl, rfl⟩ (hholding.opened hinv)
      (hinv.exclusive c) (fun j hj h => absurd h (hfree j hj)) (fun _ _ h => h) rfl,
      hholding.congr (by rw [hself]) (by rw [hself]) (by rw [hself]) rfl rfl⟩
  have hunlock : ∀ u, Consistent setup u → Locked mode i c u →
      (sharing setup).Move i u (u.setFs c { u.fs c with gate := none }) ∧
        Holding mode i c (u.setFs c { u.fs c with gate := none }) := fun u hinv hlocked =>
    hrelock u none hinv hlocked.holding fun j hj hgate =>
      hj (some.inj (hlocked.gate.symm.trans hgate)).symm
  refine wp_withLock (Q := fun result t => Locked mode i c t ∧ ∀ a, result = .ok a → True)
    (R := Locked mode i c) ?_ ?_ (fun t hrely _ => .stable mode hrely hK) hunlock
  · intro t hrely hinv hfree
    obtain ⟨hmove, hholding⟩ := hrelock t (some i) hinv (.stable mode hrely hK)
      fun j _ hgate => by cases hgate.symm.trans (isNone_iff_eq_none.mp hfree)
    exact ⟨hmove, h _ ⟨congrArg gate (setFs_fs_self ..), hholding⟩⟩
  · intro result t u ht hrely hinv
    obtain ⟨hmove, hholding⟩ := hunlock u hinv (.stable mode hrely ht.1)
    exact ⟨hmove, ⟨hholding, fun _ _ => trivial⟩, hholding⟩

theorem Runs.withLifecycleRead {p : Call α} (hopened : (s.fs c).opened = true)
    (h : ∀ t, Holding (.reading []) i c t →
      Runs setup i (Holding (.reading []) i c) p (fun _ _ => True) t) :
    Runs setup i (fun _ => True) ((setup.caller i c).withLifecycleRead p) (fun _ _ => True) s := by
  have hunlock : ∀ u, Consistent setup u → Holding (.reading []) i c u → (sharing setup).Move i u
        (u.setFs c { u.fs c with readers := (u.fs c).readers.erase i }) := by
    intro u hinv hreader
    refine move_relock hinv ⟨rfl, rfl, rfl, rfl, rfl, rfl, rfl, rfl⟩ (hreader.opened hinv)
      (fun hsome => ?_) (fun _ _ h => h) (fun j hj h => (mem_erase_of_ne hj).mpr h) rfl
    have hreader : i ∈ (u.fs c).readers := hreader.1
    rw [hinv.exclusive c hsome] at hreader
    cases hreader
  refine wp_withLock (Q := fun result t => Holding (.reading []) i c t ∧ ∀ a, result = .ok a → True)
    (R := Holding (.reading []) i c) ?_ ?_ (fun _ _ _ => trivial) ?_
  · intro t hrely hinv hfree
    have hnone : (t.fs c).writer = none := isNone_iff_eq_none.mp hfree
    refine ⟨move_relock hinv ⟨rfl, rfl, rfl, rfl, rfl, rfl, rfl, rfl⟩ (hrely.opened c hopened)
      (fun hsome => absurd hnone hsome) (fun _ _ h => h) (fun _ _ h => mem_cons_of_mem _ h) rfl,
      h _ ⟨?_, fun _ hid => by cases hid⟩⟩
    show i ∈ ((t.setFs c _).fs c).readers
    rw [setFs_fs_self]
    exact mem_cons_self
  · intro result t u ht hrely hinv
    exact ⟨hunlock u hinv (.stable (.reading []) hrely ht.1), ⟨trivial, fun _ _ => trivial⟩,
      trivial⟩
  · intro t hinv ht
    exact ⟨hunlock t hinv ht, trivial⟩

/-- The mode of a task with the lifecycle to write. -/
def writeMode (reclaims : Bool) : Mode := if reclaims then .reclaiming else .writing

variable {reclaims : Bool}

theorem holding_writeMode : Holding (writeMode reclaims) i c s ↔
      (s.fs c).writer = some i ∧ (reclaims = true → c ∈ s.ledger.reclaiming ∧
        ∀ id, (c, id) ∉ s.ledger.stored) := by
  cases reclaims <;> simp [writeMode, Holding]

theorem Runs.withLifecycleWrite {p : Call α} (hopened : (s.fs c).opened = true)
    (h : ∀ t, Holding (writeMode reclaims) i c t →
      Runs setup i (Holding (writeMode reclaims) i c) p (fun _ _ => True) t) :
    Runs setup i (fun _ => True) ((setup.caller i c).withLifecycleWrite reclaims p)
      (fun _ _ => True) s := by
  have hunlock : ∀ u, Consistent setup u → Holding (writeMode reclaims) i c u →
      (sharing setup).Move i u
        { u.setFs c { u.fs c with writer := none } with
          ledger := if reclaims then { u.ledger with
              reclaiming := u.ledger.reclaiming.filter fun fs => decide (fs ≠ c) }
            else u.ledger } := by
    intro u hinv hholding
    have hsame : SameState (u.fs c) { u.fs c with writer := none } :=
      ⟨rfl, rfl, rfl, rfl, rfl, rfl, rfl, rfl⟩
    have hwriter := (holding_writeMode.mp hholding).1
    have hopened := hholding.opened hinv
    refine move_of (hinv.relock hsame (by cases reclaims <;> exact ⟨rfl, rfl, rfl⟩) hopened
      (fun hsome => absurd rfl hsome) ?_) fun j hj => ?_
    · cases reclaims <;> exact fun _ _ hid => hid
    · refine respects_relock hsame (by cases reclaims <;> exact ⟨rfl, rfl, rfl⟩)
        (fun hd => hd) (fun hd => ⟨hd, ?_⟩) ?_ ?_
      · cases reclaims <;> exact fun _ hid => hid
      · intro hd
        rw [hwriter] at hd
        exact absurd (some.inj hd).symm hj
      · intro d hd
        cases reclaims
        · exact ⟨.rfl, fun _ => .rfl⟩
        · exact ⟨by simp [hd], fun _ => Iff.rfl⟩
  refine wp_withLock
    (Q := fun result t => Holding (writeMode reclaims) i c t ∧ ∀ a, result = .ok a → True)
    (R := Holding (writeMode reclaims) i c) ?_ ?_ (fun _ _ _ => trivial) ?_
  · intro t hrely hinv hfree
    have hinv : Consistent setup t := hinv
    obtain ⟨hnone, hempty⟩ := Bool.and_eq_true_iff.mp hfree
    have hnone : (t.fs c).writer = none := isNone_iff_eq_none.mp hnone
    have hempty : (t.fs c).readers = [] := List.isEmpty_iff.mp hempty
    have hsame : SameState (t.fs c) { t.fs c with writer := some i } :=
      ⟨rfl, rfl, rfl, rfl, rfl, rfl, rfl, rfl⟩
    have hopened' := hrely.opened c hopened
    refine ⟨move_of (hinv.relock hsame (by cases reclaims <;> exact ⟨rfl, rfl, rfl⟩) hopened'
      (fun _ => hempty) ?_) fun j _ => ?_, h _ ?_⟩
    · cases reclaims
      · exact fun _ _ hid => hid
      · exact fun _ _ hid => (mem_filter.mp hid).1
    · refine respects_relock hsame (by cases reclaims <;> exact ⟨rfl, rfl, rfl⟩)
        (fun hd => hd) ?_ ?_ ?_
      · intro hd
        have hd : j ∈ (t.fs c).readers := hd
        rw [hempty] at hd
        cases hd
      · intro hd
        exact absurd (hnone.symm.trans hd) (by simp)
      · intro d hd
        cases reclaims
        · exact ⟨.rfl, fun _ => .rfl⟩
        · exact ⟨by simp [hd, Setup.caller], fun _ => by simp [hd, Setup.caller]⟩
    · refine holding_writeMode.mpr ⟨congrArg writer (setFs_fs_self ..), ?_⟩
      rintro rfl
      exact ⟨mem_cons_self, fun id hid =>
        absurd rfl (of_decide_eq_true (mem_filter.mp hid).2)⟩
  · intro result t u ht hrely hinv
    exact ⟨hunlock u hinv (.stable _ hrely ht.1), ⟨trivial, fun _ _ => trivial⟩, trivial⟩
  · intro t hinv ht
    exact ⟨hunlock t hinv ht, trivial⟩

/-! ## The writer lease -/

section Leases

variable {mode : Mode} {P : α → World → Prop}

theorem runs_read {f : Coordinator → Result α} (hs : Locked mode i c s)
    (h : ∀ t, Respects i s t → Consistent setup t → Locked mode i c t → ∀ a,
      f (t.fs c) = .ok a → P a t) :
    Runs setup i (Locked mode i c) ((setup.caller i c).read f) P s :=
  .query (.stable mode) hs fun t hrespects hinv ht _ => h t hrespects hinv ht

theorem runs_modify {f : Coordinator → Coordinator} {P : Unit → World → Prop}
    (hs : Locked mode i c s) (hlocks : ∀ coordinator, SameLocks coordinator (f coordinator))
    (h : ∀ t, Respects i s t → Consistent setup t → Locked mode i c t →
      Fits setup t c (f (t.fs c)) ∧ P () (t.setFs c (f (t.fs c)))) :
    Runs setup i (Locked mode i c) ((setup.caller i c).modify f) P s := by
  refine .step (.stable mode) hs fun t hrespects hinv ht _ => ?_
  obtain ⟨hfits, hP⟩ := h t hrespects hinv ht
  exact ⟨hinv.move_setFs ht.gate (hlocks _) hfits, ht.setFs (hlocks _), fun _ _ => hP⟩

variable {e : FsError}

theorem runs_failClosed (hs : Locked mode i c s) :
    Runs setup i (Locked mode i c) ((setup.caller i c).failClosed e) P s := by
  refine .bind (P := fun _ _ => True) ?_ fun _ t ht _ => .fail ht
  refine .step (.stable mode) hs fun t _ hinv ht _ => ?_
  exact ⟨hinv.move_failWith ht.gate e, ht.setFs ⟨rfl, rfl, rfl, rfl⟩, fun _ _ => trivial⟩

variable {lease : WriterLease}

theorem runs_releaseWriter {K : World → Prop} (hstable : Stable i K)
    (hmetadata : ∀ t metadata, K t → K { t with metadata }) (hs : K s) :
    Runs setup i K (releaseWriter lease) (fun _ _ => True) s :=
  .provider hstable hs fun t _ hinv ht _ _ _ hok =>
    ⟨hinv.move_quiet (.releaseWriter hok), hmetadata t _ ht, trivial⟩

theorem Locked.metadata (h : Locked mode i c s) (metadata : MetadataState) :
    Locked mode i c { s with metadata } := h.congr ⟨rfl, rfl, rfl, rfl⟩ rfl rfl

variable {acquired : WriterLease}

theorem runs_giveUp (hs : Locked mode i c s) :
    Runs setup i (Locked mode i c) ((setup.caller i c).leaseCalls.giveUp acquired e) P s :=
  .attempt_bind (runs_releaseWriter (.stable mode) (fun _ metadata h => h.metadata metadata)
    hs) (fun _ ht => ht) fun _ _ ht _ => runs_failClosed ht

/-- The lease was granted to the client, and no later one was. -/
structure Owns (c : ℕ) (lease : WriterLease) (world : World) : Prop where
  le : lease.fence ≤ world.metadata.lastFence
  holder : lease.fence = world.metadata.lastFence → world.ledger.holder = c
  last : world.ledger.holder = c → world.metadata.lastFence = lease.fence

theorem Owns.stable (h : Owns c lease s) (hc : Controls i c s) (hrespects : Respects i s t) :
    Owns c lease t := by
  have hle := h.le
  have hfence := hrespects.fence
  refine ⟨by omega, fun heq => ?_, fun hholder => ?_⟩
  · rw [hrespects.holder (by omega)]
    exact h.holder (by omega)
  · rcases Nat.lt_or_ge s.metadata.lastFence t.metadata.lastFence with hlt | hge
    · exact absurd hholder (hrespects.regrant c hc hlt)
    · have heq : t.metadata.lastFence = s.metadata.lastFence := by omega
      rw [heq]
      exact h.last ((hrespects.holder heq).symm.trans hholder)

/-- Everything of a coordinator but its lease and its locks. -/
structure SameCache (before after : Coordinator) : Prop where
  failure : after.failure = before.failure
  ns : after.ns = before.ns
  orphans : after.orphans = before.orphans
  persistedRevision : after.persistedRevision = before.persistedRevision
  pendingNamespace : after.pendingNamespace = before.pendingNamespace

variable {a b : Coordinator}

theorem SameCache.trans {d : Coordinator} (h : SameCache a b) (h' : SameCache b d) :
    SameCache a d :=
  ⟨h'.failure.trans h.failure, h'.ns.trans h.ns, h'.orphans.trans h.orphans,
    h'.persistedRevision.trans h.persistedRevision,
    h'.pendingNamespace.trans h.pendingNamespace⟩

theorem SameState.sameCache (h : SameState a b) : SameCache a b :=
  ⟨h.failure, h.ns, h.orphans, h.persistedRevision, h.pendingNamespace⟩

theorem Locked.sameState (h : Locked mode i c s) (hrespects : Respects i s t) :
    SameState (s.fs c) (t.fs c) := (hrespects.gate c h.gate).2

/-- The cached lease; while a coordinator reconciles, it is the last one. -/
structure Leased (mode : Mode) (c : ℕ) (force : Bool) (lease : WriterLease) (world : World) :
    Prop where
  cached : (world.fs c).lease = some lease
  last : mode = .reclaiming → force = true → world.ledger.overtaken = false →
    lease.fence = world.metadata.lastFence

theorem lastFence_of_reclaiming (h : Locked .reclaiming i c s) (hrespects : Respects i s t)
    (hover : t.ledger.overtaken = false) : t.metadata.lastFence = s.metadata.lastFence :=
  (hrespects.reclaim c h.gate h.holding.1 h.holding.2.1 hover).1

variable {force : Bool}

theorem Leased.stable (h : Leased mode c force lease s) (hs : Locked mode i c s)
    (hrespects : Respects i s t) : Leased mode c force lease t := by
  refine ⟨(hs.sameState hrespects).lease.trans h.cached, ?_⟩
  rintro rfl hforce hover
  rw [lastFence_of_reclaiming hs hrespects hover]
  exact h.last rfl hforce (hrespects.overtaken hover)

variable {current : WriterLease}

theorem runs_installLease (hs : Locked mode i c s) (hcurrent : (s.fs c).lease = some current)
    (hlease : ∀ t, Respects i s t → Consistent setup t → lease.fence ≤ t.metadata.lastFence ∧
      (lease.fence = t.metadata.lastFence → c = t.ledger.holder) ∧
      (c = t.ledger.holder → t.metadata.lastFence ≤ lease.fence + 1 →
        t.metadata.lastFence ≤ current.fence + 1))
    (hlast : mode = .reclaiming → s.ledger.overtaken = false → lease.fence = s.metadata.lastFence) :
    Runs setup i (Locked mode i c) ((setup.caller i c).installLease lease)
      (fun installed t => SameCache (s.fs c) (t.fs c) ∧ Leased mode c force installed t) s := by
  refine .bind (P := fun _ t => SameCache (s.fs c) (t.fs c) ∧ Leased mode c force lease t)
    (runs_modify hs (fun _ => ⟨rfl, rfl, rfl, rfl⟩) fun t hrespects hinv ht => ⟨?_, ?_, ?_, ?_⟩)
    fun _ t ht hP => .pure ht hP
  · obtain ⟨hle, hholder, hchain⟩ := hlease t hrespects hinv
    have hfits := hinv.fits c
    have hcached : (t.fs c).lease = some current := (hs.sameState hrespects).lease.trans hcurrent
    refine ⟨?_, hfits.staged, ?_, ?_⟩
    · intro other hother
      cases hother
      exact ⟨hle, hholder⟩
    · intro heq other hother hfence
      cases hother
      exact hfits.cached heq current hcached (hchain heq hfence)
    · intro hover heq other hother hfence
      cases hother
      exact hfits.held hover heq current hcached (hchain heq hfence)
  · rw [setFs_fs_self]
    have hsame := (hs.sameState hrespects).sameCache
    exact ⟨hsame.failure, hsame.ns, hsame.orphans, hsame.persistedRevision, hsame.pendingNamespace⟩
  · rw [setFs_fs_self]
  · rintro rfl - hover
    have hover : t.ledger.overtaken = false := hover
    show lease.fence = t.metadata.lastFence
    rw [lastFence_of_reclaiming hs hrespects hover]
    exact hlast rfl (hrespects.overtaken hover)

theorem classifyReacquiredFence_eq_next {prior fence : ℕ}
    (h : Chunked.classifyReacquiredFence prior fence = .next) : fence = prior + 1 := by
  unfold Chunked.classifyReacquiredFence at h
  split at h
  · cases h
  · rename_i next hnext
    split_ifs at h with heq
    rw [heq, (checkedAdd_eq_some.mp hnext).2]

theorem Locked.grant (h : Locked mode i c s) (metadata : MetadataState) (client : ℕ) :
    Locked mode i c { s with metadata, ledger := s.ledger.grant client } :=
  h.congr ⟨rfl, rfl, rfl, rfl⟩ rfl rfl

theorem runs_reacquireExpiredLease (hs : Locked mode i c s)
    (hcurrent : (s.fs c).lease = some current) :
    Runs setup i (Locked mode i c) ((setup.caller i c).leaseCalls.reacquireExpiredLease current)
      (fun lease t => SameCache (s.fs c) (t.fs c) ∧ Leased mode c force lease t) s := by
  -- What is known of the coordinator and the acquired lease until it is installed.
  let Acquired (lease : WriterLease) (t : World) : Prop :=
    SameState (s.fs c) (t.fs c) ∧ Owns c lease t ∧
      (mode = .reclaiming → t.ledger.overtaken = false → lease.fence = t.metadata.lastFence)
  have hstable : ∀ lease {t u}, Locked mode i c t → Respects i t u → Acquired lease t →
      Acquired lease u := by
    rintro _ _ _ ht hrespects ⟨hsame, howns, hlast⟩
    refine ⟨hsame.trans (ht.sameState hrespects), howns.stable (.inl ht.gate) hrespects, ?_⟩
    rintro rfl hover
    rw [lastFence_of_reclaiming ht hrespects hover]
    exact hlast rfl (hrespects.overtaken hover)
  refine .bind (P := Acquired) (.orElse ?_ fun e t ht => runs_failClosed ht) ?_
  · dsimp only [Caller.leaseCalls]
    refine .provider (.stable mode) hs fun t hrespects hinv ht _ lease metadata hok => ?_
    obtain ⟨hmove, hfence⟩ := hinv.move_grant (.inl ht.gate) hok
    have hsame := hs.sameState hrespects
    refine ⟨hmove, ht.grant metadata c, hsame, ?_, fun _ _ => hfence⟩
    exact ⟨hfence.le, fun _ => rfl, fun _ => hfence.symm⟩
  · intro acquired t ht hacquired
    dsimp only
    split_ifs with hoverflow hfenced
    · exact runs_giveUp ht
    · exact runs_giveUp ht
    have hnext := classifyReacquiredFence_eq_next (not_not.mp (not_or.mp hfenced).1)
    refine .bind (P := fun _ => Acquired acquired) (.orElse ?_ fun e u hu => runs_giveUp hu)
      fun loaded u hu hacquired => ?_
    · exact .query (.stable mode) ht fun u hrespects _ _ _ _ _ =>
        hstable acquired ht hrespects hacquired
    split
    · exact runs_giveUp hu
    refine .bind (P := fun _ => Acquired acquired) (.orElse ?_ fun e v hv => runs_giveUp hv)
      fun revision v hv hacquired => ?_
    · dsimp only [Caller.leaseCalls]
      exact runs_read hu fun v hrespects _ _ _ _ => hstable acquired hu hrespects hacquired
    obtain ⟨hsame, howns, hlast⟩ := hacquired
    split_ifs
    · exact runs_giveUp hv
    refine .imp (runs_installLease hv (hsame.lease.trans hcurrent) ?_ hlast)
      fun lease w hP => ⟨hsame.sameCache.trans hP.1, hP.2⟩
    intro w hrespects _
    have howns' := howns.stable (.inl hv.gate) hrespects
    refine ⟨howns'.le, fun heq => (howns'.holder heq).symm, fun heq _ => ?_⟩
    rw [howns'.last heq.symm, hnext]

theorem runs_renewLeaseInner (force : Bool) (hs : Locked mode i c s) :
    Runs setup i (Locked mode i c) ((setup.caller i c).leaseCalls.renewLeaseInner force)
      (fun lease t => SameCache (s.fs c) (t.fs c) ∧ Leased mode c force lease t) s := by
  refine .bind (P := fun current t => SameState (s.fs c) (t.fs c) ∧
    (t.fs c).lease = some current) ?_ ?_
  · dsimp only [Caller.leaseCalls]
    refine runs_read hs fun t hrespects _ _ current hok => ?_
    exact ⟨hs.sameState hrespects, okOr_eq_ok.mp hok⟩
  intro current t ht hcurrent
  refine .bind (P := fun fresh u => (fresh = true → force = false) ∧
    SameState (s.fs c) (u.fs c) ∧ (u.fs c).lease = some current)
    (.query (.stable mode) ht ?_) ?_
  · intro u hrespects _ _ answer fresh hok
    cases hok
    have hsame := ht.sameState hrespects
    refine ⟨?_, hcurrent.1.trans hsame, hsame.lease.trans hcurrent.2⟩
    cases force <;> simp
  rintro _ _ hu ⟨hforce, hsame, hcached⟩
  split_ifs with hfresh
  · refine .pure hu ⟨hsame.sameCache, hcached, ?_⟩
    rintro - htrue
    rw [hforce hfresh] at htrue
    cases htrue
  -- A failed renewal leaves the coordinator as it was.
  let Unchanged (v : World) : Prop := Locked mode i c v ∧ SameState (s.fs c) (v.fs c)
  have hunchanged : Stable i Unchanged := fun hrespects hv =>
    ⟨.stable mode hrespects hv.1, hv.2.trans (hv.1.sameState hrespects)⟩
  refine .attempt_bind (J := Unchanged) (P := fun renewed v => current.fence = renewed.fence ∧
    (mode = .reclaiming → renewed.fence = v.metadata.lastFence)) ?_ (fun _ hv => hv.1) ?_
  · dsimp only [Caller.leaseCalls]
    refine .provider hunchanged ⟨hu, hsame⟩
      fun v _ hinv hv _ renewed metadata hok => ?_
    obtain ⟨hquiet, hfence, hfence'⟩ := Consistent.Quiet.renewWriter hinv hok
    exact ⟨hinv.move_quiet hquiet, ⟨hv.1.metadata metadata, hv.2⟩, hfence.trans hfence'.symm,
      fun _ => hfence'.trans hquiet.lastFence.symm⟩
  · rintro result v ⟨hv, hsame'⟩ hresult
    have hcached' : (v.fs c).lease = some current := by rw [hsame'.lease, ← hsame.lease, hcached]
    cases result with
    | ok renewed =>
      obtain ⟨hfence, hlast⟩ := hresult renewed rfl
      refine .imp (runs_installLease hv hcached' ?_ fun hmode _ => hlast hmode)
        fun lease w hP => ⟨hsame'.sameCache.trans hP.1, hP.2⟩
      intro w hrespects hinv
      obtain ⟨hle, hholder⟩ := hinv.token c current ((hv.sameState hrespects).lease.trans hcached')
      rw [← hfence]
      exact ⟨hle, hholder, fun _ hchain => hchain⟩
    | error e =>
      dsimp only
      split_ifs
      · exact .imp (runs_reacquireExpiredLease hv hcached')
          fun lease w hP => ⟨hsame'.sameCache.trans hP.1, hP.2⟩
      · exact runs_failClosed hv

theorem runs_validateLease (hs : Locked mode i c s) :
    Runs setup i (Locked mode i c) (setup.caller i c).validateLease (fun _ t =>
      SameCache (s.fs c) (t.fs c) ∧ ∃ lease, Leased mode c true lease t) s :=
  .bind (runs_renewLeaseInner true hs) fun lease _ ht hP =>
    .pure ht ⟨hP.1, lease, hP.2⟩

end Leases

/-! ## Mutations -/

section Mutations

variable {mode : Mode}

open Consistent (Sources)

/-- The namespace has only blocks that the coordinator may publish. -/
def Permitted (mode : Mode) (cached : Namespace) (ns : Namespace) : Prop :=
  ∀ id ∈ blockRoots ns, id ∈ blockRoots cached ∨
    match mode with
    | .reading blocks => id ∈ blocks
    | _ => False

variable {ns : Namespace}

theorem Permitted.sources (h : Permitted mode (s.fs c).ns ns) (hs : Locked mode i c s) :
    Sources c s ns := by
  intro id hid
  rcases h id hid with hcached | hblock
  · exact .inl hcached
  · cases mode with
    | reading => exact .inr (hs.holding.2 id hblock)
    | plain | writing | reclaiming => exact hblock.elim

theorem Permitted.refl (mode : Mode) (ns : Namespace) : Permitted mode ns ns :=
  fun _ hid => .inl hid

variable {orphans : BTreeMap InodeId NodeMetadata}

theorem runs_publish {lease : WriterLease} {force : Bool} (hs : Locked mode i c s)
    (hlease : Leased mode c force lease s) (hhealthy : (s.fs c).failure = none)
    (hns : Permitted mode (s.fs c).ns ns) :
    Runs setup i (Locked mode i c) ((setup.caller i c).publish lease ns orphans) (fun _ t =>
      (t.fs c).failure = none ∧ (t.fs c).pendingNamespace = false ∧
        Leased mode c true lease t) s := by
  refine Runs.step (Locked.stable mode) hs fun t hrespects hinv ht answer => ?_
  have hsame := hs.sameState hrespects
  have hlease' := hlease.stable hs hrespects
  have hhealthy' : (t.fs c).failure = none := hsame.failure.trans hhealthy
  have hsources : Sources c t ns :=
    Permitted.sources (by rw [hsame.ns]; exact hns) ht
  have hfailed : ∀ e, ((t.fs c).failWith e).failure ≠ none := by
    intro e
    simp [failWith, hhealthy']
  dsimp only
  split
  · exact ⟨hinv.move_failWith ht.gate _, ht.setFs ⟨rfl, rfl, rfl, rfl⟩, fun _ hb => by cases hb⟩
  · exact ⟨hinv.move_failWith ht.gate _, ht.setFs ⟨rfl, rfl, rfl, rfl⟩, fun _ hb => by cases hb⟩
  · rename_i e revision metadata _ hok
    refine ⟨hinv.move_publish _ ht.gate hlease'.cached hhealthy' hsources hok ⟨rfl, rfl, rfl, rfl⟩ rfl
      (.inl (hfailed e)) (hinv.staged c), (ht.metadata metadata).setFs ⟨rfl, rfl, rfl, rfl⟩,
      fun _ hb => by cases hb⟩
  · rename_i revision metadata _ hok
    have hmove := hinv.move_publish { t.fs c with
      ns, orphans, persistedRevision := revision, pendingNamespace := false }
      ht.gate hlease'.cached hhealthy' hsources hok ⟨rfl, rfl, rfl, rfl⟩ rfl
      (.inr ⟨rfl, rfl⟩) (fun hfalse => by cases hfalse)
    refine ⟨hmove, (ht.metadata metadata).setFs ⟨rfl, rfl, rfl, rfl⟩, fun _ _ => ?_⟩
    obtain ⟨⟨_, hcurrent, hpublic⟩, -, -, rfl⟩ := publish_eq_ok hok
    have hlast := (hinv.holder_of_current hlease'.cached hcurrent hpublic).2
    have hself := setFs_fs_self { t with
      metadata := { t.metadata with ns := some ns, revision := t.metadata.revision + 1 } } c
      { t.fs c with ns, orphans, persistedRevision := revision, pendingNamespace := false }
    have hfailure := congrArg failure hself
    have hpending := congrArg pendingNamespace hself
    have hcached := congrArg Coordinator.lease hself
    exact ⟨hfailure.trans hhealthy', hpending, hcached.trans hlease'.cached, fun _ _ _ => hlast⟩

/-- A coordinator without failures or staged work. -/
structure Settled (mode : Mode) (c : ℕ) (world : World) : Prop where
  healthy : (world.fs c).failure = none
  drained : (world.fs c).pendingNamespace = false
  leased : ∃ lease, Leased mode c true lease world

theorem runs_publishDurable (hs : Locked mode i c s) (hhealthy : (s.fs c).failure = none)
    (hns : Permitted mode (s.fs c).ns ns) :
    Runs setup i (Locked mode i c) ((setup.caller i c).publishDurable ns orphans)
      (fun _ t => Settled mode c t) s := by
  refine .bind (P := fun _ t => SameCache (s.fs c) (t.fs c)) ?_ fun _ t ht hsame => ?_
  · unfold Async.when
    split_ifs
    · exact .imp (runs_validateLease hs) fun _ _ hP => hP.1
    · exact .pure hs ⟨rfl, rfl, rfl, rfl, rfl⟩
  · refine .bind (runs_renewLeaseInner false ht) fun lease u hu hP => ?_
    have hsame' := hsame.trans hP.1
    refine .imp (runs_publish hu hP.2 (hsame'.failure.trans hhealthy) ?_)
      fun _ v hP => ⟨hP.1, hP.2.1, lease, hP.2.2⟩
    rw [hsame'.ns]
    exact hns

theorem runs_publishNamespace (hs : Locked mode i c s) (hhealthy : (s.fs c).failure = none)
    (hns : Permitted mode (s.fs c).ns ns) :
    Runs setup i (Locked mode i c) ((setup.caller i c).publishNamespace ns orphans)
      (fun _ _ => True) s := by
  unfold Caller.publishNamespace
  split_ifs with hwriteback
  · refine runs_modify hs (fun _ => ⟨rfl, rfl, rfl, rfl⟩) fun t hrespects hinv ht => ⟨?_, trivial⟩
    have hfits := hinv.fits c
    have hsources : Sources c t ns := Permitted.sources
      (by rw [(hs.sameState hrespects).ns]; exact hns) ht
    refine ⟨hfits.token, fun _ => hwriteback, ?_, ?_⟩
    · intro heq lease hlease hle hnone
      exact ⟨(hfits.cached heq lease hlease hle hnone).1, fun hfalse => by cases hfalse⟩
    · intro hover heq lease hlease hle hnone id hid
      refine hfits.held hover heq lease hlease hle hnone id ?_
      rcases hid with hid | hid
      · exact hsources id hid
      · exact .inr hid
  · exact .imp (runs_publishDurable hs hhealthy hns) fun _ _ _ => trivial

theorem usable_eq_ok {coordinator : Coordinator} {u : Unit} (h : coordinator.usable = .ok u) :
    coordinator.failure = none := by
  unfold usable at h
  split at h
  · cases h
  · assumption

theorem runs_drainWriteback (hs : Locked mode i c s) :
    Runs setup i (Locked mode i c) (setup.caller i c).drainWriteback
      (fun _ t => (∃ lease, Leased mode c true lease s) → Settled mode c t) s := by
  refine .bind (P := fun read t => SameState (s.fs c) (t.fs c) ∧ (t.fs c).failure = none ∧
    read.1 = (t.fs c).pendingNamespace ∧ read.2.1 = (t.fs c).ns ∧
    ((t.fs c).pendingNamespace = true → (setup.options c).writeback = true) ∧
    ((∃ lease, Leased mode c true lease s) → ∃ lease, Leased mode c true lease t))
    (runs_read hs ?_) ?_
  · intro t hrespects hinv ht read hok
    obtain ⟨_, husable, rfl⟩ := map_eq_ok.mp hok
    refine ⟨hs.sameState hrespects, usable_eq_ok husable, rfl, rfl, hinv.staged c, ?_⟩
    rintro ⟨lease, hlease⟩
    exact ⟨lease, hlease.stable hs hrespects⟩
  · rintro ⟨_, _, _⟩ t ht ⟨hsame, hhealthy, rfl, rfl, hstaged, hleased⟩
    dsimp only
    unfold Async.when
    split_ifs with hpending
    · exact .imp (runs_publishDurable ht hhealthy (.refl mode _)) fun _ _ hP _ => hP
    · refine .pure ht fun hlease => ⟨hhealthy, ?_, hleased hlease⟩
      by_contra htrue
      have htrue : (t.fs c).pendingNamespace = true := by simpa using htrue
      exact hpending (Bool.and_eq_true_iff.mpr ⟨hstaged htrue, htrue⟩)

/-! ## Blocks -/

theorem objectPath_eq_ok {scope path : String} {id : BlockId}
    (h : objectPath scope id = .ok path) : path = location scope id := by
  simp only [objectPath, bind_eq_ok, pure_eq_ok] at h
  obtain ⟨-, -, rfl⟩ := h
  rfl

theorem create_keeps (objects : Objects) (path : String) (object : Object) :
    (∀ other value, objects.get? other = some value →
      (create objects path object).2.get? other = some value) ∧
      (create objects path object).2.contains path = true := by
  unfold create
  split_ifs with hcontains
  · exact ⟨fun _ _ hget => hget, hcontains⟩
  · refine ⟨fun other value hget => ?_, by simp [BTreeMap.contains]⟩
    have hne : other ≠ path := by
      rintro rfl
      simp [BTreeMap.contains, hget] at hcontains
    rw [BTreeMap.get?_insert_of_ne _ _ hne]
    exact hget

variable {blocks : List BlockId}

theorem holding_reading_cons {id : BlockId} (h : Holding (.reading blocks) i c s)
    (hid : (c, id) ∈ s.ledger.stored) :
    Holding (.reading (id :: blocks)) i c s := by
  refine ⟨h.1, fun other hother => ?_⟩
  rcases mem_cons.mp hother with rfl | hother
  · exact hid
  · exact h.2 other hother

theorem runs_putRemote {id : BlockId} {bytes : List UInt8}
    (hs : Holding (.reading blocks) i c s) : Runs setup i (Holding (.reading blocks) i c)
      ((setup.caller i c).putRemote id bytes (location setup.scope id))
      (fun _ t => (c, id) ∈ t.ledger.stored) s := by
  -- The first request creates the object or finds one.
  refine .bind (P := fun created t => created = true → (c, id) ∈ t.ledger.stored) ?_ ?_
  · refine .step (.stable _) hs fun t _ hinv ht answer => ?_
    dsimp only
    split
    · exact ⟨.refl hinv, ht, fun _ hb => by cases hb⟩
    · obtain ⟨hkeeps, hcontains⟩ := create_keeps t.objects (location setup.scope id)
        ⟨bytes, answer.storedAtMs⟩
      have hstored : ∀ entry ∈ t.ledger.stored, entry ∈ (if (create t.objects
          (location setup.scope id) ⟨bytes, answer.storedAtMs⟩).1
          then (c, id) :: t.ledger.stored else t.ledger.stored) := by
        intro entry hentry
        split_ifs
        · exact mem_cons_of_mem _ hentry
        · exact hentry
      refine ⟨hinv.move_store id ht.1 hkeeps (fun hjoined => hjoined) ?_,
        ⟨ht.1, fun id hid => hstored _ (ht.2 id hid)⟩, ?_⟩
      · split_ifs
        · exact .inr ⟨rfl, fun _ => hcontains⟩
        · exact .inl rfl
      · intro created hcreated htrue
        unfold Outcome.respond at hcreated
        split at hcreated <;> cases hcreated
        show _ ∈ (if _ then _ else _)
        rw [if_pos htrue]
        exact mem_cons_self
  · intro created t ht hcreated
    unfold Async.when
    split_ifs with hfalse
    · refine .step (.stable _) ht fun u _ hinv hu _ => ?_
      split
      · exact ⟨.refl hinv, hu, fun _ hb => by cases hb⟩
      · rename_i hok
        simp only [verifyExisting, bind_eq_ok, okOr_eq_ok] at hok
        obtain ⟨object, hobject, -⟩ := hok
        refine ⟨hinv.move_store id hu.1 (fun _ _ hget => hget) (fun hjoined => hjoined)
          (.inr ⟨rfl, fun _ => ?_⟩), ⟨hu.1, fun id hid => mem_cons_of_mem _ (hu.2 id hid)⟩,
          fun _ _ => mem_cons_self⟩
        simp only [BTreeMap.contains]
        exact isSome_iff_exists.mpr ⟨object, hobject⟩
    · exact .pure ht (hcreated (by simpa using hfalse))

theorem runs_leadPut {id : BlockId} {bytes : List UInt8} {put : ℕ}
    (hs : Holding (.reading blocks) i c s) : Runs setup i (Holding (.reading blocks) i c)
      ((setup.caller i c).leadPut id bytes (location setup.scope id) put)
      (fun _ t => (c, id) ∈ t.ledger.stored) s := by
  refine .bind (P := fun result t => ∀ a, result = .ok a → (c, id) ∈ t.ledger.stored)
    (.onDrop (.attempt_bind (runs_putRemote hs) (fun _ ht => ht) fun result t ht hresult => ?_)
      fun t hinv ht => ⟨hinv.move_puts _, ht⟩) fun result t ht hresult => .lift ht hresult
  cases result with
  | error e =>
    refine .step (.stable _) ht fun u _ hinv hu _ => ⟨hinv.move_puts _, hu, ?_⟩
    rintro _ ⟨⟩ _ ⟨⟩
  | ok =>
    -- The block stays stored while the task has the lifecycle.
    have hholding := holding_reading_cons ht (hresult () rfl)
    refine .imp (.weaken (.step (P := fun _ u => (c, id) ∈ u.ledger.stored) (.stable _) hholding
      fun u _ hinv hu _ => ⟨hinv.move_puts _, hu, fun _ _ => hu.2 id mem_cons_self⟩)
      fun u hu => ⟨hu.1, fun other hother => hu.2 other (mem_cons_of_mem _ hother)⟩) ?_
    exact fun _ _ hstored _ _ => hstored.2

theorem runs_followPut {id : BlockId} {put : ℕ} (hs : Holding (.reading blocks) i c s) :
    Runs setup i (Holding (.reading blocks) i c) ((setup.caller i c).followPut id put)
      (fun _ t => (c, id) ∈ t.ledger.stored) s := by
  refine wp_await (fun t hrespects hinv _ answer => ?_) fun t hrespects _ =>
    .stable _ hrespects hs
  have hinv : Consistent setup t := hinv
  have ht := Holding.stable _ hrespects hs
  split
  · exact ⟨.refl hinv, ht, fun _ hb => by cases hb⟩
  · exact ⟨.refl hinv, ht, fun _ hb => by cases hb⟩
  · dsimp only
    split_ifs with hstored
    · exact ⟨.refl hinv, ht, fun _ _ => hstored⟩
    · exact ⟨hinv.move_store id ht.1 (fun _ _ hget => hget) (fun hfalse => by cases hfalse)
        (.inr ⟨rfl, fun hfalse => by cases hfalse⟩),
        ⟨ht.1, fun id hid => mem_cons_of_mem _ (ht.2 id hid)⟩, fun _ _ => mem_cons_self⟩

theorem runs_put {bytes : List UInt8} (hs : Holding (.reading blocks) i c s) :
    Runs setup i (Holding (.reading blocks) i c) ((setup.caller i c).put bytes)
      (fun id t => (c, id) ∈ t.ledger.stored) s := by
  refine .lift_bind hs fun path hpath => ?_
  obtain rfl := objectPath_eq_ok hpath
  refine .bind (P := fun _ _ => True)
    (.step (.stable _) hs fun t _ hinv ht _ => ⟨hinv.move_puts _, ht, fun _ _ => trivial⟩)
    fun claim t ht _ => ?_
  cases claim with
  | leader => exact .bind (runs_leadPut ht) fun _ _ hu hstored => .pure hu hstored
  | follower => exact .bind (runs_followPut ht) fun _ _ hu hstored => .pure hu hstored

theorem runs_putAll {pending : List (List UInt8)} (hs : Holding (.reading blocks) i c s) :
    Runs setup i (Holding (.reading blocks) i c) ((setup.caller i c).putAll pending)
      (fun stored t => ∀ id ∈ stored, (c, id) ∈ t.ledger.stored) s := by
  induction pending generalizing blocks s with
  | nil => exact .pure hs fun _ hid => by cases hid
  | cons _ _ ih =>
    refine .bind (runs_put hs) fun id t ht hid => ?_
    refine .bind (.weaken (ih (holding_reading_cons ht hid)) fun u hu =>
      ⟨hu.1, fun other hother => hu.2 other (mem_cons_of_mem _ hother)⟩) ?_
    rintro _ _ hu ⟨hfirst, hrest⟩
    refine .pure hu fun other hother => ?_
    rcases mem_cons.mp hother with rfl | hother
    · exact hfirst.2 _ mem_cons_self
    · exact hrest other hother

theorem runs_mutateWith {mutation : Mutation} {stored : List BlockId} (hs : Holding mode i c s)
    (hstored : ∀ {cached ns}, (∀ id ∈ blockRoots ns, id ∈ blockRoots cached ∨ id ∈ stored) →
      Permitted mode cached ns) :
    Runs setup i (Holding mode i c) ((setup.caller i c).mutateWith mutation stored)
      (fun _ _ => True) s := by
  refine .withGate hs fun t ht => ?_
  refine .bind (runs_renewLeaseInner false ht) fun _ u hu _ => ?_
  refine .bind (P := fun read v => (v.fs c).failure = none ∧ read.1 = (v.fs c).ns)
    (runs_read hu ?_) ?_
  · intro v _ _ _ read hok
    obtain ⟨_, husable, rfl⟩ := map_eq_ok.mp hok
    exact ⟨usable_eq_ok husable, rfl⟩
  · rintro ⟨_, _⟩ _ hv ⟨hhealthy, rfl⟩
    refine .lift_bind hv fun edited hedit => ?_
    exact runs_publishNamespace hv hhealthy (hstored (mutation.roots_edit hedit))

theorem runs_mutate {mutation : Mutation} (hopened : (s.fs c).opened = true) :
    Runs setup i (fun _ => True) ((setup.caller i c).mutate mutation) (fun _ _ => True) s := by
  unfold Caller.mutate
  split_ifs
  · refine .withLifecycleRead hopened fun t ht => ?_
    refine .bind (runs_putAll ht) fun stored u hu hstored => ?_
    have hheld : Holding (.reading stored) i c u := ⟨hu.1, hstored⟩
    exact .imp (.weaken (runs_mutateWith hheld fun h => h)
      fun v hv => ⟨hv.1, fun _ hid => by cases hid⟩) fun _ _ _ => trivial
  · have hheld : Holding .plain i c s := hopened
    refine .imp (.weaken (runs_mutateWith hheld fun h id hid => ?_) fun _ _ => trivial)
      fun _ _ _ => trivial
    exact .inl ((h id hid).resolve_right not_mem_nil)

theorem runs_syncfs (hopened : (s.fs c).opened = true) :
    Runs setup i (fun _ => True) (setup.caller i c).syncfs (fun _ _ => True) s := by
  have hheld : Holding .plain i c s := hopened
  exact .imp (.weaken (.withGate hheld fun _ ht =>
    .imp (runs_drainWriteback ht) fun _ _ _ => trivial) fun _ _ => trivial) fun _ _ _ => trivial

end Mutations

end MountRs.Reclamation
