import MountRs.Model.Locking

/-! # The order of the locks

Everything that an operation waits for has a rank, and an operation only waits for
something of a higher rank than what it holds. The reply to a batched mutation stands
between the locks that its caller holds and those that the batch takes. -/

namespace MountRs.Locking

open List

def LockId.rank : LockId → ℕ
  | handle _ => 0
  | lifecycle => 1
  | scratch _ => 2
  | gate => 4
  | leaseGate => 5

def replyRank : ℕ := 3

def Above (held : List LockId) (rank : ℕ) : Prop := ∀ lock ∈ held, lock.rank < rank

theorem Above.nil (rank : ℕ) : Above [] rank := fun _ h => nomatch h

variable {held : List LockId}

theorem Above.not_mem {lock : LockId} (h : Above held lock.rank) :
    lock ∉ held := fun hmem => Nat.lt_irrefl _ (h lock hmem)

/-! ## Paths -/

/-- A task with these locks may do this: locks are released in the opposite order, and
all of them at the end. -/
def Ordered : List LockId → List Action → Prop
  | held, [] => held = []
  | held, .acquire lock _ :: rest => Above held lock.rank ∧ Ordered (lock :: held) rest
  | held, .release lock :: rest => ∃ others, held = lock :: others ∧ Ordered others rest
  | held, .call :: rest => Ordered held rest
  | held, .applied _ :: rest => Ordered held rest
  | held, .submit :: rest => Above held replyRank ∧ Ordered held rest
  | held, .collect :: rest => Above held replyRank ∧ Ordered held rest
  | held, .awaitReply :: rest => Above held replyRank ∧ Ordered held rest

def Prog.Ordered : List LockId → Prog → Prop
  | _, skip => True
  | _, call => True
  | held, submit => Above held replyRank
  | held, seq p q => Ordered held p ∧ Ordered held q
  | held, choice p q => Ordered held p ∧ Ordered held q
  | held, locked lock _ p => Above held lock.rank ∧ Ordered (lock :: held) p
  | held, thenAlways p q => Ordered held p ∧ Ordered held q

variable {p : Prog} {ok : Bool} {script : List Action}

theorem Path.ordered (h : Path p ok script) {rest : List Action} (hp : p.Ordered held)
    (hrest : Ordered held rest) :
    Ordered held (script ++ rest) := by
  induction h generalizing held rest with
  | skip | call => exact hrest
  | submit => exact ⟨hp, hrest⟩
  | stop _ ih | left _ ih => exact ih hp.1 hrest
  | seq _ _ ih ih' | thenAlways _ _ ih ih' =>
    rw [append_assoc]
    exact ih hp.1 (ih' hp.2 hrest)
  | right _ ih => exact ih hp.2 hrest
  | locked _ ih =>
    simp only [cons_append, append_assoc]
    exact ⟨hp.1, ih hp.2 ⟨held, rfl, hrest⟩⟩

/-! ## Operations -/

section Operations

open Prog

variable {held : List LockId}

theorem renewLease_ordered (h : Above held 5) : renewLease.Ordered held := ⟨h, trivial⟩

theorem publishNamespace_ordered (h : Above held 5) : publishNamespace.Ordered held :=
  ⟨trivial, ⟨trivial, renewLease_ordered h⟩, renewLease_ordered h, trivial⟩

theorem applyMutationBatch_ordered (h : Above held 5) : applyMutationBatch.Ordered held :=
  ⟨renewLease_ordered h, trivial, trivial, publishNamespace_ordered h⟩

theorem Above.gate (h : Above held 4) : Above (.gate :: held) 5 := by
  intro lock hmem
  rcases mem_cons.mp hmem with rfl | hmem
  · decide
  · exact Nat.lt_succ_of_lt (h lock hmem)

theorem mutate_ordered (h : Above held 4) : mutate.Ordered held :=
  ⟨h, applyMutationBatch_ordered h.gate⟩

theorem gated_renewLease_ordered (h : Above held 4) : (gated (seq renewLease call)).Ordered held :=
  ⟨h, renewLease_ordered h.gate, trivial⟩

theorem Above.cons {lock : LockId} {rank : ℕ} (hlock : lock.rank < rank)
    (h : Above held lock.rank) : Above (lock :: held) rank := by
  intro other hmem
  rcases mem_cons.mp hmem with rfl | hmem
  · exact hlock
  · exact Nat.lt_trans (h other hmem) hlock

theorem readAt_ordered (h : Above held 1) : readAt.Ordered held := by
  have hgate : Above (.lifecycle :: held) 4 := .cons (by decide) h
  exact ⟨h, gated_renewLease_ordered hgate, trivial, gated_renewLease_ordered hgate⟩

theorem writeAt_ordered (h : Above held 1) : writeAt.Ordered held := by
  have hgate : Above (.lifecycle :: held) 4 := .cons (by decide) h
  exact ⟨h, gated_renewLease_ordered hgate, trivial, trivial, mutate_ordered hgate, trivial,
    mutate_ordered hgate⟩

theorem closeHandle_ordered (handle : LockId) (hhandle : handle.rank < 4)
    (h : Above held handle.rank) : (closeHandle handle).Ordered held := by
  have hgate : Above (handle :: held) 4 := .cons hhandle h
  exact ⟨h, hgate, trivial, renewLease_ordered hgate.gate, trivial,
    publishNamespace_ordered hgate.gate⟩

theorem shutdown_ordered (h : Above held 1) : shutdown.Ordered held := by
  have hgate : Above (.lifecycle :: held) 4 := .cons (by decide) h
  have hpublish := publishNamespace_ordered hgate.gate
  have hrenew := renewLease_ordered hgate.gate
  exact ⟨h, hgate, ⟨trivial, ⟨trivial, hpublish⟩, trivial, hrenew, hpublish⟩,
    ⟨trivial, hrenew⟩, trivial, trivial⟩

theorem reconcileBlocks_ordered (h : Above held 1) : reconcileBlocks.Ordered held := by
  have hgate : Above (.lifecycle :: held) 4 := .cons (by decide) h
  exact ⟨h, hgate, renewLease_ordered hgate.gate,
    ⟨trivial, publishNamespace_ordered hgate.gate⟩, trivial⟩

theorem writeFileAtomic_ordered (task : ℕ) {fallback : Option ℕ}
    (h : (Op.writeFile fallback).reenters = false) : (writeFileAtomic task fallback).Ordered [] := by
  have hlifecycle : ∀ {rank}, 1 < rank → Above [.lifecycle] rank := fun hrank =>
    .cons hrank (.nil _)
  refine ⟨.nil _, renewLease_ordered (hlifecycle (by decide)), trivial,
    hlifecycle (by decide), ?_⟩
  match fallback with
  | none => trivial
  | some 0 =>
    exact ⟨mutate_ordered (hlifecycle (by decide)), trivial,
      closeHandle_ordered (.scratch task) (by decide : 2 < 4) (hlifecycle (by decide : 1 < 2))⟩
  | some (_ + 1) => cases h

theorem op_ordered (task : ℕ) (op : Op) (h : op.reenters = false) : (op.prog task).Ordered [] := by
  have hhandle : ∀ number, Above [.handle number] 1 := fun number =>
    Above.cons Nat.zero_lt_one (Above.nil _)
  cases op with
  | writeFile => exact writeFileAtomic_ordered task h
  | read handle => exact ⟨.nil _, readAt_ordered (hhandle handle)⟩
  | write handle => exact ⟨.nil _, writeAt_ordered (hhandle handle)⟩
  | truncate => exact mutate_ordered (.nil _)
  | truncateHandle =>
    exact ⟨Above.nil _, mutate_ordered (Above.cons (Nat.zero_lt_succ 3) (Above.nil _))⟩
  | close handle => exact closeHandle_ordered (.handle handle) (Nat.zero_lt_succ 3) (Above.nil _)
  | shutdown => exact shutdown_ordered (.nil _)
  | reconcileBlocks => exact reconcileBlocks_ordered (.nil _)

end Operations

/-! ## What a path does not contain -/

/-- The task has no part in running batches. -/
def Settled (todo : List Action) : Prop :=
  Action.collect ∉ todo ∧ ∀ batch, Action.applied batch ∉ todo

/-- The actions of an operation before it runs. -/
def Action.Initial : Action → Prop
  | collect => False
  | applied _ => False
  | awaitReply => False
  | _ => True

/-- What a batch does under the gate. -/
def Action.Inner : Action → Prop
  | acquire lock _ => replyRank < lock.rank
  | release _ => True
  | call => True
  | _ => False

theorem Path.initial (h : Path p ok script) : ∀ a ∈ script, a.Initial := by
  induction h with
  | skip => simp
  | call | submit => simp [Action.Initial]
  | stop _ ih | left _ ih | right _ ih => exact ih
  | seq _ _ ih ih' | thenAlways _ _ ih ih' => exact forall_mem_append.mpr ⟨ih, ih'⟩
  | locked _ ih =>
    refine forall_mem_append.mpr ⟨forall_mem_cons.mpr ⟨trivial, ih⟩, ?_⟩
    simp [Action.Initial]

theorem settled_of_initial (h : ∀ a ∈ script, a.Initial) :
    Settled script := ⟨fun hmem => h _ hmem, fun _ hmem => h _ hmem⟩

/-- A program that only takes locks above the replies and does not wait for one. -/
def Prog.Inner : Prog → Prop
  | skip => True
  | call => True
  | submit => False
  | seq p q => p.Inner ∧ q.Inner
  | choice p q => p.Inner ∧ q.Inner
  | locked lock _ p => replyRank < lock.rank ∧ p.Inner
  | thenAlways p q => p.Inner ∧ q.Inner

theorem Path.inner (h : Path p ok script) (hp : p.Inner) : ∀ a ∈ script, a.Inner := by
  induction h with
  | skip => simp
  | call => simp [Action.Inner]
  | submit => exact hp.elim
  | stop _ ih | left _ ih => exact ih hp.1
  | right _ ih => exact ih hp.2
  | seq _ _ ih ih' | thenAlways _ _ ih ih' => exact forall_mem_append.mpr ⟨ih hp.1, ih' hp.2⟩
  | locked _ ih =>
    refine forall_mem_append.mpr ⟨forall_mem_cons.mpr ⟨hp.1, ih hp.2⟩, ?_⟩
    simp [Action.Inner]

theorem applyMutationBatch_inner : Prog.applyMutationBatch.Inner := by
  simp [Prog.applyMutationBatch, Prog.publishNamespace, Prog.renewLease, Prog.Inner, LockId.rank,
    replyRank]

end MountRs.Locking
