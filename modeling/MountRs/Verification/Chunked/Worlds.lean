import MountRs.Model.Chunked.Calls

/-! # Updates of the world

What each update changes and what it leaves alone. -/

namespace MountRs.Chunked

namespace World

variable (world : World) (fs : ℕ)

/-! ## One coordinator -/

@[simp] theorem setFs_same (c : Coordinator) : (world.setFs fs c).fs fs = c :=
  Function.update_self ..

variable {other : ℕ}

theorem setFs_other (c : Coordinator) (h : other ≠ fs) :
    (world.setFs fs c).fs other = world.fs other := Function.update_of_ne h ..

theorem setFs_fs (c : Coordinator) (other : ℕ) :
    (world.setFs fs c).fs other = if other = fs then c else world.fs other := by
  split_ifs with h
  · rw [h, setFs_same]
  · exact setFs_other world fs c h

@[simp] theorem setFs_self : world.setFs fs (world.fs fs) = world := by
  simp [setFs]

@[simp] theorem setState_same (state : RuntimeState) :
    (world.setState fs state).fs fs = { world.fs fs with state } := setFs_same ..

theorem setState_other (state : RuntimeState) (h : other ≠ fs) :
    (world.setState fs state).fs other = world.fs other := setFs_other _ _ _ h

@[simp] theorem setState_self : world.setState fs (world.fs fs).state = world :=
  setFs_self world fs

end World

/-! ## Sections -/

theorem snapshot_ok {state : RuntimeState} {ns : Namespace} {revision : ℕ}
    (h : state.snapshot = .ok (ns, revision)) :
    state.usable = .ok () ∧ ns = state.foldAtime (state.foldSelected state.ns) ∧
      revision = state.revision := by
  simp only [RuntimeState.snapshot, Except.bind_eq_ok, Except.pure_eq_ok, Prod.mk.injEq] at h
  obtain ⟨_, husable, rfl, rfl⟩ := h
  exact ⟨husable, rfl, rfl⟩

end MountRs.Chunked
