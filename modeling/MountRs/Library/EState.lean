import Mathlib.Tactic

/-! # Results of edits

Inversion of computations that change a state and may fail half way. -/

namespace MountRs

variable {ε σ α β : Type}

theorem estate_bind_eq_ok {m : EStateM ε σ α} {f : α → EStateM ε σ β} {s t : σ} {b : β} :
    (m >>= f).run s = .ok b t ↔ ∃ a u, m.run s = .ok a u ∧ (f a).run u = .ok b t := by
  change EStateM.bind m f s = .ok b t ↔ _
  unfold EStateM.bind EStateM.run
  cases m s with
  | ok | error => simp

theorem estate_pure_eq_ok {s t : σ} {a b : α} :
    (pure a : EStateM ε σ α).run s = .ok b t ↔ a = b ∧ s = t := by
  change EStateM.Result.ok a s = .ok b t ↔ _
  simp

end MountRs
