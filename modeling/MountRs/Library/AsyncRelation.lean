import MountRs.Library.Async
import MountRs.Library.Except

/-! # Programs that do the same -/

namespace MountRs.Async

variable {σ ω ε α β : Type} {R : ε → ε → Prop} {P : α → Prop} {Q : β → Prop}

/-- Two programs that take the same steps and end alike. -/
inductive Alike (R : ε → ε → Prop) (P : α → Prop) : Async σ ω ε α → Async σ ω ε α → Prop
  | ok {a : α} : P a → Alike R P (done (.ok a)) (done (.ok a))
  | error {e e' : ε} : R e e' → Alike R P (done (.error e)) (done (.error e'))
  | step {ready act drop} {next next' : ω → σ → Async σ ω ε α} :
    (∀ w s, Alike R P (next w s) (next' w s)) →
      Alike R P (step ready act next drop) (step ready act next' drop)
  | halted : Alike R P halted halted

namespace Alike

variable {p q : Async σ ω ε α}

theorem bind {f g : α → Async σ ω ε β} (h : Alike R P p q)
    (hf : ∀ a, P a → Alike R Q (f a) (g a)) : Alike R Q (p >>= f) (q >>= g) := by
  induction h with
  | ok ha => exact hf _ ha
  | error he => exact .error he
  | step _ ih => exact .step ih
  | halted => exact .halted

theorem okOr {o : Option α} {e e' : ε} (he : R e e') (hP : ∀ a, o = some a → P a) :
    Alike R P (liftM (Except.okOr o e) : Async σ ω ε α) (liftM (Except.okOr o e')) := by
  cases o with
  | none => exact .error he
  | some a => exact .ok (hP a rfl)

/-- One program with its errors in two contexts. -/
theorem orElse {c c' : ε → ε} (h : ∀ e, R (c e) (c' e)) (p : Async σ ω ε α) :
    Alike R (fun _ => True) (p.orElse fun e => fail (c e)) (p.orElse fun e => fail (c' e)) := by
  induction p with
  | done result =>
    cases result with
    | ok a => exact .ok trivial
    | error e => exact .error (h e)
  | step _ _ _ _ ih => exact .step ih
  | halted => exact .halted

theorem foldlM {f g : β → α → Async σ ω ε β} {l : List α} {b : β}
    (h : ∀ b, Q b → ∀ a, Alike R Q (f b a) (g b a)) (hb : Q b) :
    Alike R Q (l.foldlM f b) (l.foldlM g b) := by
  induction l generalizing b with
  | nil => exact .ok hb
  | cons a l ih =>
    rw [List.foldlM_cons, List.foldlM_cons]
    exact (h b hb a).bind fun b hb => ih hb

end Alike

theorem okOr_eq_error {o : Option α} {e e' : ε}
    (h : (liftM (Except.okOr o e) : Async σ ω ε α) = .done (.error e')) : e' = e := by
  cases o <;> cases h
  rfl

theorem bind_eq_error {p : Async σ ω ε α} {f : α → Async σ ω ε β} {e : ε}
    (h : p >>= f = .done (.error e)) :
    p = .done (.error e) ∨ ∃ a, p = .done (.ok a) ∧ f a = .done (.error e) := by
  cases p with
  | done result =>
    cases result with
    | ok a => exact .inr ⟨a, rfl, h⟩
    | error e' =>
      cases h
      exact .inl rfl
  | step | halted => cases h

end MountRs.Async
