import Mathlib.Tactic

/-! # Early returns

Guards and lookups that end a computation with an error, and what a successful
run through them says. -/

namespace Except

open List

universe u v

variable {ε : Type v} {α β σ : Type u}

/-- `if c { return Err(e) }`. -/
def failIf (c : Prop) [Decidable c] (e : ε) : Except ε Unit := if c then .error e else .ok ()

/-- `o.ok_or_else(|| e)?`. -/
def okOr (o : Option α) (e : ε) : Except ε α :=
  match o with
  | some a => .ok a
  | none => .error e

@[simp] theorem failIf_eq_ok {c : Prop} [Decidable c] {e : ε} {u : Unit} :
    failIf c e = .ok u ↔ ¬ c := by
  unfold failIf
  split_ifs with h <;> simp [h]

@[simp] theorem okOr_eq_ok {o : Option α} {e : ε} {a : α} : okOr o e = .ok a ↔ o = some a := by
  cases o <;> simp [okOr]

@[simp] theorem okOr_eq_error {o : Option α} {e e' : ε} :
    okOr o e = .error e' ↔ o = none ∧ e = e' := by
  cases o <;> simp [okOr]

theorem bind_eq_ok {x : Except ε α} {f : α → Except ε β} {b : β} :
    x >>= f = .ok b ↔ ∃ a, x = .ok a ∧ f a = .ok b := by
  cases x <;> simp [bind, Except.bind]

theorem pure_eq_ok {a b : α} : (pure a : Except ε α) = .ok b ↔ a = b := by
  simp [pure, Except.pure]

theorem map_eq_ok {x : Except ε α} {f : α → β} {b : β} :
    x.map f = .ok b ↔ ∃ a, x = .ok a ∧ f a = b := by
  cases x <;> simp [Except.map]

@[simp] theorem ok_bind (a : α) (f : α → Except ε β) : (Except.ok a : Except ε α) >>= f = f a := rfl

@[simp] theorem error_bind (e : ε) (f : α → Except ε β) :
    (Except.error e : Except ε α) >>= f = .error e := rfl

/-- A loop of checks succeeds when every check does. -/
theorem forM_eq_ok {f : α → Except ε PUnit} {l : List α} {u : PUnit} :
    forM l f = .ok u ↔ ∀ a ∈ l, f a = .ok ⟨⟩ := by
  induction l with
  | nil => simp [pure, Except.pure]
  | cons a l ih =>
    rw [forM_cons, bind_eq_ok]
    simp only [ih, mem_cons, forall_eq_or_imp]
    constructor
    · rintro ⟨⟨⟩, ha, hl⟩
      exact ⟨ha, hl⟩
    · rintro ⟨ha, hl⟩
      exact ⟨⟨⟩, ha, hl⟩

variable {f : σ → α → Except ε σ} (I : List α → σ → Prop)

/-- An invariant kept by every successful iteration holds after the loop; it may
mention the elements that were processed so far. -/
theorem foldlM_invariant (hstep : ∀ done s a s', I done s → f s a = .ok s' → I (done ++ [a]) s') :
    ∀ (l done : List α) (s s' : σ), I done s → l.foldlM f s = .ok s' → I (done ++ l) s' := by
  intro l
  induction l with
  | nil =>
    intro done s s' hI h
    rw [foldlM_nil, pure_eq_ok] at h
    subst h
    simpa using hI
  | cons a l ih =>
    intro done s s' hI h
    rw [foldlM_cons, bind_eq_ok] at h
    obtain ⟨t, ht, hrest⟩ := h
    simpa using ih (done ++ [a]) t s' (hstep done s a t hI ht) hrest

theorem foldlM_prefix {l : List α}
    (hstep : ∀ done s a s', done ++ [a] <+: l → I done s → f s a = .ok s' → I (done ++ [a]) s')
    {s s' : σ} (hs : I [] s) (h : l.foldlM f s = .ok s') : I l s' := by
  have hinv := foldlM_invariant (fun done s => done <+: l → I done s) ?_ l [] s s' (fun _ => hs) h
  · exact hinv (by simp)
  · intro done s a s' hI hf hinit
    exact hstep done s a s' hinit (hI ((prefix_append done [a]).trans hinit)) hf

/-- A loop in which no iteration fails succeeds. -/
theorem foldlM_exists {l : List α}
    (hstep : ∀ done s a, done ++ [a] <+: l → I done s → ∃ s', f s a = .ok s' ∧ I (done ++ [a]) s')
    {s : σ} (hs : I [] s) : ∃ s', l.foldlM f s = .ok s' := by
  suffices hall : ∀ (rest done : List α) (s : σ), done ++ rest = l → I done s →
      ∃ s', rest.foldlM f s = .ok s' from hall l [] s rfl hs
  intro rest
  induction rest with
  | nil => exact fun done s _ _ => ⟨s, rfl⟩
  | cons a rest ih =>
    intro done s hl hI
    obtain ⟨t, ht, hI'⟩ := hstep done s a ⟨rest, by simpa using hl⟩ hI
    obtain ⟨s', hs'⟩ := ih (done ++ [a]) t (by simpa using hl) hI'
    exact ⟨s', by rw [foldlM_cons, ht]; exact hs'⟩

end Except
