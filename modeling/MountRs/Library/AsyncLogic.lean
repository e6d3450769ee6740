import MountRs.Library.Async

/-! # Invariants of cooperative tasks

A discipline names what holds of the shared state between any two steps, what
every step may do at most, and what each task may rely on while it waits. The
weakest precondition of a program charges every step with the invariant, the
global order and the reliance of the other tasks; the pool theorem composes it
over all tasks and schedules. -/

namespace MountRs

open Async List

structure Discipline (σ : Type) where
  inv : σ → Prop
  /-- What relates the states before and after any part of a run. -/
  mono : σ → σ → Prop
  /-- What a task may rely on between its own steps. -/
  rely : ℕ → σ → σ → Prop
  /-- What holds of a task number that is not in use. -/
  fresh : ℕ → σ → Prop
  /-- Whether tasks may be dropped. -/
  cancels : Prop
  mono_refl : ∀ s, mono s s
  mono_trans : ∀ {s t u}, mono s t → mono t u → mono s u
  rely_refl : ∀ i s, rely i s s
  rely_trans : ∀ {i s t u}, rely i s t → rely i t u → rely i s u
  fresh_stable : ∀ {i s t}, fresh i s → rely i s t → fresh i t

namespace Discipline

variable {σ ω ε α β κ η : Type} (D : Discipline σ)

/-- A step of a task: the invariant is kept and every other task is respected. -/
structure Move (i : ℕ) (s t : σ) : Prop where
  inv : D.inv t
  mono : D.mono s t
  respects : ∀ j, j ≠ i → D.rely j s t

variable {D}

theorem Move.refl {i : ℕ} {s : σ} (h : D.inv s) : D.Move i s s :=
  ⟨h, D.mono_refl s, fun j _ => D.rely_refl j s⟩

theorem Move.trans {i : ℕ} {s t u : σ} (h : D.Move i s t) (h' : D.Move i t u) : D.Move i s u :=
  ⟨h'.inv, D.mono_trans h.mono h'.mono,
    fun j hj => D.rely_trans (h.respects j hj) (h'.respects j hj)⟩

variable (D)

/-- The program may run from the state as task `i`, ends in `Q`, and leaves `R` behind
where it is dropped. -/
def wp (i : ℕ) : Async σ ω ε α → (Except ε α → σ → Prop) → (σ → Prop) → σ → Prop
  | .done result, Q, _, s => Q result s
  | .step ready act next drop, Q, R, s => ∀ t, D.rely i s t → D.inv t →
      (ready t = true → ∀ w, D.Move i t (act w t) ∧ wp i (next w t) Q R (act w t)) ∧
        (D.cancels → D.Move i t (drop t) ∧ R (drop t))
  | .halted, _, _, _ => True

variable {D} {i : ℕ} {Q : Except ε α → σ → Prop} {R : σ → Prop} {s : σ}

/-! ## Rules -/

variable {a : α}

@[simp] theorem wp_pure :
    D.wp i (pure a : Async σ ω ε α) Q R s ↔ Q (.ok a) s := .rfl

@[simp] theorem wp_fail {e : ε} :
    D.wp i (fail e : Async σ ω ε α) Q R s ↔ Q (.error e) s := .rfl

variable {p : Async σ ω ε α} {result : Except ε α}

@[simp] theorem wp_lift :
    D.wp i (liftM result : Async σ ω ε α) Q R s ↔ Q result s := .rfl

@[simp] theorem wp_halted : D.wp i (.halted : Async σ ω ε α) Q R s := trivial

theorem wp_mono {Q' : Except ε α → σ → Prop} {R' : σ → Prop}
    (h : D.wp i p Q R s) (hQ : ∀ result t, Q result t → Q' result t) (hR : ∀ t, R t → R' t) :
    D.wp i p Q' R' s := by
  induction p generalizing s with
  | done result => exact hQ result s h
  | halted => trivial
  | step _ _ _ _ ih =>
    intro t hrely hinv
    obtain ⟨hrun, hdrop⟩ := h t hrely hinv
    refine ⟨fun hready w => ?_, fun hc => ?_⟩
    · obtain ⟨hmove, hnext⟩ := hrun hready w
      exact ⟨hmove, ih w t hnext⟩
    · exact ⟨(hdrop hc).1, hR _ (hdrop hc).2⟩

/-- Run a program and go on with its result. -/
theorem wp_bind {f : α → Async σ ω ε β} {Q' : Except ε β → σ → Prop}
    (h : D.wp i p Q R s) (hok : ∀ a t, Q (.ok a) t → D.wp i (f a) Q' R t)
    (herror : ∀ e t, Q (.error e) t → Q' (.error e) t) : D.wp i (p >>= f) Q' R s := by
  induction p generalizing s with
  | done result =>
    cases result with
    | ok a => exact hok a s h
    | error e => exact herror e s h
  | halted => trivial
  | step _ _ _ _ ih =>
    intro t hrely hinv
    obtain ⟨hrun, hdrop⟩ := h t hrely hinv
    refine ⟨fun hready w => ?_, hdrop⟩
    obtain ⟨hmove, hnext⟩ := hrun hready w
    exact ⟨hmove, ih w t hnext⟩

/-- Go on with the result of a synchronous call. -/
theorem wp_lift_bind {f : α → Async σ ω ε β} {Q' : Except ε β → σ → Prop}
    (hok : ∀ a, result = .ok a → D.wp i (f a) Q' R s)
    (herror : ∀ e, result = .error e → Q' (.error e) s) :
    D.wp i ((liftM result : Async σ ω ε α) >>= f) Q' R s := by
  cases result with
  | ok a => exact hok a rfl
  | error e => exact herror e rfl

theorem wp_attempt {Q : Except ε (Except ε α) → σ → Prop}
    (h : D.wp i p (fun result t => Q (.ok result) t) R s) : D.wp i p.attempt Q R s := by
  induction p generalizing s with
  | done => exact h
  | halted => trivial
  | step _ _ _ _ ih =>
    intro t hrely hinv
    obtain ⟨hrun, hdrop⟩ := h t hrely hinv
    refine ⟨fun hready w => ?_, hdrop⟩
    obtain ⟨hmove, hnext⟩ := hrun hready w
    exact ⟨hmove, ih w t hnext⟩

/-- Go on with the outcome of a program, whatever it is. -/
theorem wp_attempt_bind {f : Except ε α → Async σ ω ε β}
    {Q' : Except ε β → σ → Prop} (h : D.wp i p Q R s)
    (hnext : ∀ result t, Q result t → D.wp i (f result) Q' R t) :
    D.wp i (p.attempt >>= f) Q' R s := by
  have hattempt : D.wp i p.attempt (fun result t => match result with
      | .ok inner => Q inner t
      | .error _ => False) R s := wp_attempt h
  exact wp_bind hattempt hnext fun _ _ hfalse => hfalse.elim

variable {handler : ε → Async σ ω ε α}

theorem wp_orElse {Q' : Except ε α → σ → Prop}
    (h : D.wp i p Q R s) (hok : ∀ a t, Q (.ok a) t → Q' (.ok a) t)
    (herror : ∀ e t, Q (.error e) t → D.wp i (handler e) Q' R t) :
    D.wp i (p.orElse handler) Q' R s := by
  refine wp_attempt_bind h ?_
  intro result t ht
  cases result with
  | ok a => exact hok a t ht
  | error e => exact herror e t ht

variable {f : ω → σ → Except ε α × σ}

/-- A step, taken in any state the others may have led to. -/
theorem wp_await {ready : σ → Bool}
    (h : ∀ t, D.rely i s t → D.inv t → ready t = true → ∀ w,
      D.Move i t (f w t).2 ∧ Q (f w t).1 (f w t).2)
    (hdrop : ∀ t, D.rely i s t → D.inv t → R t) : D.wp i (await ready f) Q R s := by
  intro t hrely hinv
  refine ⟨fun hready w => h t hrely hinv hready w, fun _ => ⟨.refl hinv, hdrop t hrely hinv⟩⟩

theorem wp_atomic
    (h : ∀ t, D.rely i s t → D.inv t → ∀ w, D.Move i t (f w t).2 ∧ Q (f w t).1 (f w t).2)
    (hdrop : ∀ t, D.rely i s t → D.inv t → R t) : D.wp i (atomic f) Q R s :=
  wp_await (fun t hrely hinv _ w => h t hrely hinv w) hdrop

theorem wp_commit {f : σ → α × σ} {dropped : α → σ → σ}
    (h : ∀ t, D.rely i s t → D.inv t → D.Move i t (f t).2 ∧ Q (.ok (f t).1) (f t).2)
    (hdrop : ∀ t, D.rely i s t → D.inv t →
      D.Move i t (dropped (f t).1 (f t).2) ∧ R (dropped (f t).1 (f t).2)) :
    D.wp i (commit f dropped : Async σ ω ε α) Q R s :=
  fun t hrely hinv => ⟨fun _ _ => h t hrely hinv, fun _ => hdrop t hrely hinv⟩

/-- A destructor runs on what the inner scopes left behind. -/
theorem wp_onDrop {cleanup : σ → σ} {R' : σ → Prop} (h : D.wp i p Q R s)
    (hcleanup : D.cancels → ∀ t, D.inv t → R t → D.Move i t (cleanup t) ∧ R' (cleanup t)) :
    D.wp i (p.onDrop cleanup) Q R' s := by
  induction p generalizing s with
  | done => exact h
  | halted => trivial
  | step _ _ _ _ ih =>
    intro t hrely hinv
    obtain ⟨hrun, hdrop⟩ := h t hrely hinv
    refine ⟨fun hready w => ?_, fun hc => ?_⟩
    · obtain ⟨hmove, hnext⟩ := hrun hready w
      exact ⟨hmove, ih w t hnext⟩
    · obtain ⟨hmove, hR⟩ := hdrop hc
      obtain ⟨hmove', hR'⟩ := hcleanup hc _ hmove.inv hR
      exact ⟨hmove.trans hmove', hR'⟩

/-- A program under a lock: `Q` and `R` say what it ends with while it holds the lock. -/
theorem wp_withLock {free : σ → Bool} {lock unlock : σ → σ}
    {Q' : Except ε α → σ → Prop} {R' : σ → Prop}
    (hlock : ∀ t, D.rely i s t → D.inv t → free t = true →
      D.Move i t (lock t) ∧ D.wp i p Q R (lock t))
    (hunlock : ∀ result t u, Q result t → D.rely i t u → D.inv u →
      D.Move i u (unlock u) ∧ Q' result (unlock u) ∧ R' (unlock u))
    (hwait : ∀ t, D.rely i s t → D.inv t → R' t)
    (hdrop : ∀ t, D.inv t → R t → D.Move i t (unlock t) ∧ R' (unlock t)) :
    D.wp i (withLock free lock unlock p) Q' R' s := by
  refine wp_bind (wp_await (Q := fun result t => result = .ok () ∧ D.wp i p Q R t) ?_ hwait) ?_ ?_
  · intro t hrely hinv hfree w
    obtain ⟨hmove, hp⟩ := hlock t hrely hinv hfree
    exact ⟨hmove, rfl, hp⟩
  · intro _ t ht
    -- Dropped while it holds the lock, the program leaves `R` or is about to unlock.
    have hattempt : D.wp i p.attempt (fun result u => match result with
        | .ok inner => Q inner u
        | .error _ => False) (fun u => R u ∨ ∃ result v, Q result v ∧ D.rely i v u) t :=
      wp_attempt (wp_mono ht.2 (fun _ _ h => h) (fun _ hu => .inl hu))
    have hbody : D.wp i (do
        let result ← p.attempt
        atomic fun (_ : ω) s => (.ok result, unlock s))
        (fun result u => match result with
          | .ok inner => Q' inner u
          | .error _ => False)
        (fun u => R u ∨ ∃ result v, Q result v ∧ D.rely i v u) t := by
      refine wp_bind hattempt ?_ fun _ _ hfalse => hfalse.elim
      intro result u hu
      refine wp_atomic (fun v hrely hinv _ => ?_) fun v hrely _ => .inr ⟨result, u, hu, hrely⟩
      obtain ⟨hmove, hQ, -⟩ := hunlock result u v hu hrely hinv
      exact ⟨hmove, hQ⟩
    refine wp_bind (wp_onDrop hbody ?_) ?_ fun _ _ hfalse => hfalse.elim
    · intro hc u hinv hu
      rcases hu with hR | ⟨result, v, hQ, hrely⟩
      · exact hdrop u hinv hR
      · obtain ⟨hmove, -, hR'⟩ := hunlock result v u hQ hrely hinv
        exact ⟨hmove, hR'⟩
    · intro result u hu
      cases result with
      | ok | error => exact hu
  · intro e t ht
    cases ht.1

/-- What neither the program nor the other tasks can undo still holds at the end. -/
theorem wp_frame {P : σ → Prop} (hrely : ∀ {s t}, D.rely i s t → D.inv t → P s → P t)
    (hmove : ∀ {s t}, D.Move i s t → P s → P t) (h : D.wp i p Q R s)
    (hP : P s) : D.wp i p (fun result t => Q result t ∧ P t) R s := by
  induction p generalizing s with
  | done => exact ⟨h, hP⟩
  | halted => trivial
  | step _ _ _ _ ih =>
    intro t hst hinv
    obtain ⟨hrun, hdrop⟩ := h t hst hinv
    refine ⟨fun hready w => ?_, hdrop⟩
    obtain ⟨hstep, hnext⟩ := hrun hready w
    exact ⟨hstep, ih w t hnext (hmove hstep (hrely hst hinv hP))⟩

/-! ## Programs that only observe

A program whose steps leave the state alone needs no invariant of its own; what it
returns may depend on what holds of every state it can see. -/

/-- No step changes the state, and results that come from states in `S` satisfy `P`. -/
def Observes (S : σ → Prop) : Async σ ω ε α → (α → Prop) → Prop
  | .done result, P => ∀ a, result = .ok a → P a
  | .step _ act next drop, P => (∀ w s, act w s = s) ∧ (∀ s, drop s = s) ∧
      ∀ w s, S s → Observes S (next w s) P
  | .halted, _ => True

section Observes

variable {S : σ → Prop} {P : α → Prop} {p : Async σ ω ε α}

@[simp] theorem observes_done :
    Observes S (.done result : Async σ ω ε α) P ↔ ∀ a, result = .ok a → P a := .rfl

@[simp] theorem observes_pure : Observes S (pure a : Async σ ω ε α) P ↔ P a := by
  simp [pure]

@[simp] theorem observes_lift :
    Observes S (liftM result : Async σ ω ε α) P ↔ ∀ a, result = .ok a → P a := .rfl

@[simp] theorem observes_fail {e : ε} : Observes S (fail e : Async σ ω ε α) P := by
  simp [fail]

@[simp] theorem observes_halted : Observes S (.halted : Async σ ω ε α) P := trivial

theorem observes_atomic (hsame : ∀ w s, (f w s).2 = s)
    (hresult : ∀ w s, S s → ∀ a, (f w s).1 = .ok a → P a) : Observes S (atomic f) P :=
  ⟨hsame, fun _ => rfl, hresult⟩

section

variable (h : Observes S p P)
include h

theorem observes_bind {P' : β → Prop} {f : α → Async σ ω ε β}
    (hf : ∀ a, P a → Observes S (f a) P') : Observes S (p >>= f) P' := by
  induction p with
  | done result =>
    cases result with
    | ok a => exact hf a (h a rfl)
    | error e =>
      intro b hb
      cases hb
  | halted => trivial
  | step _ _ _ _ ih =>
    obtain ⟨hact, hdrop, hnext⟩ := h
    exact ⟨hact, hdrop, fun w s hs => ih w s (hnext w s hs)⟩

theorem observes_mono {P' : α → Prop} (himp : ∀ a, P a → P' a) : Observes S p P' := by
  induction p with
  | done => exact fun a ha => himp a (h a ha)
  | halted => trivial
  | step _ _ _ _ ih =>
    obtain ⟨hact, hdrop, hnext⟩ := h
    exact ⟨hact, hdrop, fun w s hs => ih w s (hnext w s hs)⟩

theorem observes_attempt : Observes S p.attempt fun result => ∀ a, result = .ok a → P a := by
  induction p with
  | done =>
    intro inner hinner a ha
    cases hinner
    exact h a ha
  | halted => trivial
  | step _ _ _ _ ih =>
    obtain ⟨hact, hdrop, hnext⟩ := h
    exact ⟨hact, hdrop, fun w s hs => ih w s (hnext w s hs)⟩

theorem observes_orElse
    (hhandler : ∀ e, Observes S (handler e) P) : Observes S (p.orElse handler) P := by
  refine observes_bind (observes_attempt h) ?_
  intro result hresult
  cases result with
  | ok a => exact observes_pure.mpr (hresult a rfl)
  | error e => exact hhandler e

end

theorem observes_lift_bind {P' : β → Prop} {f : α → Async σ ω ε β}
    (hf : ∀ a, result = .ok a → Observes S (f a) P') :
    Observes S ((liftM result : Async σ ω ε α) >>= f) P' :=
  observes_bind (observes_lift.mpr fun _ ha => ha) hf

/-- An invariant kept by every iteration over a list holds after the loop. -/
theorem observes_foldlM {γ : Type} {l : List γ} {I : List γ → α → Prop} {f : α → γ → Async σ ω ε α}
    (hstep : ∀ visited a c, visited ++ [c] <+: l → I visited a →
      Observes S (f a c) (I (visited ++ [c]))) (ha : I [] a) :
    Observes S (l.foldlM f a) (I l) := by
  suffices hall : ∀ (rest visited : List γ) (a : α), visited ++ rest = l → I visited a →
      Observes S (rest.foldlM f a) (I l) from hall l [] a rfl ha
  intro rest
  induction rest with
  | nil =>
    intro visited a hl ha
    rw [append_nil] at hl
    subst hl
    exact observes_pure.mpr ha
  | cons c rest ih =>
    intro visited a hl ha
    have hl' : visited ++ [c] ++ rest = l := by simpa using hl
    rw [foldlM_cons]
    refine observes_bind (hstep visited a c ⟨rest, hl'⟩ ha) ?_
    intro b hb
    exact ih (visited ++ [c]) b hl' hb

/-- From states in `S` and with answers in `W` such a program is never stuck, and it ends
with a value in `P`. -/
def Delivers (W : ω → Prop) (S : σ → Prop) : Async σ ω ε α → (α → Prop) → Prop
  | .done result, P => ∃ a, result = .ok a ∧ P a
  | .step ready _ next _, P => ∀ w s, W w → S s → ready s = true ∧ Delivers W S (next w s) P
  | .halted, _ => False

variable {W : ω → Prop}

@[simp] theorem delivers_pure : Delivers W S (pure a : Async σ ω ε α) P ↔ P a := by
  simp [pure, Delivers]

theorem delivers_lift_bind {P' : β → Prop} {f : α → Async σ ω ε β} (h : result = .ok a)
    (hf : Delivers W S (f a) P') : Delivers W S ((liftM result : Async σ ω ε α) >>= f) P' :=
  h ▸ hf

theorem delivers_atomic
    (h : ∀ w s, W w → S s → ∃ a, (f w s).1 = .ok a ∧ P a) : Delivers W S (atomic f) P :=
  fun w s hw hs => ⟨rfl, h w s hw hs⟩

theorem delivers_bind {P' : β → Prop} {f : α → Async σ ω ε β} (h : Delivers W S p P)
    (hf : ∀ a, P a → Delivers W S (f a) P') : Delivers W S (p >>= f) P' := by
  induction p with
  | done =>
    obtain ⟨a, rfl, ha⟩ := h
    exact hf a ha
  | halted => exact h.elim
  | step _ _ _ _ ih =>
    exact fun w s hw hs => ⟨(h w s hw hs).1, ih w s (h w s hw hs).2⟩

theorem delivers_orElse (h : Delivers W S p P) :
    Delivers W S (p.orElse handler) P := by
  have hattempt : Delivers W S p.attempt fun result => ∃ a, result = .ok a ∧ P a := by
    induction p with
    | done result => exact ⟨result, rfl, h⟩
    | halted => exact h
    | step _ _ _ _ ih =>
      exact fun w s hw hs => ⟨(h w s hw hs).1, ih w s (h w s hw hs).2⟩
  refine delivers_bind hattempt ?_
  rintro _ ⟨_, rfl, ha⟩
  exact delivers_pure.mpr ha

theorem delivers_foldlM {γ : Type} {l : List γ} {f : α → γ → Async σ ω ε α}
    (hstep : ∀ a, ∀ c ∈ l, P a → Delivers W S (f a c) P) (ha : P a) :
    Delivers W S (l.foldlM f a) P := by
  induction l generalizing a with
  | nil => exact delivers_pure.mpr ha
  | cons c rest ih =>
    rw [foldlM_cons]
    refine delivers_bind (hstep a c (by simp) ha) ?_
    intro b hb
    exact ih (fun a c hc => hstep a c (by simp [hc])) hb

/-- What a program returns, and that it does. -/
theorem Delivers.and_observes {Q : α → Prop} (h : Delivers W S p P) (hobserves : Observes S p Q) :
    Delivers W S p Q := by
  induction p with
  | done =>
    obtain ⟨a, rfl, -⟩ := h
    exact ⟨a, rfl, hobserves a rfl⟩
  | halted => exact h
  | step _ _ _ _ ih =>
    intro w s hw hs
    exact ⟨(h w s hw hs).1, ih w s (h w s hw hs).2 (hobserves.2.2 w s hs)⟩

end Observes

/-! ## Pools -/

/-- Every task of the pool may go on, and the unused task numbers are fresh. -/
structure Safe (D : Discipline σ) (Q : ℕ → Except ε α → σ → Prop) (pool : Pool σ ω ε α) :
    Prop where
  inv : D.inv pool.shared
  task : ∀ i p, pool.tasks[i]? = some p → D.wp i p (Q i) (fun _ => True) pool.shared
  fresh : ∀ i, pool.tasks.length ≤ i → D.fresh i pool.shared

/-- What the tasks of a service and its environment must satisfy. -/
structure Sound (D : Discipline σ) (service : Service σ ω ε α κ η)
    (Q : ℕ → Except ε α → σ → Prop) : Prop where
  stable : ∀ i result s t, D.rely i s t → D.inv t → Q i result s → Q i result t
  arrive : ∀ i request s, D.inv s → D.fresh i s → D.Move i s (service.arrive i request s) ∧
      D.wp i (service.program i request) (Q i) (fun _ => True) (service.arrive i request s)
  disturb : ∀ disturbance s, D.inv s → D.inv (service.disturb disturbance s) ∧
    D.mono s (service.disturb disturbance s) ∧ ∀ i, D.rely i s (service.disturb disturbance s)

variable {service : Service σ ω ε α κ η} {Q : ℕ → Except ε α → σ → Prop} {pool : Pool σ ω ε α}

theorem wp_rely {Q : Except ε α → σ → Prop} {t : σ} (h : D.wp i p Q R s)
    (hQ : ∀ result, Q result s → Q result t) (hrely : D.rely i s t) : D.wp i p Q R t := by
  cases p with
  | done result => exact hQ result h
  | halted => trivial
  | step =>
    intro u hrely' hinv
    exact h u (D.rely_trans hrely hrely') hinv

section

variable (h : Safe D Q pool)
include h

section

variable (hsound : Sound D service Q)
include hsound

/-- The other tasks keep waiting and unused numbers stay fresh when one task moves. -/
theorem Safe.replace {task : ℕ} (htask : task < pool.tasks.length) {t : σ}
    (hmove : D.Move task pool.shared t) (hp : D.wp task p (Q task) (fun _ => True) t) :
    Safe D Q ⟨t, pool.tasks.set task p⟩ := by
  refine ⟨hmove.inv, ?_, ?_⟩
  · intro j q hq
    rw [getElem?_set] at hq
    split_ifs at hq with hj
    · subst hj
      cases hq
      exact hp
    · have hrely := hmove.respects j (.symm hj)
      exact wp_rely (h.task j q hq) (fun r => hsound.stable j r _ _ hrely hmove.inv) hrely
  · intro j hj
    simp only [length_set] at hj
    exact D.fresh_stable (h.fresh j hj) (hmove.respects j (by omega))

theorem Safe.runTask (task : ℕ) (answer : ω) :
    Safe D Q (pool.runTask task answer) ∧ D.mono pool.shared (pool.runTask task answer).shared := by
  unfold Pool.runTask
  split
  · rename_i ready act next drop htask
    have hlt := (List.getElem?_eq_some_iff.mp htask).1
    have hwp := h.task task _ htask pool.shared (D.rely_refl _ _) h.inv
    split_ifs with hready
    · obtain ⟨hmove, hnext⟩ := hwp.1 hready answer
      exact ⟨h.replace hsound hlt hmove hnext, hmove.mono⟩
    · exact ⟨h, D.mono_refl _⟩
  · exact ⟨h, D.mono_refl _⟩

theorem Safe.cancelTask (hc : D.cancels) (task : ℕ) :
    Safe D Q (pool.cancelTask task) ∧ D.mono pool.shared (pool.cancelTask task).shared := by
  unfold Pool.cancelTask
  split
  · rename_i ready act next drop htask
    have hlt := (List.getElem?_eq_some_iff.mp htask).1
    have hmove := ((h.task task _ htask pool.shared (D.rely_refl _ _) h.inv).2 hc).1
    exact ⟨h.replace hsound hlt hmove trivial, hmove.mono⟩
  · exact ⟨h, D.mono_refl _⟩

theorem Safe.spawn (request : κ) : Safe D Q (pool.next service (.spawn request)) ∧
      D.mono pool.shared (pool.next service (.spawn request)).shared := by
  obtain ⟨hmove, hwp⟩ := hsound.arrive pool.tasks.length request pool.shared h.inv
    (h.fresh _ (Nat.le_refl _))
  refine ⟨⟨hmove.inv, ?_, ?_⟩, hmove.mono⟩
  · intro j q hq
    simp only [Pool.next] at hq
    rcases Nat.lt_trichotomy j pool.tasks.length with hlt | rfl | hgt
    · rw [getElem?_append_left hlt] at hq
      have hrely := hmove.respects j (by omega)
      exact wp_rely (h.task j q hq) (fun r => hsound.stable j r _ _ hrely hmove.inv) hrely
    · simp only [getElem?_append_right (Nat.le_refl _), Nat.sub_self, getElem?_cons_zero,
        Option.some.injEq] at hq
      exact hq ▸ hwp
    · rw [getElem?_append_right (by omega), getElem?_eq_none (by simp; omega)] at hq
      cases hq
  · intro j hj
    simp only [Pool.next, length_append, length_cons, length_nil] at hj
    exact D.fresh_stable (h.fresh j (by omega)) (hmove.respects j (by omega))

theorem Safe.disturb (disturbance : η) : Safe D Q (pool.next service (.disturb disturbance)) ∧
      D.mono pool.shared (pool.next service (.disturb disturbance)).shared := by
  obtain ⟨hinv, hmono, hrely⟩ := hsound.disturb disturbance pool.shared h.inv
  refine ⟨⟨hinv, ?_, ?_⟩, hmono⟩
  · intro j q hq
    exact wp_rely (h.task j q hq) (fun r => hsound.stable j r _ _ (hrely j) hinv) (hrely j)
  · intro j hj
    exact D.fresh_stable (h.fresh j hj) (hrely j)

theorem Safe.next (event : Event ω κ η) (hc : event.isCancel = true → D.cancels) :
    Safe D Q (pool.next service event) ∧ D.mono pool.shared (pool.next service event).shared := by
  cases event with
  | spawn request => exact h.spawn hsound request
  | run task answer => exact h.runTask hsound task answer
  | cancel task => exact h.cancelTask hsound (hc rfl) task
  | disturb disturbance => exact h.disturb hsound disturbance

theorem Safe.run
    (schedule : List (Event ω κ η)) (hc : ∀ event ∈ schedule, event.isCancel = true → D.cancels) :
    Safe D Q (pool.run service schedule) ∧ D.mono pool.shared (pool.run service schedule).shared := by
  induction schedule generalizing pool with
  | nil => exact ⟨h, D.mono_refl _⟩
  | cons event _ ih =>
    obtain ⟨hnext, hmono⟩ := h.next hsound event (hc event mem_cons_self)
    obtain ⟨hrun, hmono'⟩ := ih hnext fun e he => hc e (mem_cons_of_mem _ he)
    exact ⟨hrun, D.mono_trans hmono hmono'⟩

end

/-- The answer of a finished task satisfies its postcondition. -/
theorem Safe.answer {task : ℕ}
    (hanswer : pool.answer task = some result) : Q task result pool.shared := by
  unfold Pool.answer at hanswer
  split at hanswer
  · rename_i r htask
    cases hanswer
    exact h.task task _ htask
  · cases hanswer

end

/-! ## Programs with small steps

A program all of whose steps are of one kind needs no invariant of its own. -/

/-- From states in `S` every step and every drop is in `r`, and results satisfy `P`. -/
def Steps (S : σ → Prop) (r : σ → σ → Prop) : Async σ ω ε α → (Except ε α → Prop) → Prop
  | .done result, P => P result
  | .step ready act next drop, P => (∀ w s, S s → ready s = true → r s (act w s)) ∧
      (∀ s, S s → r s (drop s)) ∧ ∀ w s, S s → ready s = true → Steps S r (next w s) P
  | .halted, _ => True

section Steps

variable {S : σ → Prop} {r : σ → σ → Prop} {P : Except ε α → Prop} {p : Async σ ω ε α}

@[simp] theorem steps_pure : Steps S r (pure a : Async σ ω ε α) P ↔ P (.ok a) := .rfl

@[simp] theorem steps_fail {e : ε} :
    Steps S r (fail e : Async σ ω ε α) P ↔ P (.error e) := .rfl

theorem steps_bind {P' : Except ε β → Prop} {f : α → Async σ ω ε β} (h : Steps S r p P)
    (hok : ∀ a, P (.ok a) → Steps S r (f a) P') (herror : ∀ e, P (.error e) → P' (.error e)) :
    Steps S r (p >>= f) P' := by
  induction p with
  | done result =>
    cases result with
    | ok a => exact hok a h
    | error e => exact herror e h
  | halted => trivial
  | step _ _ _ _ ih =>
    exact ⟨h.1, h.2.1, fun w s hs hready => ih w s (h.2.2 w s hs hready)⟩

theorem steps_attempt (h : Steps S r p P) :
    Steps S r p.attempt fun result => ∃ inner, result = .ok inner ∧ P inner := by
  induction p with
  | done result => exact ⟨result, rfl, h⟩
  | halted => trivial
  | step _ _ _ _ ih =>
    exact ⟨h.1, h.2.1, fun w s hs hready => ih w s (h.2.2 w s hs hready)⟩

theorem steps_attempt_bind {P' : Except ε β → Prop} {f : Except ε α → Async σ ω ε β}
    (h : Steps S r p P) (hf : ∀ result, P result → Steps S r (f result) P') :
    Steps S r (p.attempt >>= f) P' := by
  refine steps_bind (steps_attempt h) ?_ ?_
  · rintro _ ⟨_, heq, hP⟩
    cases heq
    exact hf _ hP
  · rintro _ ⟨_, heq, _⟩
    cases heq

theorem steps_atomic (hrefl : ∀ s, S s → r s s)
    (h : ∀ w s, S s → r s (f w s).2 ∧ P (f w s).1) : Steps S r (atomic f) P :=
  ⟨fun w s hs _ => (h w s hs).1, hrefl, fun w s hs _ => (h w s hs).2⟩

theorem steps_onDrop (hclosed : ∀ s t, S s → r s t → S t)
    (htrans : ∀ {s t u}, r s t → r t u → r s u) {cleanup : σ → σ}
    (hcleanup : ∀ s, S s → r s (cleanup s)) (h : Steps S r p P) :
    Steps S r (p.onDrop cleanup) P := by
  induction p with
  | done => exact h
  | halted => trivial
  | step _ _ _ _ ih =>
    refine ⟨h.1, fun s hs => ?_, fun w s hs hready => ih w s (h.2.2 w s hs hready)⟩
    have hdrop := h.2.1 s hs
    exact htrans hdrop (hcleanup _ (hclosed _ _ hs hdrop))

theorem steps_withLock (hrefl : ∀ s, S s → r s s) (hclosed : ∀ s t, S s → r s t → S t)
    (htrans : ∀ {s t u}, r s t → r t u → r s u) {free : σ → Bool} {lock unlock : σ → σ}
    (hlock : ∀ s, S s → r s (lock s)) (hunlock : ∀ s, S s → r s (unlock s)) (h : Steps S r p P) :
    Steps S r (withLock free lock unlock p) P := by
  refine steps_bind (P := fun result => result = .ok ())
    ⟨fun _ s hs _ => hlock s hs, hrefl, fun _ _ _ _ => rfl⟩ ?_ (fun _ he => by cases he)
  intro _ _
  have hbody : Steps S r (do
      let result ← p.attempt
      atomic fun (_ : ω) s => (.ok result, unlock s))
      (fun result => ∃ inner, result = .ok inner ∧ P inner) :=
    steps_attempt_bind h fun result hP =>
      steps_atomic hrefl fun _ s hs => ⟨hunlock s hs, result, rfl, hP⟩
  refine steps_bind (steps_onDrop hclosed htrans hunlock hbody) ?_ ?_
  · rintro result ⟨_, heq, hP⟩
    cases heq
    cases result with
    | ok | error => exact hP
  · rintro _ ⟨_, heq, _⟩
    cases heq

/-- Small steps keep what they and the other tasks cannot undo. -/
theorem wp_steps {K : σ → Prop} (hS : ∀ s, D.inv s → S s)
    (hmove : ∀ {s t}, D.inv s → r s t → D.Move i s t)
    (hrely : ∀ {s t}, D.rely i s t → D.inv t → K s → K t)
    (hstep : ∀ {s t}, D.inv s → r s t → K s → K t) (h : Steps S r p P) (hK : K s) :
    D.wp i p (fun result t => K t ∧ P result) K s := by
  induction p generalizing s with
  | done => exact ⟨hK, h⟩
  | halted => trivial
  | step _ _ _ _ ih =>
    intro t hst hinv
    have hKt := hrely hst hinv hK
    refine ⟨fun hready w => ?_, fun _ => ?_⟩
    · have hact := h.1 w t (hS t hinv) hready
      exact ⟨hmove hinv hact, ih w t (h.2.2 w t (hS t hinv) hready) (hstep hinv hact hKt)⟩
    · have hdrop := h.2.1 t (hS t hinv)
      exact ⟨hmove hinv hdrop, hstep hinv hdrop hKt⟩

end Steps

-- Proofs about programs go through the rules.
attribute [irreducible] wp Observes Steps

end Discipline

end MountRs
