import MountRs.Library.AsyncLogic
import MountRs.Verification.View.Moments

/-! # What the tasks of historical views keep -/

namespace MountRs.Versioned.View

open Discipline ViewWorld

/-! ## Lifetimes -/

/-- The state of a lifetime agrees with the provider and with the record of its tasks. -/
structure Tracks (now : Moment) (issued : ReadLease) (lifetime : ViewLifetime) : Prop where
  token : ∀ pin, lifetime.pin = some pin → pin.viewId = issued.viewId ∧
    pin.version = issued.version ∧
    (now.entry issued.viewId = none ∨ now.entry issued.viewId = some pin)
  released : lifetime.pin = none → now.entry issued.viewId = none
  operations : lifetime.operations = lifetime.running.length
  handles : lifetime.handles = lifetime.holders.length
  mutex : lifetime.renewing = true → lifetime.holder.isSome

/-- Nobody is going to renew the pin. -/
def Frozen (lifetime : ViewLifetime) : Prop :=
  lifetime.renewing = false ∧ (lifetime.invalidated = true ∨
    (lifetime.closed = true ∧ lifetime.handles = 0 ∧ lifetime.operations = 0))

/-- The pin of a closed view is gone, or something is left that will release it. -/
def Settled (now : Moment) (id : String) (lifetime : ViewLifetime) : Prop :=
  lifetime.closed = true ∧ (now.Gone id ∨ lifetime.operations ≠ 0 ∨ lifetime.handles ≠ 0 ∨
    lifetime.spawned ≠ 0 ∨ 1 ∈ lifetime.dropping ∨ lifetime.cleaning ≠ [])

/-- What a task may rely on while others change a lifetime. -/
structure Heeds (setup : ViewSetup) (i : ℕ) (now next : Moment) (id : String)
    (s t : ViewLifetime) : Prop where
  present : s.present = true → t.present = true
  running : i ∈ s.running → i ∈ t.running
  closed : s.closed = true → t.closed = true
  cleaning : i ∈ t.cleaning ↔ i ∈ s.cleaning
  mutex : s.holder = some i → t.holder = some i ∧ t.pin = s.pin ∧ t.renewing = s.renewing
  frozen : Frozen s → Frozen t ∧ (next.entry id = now.entry id ∨ next.entry id = none)
  /-- Without a runtime a close that is due may never run. -/
  settled : setup.runtime = true → Settled now id s → Settled next id t

variable {setup : ViewSetup} {i : ℕ}

theorem Heeds.trans {now next last : Moment} {id : String} {s t u : ViewLifetime}
    (h : Heeds setup i now next id s t) (h' : Heeds setup i next last id t u) :
    Heeds setup i now last id s u where
  present hs := h'.present (h.present hs)
  running hs := h'.running (h.running hs)
  closed hs := h'.closed (h.closed hs)
  cleaning := h'.cleaning.trans h.cleaning
  mutex hs := by
    obtain ⟨hholder, hpin, hrenewing⟩ := h.mutex hs
    obtain ⟨hholder', hpin', hrenewing'⟩ := h'.mutex hholder
    exact ⟨hholder', hpin'.trans hpin, hrenewing'.trans hrenewing⟩
  frozen hs := by
    obtain ⟨ht, hentry⟩ := h.frozen hs
    obtain ⟨hu, hentry'⟩ := h'.frozen ht
    refine ⟨hu, ?_⟩
    rcases hentry' with heq | hnone
    · rw [heq]
      exact hentry
    · exact .inr hnone
  settled hr hs := h'.settled hr (h.settled hr hs)

/-! ## The invariant -/

structure Consistent (setup : ViewSetup) (world : ViewWorld) : Prop where
  wellKept : world.now.WellKept
  opened : ∀ v o, world.opened v = some o → world.now.Issued o.pin.viewId ∧ o.moment ≤ world.moment
  requested : ∀ v o, world.opened v = some o →
    ∃ options, setup.requests v = .openView options o.pin.version
  distinct : ∀ u v o o', world.opened u = some o → world.opened v = some o' →
    o.pin.viewId = o'.pin.viewId → u = v
  absent : ∀ v, (world.views v).present = false → world.views v = absentView
  present : ∀ v, (world.views v).present = true →
    ∃ o, world.opened v = some o ∧ Tracks world.now o.pin (world.views v)
  handles : ∀ h state, world.handles h = some state → (world.views state.view).present = true ∧
    (state.closed = false → h ∈ (world.views state.view).holders)
  touched : ∀ v pin, (v, pin) ∈ world.touched →
    ∃ o, world.opened v = some o ∧ o.pin.viewId = pin.viewId
  since : ∀ v o, world.opened v = some o → world.now.Live o.pin.viewId o.pin.version →
    ∀ k m, o.moment ≤ k → world.history[k]? = some m → m.Protects o.pin.version
  renewed : ∀ i r, world.renewed i = some r → ∃ o, world.opened (setup.view i) = some o ∧
    r ≤ world.moment ∧ ∀ k m, o.moment ≤ k → k ≤ r → world.history[k]? = some m →
      m.Protects o.pin.version

/-- What a task may rely on. -/
structure Respects (setup : ViewSetup) (i : ℕ) (s t : ViewWorld) : Prop where
  follows : Follows s.now t.now
  moment : s.moment ≤ t.moment
  opened : ∀ v o, s.opened v = some o → t.opened v = some o
  heeds : ∀ v o, s.opened v = some o → (s.views v).present = true →
    Heeds setup i s.now t.now o.pin.viewId (s.views v) (t.views v)
  /-- Nobody uses a view before it is returned. -/
  own : (s.views i).present = false → (t.views i).present = false ∧ t.opened i = s.opened i ∧
    ∀ o, s.opened i = some o → t.now.entry o.pin.viewId = s.now.entry o.pin.viewId
  handle : ∀ h state, s.handles h = some state → ∃ state', t.handles h = some state' ∧
    state'.view = state.view ∧ (state.holder = some i → state' = state)
  unmade : s.handles i = none → t.handles i = none
  ran : t.ran i = s.ran i
  renewed : t.renewed i = s.renewed i

theorem Respects.trans {s t u : ViewWorld} (h : Respects setup i s t) (h' : Respects setup i t u) :
    Respects setup i s u where
  follows := h.follows.trans h'.follows
  moment := h.moment.trans h'.moment
  opened v o ho := h'.opened v o (h.opened v o ho)
  heeds v o ho hpresent :=
    (h.heeds v o ho hpresent).trans
      (h'.heeds v o (h.opened v o ho) ((h.heeds v o ho hpresent).present hpresent))
  own hs := by
    obtain ⟨ht, hopened, hentry⟩ := h.own hs
    obtain ⟨hu, hopened', hentry'⟩ := h'.own ht
    refine ⟨hu, hopened'.trans hopened, fun o ho => ?_⟩
    rw [hentry' o (hopened.trans ho), hentry o ho]
  handle handle state hs := by
    obtain ⟨state', ht, hview, hheld⟩ := h.handle handle state hs
    obtain ⟨state'', hu, hview', hheld'⟩ := h'.handle handle state' ht
    refine ⟨state'', hu, hview'.trans hview, fun hi => ?_⟩
    have heq := hheld hi
    subst heq
    exact hheld' hi
  unmade hs := h'.unmade (h.unmade hs)
  ran := h'.ran.trans h.ran
  renewed := h'.renewed.trans h.renewed

theorem Heeds.refl (setup : ViewSetup) (now : Moment) (id : String) {s : ViewLifetime} :
    Heeds setup i now now id s s where
  present h := h
  running h := h
  closed h := h
  cleaning := .rfl
  mutex h := ⟨h, rfl, rfl⟩
  frozen h := ⟨h, .inl rfl⟩
  settled _ h := h

theorem Respects.refl (i : ℕ) (s : ViewWorld) : Respects setup i s s where
  follows := .refl _
  moment := Nat.le_refl _
  opened _ _ h := h
  heeds _ _ _ _ := .refl _ _ _
  own h := ⟨h, rfl, fun _ _ => rfl⟩
  handle _ state h := ⟨state, h, rfl, fun _ => rfl⟩
  unmade h := h
  ran := rfl
  renewed := rfl

/-- The discipline of the tasks. -/
def viewing (setup : ViewSetup) : Discipline ViewWorld where
  inv := Consistent setup
  mono _ _ := True
  rely := Respects setup
  fresh i world := (world.views i).present = false ∧ world.opened i = none ∧
    world.handles i = none ∧ world.ran i = [] ∧ world.renewed i = none
  cancels := True
  mono_refl _ := trivial
  mono_trans _ _ := trivial
  rely_refl := Respects.refl
  rely_trans := Respects.trans
  fresh_stable := by
    rintro i s t ⟨hpresent, hopened, hhandles, hran, hrenewed⟩ h
    obtain ⟨hpresent', hopened', _⟩ := h.own hpresent
    exact ⟨hpresent', hopened'.trans hopened, h.unmade hhandles, h.ran.trans hran,
      h.renewed.trans hrenewed⟩

/-! ## Steps for one view -/

variable {setup : ViewSetup} {i v : ℕ} {o : Opening} {s t : ViewWorld}

/-- What a step does to the handles. -/
structure KeepsHandles (i : ℕ) (s t : ViewWorld) : Prop where
  handle : ∀ h state, s.handles h = some state → ∃ state', t.handles h = some state' ∧
    state'.view = state.view ∧ ∀ j, j ≠ i → state.holder = some j → state' = state
  counted : ∀ h state, t.handles h = some state → (t.views state.view).present = true ∧
    (state.closed = false → h ∈ (t.views state.view).holders)
  unmade : ∀ j, j ≠ i → s.handles j = none → t.handles j = none

/-- A step of a task for one view. -/
structure Acts (setup : ViewSetup) (i v : ℕ) (o : Opening) (s t : ViewWorld) : Prop where
  follows : Follows s.now t.now
  history : (t.now = s.now ∧ t.past = s.past) ∨ t.past = s.past ++ [s.now]
  entry : ∀ id, s.now.Issued id → id ≠ o.pin.viewId → t.now.entry id = s.now.entry id
  views : ∀ u, u ≠ v → t.views u = s.views u
  absent : (t.views v).present = false → t.views v = absentView
  tracks : (t.views v).present = true → Tracks t.now o.pin (t.views v)
  heeds : (s.views v).present = true → ∀ j, j ≠ i →
    Heeds setup j s.now t.now o.pin.viewId (s.views v) (t.views v)
  handles : KeepsHandles i s t
  opened : t.opened = s.opened
  touched : ∀ u pin, (u, pin) ∈ t.touched →
    (u, pin) ∈ s.touched ∨ (u = v ∧ pin.viewId = o.pin.viewId)
  ran : ∀ j, j ≠ i → t.ran j = s.ran j
  renewed : ∀ j, t.renewed j = s.renewed j ∨ (j = i ∧ v = setup.view i ∧
    t.renewed j = some t.moment ∧ t.now.Live o.pin.viewId o.pin.version)

variable {k : ℕ} {m : Moment}

section

variable (h : (t.now = s.now ∧ t.past = s.past) ∨ t.past = s.past ++ [s.now])
include h

theorem history_step (hk : t.history[k]? = some m) :
    s.history[k]? = some m ∨ (k = s.moment + 1 ∧ m = t.now) := by
  rcases h with ⟨hnow, hpast⟩ | hpast
  · left
    simpa [history, hnow, hpast] using hk
  · rw [history, List.getElem?_append] at hk
    split_ifs at hk with hlt
    · left
      rw [hpast] at hk
      exact hk
    · right
      have hzero : k - t.past.length = 0 := by
        by_contra hne
        rw [List.getElem?_eq_none (by simp; omega)] at hk
        cases hk
      rw [hzero] at hk
      simp only [List.getElem?_cons_zero, Option.some.injEq] at hk
      have hlength : t.past.length = s.past.length + 1 := by simp [hpast]
      exact ⟨by simp only [moment]; omega, hk.symm⟩

theorem moment_le : s.moment ≤ t.moment := by
  rcases h with ⟨_, hpast⟩ | hpast <;> simp [moment, hpast]

end

section

variable (hs : Consistent setup s)
include hs

theorem since_step (hfollows : Follows s.now t.now)
    (hhistory : (t.now = s.now ∧ t.past = s.past) ∨ t.past = s.past ++ [s.now])
    (ho : s.opened v = some o) (hlive : t.now.Live o.pin.viewId o.pin.version) (hk : o.moment ≤ k)
    (hm : t.history[k]? = some m) : m.Protects o.pin.version := by
  rcases history_step hhistory hm with hold | ⟨_, rfl⟩
  · exact hs.since v o ho (hfollows.back (hs.opened v o ho).1 hlive) k m hk hold
  · exact hlive.protects (hfollows.wellKept hs.wellKept)

variable (ho : s.opened v = some o)
include ho

theorem Acts.consistent (h : Acts setup i v o s t) : Consistent setup t where
  wellKept := h.follows.wellKept hs.wellKept
  opened u o' ho' := by
    rw [h.opened] at ho'
    obtain ⟨hissued, hmoment⟩ := hs.opened u o' ho'
    exact ⟨h.follows.issued hissued, hmoment.trans (moment_le h.history)⟩
  requested u o' ho' := by
    rw [h.opened] at ho'
    exact hs.requested u o' ho'
  distinct u w o' o'' := by
    rw [h.opened]
    exact hs.distinct u w o' o''
  absent u hu := by
    by_cases heq : u = v
    · subst heq
      exact h.absent hu
    · rw [h.views u heq] at hu ⊢
      exact hs.absent u hu
  present u hu := by
    rw [h.opened]
    by_cases heq : u = v
    · subst heq
      exact ⟨o, ho, h.tracks hu⟩
    · rw [h.views u heq] at hu ⊢
      obtain ⟨o', ho', htracks⟩ := hs.present u hu
      have hne : o'.pin.viewId ≠ o.pin.viewId := fun hid => heq (hs.distinct u v o' o ho' ho hid)
      have hentry := h.entry _ (hs.opened u o' ho').1 hne
      exact ⟨o', ho', { htracks with
        token := by rw [hentry]; exact htracks.token
        released := by rw [hentry]; exact htracks.released }⟩
  handles := h.handles.counted
  touched u pin hmem := by
    rw [h.opened]
    rcases h.touched u pin hmem with hold | ⟨rfl, hid⟩
    · exact hs.touched u pin hold
    · exact ⟨o, ho, hid.symm⟩
  since u o' ho' hlive k m hk hm := by
    rw [h.opened] at ho'
    exact since_step hs h.follows h.history ho' hlive hk hm
  renewed j r hr := by
    rw [h.opened]
    rcases h.renewed j with hsame | ⟨rfl, rfl, hnew, hlive⟩
    · rw [hsame] at hr
      obtain ⟨o', ho', hle, hprotects⟩ := hs.renewed j r hr
      refine ⟨o', ho', hle.trans (moment_le h.history), fun k m hk hkr hm => ?_⟩
      rcases history_step h.history hm with hold | ⟨hmoment, _⟩
      · exact hprotects k m hk hkr hold
      · omega
    · rw [hnew] at hr
      cases hr
      exact ⟨o, ho, Nat.le_refl _, fun k m hk _ hm => since_step hs h.follows h.history ho hlive hk hm⟩

theorem Acts.respects
    (hpresent : (s.views v).present = true ∨ v = i) (h : Acts setup i v o s t) {j : ℕ} (hj : j ≠ i) :
    Respects setup j s t where
  follows := h.follows
  moment := moment_le h.history
  opened u o' ho' := by rw [h.opened]; exact ho'
  heeds u o' ho' hu := by
    by_cases heq : u = v
    · subst heq
      rw [ho] at ho'
      cases ho'
      exact h.heeds hu j hj
    · have hne : o'.pin.viewId ≠ o.pin.viewId := fun hid => heq (hs.distinct u v o' o ho' ho hid)
      have hissued := (hs.opened u o' ho').1
      have hentry := h.entry _ hissued hne
      rw [h.views u heq]
      exact { Heeds.refl setup s.now o'.pin.viewId with
        frozen := fun hf => ⟨hf, .inl hentry⟩
        settled := fun _ hset => ⟨hset.1, hset.2.imp (fun hg => h.follows.gone hissued hg) id⟩ }
  own hown := by
    have hne : j ≠ v := by
      rintro rfl
      rcases hpresent with hpresent | rfl
      · rw [hpresent] at hown
        cases hown
      · exact hj rfl
    rw [h.views j hne, h.opened]
    refine ⟨hown, rfl, fun o' ho' => h.entry _ (hs.opened j o' ho').1 fun hid => ?_⟩
    exact hne (hs.distinct j v o' o ho' ho hid)
  handle handle state hstate := by
    obtain ⟨state', ht, hview, hheld⟩ := h.handles.handle handle state hstate
    exact ⟨state', ht, hview, hheld j hj⟩
  unmade := h.handles.unmade j hj
  ran := h.ran j hj
  renewed := (h.renewed j).resolve_right fun hi => hj hi.1

theorem Acts.move (hpresent : (s.views v).present = true ∨ v = i) (h : Acts setup i v o s t) :
    (viewing setup).Move i s t :=
  ⟨h.consistent hs ho, trivial, fun _ hj => h.respects hs ho hpresent hj⟩

end

end MountRs.Versioned.View
