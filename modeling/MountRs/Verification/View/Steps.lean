import MountRs.Verification.View.Invariant

/-! # The steps of the lifetime of a view -/

namespace MountRs.Versioned.View

open Discipline Memory Except BTreeMap Function List Heeds Moment Option Viewer

variable {setup : ViewSetup} {i : ℕ} {o : Opening} {s t : ViewWorld}

/-- The view of a task has been returned. -/
structure Present (setup : ViewSetup) (i : ℕ) (o : Opening) (world : ViewWorld) : Prop where
  opened : world.opened (setup.view i) = some o
  present : (world.views (setup.view i)).present = true
  issued : world.now.Issued o.pin.viewId

section

variable (h : Present setup i o s)
include h

theorem Present.heeds (hrely : Respects setup i s t) :
    Heeds setup i s.now t.now o.pin.viewId (s.views (setup.view i)) (t.views (setup.view i)) :=
  hrely.heeds _ o h.opened h.present

theorem Present.respects (hrely : Respects setup i s t) : Present setup i o t :=
  ⟨hrely.opened _ o h.opened, (h.heeds hrely).present h.present, hrely.follows.issued h.issued⟩

theorem Present.tracks (hs : Consistent setup s) : Tracks s.now o.pin (s.views (setup.view i)) := by
  obtain ⟨o', ho', htracks⟩ := hs.present _ h.present
  rw [h.opened] at ho'
  cases ho'
  exact htracks

theorem Present.gone (hrely : Respects setup i s t)
    (hs : s.now.Gone o.pin.viewId) : t.now.Gone o.pin.viewId :=
  hrely.follows.gone h.issued hs

theorem Present.move (hs : Consistent setup s)
    (hacts : Acts setup i (setup.view i) o s t) : (viewing setup).Move i s t :=
  hacts.move hs h.opened (.inl h.present)

end

/-! ## Changes of a lifetime -/

section Lifetime

variable {lifetime : ViewLifetime}

@[simp] theorem setView_same (world : ViewWorld) (v : ℕ) (lifetime : ViewLifetime) :
    (world.setView v lifetime).views v = lifetime := update_self ..

variable {v : ℕ}

theorem setView_other (world : ViewWorld) {u : ℕ} (lifetime : ViewLifetime) (h : u ≠ v) :
    (world.setView v lifetime).views u = world.views u := update_of_ne h ..

theorem keepsHandles (hs : Consistent setup s) (hhandles : t.handles = s.handles)
    (hviews : ∀ u, u ≠ v → t.views u = s.views u)
    (hpresent : (s.views v).present = true → (t.views v).present = true)
    (hholders : ∀ h ∈ (s.views v).holders, h ∈ (t.views v).holders) : KeepsHandles i s t where
  handle h state hstate := ⟨state, by rw [hhandles]; exact hstate, rfl, fun _ _ _ => rfl⟩
  counted h state hstate := by
    rw [hhandles] at hstate
    obtain ⟨hp, hc⟩ := hs.handles h state hstate
    by_cases heq : state.view = v
    · rw [heq] at hp hc ⊢
      exact ⟨hpresent hp, fun hclosed => hholders h (hc hclosed)⟩
    · rw [hviews _ heq]
      exact ⟨hp, hc⟩
  unmade j _ hj := by rw [hhandles]; exact hj

theorem acts_update (hnow : t.now = s.now) (hpast : t.past = s.past) (hopened : t.opened = s.opened)
    (htouched : t.touched = s.touched) (hran : t.ran = s.ran) (hrenewed : t.renewed = s.renewed)
    (hviews : t.views = update s.views v lifetime) (hpresent : lifetime.present = true)
    (htracks : Tracks s.now o.pin lifetime) (hheeds : (s.views v).present = true → ∀ j, j ≠ i →
      Heeds setup j s.now s.now o.pin.viewId (s.views v) lifetime)
    (hhandles : KeepsHandles i s t) : Acts setup i v o s t := by
  have hsame : t.views v = lifetime := by rw [hviews]; exact update_self ..
  refine
    { follows := by rw [hnow]; exact Follows.refl _
      history := .inl ⟨hnow, hpast⟩
      entry := fun _ _ _ => by rw [hnow]
      views := fun u hu => by rw [hviews]; exact update_of_ne hu ..
      absent := fun h => ?_
      tracks := fun _ => by rw [hsame, hnow]; exact htracks
      heeds := fun hp j hj => by rw [hsame, hnow]; exact hheeds hp j hj
      handles := hhandles
      opened := hopened
      touched := fun _ _ h => .inl (by rw [htouched] at h; exact h)
      ran := fun _ _ => by rw [hran]
      renewed := fun _ => .inl (by rw [hrenewed]) }
  rw [hsame, hpresent] at h
  cases h

theorem acts_setView (hp : Present setup i o s) (hs : Consistent setup s)
    (htracks : Tracks s.now o.pin lifetime)
    (hholders : lifetime.holders = (s.views (setup.view i)).holders)
    (hheeds : ∀ j, j ≠ i →
      Heeds setup j s.now s.now o.pin.viewId (s.views (setup.view i)) lifetime) :
    Acts setup i (setup.view i) o s (s.setView (setup.view i) lifetime) := by
  have hpresent : lifetime.present = true := (hheeds (i + 1) (Nat.succ_ne_self i)).present hp.present
  refine acts_update rfl rfl rfl rfl rfl rfl rfl hpresent htracks (fun _ => hheeds)
    (keepsHandles hs rfl (fun u hu => setView_other s lifetime hu) ?_ ?_)
  · exact fun _ => by rw [setView_same]; exact hpresent
  · rw [setView_same, hholders]
    exact fun _ h => h

theorem Tracks.pos_of_running (h : Tracks s.now o.pin lifetime) (hi : i ∈ lifetime.running) :
    lifetime.operations ≠ 0 := by
  rw [h.operations]
  exact (length_pos_of_mem hi).ne'

theorem Tracks.pos_of_holder (h : Tracks s.now o.pin lifetime) {handle : ℕ}
    (hmem : handle ∈ lifetime.holders) : lifetime.handles ≠ 0 := by
  rw [h.handles]
  exact (length_pos_of_mem hmem).ne'

theorem Frozen.not_running (h : Frozen lifetime) (htracks : Tracks s.now o.pin lifetime)
    (hi : i ∈ lifetime.running) : lifetime.invalidated = true :=
  h.2.resolve_right fun hzero => htracks.pos_of_running hi hzero.2.2

end Lifetime

/-! ## Operations begin and are canceled -/

variable {lifetime : ViewLifetime} {current : ReadLease} {allowClosed : Bool} {syscall : String}

theorem checkBegin_eq_ok
    (h : checkBegin allowClosed syscall lifetime = .ok current) :
    lifetime.invalidated = false ∧ (lifetime.closed = true → allowClosed = true) ∧
      lifetime.pin = some current := by
  simp only [checkBegin, bind_eq_ok, failIf_eq_ok, okOr_eq_ok] at h
  obtain ⟨_, hinvalidated, _, hclosed, hpin⟩ := h
  refine ⟨by simpa using hinvalidated, fun hc => ?_, hpin⟩
  by_contra hallow
  exact hclosed ⟨hc, by simpa using hallow⟩

theorem not_frozen_of_checkBegin (h : checkBegin allowClosed syscall lifetime = .ok current)
    (hallow : allowClosed = true → lifetime.handles ≠ 0) : ¬ Frozen lifetime := by
  obtain ⟨hvalid, hclosed, -⟩ := checkBegin_eq_ok h
  rintro ⟨_, hinvalid | ⟨hc, hzero, _⟩⟩
  · rw [hvalid] at hinvalid
    cases hinvalid
  · exact hallow (hclosed hc) hzero

section Lifetimes

variable (hp : Present setup i o s) (hs : Consistent setup s)

include hp hs

/-- An operation is taken from the count. The last one leaves a destructor that spawns
a close. -/
theorem acts_cancel (hrunning : i ∈ (s.views (setup.view i)).running) :
    Acts setup i (setup.view i) o s ((setup.viewer i).cancelOperation s) := by
  have htracks := hp.tracks hs
  have hpos := htracks.pos_of_running hrunning
  refine acts_setView hp hs ?_ rfl fun j hj => ?_
  · refine ⟨htracks.token, htracks.released, ?_, htracks.handles, htracks.mutex⟩
    show (s.views (setup.view i)).operations - 1 = ((s.views (setup.view i)).running.erase i).length
    rw [length_erase_of_mem hrunning, htracks.operations]
  · exact
      { refl setup s.now o.pin.viewId with
        running := fun h => (mem_erase_of_ne hj).mpr h
        frozen := fun h => ⟨⟨h.1, .inl (h.not_running htracks hrunning)⟩, .inl rfl⟩
        settled := fun _ h => ⟨h.1, by
          by_cases hone : (s.views (setup.view i)).operations = 1
          · exact .inr (.inr (.inr (.inr (.inl (mem_append_right _
              (mem_singleton.mpr hone.symm))))))
          · exact .inr (.inl (by
              show (s.views (setup.view i)).operations - 1 ≠ 0
              omega))⟩ }

theorem acts_unlock (hholder : (s.views (setup.view i)).holder = some i) :
    Acts setup i (setup.view i) o s ((setup.viewer i).unlock s) := by
  have htracks := hp.tracks hs
  refine acts_setView hp hs ?_ rfl fun j hj => ?_
  · exact { htracks with mutex := nofun }
  · exact
      { refl setup s.now o.pin.viewId with
        mutex := fun h => by
          rw [hholder] at h
          exact absurd (some.inj h).symm hj
        frozen := fun h => ⟨⟨rfl, h.2⟩, .inl rfl⟩ }

theorem acts_schedule (self : Viewer) (hview : self.view = setup.view i) (htask : self.task = i)
    (hruntime : setup.runtime = true → self.runtime = true) :
    Acts setup i (setup.view i) o s (self.scheduleClose s) := by
  have htracks := hp.tracks hs
  unfold scheduleClose
  rw [hview]
  refine acts_setView hp hs { htracks with } rfl fun j hj => ?_
  exact
    { refl setup s.now o.pin.viewId with
      cleaning := by simp [htask, hj]
      settled := fun hr h => ⟨h.1, .inr (.inr (.inr (.inl (by simp [hruntime hr]))))⟩ }

theorem acts_lastRelease (hholder : (s.views (setup.view i)).holder = some i)
    (hthaw : (s.views (setup.view i)).renewing = false) (action : Viewer.FinishAction) :
    Acts setup i (setup.view i) o s ((setup.viewer i).lastRelease action s).2 := by
  have htracks := hp.tracks hs
  refine acts_setView hp hs ?_ rfl fun j hj => ?_
  · exact ⟨htracks.token, htracks.released, htracks.operations, htracks.handles, fun h => by
      rw [show (s.views (setup.viewer i).view).renewing = false from hthaw] at h
      cases h⟩
  · refine
      { refl setup s.now o.pin.viewId with
        cleaning := by
          have hfilter : j ∈ (s.views (setup.view i)).cleaning.filter (· ≠ i) ↔
              j ∈ (s.views (setup.view i)).cleaning := by simp [hj]
          dsimp only
          split_ifs <;> first | exact .rfl | exact hfilter
        mutex := fun h => by
          rw [hholder] at h
          exact absurd (some.inj h).symm hj
        settled := fun _ h => ⟨h.1, ?_⟩ }
    rcases h.2 with hgone | hops | hhandles | hspawned | hdropping | hcleaning
    · exact .inl hgone
    · exact .inr (.inl hops)
    · exact .inr (.inr (.inl hhandles))
    · exact .inr (.inr (.inr (.inl hspawned)))
    · exact .inr (.inr (.inr (.inr (.inl hdropping))))
    · -- Only a task that has no pin to release stops looking after it.
      have hview : (setup.viewer i).view = setup.view i := rfl
      by_cases hops : (s.views (setup.view i)).operations = 0
      · by_cases hhandles : (s.views (setup.view i)).handles = 0
        · cases hpin : action.pin with
          | some pin =>
            refine .inr (.inr (.inr (.inr (.inr ?_))))
            simpa [hpin, hview] using hcleaning
          | none =>
            cases hown : (s.views (setup.view i)).pin with
            | none => exact .inl (gone_of_none (htracks.released hown))
            | some pin =>
              refine .inr (.inr (.inr (.inr (.inr ?_))))
              simpa [hpin, hview, hown, hops, hhandles, h.1] using hcleaning
        · exact .inr (.inr (.inl hhandles))
      · exact .inr (.inl hops)

variable {l : ViewLifetime} (hl : s.views (setup.view i) = l)

include hl

theorem acts_hold (hfree : l.holder = none) (hlive : ¬ Frozen l) :
    Acts setup i (setup.view i) o s (s.setView (setup.view i)
      { l with holder := some i, renewing := true }) := by
  subst hl
  have htracks := hp.tracks hs
  refine acts_setView hp hs ?_ rfl fun j _ => ?_
  · exact { htracks with mutex := fun _ => rfl }
  · exact
      { refl setup s.now o.pin.viewId with
        mutex := fun h => by rw [hfree] at h; cases h
        frozen := fun h => absurd h hlive }

theorem acts_begin (hfree : l.holder = none) (hlive : ¬ Frozen l) :
    Acts setup i (setup.view i) o s (s.setView (setup.view i) { l with
      operations := l.operations + 1, running := i :: l.running, holder := some i
      renewing := true }) := by
  subst hl
  have htracks := hp.tracks hs
  refine acts_setView hp hs ?_ rfl fun j _ => ?_
  · exact { htracks with operations := by simp [htracks.operations], mutex := fun _ => rfl }
  · exact
      { refl setup s.now o.pin.viewId with
        running := fun h => mem_cons_of_mem _ h
        mutex := fun h => by rw [hfree] at h; cases h
        frozen := fun h => absurd h hlive
        settled := fun _ h => ⟨h.1, .inr (.inl (Nat.succ_ne_zero _))⟩ }

/-! ## Close and release -/

/-- A section that closes the view. A task without a pin to release has nothing left to
see to. -/
theorem acts_close {pin : Option ReadLease}
    (hpin : pin = if l.handles = 0 ∧ l.operations = 0 then l.pin else none) :
    Acts setup i (setup.view i) o s (s.setView (setup.view i) { l with
      closed := true
      cleaning := if pin.isSome then l.cleaning else l.cleaning.filter (· ≠ i) }) := by
  subst hl
  have htracks := hp.tracks hs
  refine acts_setView hp hs { htracks with } rfl fun j hj => ?_
  refine
    { refl setup s.now o.pin.viewId with
      closed := fun _ => rfl
      cleaning := by dsimp only; split_ifs <;> simp [hj]
      frozen := fun h => ⟨⟨h.1, h.2.imp id fun hz => ⟨rfl, hz.2⟩⟩, .inl rfl⟩
      settled := fun _ h => ⟨rfl, ?_⟩ }
  by_cases hsome : pin.isSome = true
  · simpa [hsome] using h.2
  · by_cases hzero : (s.views (setup.view i)).handles = 0 ∧ (s.views (setup.view i)).operations = 0
    · rw [if_pos hzero] at hpin
      rw [hpin] at hsome
      exact .inl (gone_of_none (htracks.released (by simpa using hsome)))
    · rw [not_and_or] at hzero
      rcases hzero with hzero | hzero
      · exact .inr (.inr (.inl hzero))
      · exact .inr (.inl hzero)

variable {pin : ReadLease}

theorem acts_restore (hfree : l.holder = none)
    (hid : pin.viewId = o.pin.viewId ∧ pin.version = o.pin.version) :
    Acts setup i (setup.view i) o s (s.setView (setup.view i)
      (if l.pin.isNone then { l with pin := some pin } else l)) := by
  subst hl
  have htracks := hp.tracks hs
  split_ifs with hnone
  · have hentry := htracks.released (by simpa using hnone)
    refine acts_setView hp hs ?_ rfl fun j _ => ?_
    · refine ⟨fun other hother => ?_, nofun, htracks.operations, htracks.handles, htracks.mutex⟩
      cases hother
      exact ⟨hid.1, hid.2, .inl hentry⟩
    · exact
        { refl setup s.now o.pin.viewId with
          mutex := fun h => by rw [hfree] at h; cases h }
  · exact acts_setView hp hs htracks rfl fun j _ => .refl _ _ _

theorem acts_clear (hfree : l.holder = none)
    (hentry : s.now.entry o.pin.viewId = none) (pin : ReadLease) (cleaning : List ℕ)
    (hcleaning : ∀ j, j ≠ i → (j ∈ cleaning ↔ j ∈ l.cleaning)) :
    Acts setup i (setup.view i) o s (s.setView (setup.view i) { l with
      pin := if l.pin = some pin then none else l.pin
      cleaning }) := by
  subst hl
  have htracks := hp.tracks hs
  refine acts_setView hp hs ?_ rfl fun j hj => ?_
  · refine ⟨fun other hother => ?_, fun _ => hentry, htracks.operations, htracks.handles,
      htracks.mutex⟩
    dsimp only at hother
    split_ifs at hother
    exact htracks.token other hother
  · exact
      { refl setup s.now o.pin.viewId with
        cleaning := hcleaning j hj
        mutex := fun h => by rw [hfree] at h; cases h
        settled := fun _ h => ⟨h.1, .inl (gone_of_none hentry)⟩ }

theorem acts_take :
    Acts setup i (setup.view i) o s (s.setView (setup.view i) { l with
      spawned := l.spawned - 1, cleaning := i :: l.cleaning }) := by
  subst hl
  have htracks := hp.tracks hs
  refine acts_setView hp hs { htracks with } rfl fun j hj => ?_
  exact
    { refl setup s.now o.pin.viewId with
      cleaning := by simp [hj]
      settled := fun _ h => ⟨h.1, .inr (.inr (.inr (.inr (.inr (by simp)))))⟩ }

theorem acts_ended (hended : i ∈ l.cleaning → s.now.Gone o.pin.viewId) :
    Acts setup i (setup.view i) o s (s.setView (setup.view i) { l with
      cleaning := l.cleaning.filter (· ≠ i) }) := by
  subst hl
  have htracks := hp.tracks hs
  refine acts_setView hp hs { htracks with } rfl fun j hj => ?_
  refine
    { refl setup s.now o.pin.viewId with
      cleaning := by simp [hj]
      settled := fun _ h => ⟨h.1, ?_⟩ }
  by_cases hmem : i ∈ (s.views (setup.view i)).cleaning
  · exact .inl (hended hmem)
  · have hsame : (s.views (setup.view i)).cleaning.filter (· ≠ i) =
        (s.views (setup.view i)).cleaning :=
      filter_eq_self.mpr fun other hother => by
        simpa using fun heq : other = i => hmem (heq ▸ hother)
    rw [hsame]
    exact h.2

theorem acts_finishHold (hfree : l.holder = none) (hrunning : i ∈ l.running)
    {current : Option ReadLease} (hcurrent : current = if l.invalidated then none else l.pin) :
    Acts setup i (setup.view i) o s (s.setView (setup.view i) { l with
      holder := some i, renewing := current.isSome }) := by
  subst hl
  have htracks := hp.tracks hs
  refine acts_setView hp hs ?_ rfl fun j _ => ?_
  · exact ⟨htracks.token, htracks.released, htracks.operations, htracks.handles, fun _ => rfl⟩
  · exact
      { refl setup s.now o.pin.viewId with
        mutex := fun h => by rw [hfree] at h; cases h
        frozen := fun h => by
          have hinvalidated := h.not_running htracks hrunning
          rw [if_pos hinvalidated] at hcurrent
          exact ⟨⟨by rw [hcurrent]; rfl, .inl hinvalidated⟩, .inl rfl⟩ }

theorem acts_finishInvalid (hholder : l.holder = some i) (hrunning : i ∈ l.running) :
    Acts setup i (setup.view i) o s (s.setView (setup.view i) { l with
      invalidated := true, closed := true
      operations := l.operations - 1, running := l.running.erase i
      cleaning := i :: l.cleaning, renewing := false }) := by
  subst hl
  have htracks := hp.tracks hs
  refine acts_setView hp hs ?_ rfl fun j hj => ?_
  · refine ⟨htracks.token, htracks.released, ?_, htracks.handles, nofun⟩
    rw [length_erase_of_mem hrunning, htracks.operations]
  · exact
      { present := fun h => h
        running := fun h => (mem_erase_of_ne hj).mpr h
        closed := fun _ => rfl
        cleaning := by simp [hj]
        mutex := fun h => by
          rw [hholder] at h
          exact absurd (some.inj h).symm hj
        frozen := fun _ => ⟨⟨rfl, .inl rfl⟩, .inl rfl⟩
        settled := fun _ _ => ⟨rfl, .inr (.inr (.inr (.inr (.inr (by simp)))))⟩ }

end Lifetimes

/-! ## Provider calls -/

/-- Nothing changes but the provider and the record of the calls. -/
structure Called (s t : ViewWorld) : Prop where
  views : t.views = s.views
  handles : t.handles = s.handles
  opened : t.opened = s.opened
  ran : t.ran = s.ran
  renewed : t.renewed = s.renewed

theorem acts_call {v : ℕ} (hs : Consistent setup s) (ho : s.opened v = some o)
    (hfollows : Follows s.now t.now)
    (hhistory : (t.now = s.now ∧ t.past = s.past) ∨ t.past = s.past ++ [s.now])
    (hentry : ∀ id, id ≠ o.pin.viewId → t.now.entry id = s.now.entry id) (hcalled : Called s t)
    (htouched : t.touched = s.touched ++ [(v, pin)]) (hpin : pin.viewId = o.pin.viewId)
    (htracks : (s.views v).present = true → Tracks t.now o.pin (s.views v))
    (hfrozen : Frozen (s.views v) →
      t.now.entry o.pin.viewId = s.now.entry o.pin.viewId ∨ t.now.entry o.pin.viewId = none) :
    Acts setup i v o s t where
  follows := hfollows
  history := hhistory
  entry id _ hid := hentry id hid
  views u _ := by rw [hcalled.views]
  absent := by
    rw [hcalled.views]
    exact hs.absent v
  tracks := by
    rw [hcalled.views]
    exact htracks
  heeds _ j _ := by
    rw [hcalled.views]
    exact { refl setup s.now o.pin.viewId with
      frozen := fun h => ⟨h, hfrozen h⟩
      settled := fun _ h => ⟨h.1, h.2.imp (fun hg => hfollows.gone (hs.opened v o ho).1 hg) id⟩ }
  handles := keepsHandles hs (v := v) hcalled.handles (fun u _ => by rw [hcalled.views])
    (fun h => by rw [hcalled.views]; exact h) (by rw [hcalled.views]; exact fun _ h => h)
  opened := hcalled.opened
  touched u other hmem := by
    rw [htouched] at hmem
    rcases mem_append.mp hmem with hold | hnew
    · exact .inl hold
    · cases mem_singleton.mp hnew
      exact .inr ⟨rfl, hpin⟩
  ran j _ := by rw [hcalled.ran]
  renewed j := .inl (by rw [hcalled.renewed])

structure Releases (o : Opening) (pin : ReadLease) (result : Result Unit) (s t : ViewWorld) : Prop
    where
  called : Called s t
  ok : result = .ok () → t.now.entry o.pin.viewId = none
  error : ∀ e, result = .error e → s.now.entry o.pin.viewId = some pin → t.now.Gone o.pin.viewId
  none : s.now.entry o.pin.viewId = none → t.now.entry o.pin.viewId = none

theorem entry_erase (s : Moment) (id other : String) (clockMs : ℕ) :
    entry { metadata := { s.metadata with pins := s.metadata.pins.erase id }, clockMs }
      other = if other = id then none else s.entry other := by
  simp only [entry, get?_erase]

theorem wp_closePin {Q : Result Unit → ViewWorld → Prop} {R : ViewWorld → Prop}
    (hopen : ∀ t, Respects setup i s t → Consistent setup t → t.opened (setup.view i) = some o ∧
      ((t.views (setup.view i)).present = true ∨ setup.view i = i))
    (hpin : pin.viewId = o.pin.viewId)
    (hQ : ∀ t u result, Respects setup i s t → Consistent setup t → Consistent setup u →
      Releases o pin result t u → Q result u)
    (hR : ∀ t, Respects setup i s t → Consistent setup t → R t) :
    (viewing setup).wp i ((setup.viewer i).closePin pin) Q R s := by
  refine wp_atomic (fun t hrely hinv signal => ?_) hR
  obtain ⟨ho, hreturned⟩ := hopen t hrely hinv
  dsimp only
  cases hcall : t.now.metadata.closeViewPin t.now.clockMs (t.now.clockMs + signal.elapsedMs) pin with
  | error e =>
    have hacts : Acts setup i (setup.view i) o t ((t.advance { t.now with
        clockMs := t.now.clockMs + signal.elapsedMs }).touch (setup.view i) pin) := by
      refine acts_call hinv ho (follows_clock _ _) (.inr rfl) (fun _ _ => rfl)
        ⟨rfl, rfl, rfl, rfl, rfl⟩ rfl hpin (fun h => ?_) fun _ => .inl rfl
      obtain ⟨o', ho', htracks⟩ := hinv.present _ h
      rw [ho] at ho'
      cases ho'
      exact ⟨htracks.token, htracks.released, htracks.operations, htracks.handles, htracks.mutex⟩
    refine ⟨hacts.move hinv ho hreturned,
      hQ t _ _ hrely hinv (hacts.consistent hinv ho) ⟨⟨rfl, rfl, rfl, rfl, rfl⟩, ?_, ?_, id⟩⟩
    · intro h
      cases h
    · rintro _ _ hentry
      obtain ⟨current, hcurrent, hexpired⟩ := closeViewPin_error hcall
      rw [hpin] at hcurrent
      have hsame : current = pin := some.inj (hcurrent.symm.trans hentry)
      intro other hother
      have hother' : other = pin := some.inj (hother.symm.trans hentry)
      subst hsame
      subst hother'
      exact hexpired.resolve_right fun hne => hne rfl
  | ok value =>
    obtain ⟨u, metadata⟩ := value
    -- The pin is absent or the very one that is released.
    have hnext : Follows t.now { metadata, clockMs := t.now.clockMs + signal.elapsedMs } ∧
        (∀ id, id ≠ o.pin.viewId →
          entry { metadata, clockMs := t.now.clockMs + signal.elapsedMs } id =
            t.now.entry id) ∧
        entry { metadata, clockMs := t.now.clockMs + signal.elapsedMs } o.pin.viewId =
          none := by
      rcases MetadataState.closeViewPin_eq_ok hcall with ⟨hnone, rfl⟩ | ⟨_, rfl⟩
      · exact ⟨follows_clock _ _, fun _ _ => rfl, by rw [hpin] at hnone; exact hnone⟩
      · refine ⟨follows_erase _ _ _, fun id hid => ?_, ?_⟩
        · rw [entry_erase, hpin, if_neg hid]
        · rw [entry_erase, hpin, if_pos rfl]
    obtain ⟨hfollows, hentry, hnone⟩ := hnext
    have hacts : Acts setup i (setup.view i) o t ((t.advance
        ⟨metadata, t.now.clockMs + signal.elapsedMs⟩).touch (setup.view i) pin) := by
      refine acts_call hinv ho hfollows (.inr rfl) hentry ⟨rfl, rfl, rfl, rfl, rfl⟩ rfl hpin
        (fun h => ?_) fun _ => .inr hnone
      obtain ⟨o', ho', htracks⟩ := hinv.present _ h
      rw [ho] at ho'
      cases ho'
      exact ⟨fun p hp => ⟨(htracks.token p hp).1, (htracks.token p hp).2.1, .inl hnone⟩,
        fun _ => hnone, htracks.operations, htracks.handles, htracks.mutex⟩
    exact ⟨hacts.move hinv ho hreturned, hQ t _ _ hrely hinv (hacts.consistent hinv ho)
      ⟨⟨rfl, rfl, rfl, rfl, rfl⟩, fun _ => hnone, nofun, fun _ => hnone⟩⟩

/-! ## Renewals -/

/-- What the end of a renewal leaves of a lifetime. -/
structure Ends (i : ℕ) (s t : ViewLifetime) : Prop where
  present : t.present = s.present
  counts : t.operations = t.running.length
  handles : t.handles = s.handles
  holders : t.holders = s.holders
  mutex : t.renewing = true → t.holder.isSome
  closed : s.closed = true → t.closed = true
  running : ∀ j, j ≠ i → j ∈ s.running → j ∈ t.running
  cleaning : ∀ j, j ≠ i → (j ∈ t.cleaning ↔ j ∈ s.cleaning)
  /-- What was left to release the pin is still there. -/
  duties : s.operations ≠ 0 ∨ s.handles ≠ 0 ∨ s.spawned ≠ 0 ∨ 1 ∈ s.dropping ∨ s.cleaning ≠ [] →
    t.operations ≠ 0 ∨ t.handles ≠ 0 ∨ t.spawned ≠ 0 ∨ 1 ∈ t.dropping ∨ t.cleaning ≠ []

section Endings

variable (hp : Present setup i o s) (hs : Consistent setup s)

include hp hs

variable (hholder : (s.views (setup.view i)).holder = some i)
include hholder

theorem acts_pinned (hthaw : (s.views (setup.view i)).renewing = true)
    (hends : Ends i (s.views (setup.view i)) lifetime) (hpin : lifetime.pin = some pin)
    (htoken : pin.viewId = o.pin.viewId ∧ pin.version = o.pin.version ∧
      (t.now.entry o.pin.viewId = none ∨ t.now.entry o.pin.viewId = some pin))
    (hfollows : Follows s.now t.now)
    (hhistory : (t.now = s.now ∧ t.past = s.past) ∨ t.past = s.past ++ [s.now])
    (hentry : ∀ id, id ≠ o.pin.viewId → t.now.entry id = s.now.entry id)
    (hviews : t.views = s.views) (hhandles : t.handles = s.handles) (hopened : t.opened = s.opened)
    (htouched : t.touched = s.touched ++ [(setup.view i, current)])
    (hcurrent : current.viewId = o.pin.viewId) (hran : t.ran = s.ran)
    (hrenewed : ∀ j, t.renewed j = s.renewed j ∨
      (j = i ∧ t.renewed j = some t.moment ∧ t.now.Live o.pin.viewId o.pin.version)) :
    Acts setup i (setup.view i) o s (t.setView (setup.view i) lifetime) := by
  have htracks := hp.tracks hs
  have hpresent : lifetime.present = true := hends.present.trans hp.present
  have hother : ∀ u, u ≠ setup.view i → (t.setView (setup.view i) lifetime).views u = s.views u :=
    fun u hu => (setView_other t lifetime hu).trans (by rw [hviews])
  refine ⟨hfollows, hhistory, fun id _ hid => hentry id hid, hother, fun h => ?_, fun _ => ?_,
    fun _ j hj => ?_, keepsHandles hs hhandles hother (fun _ => by rw [setView_same]; exact hpresent)
      (by rw [setView_same, hends.holders]; exact fun _ h => h), hopened, fun u p hmem => ?_,
    fun j _ => congrFun hran j, fun j => (hrenewed j).imp_right fun h => ⟨h.1, rfl, h.2⟩⟩
  · rw [setView_same, hpresent] at h
    cases h
  · rw [setView_same]
    refine ⟨fun p hpp => ?_, fun h => ?_, hends.counts, ?_, hends.mutex⟩
    · rw [hpin] at hpp
      cases hpp
      exact htoken
    · rw [hpin] at h
      cases h
    · rw [hends.handles, hends.holders]
      exact htracks.handles
  · rw [setView_same]
    exact
      { present := fun h => hends.present.trans h
        running := hends.running j hj
        closed := hends.closed
        cleaning := hends.cleaning j hj
        mutex := fun h => by
          rw [hholder] at h
          exact absurd (some.inj h).symm hj
        frozen := fun h => by
          rw [h.1] at hthaw
          cases hthaw
        settled := fun _ h => ⟨hends.closed h.1, h.2.imp (fun hg => hfollows.gone hp.issued hg)
          hends.duties⟩ }
  · have hmem : (u, p) ∈ t.touched := hmem
    rw [htouched] at hmem
    rcases mem_append.mp hmem with hold | hnew
    · exact .inl hold
    · cases mem_singleton.mp hnew
      exact .inr ⟨rfl, hcurrent⟩

theorem acts_renewed (hthaw : (s.views (setup.view i)).renewing = true)
    (hcurrent : (s.views (setup.view i)).pin = some current) (ttlMs : ℕ)
    (hends : Ends i (s.views (setup.view i)) lifetime)
    (hpin : lifetime.pin = match ((setup.viewer i).renewal current ttlMs s).1 with
      | .ok renewed => some renewed | .error _ => some current) : Acts setup i (setup.view i) o s
      (((setup.viewer i).renewal current ttlMs s).2.setView (setup.view i) lifetime) := by
  have htoken := (hp.tracks hs).token current hcurrent
  unfold renewal at hpin ⊢
  cases hcall : s.now.metadata.renewViewPin s.now.clockMs current
      { owner := current.owner, ttlMs } with
  | error e =>
    rw [hcall] at hpin
    exact acts_pinned hp hs hholder hthaw hends hpin htoken (.refl _) (.inl ⟨rfl, rfl⟩)
      (fun _ _ => rfl) rfl rfl rfl rfl htoken.1 rfl fun _ => .inl rfl
  | ok value =>
    obtain ⟨renewed, metadata⟩ := value
    rw [hcall] at hpin
    obtain ⟨_, _, hlive, heq, hmetadata⟩ := MetadataState.renewViewPin_eq_ok hcall
    have hget : ∀ id, entry { s.now with metadata } id =
        if id = o.pin.viewId then some renewed else s.now.entry id := fun id => by
      rw [hmetadata, ← htoken.1]
      simp only [entry, get?_insert]
    have hrenewed : entry { s.now with metadata } o.pin.viewId = some renewed := by
      rw [hget, if_pos rfl]
    have hversion : renewed.version = o.pin.version := by rw [heq]; exact htoken.2.1
    refine acts_pinned hp hs hholder hthaw hends hpin
      ⟨by rw [heq]; exact htoken.1, hversion, .inr hrenewed⟩ (follows_renew hcall) (.inr rfl)
      (fun id hne => (hget id).trans (if_neg hne)) rfl rfl rfl rfl htoken.1 rfl fun j => ?_
    by_cases hj : j = i
    · refine .inr ⟨hj, ?_, renewed, hrenewed, hversion, hlive⟩
      rw [hj]
      exact update_self ..
    · exact .inl (update_of_ne hj ..)

end Endings

end MountRs.Versioned.View
