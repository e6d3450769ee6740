import MountRs.Verification.View.Calls

/-! # Operations of a view

An operation that succeeds has renewed the pin after its body ran. -/

namespace MountRs.Versioned.View

open Discipline Memory Function

variable {setup : ViewSetup} {i : ℕ} {o : Opening} {s t : ViewWorld} {K : ViewWorld → Prop}

/-! ## The end of an operation -/

structure Ran (i : ℕ) (span : ℕ × ℕ) (world : ViewWorld) : Prop where
  ran : world.ran i = [span.1, span.2]
  order : span.1 ≤ span.2
  ended : span.2 ≤ world.moment

variable {span : ℕ × ℕ}

theorem Ran.respects (h : Ran i span s) (hrely : Respects setup i s t) : Ran i span t :=
  ⟨hrely.ran.trans h.ran, h.order, h.ended.trans hrely.moment⟩

variable {lifetime : ViewLifetime}

theorem Ran.setView {v : ℕ} (h : Ran i span s) :
    Ran i span (s.setView v lifetime) := ⟨h.ran, h.order, h.ended⟩

/-- The task has renewed the pin since its body ended. -/
def Covered (i : ℕ) (span : ℕ × ℕ) (world : ViewWorld) : Prop :=
  world.ran i = [span.1, span.2] ∧ span.1 ≤ span.2 ∧ ∃ r, world.renewed i = some r ∧ span.2 ≤ r

/-- The pin that a task has to release: nobody is going to renew it. -/
def Releasable (setup : ViewSetup) (i : ℕ) (o : Opening) (pin : ReadLease) (world : ViewWorld) :
    Prop :=
  pin.viewId = o.pin.viewId ∧ pin.version = o.pin.version ∧ FrozenPin setup i o pin world

variable {pin : ReadLease}

theorem Releasable.respects (h : Releasable setup i o pin s) (hp : Present setup i o s)
    (hrely : Respects setup i s t) : Releasable setup i o pin t :=
  ⟨h.1, h.2.1, h.2.2.respects hp hrely⟩

theorem releasable_of_tracks (htracks : Tracks s.now o.pin (s.views (setup.view i)))
    (hpin : (s.views (setup.view i)).pin = some pin) (hfrozen : Frozen (s.views (setup.view i))) :
    Releasable setup i o pin s := by
  obtain ⟨hid, hversion, hentry⟩ := htracks.token pin hpin
  exact ⟨hid, hversion, hfrozen, hentry⟩

/-- A task that holds the mutex to end its operation. -/
structure Holding (setup : ViewSetup) (i : ℕ) (o : Opening) (span : ℕ × ℕ) (current : Option ReadLease)
    (world : ViewWorld) : Prop extends Guarded setup i o world where
  holder : (world.views (setup.view i)).holder = some i
  renewing : (world.views (setup.view i)).renewing = current.isSome
  pin : ∀ pin, current = some pin → (world.views (setup.view i)).pin = some pin
  ran : Ran i span world

variable {current : Option ReadLease}

theorem Holding.respects (h : Holding setup i o span current s) (hrely : Respects setup i s t) :
    Holding setup i o span current t := by
  obtain ⟨hholder, hpin, hrenewing⟩ := (h.toPresent.heeds hrely).mutex h.holder
  exact ⟨h.toGuarded.respects hrely, hholder, hrenewing.trans h.renewing,
    fun pin hcurrent => hpin.trans (h.pin pin hcurrent), h.ran.respects hrely⟩

theorem wp_finishHold (hK : Local setup i K) (hg : Guarded setup i o s) (hs : K s)
    (hran : Ran i span s) :
    (viewing setup).wp i (Async.onDrop (setup.viewer i).cancelOperation <|
      (setup.viewer i).locked fun lifetime =>
        let current := if lifetime.invalidated then none else lifetime.pin
        (.ok (current, lifetime.defaultTtlMs),
          { lifetime with holder := some i, renewing := current.isSome }))
      (fun result t => K t ∧ ∃ current ttlMs, result = .ok (current, ttlMs) ∧
        Holding setup i o span current t)
      (fun t => Present setup i o t ∧ K t) s := by
  refine wp_onDrop (R := fun t => Guarded setup i o t ∧ K t)
    (wp_await (fun t hrely hinv hready _ => ?_)
      (fun t hrely _ => ⟨hg.respects hrely, hK.respects hrely hs⟩))
    fun _ t hinv ht => move_cancel hK ht.1 hinv ht.2
  have hgt := hg.respects hrely
  have hfree : (t.views (setup.view i)).holder = none := Option.isNone_iff_eq_none.mp hready
  refine ⟨hgt.toPresent.move hinv (acts_finishHold hgt.toPresent hinv rfl hfree hgt.running rfl),
    hK.own (s := t) rfl (hK.respects hrely hs), _, _, rfl, ⟨⟨hgt.opened, ?_, hgt.issued⟩, ?_⟩,
    ?_, ?_, ?_, (hran.respects hrely).setView⟩
  all_goals simp only [show (setup.viewer i).view = setup.view i from rfl, setView_same]
  · exact hgt.present
  · exact hgt.running
  · intro pin hcurrent
    split_ifs at hcurrent
    exact hcurrent

/-- What the end of the renewal leaves to do. -/
structure Finishing (setup : ViewSetup) (i : ℕ) (o : Opening) (span : ℕ × ℕ)
    (action : Viewer.FinishAction) (world : ViewWorld) : Prop extends
    Present setup i o world where
  holder : (world.views (setup.view i)).holder = some i
  renewing : (world.views (setup.view i)).renewing = false
  covered : action.result = .ok () → Covered i span world
  pin : ∀ pin, action.pin = some pin → Releasable setup i o pin world

variable {action : Viewer.FinishAction}

theorem Finishing.respects (h : Finishing setup i o span action s) (hrely : Respects setup i s t) :
    Finishing setup i o span action t := by
  obtain ⟨hholder, -, hrenewing⟩ := (h.toPresent.heeds hrely).mutex h.holder
  refine ⟨h.toPresent.respects hrely, hholder, hrenewing.trans h.renewing, fun hok => ?_,
    fun pin hpin => (h.pin pin hpin).respects h.toPresent hrely⟩
  obtain ⟨hran, horder, r, hr, hle⟩ := h.covered hok
  exact ⟨hrely.ran.trans hran, horder, r, hrely.renewed.trans hr, hle⟩

theorem renewal_ok {current renewed : ReadLease} {ttlMs : ℕ} {next : ViewWorld}
    (h : (setup.viewer i).renewal current ttlMs s = (.ok renewed, next)) :
    next.renewed i = some next.moment ∧ s.moment ≤ next.moment := by
  unfold Viewer.renewal at h
  split at h
  · cases h
    refine ⟨update_self .., ?_⟩
    show s.past.length ≤ (s.past ++ [s.now]).length
    simp
  · cases h

theorem finishing_setView (hpresent : Present setup i o (s.setView (setup.view i) lifetime))
    (hinv : Consistent setup (s.setView (setup.view i) lifetime))
    (hholder : lifetime.holder = some i) (hrenewing : lifetime.renewing = false)
    (hcovered : action.result = .ok () → Covered i span (s.setView (setup.view i) lifetime))
    (hpin : ∀ pin, action.pin = some pin → lifetime.pin = some pin ∧ lifetime.invalidated = true) :
    Finishing setup i o span action (s.setView (setup.view i) lifetime) := by
  refine ⟨hpresent, by rwa [setView_same], by rwa [setView_same], hcovered, fun pin haction => ?_⟩
  obtain ⟨hlife, hinvalid⟩ := hpin pin haction
  refine releasable_of_tracks (hpresent.tracks hinv) ?_ ⟨?_, .inl ?_⟩
  all_goals rwa [setView_same]

theorem wp_finishHeld (hK : Local setup i K) (hs : K s) (hh : Holding setup i o span current s)
    (ttlMs : ℕ) (syscall : String) :
    (viewing setup).wp i ((setup.viewer i).finishHeld current ttlMs syscall)
      (fun result t => K t ∧ ∃ action, result = .ok action ∧ Finishing setup i o span action t)
      (fun t => Holding setup i o span current t ∧ K t) s := by
  refine wp_atomic (fun t hrely hinv _ => ?_)
    fun t hrely _ => ⟨hh.respects hrely, hK.respects hrely hs⟩
  have hht := hh.respects hrely
  have hKt := hK.respects hrely hs
  have hpt := hht.toPresent
  have htracks := hpt.tracks hinv
  have hcount : (t.views (setup.view i)).operations - 1 =
      ((t.views (setup.view i)).running.erase i).length := by
    rw [List.length_erase_of_mem hht.running, htracks.operations]
  cases current with
  | none =>
    have hacts := acts_finishInvalid hpt hinv rfl hht.holder hht.running
    have hmove := hpt.move hinv hacts
    exact ⟨hmove, hK.own (s := t) rfl hKt, _, rfl, finishing_setView (hpt.setView hpt.present)
      hmove.inv hht.holder rfl (fun hok => by cases hok) fun pin hpin => ⟨hpin, rfl⟩⟩
  | some current =>
    obtain ⟨hviews, -, -, hran⟩ := renewal_frame (setup.viewer i) current ttlMs t
    -- In every branch the lifetime changes only in what the end of an operation may change.
    have hstep := fun (closed invalidated : Bool) (pin : Option ReadLease)
        (hclosed : (t.views (setup.view i)).closed = true → closed = true) =>
      move_renewed (l := { t.views (setup.view i) with
        closed, invalidated, pin, operations := (t.views (setup.view i)).operations - 1
        running := (t.views (setup.view i)).running.erase i
        cleaning := i :: (t.views (setup.view i)).cleaning, renewing := false })
        hK hpt hinv hKt hht.holder hht.renewing (hht.pin current rfl) ttlMs
        ⟨rfl, hcount, rfl, rfl, (fun h => by cases h), hclosed,
          fun j hj h => (List.mem_erase_of_ne hj).mpr h, fun j hj => by simp [hj],
          fun _ => .inr (.inr (.inr (.inr (by simp))))⟩
    dsimp only [Viewer.finishHeld]
    rcases hcall : (setup.viewer i).renewal current ttlMs t with ⟨answer, next⟩
    rw [hcall] at hstep hviews hran
    have hlife : next.views (setup.viewer i).view = t.views (setup.view i) := congrFun hviews _
    cases answer with
    | error e =>
      dsimp only
      rw [hlife]
      obtain ⟨hmove, hpresent, hKn⟩ := hstep true true _ (fun _ => rfl) (hht.pin current rfl)
      exact ⟨hmove, hKn, _, rfl, finishing_setView hpresent hmove.inv hht.holder rfl
        (fun hok => by cases hok) fun pin hpin => ⟨hpin, rfl⟩⟩
    | ok renewed =>
      obtain ⟨hrecord, hlater⟩ := renewal_ok hcall
      dsimp only
      rw [hlife]
      split
      · rename_i hinvalid
        obtain ⟨hmove, hpresent, hKn⟩ := hstep true (t.views (setup.view i)).invalidated
          (some renewed) (fun _ => rfl) rfl
        exact ⟨hmove, hKn, _, rfl, finishing_setView hpresent hmove.inv hht.holder rfl
          (fun hok => by cases hok) fun pin hpin => ⟨hpin, hinvalid⟩⟩
      · obtain ⟨hmove, hpresent, hKn⟩ := hstep _ (t.views (setup.view i)).invalidated
          (some renewed) id rfl
        refine ⟨hmove, hKn, _, rfl, finishing_setView hpresent hmove.inv hht.holder rfl
          (fun _ => ⟨?_, hht.ran.order, _, hrecord, hht.ran.ended.trans hlater⟩)
          fun pin hpin => by cases hpin⟩
        exact (congrFun hran i).trans hht.ran.ran

/-- What `prepare_finish` answers. -/
def Finished (setup : ViewSetup) (i : ℕ) (o : Opening) (span : ℕ × ℕ) (action : Viewer.FinishAction)
    (world : ViewWorld) : Prop :=
  (action.result = .ok () → Covered i span world) ∧
    ∀ pin, action.pin = some pin → Releasable setup i o pin world

theorem move_schedule (hK : Kept setup i K) (self : Viewer) (hview : self.view = setup.view i)
    (htask : self.task = i) (hruntime : setup.runtime = true → self.runtime = true)
    (hp : Present setup i o s) (hs : Consistent setup s) (hKs : K s) :
    (viewing setup).Move i s (self.scheduleClose s) ∧ Present setup i o (self.scheduleClose s) ∧
      K (self.scheduleClose s) := by
  refine ⟨hp.move hs (acts_schedule hp hs self hview htask hruntime), ⟨hp.opened, ?_, hp.issued⟩,
    hK.own (s := s) rfl rfl rfl hKs⟩
  show ((s.setView self.view _).views (setup.view i)).present = true
  rw [hview, setView_same]
  exact hp.present

theorem lastRelease_spec (hK : Local setup i K) (hf : Finishing setup i o span action s)
    (hs : Consistent setup s) (hKs : K s) :
    (viewing setup).Move i s ((setup.viewer i).lastRelease action s).2 ∧
      Present setup i o ((setup.viewer i).lastRelease action s).2 ∧
      K ((setup.viewer i).lastRelease action s).2 ∧
      Finished setup i o span ((setup.viewer i).lastRelease action s).1
        ((setup.viewer i).lastRelease action s).2 := by
  have hacts := acts_lastRelease hf.toPresent hs hf.holder hf.renewing action
  have hmove := hf.toPresent.move hs hacts
  have hpresent : Present setup i o ((setup.viewer i).lastRelease action s).2 :=
    hf.toPresent.setView hf.present
  refine ⟨hmove, hpresent, hK.own (s := s) rfl hKs, hf.covered, fun pin hpin => ?_⟩
  -- The pin is the one of the action, or the last operation of a closed view takes it.
  have hsame : ∀ pin, Releasable setup i o pin s →
      Releasable setup i o pin ((setup.viewer i).lastRelease action s).2 := by
    rintro _ ⟨hid, hversion, hfrozen, hentry⟩
    refine ⟨hid, hversion, ?_, hentry⟩
    show Frozen ((s.setView (setup.view i) _).views (setup.view i))
    rw [setView_same]
    exact hfrozen
  refine hsame pin ?_
  dsimp only [Viewer.lastRelease] at hpin
  split_ifs at hpin with hlast
  · exact releasable_of_tracks (hf.toPresent.tracks hs) hpin
      ⟨hf.renewing, .inr ⟨hlast.1, hlast.2.1, hlast.2.2.1⟩⟩
  · exact hf.pin pin hpin

theorem wp_prepareFinish (hK : Local setup i K) (hg : Guarded setup i o s) (hs : K s)
    (hran : Ran i span s) (syscall : String) :
    Runs setup i o K ((setup.viewer i).prepareFinish syscall)
      (fun result t => ∃ action, result = .ok action ∧ Finished setup i o span action t) s := by
  refine wp_bind (wp_finishHold hK hg hs hran) (fun held t ht => ?_) fun e t ht => ?_
  swap
  · obtain ⟨-, _, _, hcontra, -⟩ := ht
    cases hcontra
  obtain ⟨hKt, _, ttlMs, hheld, hh⟩ := ht
  cases hheld
  refine wp_bind (wp_onDrop (wp_finishHeld hK hKt hh ttlMs syscall) fun _ u hinv hu =>
    move_unlock_cancel hK hu.1.toGuarded hinv hu.2 hu.1.holder) (fun action u hu => ?_)
    (fun e u hu => ?_)
  swap
  · obtain ⟨-, _, hcontra, -⟩ := hu
    cases hcontra
  obtain ⟨hKu, _, haction, hf⟩ := hu
  cases haction
  refine wp_commit (fun w hrely hinv => ?_) fun w hrely hinv => ?_
  · obtain ⟨hmove, hpw, hKw, hfinished⟩ := lastRelease_spec hK (hf.respects hrely) hinv
      (hK.respects hrely hKu)
    exact ⟨hmove, hpw, hKw, _, rfl, hfinished⟩
  · obtain ⟨hmove, hpw, hKw, hfinished⟩ := lastRelease_spec hK (hf.respects hrely) hinv
      (hK.respects hrely hKu)
    split
    · obtain ⟨hnext, hrest⟩ := move_schedule hK.kept (setup.viewer i) rfl rfl id hpw hmove.inv hKw
      exact ⟨hmove.trans hnext, hrest⟩
    · exact ⟨hmove, hpw, hKw⟩

theorem runs_finish (hK : Local setup i K) (hg : Guarded setup i o s) (hs : K s)
    (hran : Ran i span s) (syscall : String) :
    Runs setup i o K ((setup.viewer i).finish syscall)
      (fun result t => result = .ok () → Covered i span t) s := by
  refine wp_bind (wp_prepareFinish hK hg hs hran syscall) (fun action t ht => ?_)
    fun e t ht => ?_
  swap
  · obtain ⟨hpt, hKt, _, hcontra, -⟩ := ht
    cases hcontra
  obtain ⟨hpt, hKt, _, haction, hcovered, hpin⟩ := ht
  cases haction
  cases hown : action.pin with
  | none => exact wp_lift.mpr ⟨hpt, hKt, hcovered⟩
  | some pin =>
    obtain ⟨hid, hversion, hfrozen⟩ := hpin pin hown
    -- The record of the task is kept while the pin is released.
    have hkept := hK.recorded (t.ran i) (t.renewed i)
    have hback : ∀ {u : ViewWorld}, u.ran i = t.ran i → u.renewed i = t.renewed i →
        (action.result = .ok () → Covered i span u) := by
      intro u hran hrenewed hok
      obtain ⟨hspan, horder, r, hr, hle⟩ := hcovered hok
      exact ⟨hran.trans hspan, horder, r, hrenewed.trans hr, hle⟩
    refine wp_attempt_bind (Q := fun _ u => Present setup i o u ∧ K u ∧ u.ran i = t.ran i ∧
      u.renewed i = t.renewed i) (wp_onDrop (R := fun u => Present setup i o u ∧ K u)
        ?_ fun _ u hinv hu =>
          move_schedule hK.kept (setup.viewer i) rfl rfl id hu.1 hinv hu.2)
      fun released u hu => ?_
    · have hrelease : Runs setup i o
          (fun u => K u ∧ u.ran i = t.ran i ∧ u.renewed i = t.renewed i) (do
            (setup.viewer i).releasePin pin
            (setup.viewer i).clearPin pin) (fun _ _ => True) t :=
        .bind (runs_releasePin False False hkept hpt ⟨hKt, rfl, rfl⟩ ⟨hid, hversion⟩
          (fun h => h.elim) (fun h => h.elim))
          (fun _ u hpu hKu hu => (runs_clearPin hkept hpu hKu hu.1 False fun h => h.elim).mono
            fun _ _ _ => trivial) (fun _ _ _ => trivial)
      exact wp_mono hrelease (fun _ u hu => ⟨hu.1, hu.2.1.1, hu.2.1.2⟩)
        fun u hu => ⟨hu.1, hu.2.1⟩
    · obtain ⟨hpu, hKu, hranu, hrenewedu⟩ := hu
      cases released with
      | ok _ => exact wp_lift.mpr ⟨hpu, hKu, hback hranu hrenewedu⟩
      | error e =>
        have hschedule : ∀ w, Respects setup i u w → Consistent setup w →
            (viewing setup).Move i w ((setup.viewer i).scheduleClose w) ∧
              Present setup i o ((setup.viewer i).scheduleClose w) ∧
              K ((setup.viewer i).scheduleClose w) := fun w hrely hinv =>
          move_schedule hK.kept (setup.viewer i) rfl rfl id (hpu.respects hrely) hinv
            (hK.respects hrely hKu)
        exact Runs.bind (P := fun _ _ => True) (wp_commit (fun w hrely hinv => by
            obtain ⟨hmove, hpw, hKw⟩ := hschedule w hrely hinv
            exact ⟨hmove, hpw, hKw, trivial⟩) hschedule)
          (fun _ w hpw hKw _ => runs_fail hpw hKw fun h => by cases h)
          (fun _ _ _ h => by cases h)

/-! ## Operations -/

theorem acts_ran (hp : Present setup i o s) (hs : Consistent setup s) (moments : List ℕ) :
    Acts setup i (setup.view i) o s { s with ran := update s.ran i moments } where
  follows := .refl _
  history := .inl ⟨rfl, rfl⟩
  entry _ _ _ := rfl
  views _ _ := rfl
  absent := hs.absent _
  tracks _ := hp.tracks hs
  heeds _ _ _ := .refl _ _ _
  handles := keepsHandles hs (v := setup.view i) rfl (fun _ _ => rfl) id fun _ h => h
  opened := rfl
  touched _ _ h := .inl h
  ran _ hj := update_of_ne hj ..
  renewed _ := .inl rfl

theorem wp_body (hK : Local setup i K) (hg : Guarded setup i o s) (hs : K s) :
    (viewing setup).wp i ((setup.viewer i).body.onDrop (setup.viewer i).cancelOperation)
      (fun _ t => Guarded setup i o t ∧ K t ∧ ∃ span, Ran i span t ∧ o.moment ≤ span.1)
      (fun t => Present setup i o t ∧ K t) s := by
  have hrecord : ∀ t, Guarded setup i o t → Consistent setup t → K t → ∀ moments,
      (viewing setup).Move i t { t with ran := update t.ran i moments } ∧
        Guarded setup i o { t with ran := update t.ran i moments } ∧
        K { t with ran := update t.ran i moments } := fun t hgt hinv hKt moments =>
    ⟨hgt.toPresent.move hinv (acts_ran hgt.toPresent hinv moments),
      ⟨⟨hgt.opened, hgt.present, hgt.issued⟩, hgt.running⟩, hK.own (s := t) rfl hKt⟩
  refine wp_onDrop (R := fun t => Guarded setup i o t ∧ K t) (wp_bind
    (Q := fun result t => result = .ok () ∧ Guarded setup i o t ∧ K t ∧
      ∃ k, t.ran i = [k] ∧ o.moment ≤ k ∧ k ≤ t.moment)
    (wp_atomic (fun t hrely hinv _ => ?_)
      (fun t hrely _ => ⟨hg.respects hrely, hK.respects hrely hs⟩))
    (fun _ t ht => ?_) (fun _ t ht => ?_))
    (fun _ t hinv ht => move_cancel hK ht.1 hinv ht.2)
  · have hgt := hg.respects hrely
    obtain ⟨hmove, hnext, hKn⟩ := hrecord t hgt hinv (hK.respects hrely hs) [t.moment]
    exact ⟨hmove, rfl, hnext, hKn, t.moment, update_self .., (hinv.opened _ o hgt.opened).2,
      Nat.le_refl _⟩
  · obtain ⟨-, hgt, hKt, k, hran, hopened, hle⟩ := ht
    refine wp_atomic (fun u hrely hinv _ => ?_)
      fun u hrely _ => ⟨hgt.respects hrely, hK.respects hrely hKt⟩
    obtain ⟨hmove, hnext, hKn⟩ := hrecord u (hgt.respects hrely) hinv (hK.respects hrely hKt)
      (u.ran i ++ [u.moment])
    refine ⟨hmove, hnext, hKn, (k, u.moment), ⟨?_, hle.trans hrely.moment, Nat.le_refl _⟩, hopened⟩
    show update u.ran i (u.ran i ++ [u.moment]) i = _
    rw [update_self, hrely.ran, hran]
    rfl
  · cases ht.1

theorem runs_operation (hK : Local setup i K) (hg : Guarded setup i o s) (hs : K s)
    (syscall : String) :
    Runs setup i o K ((setup.viewer i).operation syscall)
      (fun result t => ∀ value, result = .ok value → ∃ span, Covered i span t ∧ o.moment ≤ span.1) s := by
  refine wp_attempt_bind (wp_body hK hg hs) fun result t ht => ?_
  obtain ⟨hgt, hKt, span, hran, hle⟩ := ht
  refine wp_attempt_bind (runs_finish hK hgt hKt hran syscall) fun finish u hu => ?_
  obtain ⟨hpu, hKu, hcovered⟩ := hu
  cases result with
  | error e => exact runs_fail hpu hKu fun _ h => by cases h
  | ok =>
    refine wp_lift_bind (fun _ hfinish => ?_) fun e _ => ⟨hpu, hKu, fun _ h => by cases h⟩
    exact runs_pure hpu hKu fun _ _ => ⟨span, hcovered hfinish, hle⟩

theorem runs_withOperation (hK : Local setup i K) (hp : Present setup i o s) (hs : K s)
    {allowClosed : Bool} (hallow : allowClosed = true → ∀ t, K t →
      ∃ handle state, Held setup i handle state t ∧ state.closed = false) (syscall : String) :
    Runs setup i o K (do
        (setup.viewer i).begin allowClosed syscall
        (setup.viewer i).operation syscall)
      (fun result t => ∀ value, result = .ok value → ∃ span, Covered i span t ∧ o.moment ≤ span.1) s :=
  .bind (runs_begin hK hp hs hallow syscall)
    (fun _ _ hpt hKt hrunning => runs_operation hK ⟨hpt, hrunning _ rfl⟩ hKt syscall)
    (fun _ _ _ _ h => by cases h)

end MountRs.Versioned.View
