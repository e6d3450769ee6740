import MountRs.Verification.View.Handles

/-! # The calls of a view -/

namespace MountRs.Versioned.View

open Discipline Memory

variable {setup : ViewSetup} {i : ℕ} {o : Opening} {s t : ViewWorld} {K : ViewWorld → Prop}
  {α β : Type}

/-! ## Facts that calls keep -/

/-- The other tasks keep it, and so do the steps of the task that leave the handles and
its own record alone. -/
structure Kept (setup : ViewSetup) (i : ℕ) (K : ViewWorld → Prop) : Prop where
  respects : ∀ {s t}, Respects setup i s t → K s → K t
  own : ∀ {s t}, t.handles = s.handles → t.ran i = s.ran i → t.renewed i = s.renewed i → K s → K t

/-- A fact about handles. -/
structure Local (setup : ViewSetup) (i : ℕ) (K : ViewWorld → Prop) : Prop where
  respects : ∀ {s t}, Respects setup i s t → K s → K t
  own : ∀ {s t}, t.handles = s.handles → K s → K t

theorem Local.kept (hK : Local setup i K) : Kept setup i K := ⟨hK.respects, fun h _ _ => hK.own h⟩

theorem Local.recorded (hK : Local setup i K) (ran : List ℕ) (renewed : Option ℕ) :
    Kept setup i fun world => K world ∧ world.ran i = ran ∧ world.renewed i = renewed where
  respects h hs := ⟨hK.respects h hs.1, h.ran.trans hs.2.1, h.renewed.trans hs.2.2⟩
  own hhandles hran hrenewed hs :=
    ⟨hK.own hhandles hs.1, hran.trans hs.2.1, hrenewed.trans hs.2.2⟩

/-- The call keeps the fact, and what it ends with satisfies `P`. -/
def Runs (setup : ViewSetup) (i : ℕ) (o : Opening) (K : ViewWorld → Prop) (p : ViewCall α)
    (P : Result α → ViewWorld → Prop) (s : ViewWorld) : Prop :=
  (viewing setup).wp i p (fun result t => Present setup i o t ∧ K t ∧ P result t)
    (fun t => Present setup i o t ∧ K t) s

variable {P : Result α → ViewWorld → Prop}

theorem Runs.bind {p : ViewCall α} {f : α → ViewCall β}
    {P' : Result β → ViewWorld → Prop} (h : Runs setup i o K p P s)
    (hok : ∀ a t, Present setup i o t → K t → P (.ok a) t → Runs setup i o K (f a) P' t)
    (herror : ∀ e t, P (.error e) t → P' (.error e) t) : Runs setup i o K (p >>= f) P' s :=
  wp_bind h (fun a t ht => hok a t ht.1 ht.2.1 ht.2.2) fun e t ht => ⟨ht.1, ht.2.1, herror e t ht.2.2⟩

theorem Runs.attempt_bind {p : ViewCall α} {f : Result α → ViewCall β}
    {P' : Result β → ViewWorld → Prop}
    (h : Runs setup i o K p P s)
    (hnext : ∀ result t, Present setup i o t → K t → P result t → Runs setup i o K (f result) P' t) :
    Runs setup i o K (p.attempt >>= f) P' s :=
  wp_attempt_bind h fun result t ht => hnext result t ht.1 ht.2.1 ht.2.2

theorem Runs.mono {p : ViewCall α} {P P' : Result α → ViewWorld → Prop}
    (h : Runs setup i o K p P s) (hP : ∀ result t, P result t → P' result t) :
    Runs setup i o K p P' s :=
  wp_mono h (fun result t ht => ⟨ht.1, ht.2.1, hP result t ht.2.2⟩) fun _ h => h

theorem runs_fail {e : FsError} (hp : Present setup i o s)
    (hK : K s) (hP : P (.error e) s) : Runs setup i o K (Async.fail e : ViewCall α) P s :=
  wp_fail.mpr ⟨hp, hK, hP⟩

theorem runs_pure {a : α} (hp : Present setup i o s) (hK : K s)
    (hP : P (.ok a) s) : Runs setup i o K (pure a : ViewCall α) P s :=
  wp_pure.mpr ⟨hp, hK, hP⟩

theorem Present.setView {lifetime : ViewLifetime} (hp : Present setup i o s)
    (h : lifetime.present = true) : Present setup i o (s.setView (setup.view i) lifetime) :=
  ⟨hp.opened, by rwa [setView_same], hp.issued⟩

theorem runs_locked {f : ViewLifetime → Result α × ViewLifetime}
    (hK : Kept setup i K) (hp : Present setup i o s) (hs : K s)
    (h : ∀ t, Respects setup i s t → Consistent setup t → Present setup i o t → K t →
      (t.views (setup.view i)).holder = none →
      Acts setup i (setup.view i) o t (t.setView (setup.view i) (f (t.views (setup.view i))).2) ∧
      (f (t.views (setup.view i))).2.present = true ∧
      P (f (t.views (setup.view i))).1 (t.setView (setup.view i) (f (t.views (setup.view i))).2)) :
    Runs setup i o K ((setup.viewer i).locked f) P s := by
  refine wp_await (fun t hrely hinv hready _ => ?_)
    fun t hrely _ => ⟨hp.respects hrely, hK.respects hrely hs⟩
  have hpt := hp.respects hrely
  have hKt := hK.respects hrely hs
  obtain ⟨hacts, hpresent, hP⟩ := h t hrely hinv hpt hKt (Option.isNone_iff_eq_none.mp hready)
  exact ⟨hpt.move hinv hacts, hpt.setView hpresent, hK.own (s := t) rfl rfl rfl hKt, hP⟩

/-! ## Release -/

/-- Nobody is going to renew the pin, and it is the one in the store if there is one. -/
def FrozenPin (setup : ViewSetup) (i : ℕ) (o : Opening) (pin : ReadLease) (world : ViewWorld) :
    Prop :=
  Frozen (world.views (setup.view i)) ∧
    (world.now.entry o.pin.viewId = none ∨ world.now.entry o.pin.viewId = some pin)

variable {pin : ReadLease}

theorem FrozenPin.respects (h : FrozenPin setup i o pin s) (hp : Present setup i o s)
    (hrely : Respects setup i s t) : FrozenPin setup i o pin t := by
  obtain ⟨hfrozen, hentry⟩ := (hp.heeds hrely).frozen h.1
  refine ⟨hfrozen, ?_⟩
  rcases hentry with heq | hnone
  · rw [heq]
    exact h.2
  · exact .inl hnone

/-- What a release ends with: the pin is absent, or it is gone if nobody renews it. -/
def Released (o : Opening) (frozen : Prop) (result : Result Unit) (world : ViewWorld) : Prop :=
  match result with
  | .ok _ => world.now.entry o.pin.viewId = none
  | .error _ => frozen → world.now.Gone o.pin.viewId

theorem runs_releasePin (closed frozen : Prop) (hK : Kept setup i K) (hp : Present setup i o s)
    (hs : K s) (hpin : pin.viewId = o.pin.viewId ∧ pin.version = o.pin.version)
    (hclosed : closed → (s.views (setup.view i)).closed = true)
    (hfrozen : frozen → FrozenPin setup i o pin s) :
    Runs setup i o K ((setup.viewer i).releasePin pin) (fun result t => Released o frozen result t ∧
      (closed → (t.views (setup.view i)).closed = true)) s := by
  have hclose : Runs setup i o K ((setup.viewer i).closePin pin) (fun result t =>
      Released o frozen result t ∧ (closed → (t.views (setup.view i)).closed = true)) s := by
    refine wp_closePin (fun t hrely _ => ⟨(hp.respects hrely).opened,
      .inl (hp.respects hrely).present⟩) hpin.1 (fun t u result hrely hinv hinv' hreleases => ?_)
      fun t hrely _ => ⟨hp.respects hrely, hK.respects hrely hs⟩
    have hpt := hp.respects hrely
    have hcalled := hreleases.called
    have hopened : u.opened (setup.view i) = some o := by rw [hcalled.opened]; exact hpt.opened
    refine ⟨⟨hopened, by rw [hcalled.views]; exact hpt.present, (hinv'.opened _ o hopened).1⟩,
      hK.own hcalled.handles (by rw [hcalled.ran]) (by rw [hcalled.renewed])
        (hK.respects hrely hs), ?_, fun hc => ?_⟩
    · cases result with
      | ok u => exact hreleases.ok rfl
      | error e =>
        intro hf
        rcases ((hfrozen hf).respects hp hrely).2 with hnone | hsame
        · exact Moment.gone_of_none (hreleases.none hnone)
        · exact hreleases.error e rfl hsame
    · rw [hcalled.views]
      exact (hp.heeds hrely).closed (hclosed hc)
  refine .attempt_bind hclose fun result t hpt hKt ht => ?_
  cases result with
  | ok u => exact runs_pure hpt hKt ht
  | error e =>
    refine .bind (P := fun _ u => Released o frozen (.error e) u ∧
      (closed → (u.views (setup.view i)).closed = true)) ?_
      (fun _ u hpu hKu hu => runs_fail hpu hKu hu) (fun _ _ hu => hu)
    refine runs_locked hK hpt hKt fun u hrely hinv hpu _ hfree => ?_
    refine ⟨acts_restore hpu hinv rfl hfree hpin, ?_, fun hf => ?_, fun hc => ?_⟩
    · dsimp only
      split_ifs <;> exact hpu.present
    · have hgone := hpt.gone hrely (ht.1 hf)
      exact hgone
    · rw [setView_same]
      have hcu := (hpt.heeds hrely).closed (ht.2 hc)
      split_ifs <;> exact hcu

/-- The view is settled, and the task has nothing more to see to. -/
def Relieved (setup : ViewSetup) (i : ℕ) (o : Opening) (world : ViewWorld) : Prop :=
  Settled world.now o.pin.viewId (world.views (setup.view i)) ∧
    (i ∈ (world.views (setup.view i)).cleaning → world.now.Gone o.pin.viewId)

theorem runs_clearPin (hK : Kept setup i K) (hp : Present setup i o s) (hs : K s)
    (hentry : s.now.entry o.pin.viewId = none) (closed : Prop)
    (hclosed : closed → (s.views (setup.view i)).closed = true) :
    Runs setup i o K ((setup.viewer i).clearPin pin) (fun _ t => t.now.Gone o.pin.viewId ∧
      (closed → (t.views (setup.view i)).closed = true)) s := by
  refine runs_locked hK hp hs fun t hrely hinv hpt _ hfree => ?_
  have hnone := hrely.follows.none hp.issued hentry
  refine ⟨acts_clear hpt hinv rfl hfree hnone pin _ (fun j hj => by
    show j ∈ List.filter _ _ ↔ _
    simp only [List.mem_filter, decide_eq_true_eq]
    exact and_iff_left hj), hpt.present, Moment.gone_of_none hnone, fun hc => ?_⟩
  rw [setView_same]
  exact (hp.heeds hrely).closed (hclosed hc)

/-- What the section of a close finds. -/
def ClosesWith (setup : ViewSetup) (i : ℕ) (o : Opening) (pin : Option ReadLease)
    (world : ViewWorld) : Prop :=
  (world.views (setup.view i)).closed = true ∧
    match pin with
    | none => Relieved setup i o world
    | some pin => pin.viewId = o.pin.viewId ∧ pin.version = o.pin.version ∧
        FrozenPin setup i o pin world

theorem runs_close (hK : Kept setup i K) (hp : Present setup i o s) (hs : K s) :
    Runs setup i o K (setup.viewer i).close (fun _ t => Relieved setup i o t) s := by
  refine .bind (P := fun result t => match result with
    | .ok pin => ClosesWith setup i o pin t
    | .error _ => False) ?_ (fun pin t hpt hKt ht => ?_) fun _ _ h => h.elim
  · refine runs_locked hK hp hs fun t hrely hinv hpt _ hfree => ?_
    refine ⟨acts_close hpt hinv rfl rfl, hpt.present, ?_⟩
    have htracks := hpt.tracks hinv
    dsimp only
    refine ⟨by rw [setView_same], ?_⟩
    by_cases hzero : (t.views (setup.view i)).handles = 0 ∧ (t.views (setup.view i)).operations = 0
    · rw [if_pos hzero]
      cases hpin : (t.views (setup.view i)).pin with
      | none =>
        have hgone := Moment.gone_of_none (htracks.released hpin)
        exact ⟨⟨by rw [setView_same], .inl hgone⟩, fun _ => hgone⟩
      | some pin =>
        obtain ⟨hid, hversion, hentry⟩ := htracks.token pin hpin
        refine ⟨hid, hversion, ⟨?_, .inr ?_⟩, hentry⟩
        · rw [setView_same]
          by_contra hrenewing
          have hheld := htracks.mutex (by simpa using hrenewing)
          rw [hfree] at hheld
          cases hheld
        · rw [setView_same]
          exact ⟨rfl, hzero⟩
    · rw [if_neg hzero]
      refine ⟨⟨by rw [setView_same], ?_⟩, fun hmem => ?_⟩
      · rw [setView_same]
        rw [not_and_or] at hzero
        rcases hzero with hhandles | hoperations
        · exact .inr (.inr (.inl hhandles))
        · exact .inr (.inl hoperations)
      · rw [setView_same] at hmem
        simp at hmem
        exact absurd rfl hmem.2
  · obtain ⟨hclosed, hrest⟩ := ht
    cases pin with
    | none => exact runs_pure hpt hKt hrest
    | some pin =>
      obtain ⟨hid, hversion, hfrozen⟩ := hrest
      have hsettles : ∀ {u : ViewWorld}, u.now.Gone o.pin.viewId →
          (u.views (setup.view i)).closed = true → Relieved setup i o u :=
        fun hgone hc => ⟨⟨hc, .inl hgone⟩, fun _ => hgone⟩
      refine .bind (runs_releasePin True True hK hpt hKt
        ⟨hid, hversion⟩ (fun _ => hclosed) (fun _ => hfrozen)) (fun _ u hpu hKu hu => ?_)
        fun e u hu => hsettles (hu.1 trivial) (hu.2 trivial)
      exact (runs_clearPin hK hpu hKu hu.1 True hu.2).mono
        fun _ w hw => hsettles hw.1 (hw.2 trivial)

/-! ## Operations -/

/-- A task with an active operation guard. -/
structure Guarded (setup : ViewSetup) (i : ℕ) (o : Opening) (world : ViewWorld) : Prop extends
    Present setup i o world where
  running : i ∈ (world.views (setup.view i)).running

theorem Guarded.respects (h : Guarded setup i o s) (hrely : Respects setup i s t) :
    Guarded setup i o t :=
  ⟨h.toPresent.respects hrely, (h.toPresent.heeds hrely).running h.running⟩

/-- A task that holds the mutex and is going to renew the pin. -/
structure Renewing (setup : ViewSetup) (i : ℕ) (o : Opening) (current : ReadLease)
    (world : ViewWorld) : Prop extends Present setup i o world where
  holder : (world.views (setup.view i)).holder = some i
  renewing : (world.views (setup.view i)).renewing = true
  pin : (world.views (setup.view i)).pin = some current

variable {current : ReadLease}

theorem Renewing.respects (h : Renewing setup i o current s) (hrely : Respects setup i s t) :
    Renewing setup i o current t := by
  obtain ⟨hholder, hpin, hrenewing⟩ := (h.toPresent.heeds hrely).mutex h.holder
  exact ⟨h.toPresent.respects hrely, hholder, hrenewing.trans h.renewing, hpin.trans h.pin⟩

theorem renewal_frame (self : Viewer) (current : ReadLease) (ttlMs : ℕ) (world : ViewWorld) :
    let next := (self.renewal current ttlMs world).2
    next.views = world.views ∧ next.handles = world.handles ∧ next.opened = world.opened ∧
      next.ran = world.ran := by
  unfold Viewer.renewal
  split <;> exact ⟨rfl, rfl, rfl, rfl⟩

section

variable (hK : Local setup i K)
include hK

theorem move_renewed {l : ViewLifetime} (hp : Present setup i o s)
    (hs : Consistent setup s) (hKs : K s) (hholder : (s.views (setup.view i)).holder = some i)
    (hrenewing : (s.views (setup.view i)).renewing = true)
    (hpin : (s.views (setup.view i)).pin = some current) (ttlMs : ℕ)
    (hends : Ends i (s.views (setup.view i)) l)
    (hnext : l.pin = match ((setup.viewer i).renewal current ttlMs s).1 with
      | .ok renewed => some renewed
      | .error _ => some current) :
    let next := ((setup.viewer i).renewal current ttlMs s).2.setView (setup.view i) l
    (viewing setup).Move i s next ∧ Present setup i o next ∧ K next := by
  obtain ⟨-, hhandles, hopened, -⟩ := renewal_frame (setup.viewer i) current ttlMs s
  have hacts := acts_renewed hp hs hholder hrenewing hpin ttlMs hends hnext
  refine ⟨hp.move hs hacts, ⟨(congrFun hopened _).trans hp.opened, ?_,
    hacts.follows.issued hp.issued⟩, hK.own (s := s) hhandles hKs⟩
  rw [setView_same]
  exact hends.present.trans hp.present

theorem wp_renewHeld (hs : K s) (hr : Renewing setup i o current s)
    (ttlMs : ℕ) (syscall : String) (running : Prop)
    (hrunning : running → i ∈ (s.views (setup.view i)).running) :
    (viewing setup).wp i ((setup.viewer i).renewHeld current ttlMs syscall)
      (fun _ t => Present setup i o t ∧ K t ∧ (running → i ∈ (t.views (setup.view i)).running))
      (fun t => Renewing setup i o current t ∧ K t ∧
        (running → i ∈ (t.views (setup.view i)).running)) s := by
  have hkeep : ∀ t, Respects setup i s t → Renewing setup i o current t ∧ K t ∧
      (running → i ∈ (t.views (setup.view i)).running) := fun t hrely =>
    ⟨hr.respects hrely, hK.respects hrely hs,
      fun h => (hr.toPresent.heeds hrely).running (hrunning h)⟩
  refine wp_atomic (fun t hrely hinv _ => ?_) fun t hrely _ => hkeep t hrely
  obtain ⟨hrt, hKt, hrunt⟩ := hkeep t hrely
  have htracks := hrt.toPresent.tracks hinv
  -- In every branch the lifetime changes only in what a renewal may change.
  have hstep : ∀ lifetime, Ends i (t.views (setup.view i)) lifetime →
      (lifetime.running = (t.views (setup.view i)).running) →
      (lifetime.pin = match ((setup.viewer i).renewal current ttlMs t).1 with
        | .ok renewed => some renewed
        | .error _ => some current) →
      let next := ((setup.viewer i).renewal current ttlMs t).2.setView (setup.view i) lifetime
      (viewing setup).Move i t next ∧ Present setup i o next ∧ K next ∧
        (running → i ∈ (next.views (setup.view i)).running) := by
    intro lifetime hends hsame hpin
    obtain ⟨hmove, hpresent, hKn⟩ := move_renewed hK hrt.toPresent hinv hKt hrt.holder hrt.renewing
      hrt.pin ttlMs hends hpin
    refine ⟨hmove, hpresent, hKn, fun h => ?_⟩
    rw [setView_same, hsame]
    exact hrunt h
  have hends : ∀ (closed : Bool) (invalidated : Bool) (pin : Option ReadLease),
      ((t.views (setup.view i)).closed = true → closed = true) →
      Ends i (t.views (setup.view i)) { t.views (setup.view i) with
        closed, invalidated, pin, holder := none, renewing := false } := fun _ _ _ hclosed =>
    ⟨rfl, htracks.operations, rfl, rfl, nofun, hclosed, fun _ _ h => h,
      fun _ _ => .rfl, id⟩
  dsimp only
  have hviews := (renewal_frame (setup.viewer i) current ttlMs t).1
  rcases hcall : (setup.viewer i).renewal current ttlMs t with ⟨answer, next⟩
  rw [hcall] at hstep hviews
  have hlife : next.views (setup.viewer i).view = t.views (setup.view i) := congrFun hviews _
  cases answer with
  | error e =>
    dsimp only
    rw [hlife]
    exact hstep _ (hends true true _ fun _ => rfl) rfl hrt.pin
  | ok renewed =>
    dsimp only
    rw [hlife]
    split_ifs
    · exact hstep _ (hends true _ (some renewed) fun _ => rfl) rfl rfl
    · exact hstep _ (hends _ _ (some renewed) id) rfl rfl

theorem move_cancel (hg : Guarded setup i o s) (hs : Consistent setup s) (hKs : K s) :
    (viewing setup).Move i s ((setup.viewer i).cancelOperation s) ∧
      Present setup i o ((setup.viewer i).cancelOperation s) ∧
      K ((setup.viewer i).cancelOperation s) :=
  ⟨hg.toPresent.move hs (acts_cancel hg.toPresent hs hg.running),
    hg.toPresent.setView hg.present, hK.own (s := s) rfl hKs⟩

theorem move_unlock_cancel (hg : Guarded setup i o s) (hs : Consistent setup s)
    (hKs : K s) (hholder : (s.views (setup.view i)).holder = some i) :
    (viewing setup).Move i s ((setup.viewer i).cancelOperation ((setup.viewer i).unlock s)) ∧
      Present setup i o ((setup.viewer i).cancelOperation ((setup.viewer i).unlock s)) ∧
      K ((setup.viewer i).cancelOperation ((setup.viewer i).unlock s)) := by
  have hunlock := hg.toPresent.move hs (acts_unlock hg.toPresent hs hholder)
  have hguarded : Guarded setup i o ((setup.viewer i).unlock s) := by
    refine ⟨hg.toPresent.setView hg.present, ?_⟩
    show i ∈ ((s.setView (setup.view i) _).views (setup.view i)).running
    rw [setView_same]
    exact hg.running
  obtain ⟨hcancel, hrest⟩ := move_cancel hK hguarded hunlock.inv (hK.own (s := s) rfl hKs)
  exact ⟨hunlock.trans hcancel, hrest⟩

theorem runs_begin (hp : Present setup i o s) (hs : K s) {allowClosed : Bool}
    (hallow : allowClosed = true → ∀ t, K t →
      ∃ handle state, Held setup i handle state t ∧ state.closed = false) (syscall : String) :
    Runs setup i o K ((setup.viewer i).begin allowClosed syscall)
      (fun result t => ∀ u, result = .ok u → i ∈ (t.views (setup.view i)).running) s := by
  refine .bind (P := fun result t => ∀ current ttlMs, result = .ok (current, ttlMs) →
    Renewing setup i o current t ∧ i ∈ (t.views (setup.view i)).running) ?_
    (fun held t hpt hKt ht => ?_) (fun _ _ _ _ h => by cases h)
  · refine runs_locked hK.kept hp hs fun t hrely hinv hpt hKt hfree => ?_
    cases hcheck : Viewer.checkBegin allowClosed syscall (t.views (setup.view i)) with
    | error e =>
      dsimp only
      refine ⟨?_, hpt.present, nofun⟩
      exact acts_setView hpt hinv (hpt.tracks hinv) rfl fun _ _ => .refl _ _ _
    | ok =>
      have hpin := (checkBegin_eq_ok hcheck).2.2
      have hthaw := not_frozen_of_checkBegin hcheck fun hclosed => by
        obtain ⟨handle, _, hheld, hopen⟩ := hallow hclosed t hKt
        exact (hpt.tracks hinv).pos_of_holder (hheld.counted hinv hopen)
      refine ⟨acts_begin hpt hinv rfl hfree hthaw, hpt.present, fun c ttlMs h => ?_⟩
      cases h
      refine ⟨⟨⟨hpt.opened, ?_, hpt.issued⟩, ?_, ?_, ?_⟩, ?_⟩ <;> rw [setView_same]
      · exact hpt.present
      · rfl
      · exact hpin
      · exact List.mem_cons_self
  · obtain ⟨current, ttlMs⟩ := held
    obtain ⟨hrenewing, hrunning⟩ := ht current ttlMs rfl
    refine wp_bind (Q := fun _ u => Present setup i o u ∧ K u ∧
      (True → i ∈ (u.views (setup.view i)).running)) (wp_onDrop
        (wp_renewHeld hK hKt hrenewing ttlMs syscall True fun _ => hrunning)
        fun _ u hinv hu => move_unlock_cancel hK ⟨hu.1.toPresent, hu.2.2 trivial⟩ hinv hu.2.1
          hu.1.holder) (fun answer u hu => ?_) (fun e u hu => ⟨hu.1, hu.2.1, nofun⟩)
    obtain ⟨hpu, hKu, hrunu⟩ := hu
    have hguarded : Guarded setup i o u := ⟨hpu, hrunu trivial⟩
    cases answer with
    | ok _ => exact runs_pure hpu hKu fun _ _ => hrunu trivial
    | error e =>
      refine Runs.bind (P := fun _ _ => True) (wp_commit (fun w hrely hinv => ?_)
        (fun w hrely hinv => move_cancel hK (hguarded.respects hrely) hinv
          (hK.respects hrely hKu))) (fun _ w hpw hKw _ => ?_) fun _ _ _ _ h => by cases h
      · obtain ⟨hmove, hpw, hKw⟩ := move_cancel hK (hguarded.respects hrely) hinv
          (hK.respects hrely hKu)
        exact ⟨hmove, hpw, hKw, trivial⟩
      · exact .attempt_bind (runs_close hK.kept hpw hKw)
          fun _ x hpx hKx _ => runs_fail hpx hKx nofun

theorem runs_renew (hp : Present setup i o s) (hs : K s) (ttlMs : ℕ) :
    Runs setup i o K ((setup.viewer i).renew ttlMs) (fun _ _ => True) s := by
  refine .bind (P := fun result t => ∀ current, result = .ok current →
    Renewing setup i o current t) ?_ (fun current t hpt hKt ht => ?_) fun _ _ _ => trivial
  · refine runs_locked hK.kept hp hs fun t hrely hinv hpt hKt hfree => ?_
    cases hcheck : Viewer.checkBegin false "renew view" (t.views (setup.view i)) with
    | error e =>
      dsimp only
      refine ⟨?_, hpt.present, nofun⟩
      exact acts_setView hpt hinv (hpt.tracks hinv) rfl fun _ _ => .refl _ _ _
    | ok =>
      have hpin := (checkBegin_eq_ok hcheck).2.2
      have hthaw := not_frozen_of_checkBegin hcheck (by simp)
      refine ⟨acts_hold hpt hinv rfl hfree hthaw, hpt.present, fun c h => ?_⟩
      cases h
      refine ⟨⟨hpt.opened, ?_, hpt.issued⟩, ?_, ?_, ?_⟩ <;> rw [setView_same]
      · exact hpt.present
      · rfl
      · exact hpin
  · refine wp_bind (Q := fun _ u => Present setup i o u ∧ K u ∧
      (False → i ∈ (u.views (setup.view i)).running)) (wp_onDrop
        (wp_renewHeld hK hKt (ht current rfl) ttlMs _ False fun h => h.elim)
        fun _ u hinv hu => ?_) (fun answer u hu => ?_) (fun e u hu => ⟨hu.1, hu.2.1, trivial⟩)
    · refine ⟨hu.1.toPresent.move hinv (acts_unlock hu.1.toPresent hinv hu.1.holder),
        ⟨hu.1.opened, ?_, hu.1.issued⟩, hK.own (s := u) rfl hu.2.1⟩
      show ((u.setView (setup.view i) _).views (setup.view i)).present = true
      rw [setView_same]
      exact hu.1.present
    · cases answer with
      | ok _ => exact runs_pure hu.1 hu.2.1 trivial
      | error e =>
        exact Runs.attempt_bind (runs_close hK.kept hu.1 hu.2.1)
          fun _ x hpx hKx _ => runs_fail hpx hKx trivial

end

end MountRs.Versioned.View
