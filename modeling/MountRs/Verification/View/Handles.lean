import MountRs.Verification.View.Steps

/-! # Handles and the opening of views -/

namespace MountRs.Versioned.View

open Discipline Memory Function ViewWorld List

variable {setup : ViewSetup} {i : ℕ} {o : Opening} {s t : ViewWorld}

/-! ## Handles -/

/-- A handle of the view of a task, with its mutex held by the task. -/
structure Held (setup : ViewSetup) (i handle : ℕ) (state : HandleState) (world : ViewWorld) : Prop
    where
  handle : world.handles handle = some state
  view : state.view = setup.view i
  holder : state.holder = some i

variable {handle : ℕ} {state : HandleState}

section

variable (h : Held setup i handle state s)
include h

theorem Held.respects (hrely : Respects setup i s t) : Held setup i handle state t := by
  obtain ⟨_, hstate', _, hheld⟩ := hrely.handle handle state h.handle
  rw [hheld h.holder] at hstate'
  exact ⟨hstate', h.view, h.holder⟩

theorem Held.counted (hs : Consistent setup s) (hclosed : state.closed = false) :
    handle ∈ (s.views (setup.view i)).holders := by
  have hcounted := (hs.handles handle state h.handle).2 hclosed
  rwa [h.view] at hcounted

theorem Held.other (j : ℕ) (hj : j ≠ i) : state.holder ≠ some j := by
  rw [h.holder]
  exact fun heq => hj (Option.some.inj heq).symm

end

theorem setHandle_same (world : ViewWorld) (handle : ℕ) (state : HandleState) :
    (world.setHandle handle state).handles handle = some state := update_self ..

theorem map_handles (h : s.handles handle = some state) (f : HandleState → HandleState) :
    (fun other => if other = handle then (s.handles other).map f else s.handles other) =
      update s.handles handle (some (f state)) := by
  funext other
  by_cases hother : other = handle
  · subst hother
    simp [h]
  · simp [hother]

theorem closeHandle_eq (h : s.handles handle = some state) :
    s.closeHandle handle = s.setHandle handle { state with closed := true } := by
  rw [closeHandle, map_handles h]
  rfl

theorem keepsHandles_set (hs : Consistent setup s)
    (hhandles : t.handles = update s.handles handle (some state))
    (hmade : s.handles handle = none → handle = i)
    (hbefore : ∀ before, s.handles handle = some before →
      before.view = setup.view i ∧ ∀ j, j ≠ i → before.holder ≠ some j)
    (hview : state.view = setup.view i)
    (hviews : ∀ u, u ≠ setup.view i → t.views u = s.views u)
    (hpresent : (t.views (setup.view i)).present = true)
    (hholders : ∀ h ∈ (s.views (setup.view i)).holders, h ≠ handle →
      h ∈ (t.views (setup.view i)).holders)
    (hcounted : state.closed = false → handle ∈ (t.views (setup.view i)).holders) :
    KeepsHandles i s t := by
  refine ⟨fun h other hother => ?_, fun h other hother => ?_, fun j hj hnone => ?_⟩
  · by_cases heq : h = handle
    · subst heq
      obtain ⟨hv, hholder⟩ := hbefore other hother
      exact ⟨state, by rw [hhandles, update_self], hview.trans hv.symm,
        fun j hj hj' => absurd hj' (hholder j hj)⟩
    · exact ⟨other, by rw [hhandles, update_of_ne heq]; exact hother, rfl, fun _ _ _ => rfl⟩
  · by_cases heq : h = handle
    · subst heq
      rw [hhandles, update_self] at hother
      cases hother
      rw [hview]
      exact ⟨hpresent, hcounted⟩
    · rw [hhandles, update_of_ne heq] at hother
      obtain ⟨hp, hc⟩ := hs.handles h other hother
      by_cases hu : other.view = setup.view i
      · rw [hu] at hc ⊢
        exact ⟨hpresent, fun hclosed => hholders h (hc hclosed) heq⟩
      · rw [hviews _ hu]
        exact ⟨hp, hc⟩
  · rw [hhandles, update_of_ne fun heq => hj (heq.trans (hmade (heq ▸ hnone)))]
    exact hnone

theorem acts_acquire (hp : Present setup i o s) (hs : Consistent setup s)
    (hunmade : s.handles i = none) (hopen : (s.views (setup.view i)).invalidated = false ∧
      (s.views (setup.view i)).closed = false) (path : String) :
    Acts setup i (setup.view i) o s ((s.setView (setup.view i) { s.views (setup.view i) with
      handles := (s.views (setup.view i)).handles + 1
      holders := i :: (s.views (setup.view i)).holders }).setHandle i
        { view := setup.view i, path, position := 0, closed := false, holder := none }) := by
  have htracks := hp.tracks hs
  refine acts_update rfl rfl rfl rfl rfl rfl rfl hp.present ?_ (fun _ j _ => ?_) ?_
  · exact ⟨htracks.token, htracks.released, htracks.operations, by simp [htracks.handles],
      htracks.mutex⟩
  · exact
      { Heeds.refl setup s.now o.pin.viewId with
        frozen := fun h => by
          rcases h.2 with hinvalidated | hclosed
          · rw [hopen.1] at hinvalidated
            cases hinvalidated
          · rw [hopen.2] at hclosed
            cases hclosed.1
        settled := fun _ h => by
          rw [Settled, hopen.2] at h
          cases h.1 }
  · refine keepsHandles_set hs rfl (fun _ => rfl) (fun _ h => ?_) rfl
      (fun u hu => setView_other s _ hu) ?_ (fun h hmem _ => ?_) fun _ => ?_
    · rw [hunmade] at h
      cases h
    all_goals rw [show (setHandle _ _ _).views = (s.setView _ _).views from rfl,
      setView_same]
    · exact hp.present
    · exact mem_cons_of_mem _ hmem
    · exact mem_cons_self

/-- A handle is taken from the count and closed, and the pin may be forgotten. Something
releases the pin of a closed view after its last handle. -/
theorem move_forget (hp : Present setup i o s) (hs : Consistent setup s)
    (hfree : (s.views (setup.view i)).holder = none) (hheld : Held setup i handle state s)
    (hopen : state.closed = false) (pin : Option ReadLease)
    (hpin : pin = (s.views (setup.view i)).pin ∨ (pin = none ∧ s.now.entry o.pin.viewId = none))
    (hsettled : (s.views (setup.view i)).closed = true → (s.views (setup.view i)).handles = 1 →
      s.now.Gone o.pin.viewId ∨ (s.views (setup.view i)).operations ≠ 0) :
    let next := (s.setView (setup.view i) { s.views (setup.view i) with
      pin, handles := (s.views (setup.view i)).handles - 1
      holders := (s.views (setup.view i)).holders.erase handle }).closeHandle handle
    (viewing setup).Move i s next ∧ Present setup i o next ∧
      ∃ state, Held setup i handle state next := by
  have htracks := hp.tracks hs
  have hmem := hheld.counted hs hopen
  have hpos := htracks.pos_of_holder hmem
  dsimp only
  rw [closeHandle_eq (s := s.setView _ _) hheld.handle]
  refine ⟨hp.move hs (acts_update rfl rfl rfl rfl rfl rfl rfl hp.present ?_ (fun _ j _ => ?_) ?_),
    ⟨hp.opened, (congrArg ViewLifetime.present (setView_same s _ _)).trans hp.present, hp.issued⟩,
    _, setHandle_same .., hheld.view, hheld.holder⟩
  · refine ⟨fun other hother => ?_, fun hnone => ?_, htracks.operations, ?_, htracks.mutex⟩
    · rcases hpin with rfl | ⟨rfl, _⟩
      · exact htracks.token other hother
      · cases hother
    · rcases hpin with rfl | ⟨_, hentry⟩
      · exact htracks.released hnone
      · exact hentry
    · rw [length_erase_of_mem hmem, htracks.handles]
  · exact
      { Heeds.refl setup s.now o.pin.viewId with
        mutex := fun h => by rw [hfree] at h; cases h
        frozen := fun h =>
          ⟨⟨h.1, .inl (h.2.resolve_right fun hzero => hpos hzero.2.1)⟩, .inl rfl⟩
        settled := fun _ h => ⟨h.1, by
          by_cases hone : (s.views (setup.view i)).handles = 1
          · rcases hsettled h.1 hone with hgone | hops
            · exact .inl hgone
            · exact .inr (.inl hops)
          · refine .inr (.inr (.inl ?_))
            dsimp only
            omega⟩ }
  · refine keepsHandles_set hs rfl (fun h => ?_) (fun before h => ?_) hheld.view
      (fun u hu => setView_other s _ hu) ?_ (fun h hmem hne => ?_) nofun
    · rw [hheld.handle] at h
      cases h
    · cases hheld.handle.symm.trans h
      exact ⟨hheld.view, hheld.other⟩
    all_goals rw [show (setHandle _ _ _).views = (s.setView _ _).views from rfl,
      setView_same]
    · exact hp.present
    · exact (mem_erase_of_ne hne).mpr hmem

theorem acts_setHandle (hp : Present setup i o s) (hs : Consistent setup s)
    {after : HandleState} (hstate : s.handles handle = some state)
    (hold : state.view = setup.view i) (hview : after.view = setup.view i)
    (hclosed : after.closed = state.closed) (hholder : ∀ j, j ≠ i → state.holder ≠ some j) :
    Acts setup i (setup.view i) o s (s.setHandle handle after) := by
  refine acts_update rfl rfl rfl rfl rfl rfl (update_eq_self ..).symm hp.present (hp.tracks hs)
    (fun _ j _ => .refl _ _ _) ?_
  refine keepsHandles_set hs rfl (fun h => ?_) (fun before h => ?_) hview (fun _ _ => rfl)
    hp.present (fun _ h _ => h) fun h => ?_
  · rw [hstate] at h
    cases h
  · cases hstate.symm.trans h
    exact ⟨hold, hholder⟩
  · have hcounted := (hs.handles handle state hstate).2 (hclosed.symm.trans h)
    rwa [hold] at hcounted

/-! ## Opening a view -/

/-- A task has a pin for a view that has not been returned. -/
structure Opening.Pending (setup : ViewSetup) (i : ℕ) (o : Opening) (world : ViewWorld) : Prop where
  view : setup.view i = i
  opened : world.opened i = some o
  absent : (world.views i).present = false
  entry : world.now.entry o.pin.viewId = none ∨ world.now.entry o.pin.viewId = some o.pin

theorem Opening.Pending.respects (h : Opening.Pending setup i o s) (hrely : Respects setup i s t) :
    Opening.Pending setup i o t := by
  obtain ⟨habsent, hopened, hentry⟩ := hrely.own h.absent
  refine ⟨h.view, hopened.trans h.opened, habsent, ?_⟩
  rw [hentry o h.opened]
  exact h.entry

theorem move_openViewPin (hs : Consistent setup s) (hfresh : s.opened i = none)
    {version : VersionId} {options : VersionedOptions}
    (hrequest : setup.requests i = .openView options version) {request : ReadLeaseRequest}
    {pin : ReadLease} {metadata : MetadataState}
    (hcall : s.now.metadata.openViewPin s.now.clockMs version request = .ok (pin, metadata))
    (hnow : t.now = { s.now with metadata }) (hpast : t.past = s.past ++ [s.now])
    (hopened : t.opened = update s.opened i (some ⟨t.moment, pin⟩))
    (hrest : t.views = s.views ∧ t.handles = s.handles ∧ t.touched = s.touched ∧
      t.ran = s.ran ∧ t.renewed = s.renewed) :
    (viewing setup).Move i s t := by
  obtain ⟨hviews, hhandles, htouched, hran, hrenewed⟩ := hrest
  have hfollows : Follows s.now t.now := by rw [hnow]; exact follows_open hcall
  have hunissued := openViewPin_fresh hcall
  obtain ⟨_, _, hversion, hname, hmetadata⟩ := MetadataState.openViewPin_eq_ok hcall
  have hmoment : t.moment = s.moment + 1 := by simp [moment, hpast]
  have hsame : ∀ {u o'}, s.opened u = some o' →
      t.now.entry o'.pin.viewId = s.now.entry o'.pin.viewId := by
    intro u o' ho'
    have hne : o'.pin.viewId ≠ pin.viewId := fun hid => hunissued (hid ▸ (hs.opened u o' ho').1)
    rw [hnow, hmetadata]
    simp only [Moment.entry, BTreeMap.get?_insert, if_neg hne]
  have hother : ∀ {u}, u ≠ i → t.opened u = s.opened u := fun hu => by
    rw [hopened, update_of_ne hu]
  have hown : t.opened i = some ⟨t.moment, pin⟩ := by rw [hopened, update_self]
  have hkept : ∀ {u o'}, s.opened u = some o' → t.opened u = some o' := by
    intro u o' ho'
    rw [hother]
    · exact ho'
    · rintro rfl
      rw [hfresh] at ho'
      cases ho'
  refine ⟨?_, trivial, fun j hj => ?_⟩
  · exact
      { wellKept := hfollows.wellKept hs.wellKept
        opened := fun u o' ho' => by
          by_cases hu : u = i
          · rw [hu, hown] at ho'
            cases ho'
            refine ⟨⟨s.now.metadata.nextReadFence + 1, ?_, ?_⟩, Nat.le_refl _⟩
            · rw [hnow, hmetadata]
            · rw [hnow, hmetadata]
              exact hname
          · rw [hother hu] at ho'
            obtain ⟨hissued, hle⟩ := hs.opened u o' ho'
            exact ⟨hfollows.issued hissued, by omega⟩
        requested := fun u o' ho' => by
          by_cases hu : u = i
          · rw [hu, hown] at ho'
            cases ho'
            exact ⟨options, by rw [hu, hrequest, hversion]⟩
          · rw [hother hu] at ho'
            exact hs.requested u o' ho'
        distinct := fun u w o' o'' hu hw hid => by
          by_cases hui : u = i <;> by_cases hwi : w = i
          · exact hui.trans hwi.symm
          · rw [hui, hown] at hu
            rw [hother hwi] at hw
            cases hu
            exact absurd (hid ▸ (hs.opened w o'' hw).1) hunissued
          · rw [hwi, hown] at hw
            rw [hother hui] at hu
            cases hw
            exact absurd (hid ▸ (hs.opened u o' hu).1) hunissued
          · rw [hother hui] at hu
            rw [hother hwi] at hw
            exact hs.distinct u w o' o'' hu hw hid
        absent := by rw [hviews]; exact hs.absent
        present := fun u hu => by
          rw [hviews] at hu ⊢
          obtain ⟨o', ho', htracks⟩ := hs.present u hu
          exact ⟨o', hkept ho', { htracks with
            token := by rw [hsame ho']; exact htracks.token
            released := by rw [hsame ho']; exact htracks.released }⟩
        handles := by rw [hhandles, hviews]; exact hs.handles
        touched := fun u p hmem => by
          rw [htouched] at hmem
          obtain ⟨o', ho', hid⟩ := hs.touched u p hmem
          exact ⟨o', hkept ho', hid⟩
        since := fun u o' ho' hlive k m hk hm => by
          by_cases hu : u = i
          · rw [hu, hown] at ho'
            cases ho'
            rcases history_step (.inr hpast) hm with hold | ⟨_, rfl⟩
            · have hlt := (List.getElem?_eq_some_iff.mp hold).1
              simp only [history, length_append, length_singleton] at hlt
              simp only [moment] at hk hmoment
              omega
            · exact hlive.protects (hfollows.wellKept hs.wellKept)
          · rw [hother hu] at ho'
            exact since_step hs hfollows (.inr hpast) ho' hlive hk hm
        renewed := fun j r hr => by
          rw [hrenewed] at hr
          obtain ⟨o', ho', hle, hprotects⟩ := hs.renewed j r hr
          refine ⟨o', hkept ho', by omega, fun k m hk hkr hm => ?_⟩
          rcases history_step (.inr hpast) hm with hold | ⟨hlast, _⟩
          · exact hprotects k m hk hkr hold
          · omega }
  · exact
      { follows := hfollows
        moment := by omega
        opened := fun u o' ho' => hkept ho'
        heeds := fun u o' ho' _ => by
          rw [hviews]
          exact { Heeds.refl setup s.now o'.pin.viewId with
            frozen := fun h => ⟨h, .inl (hsame ho')⟩
            settled := fun _ h =>
              ⟨h.1, h.2.imp (fun hg => hfollows.gone (hs.opened u o' ho').1 hg) id⟩ }
        own := fun habsent => ⟨by rw [hviews]; exact habsent, hother hj, fun o' ho' => hsame ho'⟩
        handle := fun h state hstate =>
          ⟨state, by rw [hhandles]; exact hstate, rfl, fun _ => rfl⟩
        unmade := fun h => by rw [hhandles]; exact h
        ran := by rw [hran]
        renewed := by rw [hrenewed] }

theorem acts_load (hs : Consistent setup s) (hpending : Opening.Pending setup i o s) (ttlMs : ℕ) :
    Acts setup i (setup.view i) o s (s.setView (setup.view i) (ViewLifetime.new o.pin ttlMs)) := by
  have habsent := hpending.absent
  rw [hpending.view]
  refine acts_update rfl rfl rfl rfl rfl rfl rfl rfl ⟨fun p hp => ?_, nofun, rfl, rfl, nofun⟩
    (fun h => by rw [habsent] at h; cases h)
    (keepsHandles hs rfl (fun u hu => setView_other s _ hu) (fun h => by rw [habsent] at h; cases h)
      (by rw [hs.absent i habsent]; exact fun _ hmem => by cases hmem))
  cases hp
  exact ⟨rfl, rfl, hpending.entry⟩

end MountRs.Versioned.View
