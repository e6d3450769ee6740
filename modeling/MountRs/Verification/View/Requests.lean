import MountRs.Verification.View.Operations

/-! # Requests for historical views -/

namespace MountRs.Versioned.View

open Discipline Memory Function

variable {setup : ViewSetup} {i : ℕ} {o : Opening} {s t : ViewWorld} {K : ViewWorld → Prop}

/-! ## Handles -/

theorem local_true : Local setup i fun _ => True := ⟨fun _ _ => trivial, fun _ _ => trivial⟩

theorem local_unmade : Local setup i fun world => world.handles i = none :=
  ⟨fun hrely hs => hrely.unmade hs, fun hsame hs => by rw [hsame]; exact hs⟩

variable {handle : ℕ} {state : HandleState}

theorem local_held : Local setup i (Held setup i handle state) :=
  ⟨fun hrely hs => hs.respects hrely, fun hsame hs => ⟨by rw [hsame]; exact hs.handle, hs.view,
    hs.holder⟩⟩

/-- What a request ends with if it succeeds: an operation whose body was covered. -/
def Ok (setup : ViewSetup) (i : ℕ) (world : ViewWorld) : Prop :=
  ∃ o span, world.opened (setup.view i) = some o ∧ o.moment ≤ span.1 ∧ Covered i span world

theorem Ok.respects (h : Ok setup i s) (hrely : Respects setup i s t) : Ok setup i t := by
  obtain ⟨o, span, ho, hle, hran, horder, r, hr, hended⟩ := h
  exact ⟨o, span, hrely.opened _ o ho, hle, hrely.ran.trans hran, horder, r,
    hrely.renewed.trans hr, hended⟩

theorem wp_openFile (hp : Present setup i o s) (hunmade : s.handles i = none) (path : String) :
    (viewing setup).wp i ((setup.viewer i).openFile path)
      (fun result t => ∀ value, result = .ok value → Ok setup i t) (fun _ => True) s := by
  refine wp_bind (wp_mono (runs_begin local_unmade hp hunmade (by simp) "open")
    (fun _ _ h => h) fun _ _ => trivial) (fun _ t ht => ?_) (fun _ _ _ _ h => by cases h)
  obtain ⟨hpt, hKt, hrunning⟩ := ht
  refine wp_bind (wp_mono (runs_operation local_unmade ⟨hpt, hrunning _ rfl⟩ hKt "open")
    (fun _ _ h => h) fun _ _ => trivial) (fun value u hu => ?_) (fun _ _ _ _ h => by cases h)
  obtain ⟨hpu, hKu, hok⟩ := hu
  obtain ⟨span, hcovered, hle⟩ := hok value rfl
  have hOk : Ok setup i u := ⟨o, span, hpu.opened, hle, hcovered⟩
  refine wp_bind (Q := fun _ w => Ok setup i w) (wp_await (fun w hrely hinv hready _ => ?_)
    fun _ _ _ => trivial) (fun _ w hw => wp_pure.mpr fun _ _ => hw) (fun _ _ _ _ h => by cases h)
  have hOkw := hOk.respects hrely
  have hpw := hpu.respects hrely
  dsimp only
  cases hcheck : Viewer.checkBegin false "open" (w.views (setup.viewer i).view) with
  | error e => exact ⟨.refl hinv, hOkw⟩
  | ok =>
    obtain ⟨hvalid, hclosed, -⟩ := checkBegin_eq_ok hcheck
    have hopen : (w.views (setup.view i)).closed = false := by
      by_contra hc
      exact absurd (hclosed (Bool.not_eq_false _ ▸ hc)) (by simp)
    exact ⟨hpw.move hinv (acts_acquire hpw hinv (hrely.unmade hKu) ⟨hvalid, hopen⟩ path), hOkw⟩

/-- A handle of the view of a task. -/
def Mine (setup : ViewSetup) (i handle : ℕ) (world : ViewWorld) : Prop :=
  ∃ state, world.handles handle = some state ∧ state.view = setup.view i

theorem Mine.respects (h : Mine setup i handle s) (hrely : Respects setup i s t) :
    Mine setup i handle t := by
  obtain ⟨state, hstate, hview⟩ := h
  obtain ⟨state', hstate', hview', -⟩ := hrely.handle handle state hstate
  exact ⟨state', hstate', hview'.trans hview⟩

/-- A handle whose mutex the task holds. -/
def Locked (setup : ViewSetup) (i handle : ℕ) (world : ViewWorld) : Prop :=
  ∃ state, Held setup i handle state world

/-- A change of the mutex of a handle. -/
def setHolder (handle : ℕ) (holder : Option ℕ) (world : ViewWorld) : ViewWorld :=
  { world with handles := fun other =>
      if other = handle then (world.handles other).map fun state => { state with holder }
      else world.handles other }

theorem setHolder_eq (h : s.handles handle = some state) (holder : Option ℕ) :
    setHolder handle holder s = s.setHandle handle { state with holder } := by
  rw [setHolder, map_handles h]
  rfl

section

variable (hp : Present setup i o s)
include hp

theorem move_setHolder (hs : Consistent setup s)
    (h : s.handles handle = some state) (hview : state.view = setup.view i) (holder : Option ℕ)
    (hholder : ∀ j, j ≠ i → state.holder ≠ some j) :
    (viewing setup).Move i s (setHolder handle holder s) ∧
      Present setup i o (setHolder handle holder s) := by
  rw [setHolder_eq h]
  exact ⟨hp.move hs (acts_setHandle hp hs h hview hview rfl hholder), hp.opened, hp.present,
    hp.issued⟩

theorem wp_withHandle {α : Type} {p : ViewCall α} {P : Result α → ViewWorld → Prop}
    (hmine : Mine setup i handle s)
    (hP : ∀ result t u, P result t → Respects setup i t u → P result (setHolder handle none u))
    (h : ∀ t state, Held setup i handle state t → Present setup i o t →
      (viewing setup).wp i p (fun result u => Present setup i o u ∧ Locked setup i handle u ∧
        P result u) (fun u => Present setup i o u ∧ Locked setup i handle u) t) :
    (viewing setup).wp i ((setup.viewer i).withHandle handle p) P (fun _ => True) s := by
  have hunlock : ∀ u, Consistent setup u → Present setup i o u → Locked setup i handle u →
      (viewing setup).Move i u (setHolder handle none u) := by
    rintro _ hinv hpu ⟨_, hheld⟩
    exact (move_setHolder hpu hinv hheld.handle hheld.view none hheld.other).1
  refine wp_withLock (Q := fun result u => Present setup i o u ∧ Locked setup i handle u ∧
    P result u) (R := fun u => Present setup i o u ∧ Locked setup i handle u)
    (fun t hrely hinv hfree => ?_) (fun result t u ht hrely hinv => ?_) (fun _ _ _ => trivial)
    fun t hinv ht => ⟨hunlock t hinv ht.1 ht.2, trivial⟩
  · obtain ⟨state, hstate, hview⟩ := hmine.respects hrely
    have hnone : state.holder = none := by simpa [hstate] using hfree
    obtain ⟨hmove, hpt⟩ := move_setHolder (hp.respects hrely) hinv hstate hview
      (some i) fun j _ heq => by rw [hnone] at heq; cases heq
    refine ⟨hmove, h _ { state with holder := some i } ⟨?_, hview, rfl⟩ hpt⟩
    show (setHolder handle (some i) t).handles handle = _
    rw [setHolder_eq hstate, setHandle_same]
  · obtain ⟨hpt, ⟨state, hheld⟩, hPt⟩ := ht
    exact ⟨hunlock u hinv (hpt.respects hrely) ⟨state, hheld.respects hrely⟩,
      hP result t u hPt hrely, trivial⟩

theorem wp_handleState (hheld : Held setup i handle state s) :
    (viewing setup).wp i (Viewer.handleState handle)
      (fun result t => Present setup i o t ∧ Held setup i handle state t ∧
        result = .ok (some state))
      (fun t => Present setup i o t ∧ Locked setup i handle t) s :=
  wp_atomic (fun _ hrely hinv _ => ⟨.refl hinv, hp.respects hrely, hheld.respects hrely,
      congrArg Except.ok (hheld.respects hrely).handle⟩)
    fun _ hrely _ => ⟨hp.respects hrely, state, hheld.respects hrely⟩

theorem wp_useHandle (hmine : Mine setup i handle s) (syscall : String) (moves : Bool) :
    (viewing setup).wp i ((setup.viewer i).useHandle handle syscall moves)
      (fun result t => ∀ value, result = .ok value → Ok setup i t) (fun _ => True) s := by
  refine wp_withHandle hp hmine (fun result t u h hrely value hvalue =>
    show Ok setup i u from (h value hvalue).respects hrely) fun t state hheld hpt => ?_
  refine wp_bind (wp_handleState hpt hheld) (fun found u hu => ?_)
    fun e u hu => by cases hu.2.2
  obtain ⟨hpu, hheldu, hfound⟩ := hu
  cases hfound
  dsimp only
  split
  · exact wp_fail.mpr ⟨hpu, ⟨state, hheldu⟩, fun _ h => by cases h⟩
  rename_i hclosed
  have hopen : state.closed = false := by simpa using hclosed
  have hdrop : ∀ w, Present setup i o w ∧ Held setup i handle state w →
      Present setup i o w ∧ Locked setup i handle w := fun w hw => ⟨hw.1, state, hw.2⟩
  refine wp_bind (wp_mono (runs_begin local_held hpu hheldu
    (fun _ w hw => ⟨handle, state, hw, hopen⟩) syscall) (fun _ _ h => h) hdrop)
    (fun _ w hw => ?_) fun e w hw => ⟨hw.1, ⟨state, hw.2.1⟩, fun _ h => by cases h⟩
  obtain ⟨hpw, hheldw, hrunning⟩ := hw
  refine wp_bind (wp_mono (runs_operation local_held ⟨hpw, hrunning _ rfl⟩ hheldw syscall)
    (fun _ _ h => h) hdrop) (fun count x hx => ?_)
    fun e x hx => ⟨hx.1, ⟨state, hx.2.1⟩, fun _ h => by cases h⟩
  obtain ⟨hpx, hheldx, hok⟩ := hx
  obtain ⟨span, hcovered, hle⟩ := hok count rfl
  have hOk : Ok setup i x := ⟨o, span, hpx.opened, hle, hcovered⟩
  split
  · split
    · exact wp_fail.mpr ⟨hpx, ⟨state, hheldx⟩, fun _ h => by cases h⟩
    · rename_i position _
      -- The handle moves on, and stays locked.
      have hset : ∀ y, Respects setup i x y → Consistent setup y →
          (viewing setup).Move i y (y.setHandle handle { state with position, holder := some i }) ∧
            Present setup i o (y.setHandle handle { state with position, holder := some i }) ∧
            Locked setup i handle
              (y.setHandle handle { state with position, holder := some i }) := by
        intro y hrely hinv
        have hpy := hpx.respects hrely
        have hheldy := hheldx.respects hrely
        exact ⟨hpy.move hinv (acts_setHandle hpy hinv hheldy.handle hheldy.view hheldy.view rfl
          hheldy.other), ⟨hpy.opened, hpy.present, hpy.issued⟩, _, setHandle_same .., hheldy.view,
          rfl⟩
      refine wp_commit (fun y hrely hinv => ?_) hset
      obtain ⟨hmove, hpy, hlocked⟩ := hset y hrely hinv
      exact ⟨hmove, hpy, hlocked, fun _ _ => show Ok setup i y from hOk.respects hrely⟩
  · exact wp_pure.mpr ⟨hpx, ⟨state, hheldx⟩, fun _ _ => hOk⟩

end

variable {lifetime : ViewLifetime}

theorem forgetHandle_setView (pin : Option ReadLease) : (setup.viewer i).forgetHandle handle
      (s.setView (setup.view i) { s.views (setup.view i) with pin }) =
    (s.setView (setup.view i) { s.views (setup.view i) with
      pin, handles := (s.views (setup.view i)).handles - 1
      holders := (s.views (setup.view i)).holders.erase handle }).closeHandle handle := by
  simp [Viewer.forgetHandle, ViewSetup.viewer, ViewWorld.setView]

theorem wp_releaseHandle (hp : Present setup i o s) (hheld : Held setup i handle state s)
    (hopen : state.closed = false) :
    (viewing setup).wp i ((setup.viewer i).releaseHandle handle)
      (fun _ t => Present setup i o t ∧ Locked setup i handle t ∧ True)
      (fun t => Present setup i o t ∧ Locked setup i handle t) s := by
  have hdrop : ∀ t, Respects setup i s t → Consistent setup t →
      Present setup i o t ∧ Locked setup i handle t := fun t hrely _ =>
    ⟨hp.respects hrely, state, hheld.respects hrely⟩
  refine wp_bind (Q := fun result t => Present setup i o t ∧ Locked setup i handle t ∧
    ∀ pin, result = .ok (some pin) → Held setup i handle state t ∧
      pin.viewId = o.pin.viewId ∧ pin.version = o.pin.version)
    (wp_await (fun t hrely hinv hready _ => ?_) hdrop) (fun pin t ht => ?_)
    (fun e t ht => ⟨ht.1, ht.2.1, trivial⟩)
  · have hpt := hp.respects hrely
    have hheldt := hheld.respects hrely
    have htracks := hpt.tracks hinv
    have hpos := htracks.pos_of_holder (hheldt.counted hinv hopen)
    have hfree : (t.views (setup.view i)).holder = none := Option.isNone_iff_eq_none.mp hready
    dsimp only
    rw [if_neg (show ¬ (t.views (setup.viewer i).view).handles = 0 from hpos)]
    dsimp only
    generalize hlast : (if ((t.views (setup.viewer i).view).closed = true ∨
        (t.views (setup.viewer i).view).invalidated = true) ∧
        (t.views (setup.viewer i).view).handles = 1 ∧
        (t.views (setup.viewer i).view).operations = 0 then (t.views (setup.viewer i).view).pin
        else none) = last
    cases last with
    | none =>
      have hforget := move_forget hpt hinv hfree hheldt hopen _ (.inl rfl) fun hc hone => ?_
      · exact ⟨hforget.1, hforget.2.1, hforget.2.2, fun _ h => by cases h⟩
      · by_cases hops : (t.views (setup.view i)).operations = 0
        · have hpin : (t.views (setup.view i)).pin = none := by
            rwa [if_pos ⟨.inl hc, hone, hops⟩] at hlast
          exact .inl (Moment.gone_of_none (htracks.released hpin))
        · exact .inr hops
    | some pin =>
      refine ⟨.refl hinv, hpt, ⟨state, hheldt⟩, fun other hother => ⟨hheldt, ?_⟩⟩
      cases hother
      split_ifs at hlast
      obtain ⟨hid, hversion, -⟩ := htracks.token pin hlast
      exact ⟨hid, hversion⟩
  · obtain ⟨hpt, hlocked, hpin⟩ := ht
    cases pin with
    | none => exact wp_pure.mpr ⟨hpt, hlocked, trivial⟩
    | some pin =>
      obtain ⟨hheldt, hids⟩ := hpin pin rfl
      refine wp_bind (wp_mono (runs_releasePin False False local_held.kept hpt hheldt hids
        (fun h => h.elim) (fun h => h.elim)) (fun _ _ h => h)
        fun u hu => ⟨hu.1, state, hu.2⟩) (fun _ u hu => ?_)
        (fun e u hu => ⟨hu.1, ⟨state, hu.2.1⟩, trivial⟩)
      obtain ⟨hpu, hheldu, hreleased, -⟩ := hu
      refine wp_await (fun w hrely hinv hready _ => ?_)
        fun w hrely _ => ⟨hpu.respects hrely, state, hheldu.respects hrely⟩
      have hpw := hpu.respects hrely
      have hheldw := hheldu.respects hrely
      have hfree : (w.views (setup.view i)).holder = none := Option.isNone_iff_eq_none.mp hready
      have hentry : w.now.entry o.pin.viewId = none := hrely.follows.none hpu.issued hreleased
      have hforget := move_forget hpw hinv hfree hheldw hopen
        (if (w.views (setup.view i)).pin = some pin then none else (w.views (setup.view i)).pin)
        (by split_ifs; exacts [.inr ⟨rfl, hentry⟩, .inl rfl])
        fun _ _ => .inl (Moment.gone_of_none hentry)
      rw [← forgetHandle_setView] at hforget
      exact ⟨hforget.1, hforget.2.1, hforget.2.2, trivial⟩

theorem wp_closeFile (hp : Present setup i o s) (hmine : Mine setup i handle s) :
    (viewing setup).wp i ((setup.viewer i).closeFile handle) (fun _ _ => True) (fun _ => True)
      s := by
  refine wp_withHandle hp hmine (fun _ _ _ _ _ => trivial) fun t state hheld hpt => ?_
  refine wp_bind (wp_handleState hpt hheld) (fun found u hu => ?_)
    fun e u hu => by cases hu.2.2
  obtain ⟨hpu, hheldu, hfound⟩ := hu
  cases hfound
  dsimp only
  split
  · exact wp_pure.mpr ⟨hpu, ⟨state, hheldu⟩, trivial⟩
  · rename_i hclosed
    exact wp_releaseHandle hpu hheldu (by simpa using hclosed)

/-! ## Views -/

variable {options : VersionedOptions}

theorem wp_openViewPin {id : VersionId} (hrequest : setup.requests i = .openView options id)
    (habsent : (s.views i).present = false) (hunopened : s.opened i = none) :
    (viewing setup).wp i ((setup.viewer i).openViewPin options id)
      (fun result t => ∀ pin, result = .ok pin → ∃ o, o.pin = pin ∧ Opening.Pending setup i o t)
      (fun _ => True) s := by
  refine wp_atomic (fun t hrely hinv _ => ?_) fun _ _ _ => trivial
  obtain ⟨habsentt, hopenedt, -⟩ := hrely.own habsent
  have hview : setup.view i = i := by simp only [ViewSetup.view, hrequest]
  dsimp only
  split
  · rename_i pin metadata hcall
    obtain ⟨-, -, -, -, hmetadata⟩ := MetadataState.openViewPin_eq_ok hcall
    have hentry : metadata.pins.get? pin.viewId = some pin := by
      rw [hmetadata, BTreeMap.get?_insert_self]
    exact ⟨move_openViewPin hinv (hopenedt.trans hunopened) hrequest hcall rfl rfl rfl
      ⟨rfl, rfl, rfl, rfl, rfl⟩, fun other hother => ⟨⟨(t.advance { t.now with metadata }).moment,
        pin⟩, Except.ok.inj hother, hview, update_self .., habsentt, .inr hentry⟩⟩
  · exact ⟨.refl hinv, fun _ h => by cases h⟩

theorem wp_loadView {id : VersionId} (hpending : Opening.Pending setup i o s) :
    (viewing setup).wp i ((setup.viewer i).loadView options id o.pin)
      (fun result t => ∀ loaded, result = .ok loaded → loaded ≠ .ok true →
        Opening.Pending setup i o t) (fun _ => True) s := by
  refine wp_atomic (fun t hrely hinv _ => ?_) fun _ _ _ => trivial
  have hpt := hpending.respects hrely
  split
  · exact ⟨.refl hinv, fun _ _ _ => hpt⟩
  · split
    · have hopened : t.opened (setup.view i) = some o := by rw [hpt.view]; exact hpt.opened
      exact ⟨(acts_load hinv hpt options.viewTtlMs).move hinv hopened (.inr hpt.view),
        fun loaded hloaded hne => absurd (Except.ok.inj hloaded).symm hne⟩
    · exact ⟨.refl hinv, fun _ _ _ => hpt⟩

theorem wp_closePending (hpending : Opening.Pending setup i o s) :
    (viewing setup).wp i ((setup.viewer i).closePin o.pin) (fun _ _ => True) (fun _ => True) s :=
  wp_closePin (fun t hrely _ => by
    have hpt := hpending.respects hrely
    exact ⟨by rw [hpt.view]; exact hpt.opened, .inr hpt.view⟩) rfl
    (fun _ _ _ _ _ _ _ => trivial) fun _ _ _ => trivial

theorem wp_openView {id : VersionId} (hrequest : setup.requests i = .openView options id)
    (habsent : (s.views i).present = false) (hunopened : s.opened i = none) :
    (viewing setup).wp i ((setup.viewer i).openView options id) (fun _ _ => True)
      (fun _ => True) s := by
  refine wp_bind (wp_openViewPin hrequest habsent hunopened) (fun pin t ht => ?_)
    fun _ _ _ => trivial
  obtain ⟨o, rfl, hpending⟩ := ht pin rfl
  refine wp_bind (wp_loadView hpending) (fun loaded u hu => ?_) fun _ _ _ => trivial
  match loaded with
  | .error e =>
    exact wp_attempt_bind (wp_closePending (hu _ rfl (by simp)))
      fun _ _ _ => wp_fail.mpr trivial
  | .ok false =>
    exact wp_bind (wp_closePending (hu _ rfl (by simp))) (fun _ _ _ => wp_fail.mpr trivial)
      fun _ _ _ => trivial
  | .ok true => exact wp_pure.mpr trivial

theorem wp_runSpawned (hp : Present setup i o s) :
    (viewing setup).wp i (setup.viewer i).runSpawned (fun _ _ => True) (fun _ => True) s := by
  refine wp_bind (Q := fun _ t => Present setup i o t) (wp_await (fun t hrely hinv _ _ => ?_)
    fun _ _ _ => trivial) (fun _ t hpt => ?_) (fun _ _ _ => trivial)
  · have hpt := hp.respects hrely
    exact ⟨hpt.move hinv (acts_take hpt hinv rfl), hpt.setView hpt.present⟩
  · refine wp_attempt_bind (wp_onDrop (runs_close local_true.kept hpt trivial)
      fun _ u hinv hu => ?_) (fun _ u hu => ?_)
    · exact ⟨(move_schedule local_true.kept { setup.viewer i with runtime := true } rfl rfl
        (fun _ => rfl) hu.1 hinv trivial).1, trivial⟩
    · obtain ⟨hpu, -, -, hended⟩ := hu
      have hmove : ∀ w, Respects setup i u w → Consistent setup w → (viewing setup).Move i w
          (w.setView (setup.view i) { w.views (setup.view i) with
            cleaning := (w.views (setup.view i)).cleaning.filter (· ≠ i) }) := by
        intro w hrely hinv
        have hpw := hpu.respects hrely
        refine hpw.move hinv (acts_ended hpw hinv rfl fun hmem => hpu.gone hrely (hended ?_))
        exact (hpu.heeds hrely).cleaning.mp hmem
      exact wp_commit (fun w hrely hinv => ⟨hmove w hrely hinv, trivial⟩)
        fun w hrely hinv => ⟨hmove w hrely hinv, trivial⟩

end MountRs.Versioned.View
