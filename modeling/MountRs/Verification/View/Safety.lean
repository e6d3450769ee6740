import MountRs.Verification.Storage.Validation
import MountRs.Verification.View.Requests

/-! # The safety of historical views

Every schedule of requests, drops, provider calls and ticks of the clock keeps what the
tasks of historical views rely on. -/

namespace MountRs.Versioned.View

open Discipline Memory

variable {setup : ViewSetup} {i : ℕ} {o : Opening} {s t : ViewWorld}

/-! ## Disturbances -/

/-- A disturbance leaves the pins, the handles and the records alone. -/
structure Disturbed (setup : ViewSetup) (s t : ViewWorld) : Prop where
  follows : Follows s.now t.now
  history : (t.now = s.now ∧ t.past = s.past) ∨ t.past = s.past ++ [s.now]
  entry : ∀ id, t.now.entry id = s.now.entry id
  absent : ∀ v, (s.views v).present = false → t.views v = s.views v
  present : ∀ v, (t.views v).present = (s.views v).present
  holders : ∀ v, (t.views v).holders = (s.views v).holders
  tracks : ∀ v pin, Tracks s.now pin (s.views v) → Tracks s.now pin (t.views v)
  heeds : ∀ v j id, Heeds setup j s.now s.now id (s.views v) (t.views v)
  handles : t.handles = s.handles
  opened : t.opened = s.opened
  touched : t.touched = s.touched
  ran : t.ran = s.ran
  renewed : t.renewed = s.renewed

theorem Disturbed.consistent (hs : Consistent setup s) (h : Disturbed setup s t) :
    Consistent setup t where
  wellKept := h.follows.wellKept hs.wellKept
  opened v o ho := by
    rw [h.opened] at ho
    obtain ⟨hissued, hmoment⟩ := hs.opened v o ho
    exact ⟨h.follows.issued hissued, hmoment.trans (moment_le h.history)⟩
  requested v o ho := by
    rw [h.opened] at ho
    exact hs.requested v o ho
  distinct u v o o' := by
    rw [h.opened]
    exact hs.distinct u v o o'
  absent v hv := by
    rw [h.present] at hv
    rw [h.absent v hv]
    exact hs.absent v hv
  present v hv := by
    rw [h.present] at hv
    obtain ⟨o, ho, htracks⟩ := hs.present v hv
    refine ⟨o, by rw [h.opened]; exact ho, ?_⟩
    have hnext := h.tracks v o.pin htracks
    exact { hnext with
      token := by rw [h.entry]; exact hnext.token
      released := by rw [h.entry]; exact hnext.released }
  handles handle state hstate := by
    rw [h.handles] at hstate
    rw [h.present, h.holders]
    exact hs.handles handle state hstate
  touched v pin hmem := by
    rw [h.touched] at hmem
    rw [h.opened]
    exact hs.touched v pin hmem
  since v o ho hlive k m hk hm := by
    rw [h.opened] at ho
    exact since_step hs h.follows h.history ho hlive hk hm
  renewed j r hr := by
    rw [h.renewed] at hr
    obtain ⟨o, ho, hle, hprotects⟩ := hs.renewed j r hr
    refine ⟨o, by rw [h.opened]; exact ho, hle.trans (moment_le h.history), fun k m hk hkr hm => ?_⟩
    rcases history_step h.history hm with hold | ⟨hmoment, _⟩
    · exact hprotects k m hk hkr hold
    · omega

theorem Disturbed.respects (hs : Consistent setup s) (h : Disturbed setup s t) (j : ℕ) :
    Respects setup j s t where
  follows := h.follows
  moment := moment_le h.history
  opened v o ho := by rw [h.opened]; exact ho
  heeds v o ho _ := by
    have hheeds := h.heeds v j o.pin.viewId
    exact { hheeds with
      frozen := fun hf => ⟨(hheeds.frozen hf).1, .inl (h.entry _)⟩
      settled := fun hr hset =>
        ⟨(hheeds.settled hr hset).1, (hheeds.settled hr hset).2.imp
          (fun hg => h.follows.gone (hs.opened v o ho).1 hg) id⟩ }
  own hown := ⟨by rw [h.present]; exact hown, by rw [h.opened], fun _ _ => h.entry _⟩
  handle handle state hstate :=
    ⟨state, by rw [h.handles]; exact hstate, rfl, fun _ => rfl⟩
  unmade hnone := by rw [h.handles]; exact hnone
  ran := by rw [h.ran]
  renewed := by rw [h.renewed]

theorem disturbed_advance {next : Moment} (hfollows : Follows s.now next)
    (hentry : ∀ id, next.entry id = s.now.entry id) : Disturbed setup s (s.advance next) where
  follows := hfollows
  history := .inr rfl
  entry := hentry
  absent _ _ := rfl
  present _ := rfl
  holders _ := rfl
  tracks _ _ h := h
  heeds _ _ _ := .refl _ _ _
  handles := rfl
  opened := rfl
  touched := rfl
  ran := rfl
  renewed := rfl

theorem Disturbed.refl (s : ViewWorld) : Disturbed setup s s where
  follows := .refl _
  history := .inl ⟨rfl, rfl⟩
  entry _ := rfl
  absent _ _ := rfl
  present _ := rfl
  holders _ := rfl
  tracks _ _ h := h
  heeds _ _ _ := .refl _ _ _
  handles := rfl
  opened := rfl
  touched := rfl
  ran := rfl
  renewed := rfl

variable {lifetime : ViewLifetime} {index previous : ℕ}

theorem heeds_dropped (j : ℕ) (now : Moment) (id : String)
    (hprevious : lifetime.dropping[index]? = some previous) :
    Heeds setup j now now id lifetime { lifetime with
      invalidated := true, dropping := lifetime.dropping.eraseIdx index
      spawned := if previous = 1 ∧ setup.runtime = true then lifetime.spawned + 1
        else lifetime.spawned } := by
  refine { Heeds.refl setup now id with
    frozen := fun h => ⟨⟨h.1, .inl rfl⟩, .inl rfl⟩
    settled := fun hr h => ⟨h.1, ?_⟩ }
  rcases h.2 with hgone | hops | hhandles | hspawned | hdropping | hcleaning
  · exact .inl hgone
  · exact .inr (.inl hops)
  · exact .inr (.inr (.inl hhandles))
  · refine .inr (.inr (.inr (.inl ?_)))
    dsimp only
    split_ifs
    · exact Nat.succ_ne_zero _
    · exact hspawned
  · by_cases hone : previous = 1
    · refine .inr (.inr (.inr (.inl ?_)))
      dsimp only
      rw [if_pos ⟨hone, hr⟩]
      exact Nat.succ_ne_zero _
    · refine .inr (.inr (.inr (.inr (.inl ?_))))
      obtain ⟨k, hk⟩ := List.mem_iff_getElem?.mp hdropping
      refine List.mem_eraseIdx_iff_getElem?.mpr ⟨k, fun heq => hone ?_, hk⟩
      rw [heq, hprevious] at hk
      exact Option.some.inj hk
  · exact .inr (.inr (.inr (.inr (.inr hcleaning))))

theorem disturbed_dropped (hs : Consistent setup s) {v : ℕ}
    (hprevious : (s.views v).dropping[index]? = some previous) :
    Disturbed setup s (s.setView v { s.views v with
      invalidated := true, dropping := (s.views v).dropping.eraseIdx index
      spawned := if previous = 1 ∧ setup.runtime = true then (s.views v).spawned + 1
        else (s.views v).spawned }) := by
  have hpresent : (s.views v).present = true := by
    by_contra habsent
    rw [hs.absent v (by simpa using habsent)] at hprevious
    cases hprevious
  refine
    { follows := .refl _
      history := .inl ⟨rfl, rfl⟩
      entry := fun _ => rfl
      absent := fun u hu => ?_
      present := fun u => ?_
      holders := fun u => ?_
      tracks := fun u pin h => ?_
      heeds := fun u j id => ?_
      handles := rfl
      opened := rfl
      touched := rfl
      ran := rfl
      renewed := rfl }
  · refine setView_other _ _ fun heq => ?_
    rw [heq, hpresent] at hu
    cases hu
  all_goals by_cases heq : u = v
  · rw [heq, setView_same]
  · rw [setView_other _ _ heq]
  · rw [heq, setView_same]
  · rw [setView_other _ _ heq]
  · rw [heq] at h
    rw [heq, setView_same]
    exact ⟨h.token, h.released, h.operations, h.handles, h.mutex⟩
  · rw [setView_other _ _ heq]
    exact h
  · rw [heq, setView_same]
    exact heeds_dropped j _ id hprevious
  · rw [setView_other _ _ heq]
    exact .refl _ _ _

theorem disturb_disturbed (hs : Consistent setup s) (disturbance : ViewSetup.Disturbance) :
    Disturbed setup s (setup.disturb disturbance s) := by
  cases disturbance with
  | clock => exact disturbed_advance (follows_clock _ _) fun _ => rfl
  | store call =>
    simp only [ViewSetup.disturb]
    split
    · rename_i metadata hcall
      obtain ⟨hfollows, hpins⟩ := follows_store hcall
      exact disturbed_advance hfollows fun id => by simp only [Moment.entry, hpins]
    · exact .refl s
  | dropped v index =>
    simp only [ViewSetup.disturb]
    split
    · exact .refl s
    · rename_i previous hprevious
      exact disturbed_dropped hs hprevious

/-! ## Requests -/

/-- The requests that succeed only if an operation does. -/
def operates : ViewRequest → Bool
  | .operate _ _ | .openFile _ _ | .useHandle _ _ _ _ => true
  | _ => false

/-- What the answer of a task says about the world. -/
structure Answered (setup : ViewSetup) (i : ℕ) (result : Result ℕ) (world : ViewWorld) : Prop where
  operated : operates (setup.requests i) = true → ∀ value, result = .ok value → Ok setup i world
  closed : setup.runtime = true → ∀ v, setup.requests i = .close v → ∃ o,
    Present setup i o world ∧ Settled world.now o.pin.viewId (world.views (setup.view i))

variable {result : Result ℕ}

theorem Answered.respects (h : Answered setup i result s) (hrely : Respects setup i s t) :
    Answered setup i result t := by
  refine ⟨fun hop value hvalue => (h.operated hop value hvalue).respects hrely,
    fun hr v hclose => ?_⟩
  obtain ⟨o, hp, hsettled⟩ := h.closed hr v hclose
  exact ⟨o, hp.respects hrely, (hp.heeds hrely).settled hr hsettled⟩

theorem answered_trivial (hop : operates (setup.requests i) = false)
    (hclose : ∀ v, setup.requests i ≠ .close v) : Answered setup i result s :=
  ⟨(fun h => by rw [hop] at h; cases h), fun _ v h => absurd h (hclose v)⟩

theorem answered_operation (hclose : ∀ v, setup.requests i ≠ .close v)
    (h : ∀ value, result = .ok value → Ok setup i s) : Answered setup i result s :=
  ⟨fun _ => h, fun _ v hv => absurd hv (hclose v)⟩

variable {K : ViewWorld → Prop}

theorem wp_returned (hK : Local setup i K) (hs : K s) : (viewing setup).wp i (setup.returned i)
      (fun result t => result = .ok () ∧ K t ∧ ∃ o, Present setup i o t) (fun _ => True) s := by
  refine wp_await (fun t hrely hinv hready _ => ?_) fun _ _ _ => trivial
  obtain ⟨o, ho, -⟩ := hinv.present _ hready
  exact ⟨.refl hinv, rfl, hK.respects hrely hs, o, ho, hready, (hinv.opened _ o ho).1⟩

variable {handle : ℕ}

theorem wp_ofView (hp : Present setup i o s) : (viewing setup).wp i (setup.ofView i handle)
      (fun result t => result = .ok () ∧ Present setup i o t ∧ Mine setup i handle t)
      (fun _ => True) s := by
  refine wp_await (fun t hrely hinv hready _ => ?_) fun _ _ _ => trivial
  refine ⟨.refl hinv, rfl, hp.respects hrely, ?_⟩
  cases hstate : t.handles handle with
  | none =>
    rw [hstate] at hready
    cases hready
  | some state =>
    rw [hstate] at hready
    exact ⟨state, hstate, by simpa using hready⟩

variable {p : ViewCall ℕ} {Q : Result ℕ → ViewWorld → Prop}

theorem wp_returned_bind (hK : Local setup i K) (hs : K s)
    (h : ∀ t o, K t → Present setup i o t → (viewing setup).wp i p Q (fun _ => True) t) :
    (viewing setup).wp i (do setup.returned i; p) Q (fun _ => True) s := by
  refine wp_bind (wp_returned hK hs) (fun _ t ht => ?_) fun e t ht => by cases ht.1
  obtain ⟨-, hKt, o, hp⟩ := ht
  exact h t o hKt hp

theorem wp_ofView_bind (hp : Present setup i o s)
    (h : ∀ t, Present setup i o t → Mine setup i handle t →
      (viewing setup).wp i p Q (fun _ => True) t) :
    (viewing setup).wp i (do setup.ofView i handle; p) Q (fun _ => True) s := by
  refine wp_bind (wp_ofView hp) (fun _ t ht => ?_) fun e t ht => by cases ht.1
  exact h t ht.2.1 ht.2.2

theorem wp_program (hfresh : (viewing setup).fresh i s) :
    (viewing setup).wp i (setup.program i) (Answered setup i) (fun _ => True) s := by
  obtain ⟨habsent, hunopened, hunmade, -, -⟩ := hfresh
  unfold ViewSetup.program
  cases hrequest : setup.requests i with
  | openView =>
    have hother : ∀ {result t}, Answered setup i result t :=
      answered_trivial (by rw [hrequest]; rfl) (by simp [hrequest])
    exact wp_bind (wp_openView hrequest habsent hunopened) (fun _ _ _ => wp_pure.mpr hother)
      fun _ _ _ => hother
  | operate v syscall =>
    refine wp_returned_bind local_true trivial fun t o _ hp => ?_
    refine wp_mono (runs_withOperation local_true hp trivial (by simp) syscall)
      (fun result u hu => answered_operation (by simp [hrequest]) fun value hvalue => ?_)
      fun _ _ => trivial
    obtain ⟨hpu, -, hok⟩ := hu
    obtain ⟨span, hcovered, hle⟩ := hok value hvalue
    exact ⟨o, span, hpu.opened, hle, hcovered⟩
  | openFile v path =>
    refine wp_returned_bind local_unmade hunmade fun t o hK hp => ?_
    exact wp_mono (wp_openFile hp hK path)
      (fun _ _ h => answered_operation (by simp [hrequest]) h) fun _ h => h
  | useHandle _ _ syscall moves =>
    refine wp_returned_bind local_true trivial fun t o _ hp => ?_
    refine wp_ofView_bind hp fun u hpu hmine => ?_
    exact wp_mono (wp_useHandle hpu hmine syscall moves)
      (fun _ _ h => answered_operation (by simp [hrequest]) h) fun _ h => h
  | closeFile =>
    have hother : ∀ {result t}, Answered setup i result t :=
      answered_trivial (by rw [hrequest]; rfl) (by simp [hrequest])
    refine wp_returned_bind local_true trivial fun t o _ hp => ?_
    refine wp_ofView_bind hp fun u hpu hmine => ?_
    exact wp_bind (wp_closeFile hpu hmine) (fun _ _ _ => wp_pure.mpr hother) fun _ _ _ => hother
  | renew v ttlMs =>
    have hother : ∀ {result t}, Answered setup i result t :=
      answered_trivial (by rw [hrequest]; rfl) (by simp [hrequest])
    refine wp_returned_bind local_true trivial fun t o _ hp => ?_
    exact wp_bind (wp_mono (runs_renew local_true hp trivial ttlMs) (fun _ _ h => h)
      fun _ _ => trivial) (fun _ _ _ => wp_pure.mpr hother) fun _ _ _ => hother
  | close v =>
    refine wp_returned_bind local_true trivial fun t o _ hp => ?_
    have hclosed : ∀ {result u}, Present setup i o u → Relieved setup i o u →
        Answered setup i result u := fun hpu hrelieved =>
      ⟨(fun h => by rw [hrequest] at h; cases h), fun _ _ _ => ⟨o, hpu, hrelieved.1⟩⟩
    exact wp_bind (wp_mono (runs_close local_true.kept hp trivial) (fun _ _ h => h)
      fun _ _ => trivial) (fun _ u hu => wp_pure.mpr (hclosed hu.1 hu.2.2))
      fun _ u hu => hclosed hu.1 hu.2.2
  | runSpawned v =>
    have hother : ∀ {result t}, Answered setup i result t :=
      answered_trivial (by rw [hrequest]; rfl) (by simp [hrequest])
    refine wp_returned_bind local_true trivial fun t o _ hp => ?_
    exact wp_bind (wp_runSpawned hp) (fun _ _ _ => wp_pure.mpr hother) fun _ _ _ => hother

/-! ## Runs -/

theorem service_sound (setup : ViewSetup) :
    Sound (viewing setup) setup.service (Answered setup) where
  stable _ _ _ _ hrely _ h := h.respects hrely
  arrive _ _ _ hinv hfresh := ⟨.refl hinv, wp_program hfresh⟩
  disturb disturbance _ hinv :=
    have h := disturb_disturbed hinv disturbance
    ⟨h.consistent hinv, trivial, h.respects hinv⟩

theorem viewStart_safe (setup : ViewSetup) (volumeId : VolumeId) (clockMs : ℕ) :
    Safe (viewing setup) (Answered setup) (viewStart volumeId clockMs) where
  inv :=
    { wellKept := ⟨nofun, nofun⟩
      opened := nofun
      requested := nofun
      distinct := nofun
      absent := fun _ _ => rfl
      present := nofun
      handles := nofun
      touched := nofun
      since := nofun
      renewed := nofun }
  task _ _ h := by simp [viewStart] at h
  fresh _ _ := ⟨rfl, rfl, rfl, rfl, rfl⟩

theorem run_safe (setup : ViewSetup) (volumeId : VolumeId) (clockMs : ℕ)
    (schedule : List (Event Signal Unit ViewSetup.Disturbance)) :
    Safe (viewing setup) (Answered setup)
      ((viewStart volumeId clockMs).run setup.service schedule) :=
  ((viewStart_safe setup volumeId clockMs).run (service_sound setup) schedule
    fun _ _ _ => trivial).1

/-- Nothing is left that belongs to a view: no handle, no operation, no destructor and no
close that was spawned. -/
structure Idle (lifetime : ViewLifetime) : Prop where
  operations : lifetime.operations = 0
  handles : lifetime.handles = 0
  dropping : lifetime.dropping = []
  spawned : lifetime.spawned = 0
  cleaning : lifetime.cleaning = []

theorem Settled.gone {now : Moment} {id : String} (h : Settled now id lifetime)
    (hidle : Idle lifetime) : now.Gone id := by
  rcases h.2 with hgone | hops | hhandles | hspawned | hdropping | hcleaning
  · exact hgone
  · exact absurd hidle.operations hops
  · exact absurd hidle.handles hhandles
  · exact absurd hidle.spawned hspawned
  · rw [hidle.dropping] at hdropping
    cases hdropping
  · exact absurd hidle.cleaning hcleaning

/-- An operation that succeeds ran while its version could not be deleted. On a runtime,
the pin of a view is gone when the view has been closed and is idle. No view renews or
releases a pin of another one. -/
theorem view_pins_are_safe (setup : ViewSetup) (volumeId : VolumeId) (clockMs : ℕ)
    (schedule : List (Event Signal Unit ViewSetup.Disturbance)) :
    let pool := (viewStart volumeId clockMs).run setup.service schedule
    let world := pool.shared
    (∀ task value, operates (setup.requests task) = true → pool.answer task = some (.ok value) →
      ∃ options version since began ended upto,
        setup.requests (setup.view task) = .openView options version ∧
        world.ran task = [began, ended] ∧ since ≤ began ∧ began ≤ ended ∧ ended ≤ upto ∧
        upto ≤ world.moment ∧ ∀ k moment, since ≤ k → k ≤ upto →
          world.history[k]? = some moment → moment.Protects version) ∧
    (setup.runtime = true → ∀ task v result, setup.requests task = .close v →
      pool.answer task = some result → Idle (world.views v) →
      ∃ o, world.opened v = some o ∧ world.now.Gone o.pin.viewId) ∧
    (∀ v pin, (v, pin) ∈ world.touched → ∃ o, world.opened v = some o ∧ o.pin.viewId = pin.viewId ∧
      ∀ u o', world.opened u = some o' → o'.pin.viewId = pin.viewId → u = v) := by
  intro pool world
  have hsafe := run_safe setup volumeId clockMs schedule
  have hinv : Consistent setup world := hsafe.inv
  refine ⟨fun task value hop hanswer => ?_, fun hr task v result hclose hanswer hidle => ?_,
    fun v pin hmem => ?_⟩
  · obtain ⟨o, span, ho, hle, hran, horder, r, hr, hended⟩ :=
      (hsafe.answer hanswer).operated hop value rfl
    obtain ⟨options, hrequest⟩ := hinv.requested _ o ho
    obtain ⟨o', ho', hmoment, hprotects⟩ := hinv.renewed task r hr
    have hsame : o' = o := Option.some.inj (ho'.symm.trans ho)
    subst hsame
    exact ⟨options, o'.pin.version, o'.moment, span.1, span.2, r, hrequest, hran, hle, horder,
      hended, hmoment, hprotects⟩
  · have hview : setup.view task = v := by simp only [ViewSetup.view, hclose]
    obtain ⟨o, hp, hsettled⟩ := (hsafe.answer hanswer).closed hr v hclose
    rw [hview] at hsettled
    exact ⟨o, hview ▸ hp.opened, hsettled.gone hidle⟩
  · obtain ⟨o, ho, hid⟩ := hinv.touched v pin hmem
    exact ⟨o, ho, hid, fun u o' ho' hid' => hinv.distinct u v o' o ho' ho (hid'.trans hid.symm)⟩

/-! ## A dropped operation -/

def sampleViewOptions : VersionedOptions :=
  { owner := "views", leaseTtlMs := 30000, viewTtlMs := 60000, blockStoreId := "blocks" }

/-- A view is opened, used and closed. -/
def sampleViews (runtime : Bool) : ViewSetup where
  requests
    | 0 => .openView sampleViewOptions ⟨"volume", 1⟩
    | 1 => .operate 0 "stat"
    | 2 => .close 0
    | _ => .runSpawned 0
  runtime := runtime

def sampleWriter : WriterLease := { owner := "writer", fence := 1, expiresAtMs := 1000 }

/-- A version of the empty filesystem. -/
def samplePublication : VersionPublication :=
  { expectedRevision := 0, expectedParent := none, operationId := "first", ns := emptyRoot
    blockStoreId := "blocks", kind := .initial, restoredFrom := none, forkedFrom := none
    durable := false }

def signalled (task steps : ℕ) : List (Event Signal Unit ViewSetup.Disturbance) :=
  List.replicate steps (.run task ⟨.ok 0, 0⟩)

/-- The version is published and its view is opened. -/
def opening : List (Event Signal Unit ViewSetup.Disturbance) :=
  [.disturb (.store (.acquireWriter "writer" 1000)),
    .disturb (.store (.publishVersion sampleWriter samplePublication)), .spawn ()] ++ signalled 0 2

/-- The view is closed while an operation runs, and the operation is dropped. -/
def droppedOperation : List (Event Signal Unit ViewSetup.Disturbance) :=
  opening ++ .spawn () :: signalled 1 4 ++ .spawn () :: signalled 2 2 ++
    [.cancel 1, .disturb (.dropped 0 0)]

/-- The pin expires between the two readings of the clock that its release makes. -/
def expiredRelease : List (Event Signal Unit ViewSetup.Disturbance) :=
  opening ++ .spawn () :: .spawn () :: List.replicate 4 (.run 2 ⟨.ok 0, 60000⟩)

/-- Outside of a runtime nothing releases the pin of the closed and idle view. On a runtime, a
release that the provider refuses leaves the pin in its table. -/
theorem dropped_operation_keeps_pin :
    (let pool := (viewStart "volume" 0).run (sampleViews false).service droppedOperation
     pool.answer 2 = some (.ok 0) ∧ Idle (pool.shared.views 0) ∧
       pool.shared.now.Live "volume-view-1" ⟨"volume", 1⟩) ∧
    let pool := (viewStart "volume" 0).run (sampleViews true).service expiredRelease
    Idle (pool.shared.views 0) ∧ (∃ e, pool.answer 2 = some (.error e)) ∧
      (pool.shared.now.metadata.pins.get? "volume-view-1").isSome = true := by
  refine ⟨⟨by decide +kernel, ⟨by decide +kernel, by decide +kernel, by decide +kernel,
    by decide +kernel, by decide +kernel⟩, ?_⟩, ⟨by decide +kernel, by decide +kernel,
    by decide +kernel, by decide +kernel, by decide +kernel⟩, ⟨_, rfl⟩, by decide +kernel⟩
  exact ⟨⟨"volume", ⟨"volume", 1⟩, "volume-view-1", "views", 1, 60000⟩, by decide +kernel, rfl,
    by decide +kernel⟩

/-- The operation ends before the view is closed. -/
def closedView : List (Event Signal Unit ViewSetup.Disturbance) :=
  opening ++ .spawn () :: signalled 1 8 ++ .spawn () :: signalled 2 4

theorem view_pins_are_safe_closed :
    let pool := (viewStart "volume" 0).run (sampleViews true).service closedView
    pool.answer 1 = some (.ok 0) ∧ pool.answer 2 = some (.ok 0) ∧
      (∃ (version : VersionId) (since upto : ℕ), since ≤ upto ∧ ∀ k (moment : Moment), since ≤ k → k ≤ upto →
        pool.shared.history[k]? = some moment → moment.Protects version) ∧
      ∃ o, pool.shared.opened 0 = some o ∧ pool.shared.now.Gone o.pin.viewId := by
  have hoperated : ((viewStart "volume" 0).run (sampleViews true).service closedView).answer 1 =
      some (.ok 0) := by decide +kernel
  have hclosed : ((viewStart "volume" 0).run (sampleViews true).service closedView).answer 2 =
      some (.ok 0) := by decide +kernel
  obtain ⟨hprotects, hgone, -⟩ := view_pins_are_safe (sampleViews true) "volume" 0 closedView
  obtain ⟨_, version, since, _, _, upto, -, -, hb, he, hu, -, hall⟩ := hprotects 1 0 rfl hoperated
  exact ⟨hoperated, hclosed, ⟨version, since, upto, (hb.trans he).trans hu, hall⟩,
    hgone rfl 2 0 _ rfl hclosed ⟨by decide +kernel, by decide +kernel, by decide +kernel,
      by decide +kernel, by decide +kernel⟩⟩

end MountRs.Versioned.View
