import MountRs.Verification.Guarded.Calls

/-! # Publications of a guarded request

What is published is the result of the edit, over the namespace that it was made on. A
publication whose outcome is not known leaves its coordinator failed. -/

namespace MountRs.Chunked.Guarded

open Discipline Except Caller Quiet

variable {setup : GuardedSetup} {start : Store} {i : ℕ} {s t : World} {α : Type}
  {prior : Namespace} {stage : Stage} {revision : ℕ}

/-! ## The guard of a publication -/

theorem canceled_foreign : Foreign canceledPublication := by decide

theorem setState_failed (world : World) (e : FsError) :
    Failed setup i (world.setState (setup.home i) ((world.fs (setup.home i)).state.failWith e)) := by
  simp only [Failed, World.setState_same, RuntimeState.failWith]
  cases (world.fs (setup.home i)).state.failure <;> rfl

theorem wp_armed {p : Call (Result ℕ)} (h : (guarding setup start).wp i p
      (fun result t => match result with
        | .ok result => Outcome setup i prior stage result t
        | .error e => Foreign e) (fun _ => True) s) :
    (guarding setup start).wp i ((setup.caller i).armed p) (Outcome setup i prior stage)
      (fun _ => True) s := by
  unfold armed
  refine wp_bind (Q := fun result t => match result with
      | .ok result => Outcome setup i prior stage result t
      | .error e => Foreign e ∧ Settled setup i t) ?_ ?_ fun _ _ h => h
  · refine wp_onDrop (R := fun _ => True) ?_ fun _ t hinv _ =>
      ⟨(failWith t (setup.home i) canceled_foreign).move hinv, trivial⟩
    refine wp_attempt_bind h fun result t ht => ?_
    cases result with
    | ok => exact wp_pure.mpr ht
    | error e =>
      refine wp_atomic (fun u _ hinv _ => ?_) fun _ _ _ => trivial
      exact ⟨(failWith u (setup.home i) canceled_foreign).move hinv, ht,
        .inr (setState_failed u canceledPublication)⟩
  · intro result t ht
    exact wp_lift.mpr ht

theorem wp_failClosed {e : FsError} (he : Foreign e) {Q : Result α → World → Prop}
    (hQ : ∀ t, Q (.error e) t) :
    (guarding setup start).wp i ((setup.caller i).failClosed e : Call α) Q (fun _ => True) s :=
  wp_atomic (fun t _ hinv _ => ⟨(failWith t (setup.home i) he).move hinv, hQ _⟩)
    (fun _ _ _ => trivial)

theorem runs_flushPublication {carried : List ℕ} {context : FsError → FsError}
    (hcontext : ∀ e, Foreign (context e)) {K : World → Prop} (hK : Stable i K) (hs : K s) :
    Runs setup start i K ((setup.caller i).flushPublication carried context)
      (fun _ _ => True) s := by
  unfold flushPublication Async.when
  split_ifs
  · refine .quietly hK ?_ hs
    refine steps_attempt_bind (P := fun _ => True) (quietly_atomic fun answer t _ => ?_)
      fun result _ => ?_
    · split
      · exact ⟨.refl t, trivial⟩
      · exact ⟨{ refl t with }, trivial⟩
      · exact ⟨{ refl t with }, trivial⟩
    · cases result with
      | ok u => exact steps_pure.mpr (benign_ok _)
      | error e =>
        exact quietly_failClosed _ (hcontext e) (benign_error.mpr (hcontext e))
  · exact wp_pure.mpr ⟨hs, trivial⟩

/-! ## Both modes -/

variable {next : ℕ} {store : Store}

theorem acceptRevision_ok (h : acceptRevision revision store = .ok next) :
    store.revision = revision ∧ next = store.revision + 1 := by
  simp only [acceptRevision, bind_eq_ok, failIf_eq_ok, okOr_eq_ok, not_not] at h
  obtain ⟨_, hrevision, hnext⟩ := h
  unfold checkedAdd at hnext
  split_ifs at hnext
  cases hnext
  exact ⟨hrevision, rfl⟩

theorem acceptLease_ok {lease : WriterLease} (h : acceptLease revision lease store = .ok next) :
    store.revision = revision ∧ next = store.revision + 1 := by
  simp only [acceptLease, bind_eq_ok] at h
  obtain ⟨_, _, h⟩ := h
  exact acceptRevision_ok h

/-- Nothing is published yet, and the namespace to publish over is known. -/
def Prepared (start : Store) (i revision : ℕ) (prior : Namespace) (world : World) : Prop :=
  Unpublished i world ∧ Committed start world revision prior

theorem prepared_stable : Stable i (Prepared start i revision prior) :=
  ⟨fun h hs => ⟨h.unpublished hs.1, hs.2.extends h.extends⟩,
    fun h hs => ⟨(h.respects i).unpublished hs.1, hs.2.extends (h.respects i).extends⟩⟩

/-- The stage is published, under a known revision. -/
def Accepted (setup : GuardedSetup) (start : Store) (i : ℕ) (prior : Namespace) (stage : Stage)
    (next : ℕ) (world : World) : Prop :=
  Landed setup i prior stage world ∧ Committed start world next stage.result

def Confirmed (setup : GuardedSetup) (start : Store) (i : ℕ) (prior : Namespace) (stage : Stage) :
    Result ℕ → World → Prop
  | .ok next, world => Accepted setup start i prior stage next world
  | .error e, _ => Foreign e

theorem accepted_stable : Stable i (Accepted setup start i prior stage next) :=
  ⟨fun h hs => ⟨hs.1.extends h.extends, hs.2.extends h.extends⟩,
    fun h hs => ⟨hs.1.extends (h.respects i).extends, hs.2.extends (h.respects i).extends⟩⟩

theorem wp_installAccepted {f : RuntimeState → Result α × RuntimeState}
    (hs : Accepted setup start i prior stage next s)
    (hf : ∀ {t : World}, Consistent setup start t → Committed start t next stage.result →
      (guarding setup start).Move i t
        (t.setState (setup.home i) (f (t.fs (setup.home i)).state).2) ∧
      ∃ a, (f (t.fs (setup.home i)).state).1 = .ok a) :
    (guarding setup start).wp i ((setup.caller i).locked f)
      (fun result t => Landed setup i prior stage t ∧ ∃ a, result = .ok a) (fun _ => True) s := by
  refine wp_atomic (fun t hrely hinv _ => ?_) fun _ _ _ => trivial
  have ht := accepted_stable.respects hrely hs
  obtain ⟨hmove, hok⟩ := hf hinv ht.2
  exact ⟨hmove, ht.1.extends hmove.mono, hok⟩

theorem wp_publishBound (hcarried : stage.carried = [i]) (hs : Prepared start i revision prior s) :
    (guarding setup start).wp i ((setup.caller i).publishBound revision stage)
      (Outcome setup i prior stage) (fun _ => True) s := by
  have hverify : Quietly setup start (verifyConcurrentBacking.orElse fun e =>
      (setup.caller i).failClosed (withContext e "backing-verify" none)) Benign := by
    refine steps_attempt_bind (P := fun _ => True)
      (quietly_inspect (fun _ _ _ => trivial) fun _ => trivial) fun result _ => ?_
    cases result with
    | ok u => exact steps_pure.mpr (benign_ok _)
    | error e =>
      have he := foreign_withContext (e := e) none (by decide : "backing-verify" ∉ guardSyscalls)
      exact quietly_failClosed _ he (benign_error.mpr he)
  refine wp_bind (Runs.quietly prepared_stable hverify hs) (fun _ t ht => ?_)
    fun e t ht => ⟨ht.2, .inl ht.1.1⟩
  refine wp_armed ?_
  refine wp_attempt_bind (wp_publication acceptRevision_ok hcarried ht.1.2 ht.1.1)
    fun result u hu => ?_
  cases result with
  | error e =>
    have he := foreign_withContext (e := e) none (by decide : "metadata-publish" ∉ guardSyscalls)
    dsimp only
    split_ifs with heagain
    · exact wp_pure.mpr ⟨he, .inl (hu heagain)⟩
    · exact wp_failClosed he fun _ => he
  | ok =>
    refine wp_bind (runs_flushPublication (fun e => foreign_withContext none (by decide))
      accepted_stable hu) (fun _ v hv => ?_) fun _ _ hv => hv.2
    refine wp_bind (wp_installAccepted hv.1 fun {w} hinv hcommitted => ?_) (fun closed w hw => ?_)
      fun e w hw => ?_
    · split_ifs
      · rw [World.setState_self]
        exact ⟨.refl hinv, true, rfl⟩
      · exact ⟨move_installNewer hinv (setup.home i) hcommitted, false, rfl⟩
    · split_ifs
      · exact wp_failClosed (foreign_of_none rfl) fun _ => foreign_of_none rfl
      · exact wp_pure.mpr hw.1
    · obtain ⟨_, _, hok⟩ := hw
      cases hok

theorem wp_publishExclusive (hwriteback : (setup.options (setup.home i)).writeback = false)
    (hcarried : stage.carried = [i]) (hs : Prepared start i revision prior s) :
    (guarding setup start).wp i ((setup.caller i).publishExclusive revision (.direct stage)
      stage.carried stage.result) (Outcome setup i prior stage) (fun _ => True) s := by
  have hoption : (setup.caller i).options.writeback = false := hwriteback
  unfold publishExclusive
  simp only [hoption, Async.when, Bool.false_eq_true, if_false]
  refine wp_bind (Q := fun result t => Prepared start i revision prior t ∧ result = .ok ())
    (wp_pure.mpr ⟨hs, rfl⟩) (fun _ t ht => ?_) (fun _ _ ht => by cases ht.2)
  refine wp_bind (Runs.quietly prepared_stable (quietly_renewLease _) ht.1) (fun lease u hu => ?_)
    fun e u hu => ⟨hu.2, .inl hu.1.1⟩
  refine wp_armed ?_
  refine wp_bind (Q := Confirmed setup start i prior stage) ?_ (fun next v hv => ?_) fun _ _ h => h
  · refine wp_orElse (wp_publication acceptLease_ok hcarried hu.1.2 hu.1.1) (fun _ _ h => h)
      fun e v _ => ?_
    have he := foreign_withContext (e := e) none (by decide : "metadata-publish" ∉ guardSyscalls)
    exact wp_failClosed he fun _ => he
  · refine wp_bind (runs_flushPublication (fun e => foreign_withContext none (by decide))
      accepted_stable hv) (fun _ w hw => ?_) fun _ _ hw => hw.2
    refine wp_bind (wp_installAccepted hw.1 fun {x} hinv hcommitted => ?_) (fun _ x hx => ?_)
      fun e x hx => ?_
    · refine ⟨Installs.move hinv (setup.home i) ?_, (), rfl⟩
      exact ⟨hcommitted, rfl, fun _ => rfl, rfl⟩
    · exact wp_pure.mpr hx.1
    · obtain ⟨_, _, hok⟩ := hx
      cases hok

theorem wp_publishNamespace (stage : Stage) (hwriteback : (setup.options (setup.home i)).writeback = false)
    (hmode : (setup.options (setup.home i)).inodeUpdates = false)
    (hcarried : stage.carried = [i]) (blocksFlushed : Bool)
    (hs : Prepared start i revision prior s) :
    (guarding setup start).wp i ((setup.caller i).publishNamespace revision stage blocksFlushed)
      (Outcome setup i prior stage) (fun _ => True) s := by
  have hoption : (setup.caller i).options.writeback = false := hwriteback
  have hinode : (setup.caller i).options.inodeUpdates = false := hmode
  have hflush : Quietly setup start (.when (!blocksFlushed) (blocksFlush.orElse fun e =>
      .fail (withContext e "block-flush" none))) Benign := by
    unfold Async.when
    split_ifs
    · refine steps_attempt_bind (P := fun _ => True)
        (quietly_inspect (fun _ _ _ => trivial) fun _ => trivial) fun result _ => ?_
      cases result with
      | ok u => exact steps_pure.mpr (benign_ok _)
      | error e =>
        exact steps_fail.mpr (benign_error.mpr (foreign_withContext none (by decide)))
    · exact steps_pure.mpr (benign_ok _)
  unfold publishNamespace publishNamespaceDurable
  simp only [hoption, hinode, Bool.false_eq_true, if_false]
  refine wp_bind (Runs.quietly prepared_stable hflush hs) (fun _ t ht => ?_)
    fun e t ht => ⟨ht.2, .inl ht.1.1⟩
  split_ifs
  · exact wp_publishBound hcarried ht.1
  · exact wp_publishExclusive hwriteback hcarried ht.1

end MountRs.Chunked.Guarded
