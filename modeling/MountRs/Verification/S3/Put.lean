import Mathlib.Data.List.Induction
import Mathlib.Tactic.SplitIfs
import MountRs.Model.S3.Put

/-! # Create-only writes

A create-only PUT is protected from other conditional PUTs by the lock of its key. Against
the writers that take no lock it relies on the exclusive `open`, or on a `stat` before the
call that makes its object visible. -/

namespace MountRs.S3

open Function PutWorld

/-! ## Requests and the gap -/

def KeyRequest.locks : KeyRequest → Bool
  | .put request => hasPutConditionals request.headers
  | _ => false

/-- A PUT with If-None-Match: *. -/
def KeyRequest.createOnly : KeyRequest → Bool
  | .put request => checkCreateOnly request.headers
  | _ => false

/-- The request has found its path absent and has not made its object visible, and the
call to come does not test again: a directory PUT from its `stat` on, a streaming PUT from
its second `stat` on. -/
def InGap (requests : ℕ → KeyRequest) (world : PutWorld) (i : ℕ) : Prop :=
  ∃ request, requests i = .put request ∧ checkCreateOnly request.headers = true ∧
    (request.directory = true ∧ (∃ existing, world.phase i = .preparing existing) ∨
      (request.directory = true ∨ request.streaming = true) ∧
        ∃ existing, world.phase i = .publishing existing)

/-- A request that takes no lock has a successful call that makes its object visible only while
no other request is in its gap, and the first `stat` of a create-only directory PUT does not fail on an
existing object. -/
def Unraced (requests : ℕ → KeyRequest) (world : PutWorld) : PutMove → Prop
  | .run i outcome =>
    ((∃ existing, world.phase i = .publishing existing) → outcome.ok = true →
      (requests i).locks = false → ∀ j, j ≠ i → ¬ InGap requests world j) ∧
    (∀ request, requests i = .put request → checkCreateOnly request.headers = true →
      request.directory = true → world.phase i = .checking →
      outcome.ok = true ∨ world.node = none)
  | _ => True

variable {headers : PutHeaders}

theorem hasPutConditionals_of_createOnly (h : checkCreateOnly headers = true) :
    hasPutConditionals headers = true := by
  have hvalue : headers.ifNoneMatch = some ["*"] := eq_of_beq h
  simp [hasPutConditionals, hvalue]

variable {existing : Option Stats}

theorem existing_eq_none (hcreate : checkCreateOnly headers = true)
    (hok : checkPutConditionals existing headers = .ok ()) : existing = none := by
  have hvalue : headers.ifNoneMatch = some ["*"] := eq_of_beq hcreate
  cases existing with
  | none => rfl
  | some stats =>
    have hstar : conditionalMatch ["*"] stats.etag = true := by simp [conditionalMatch]
    unfold checkPutConditionals at hok
    cases hmatch : headers.ifMatch with
    | none => simp [hmatch, hvalue, hstar, throw, throwThe, MonadExceptOf.throw, bind,
        Except.bind] at hok
    | some value =>
      by_cases hm : conditionalMatch value stats.etag = true
      · simp [hmatch, hvalue, hstar, hm, throw, throwThe, MonadExceptOf.throw, bind,
          Except.bind] at hok
      · simp [hmatch, hm, throw, throwThe, MonadExceptOf.throw, bind, Except.bind] at hok

/-! ## The invariant -/

/-- What holds of a PUT in each phase: a conditional one holds the lock until it ends, and
a create-only one has an absent path while it is in its gap, and had one when it made its
object visible. -/
def Standing (world : PutWorld) (i : ℕ) (request : PutRequest) : PutPhase → Prop
  | .start | .canceled | .done (.error _) => True
  | .checking | .rechecking => hasPutConditionals request.headers = true → world.holder = some i
  | .preparing existing =>
    (hasPutConditionals request.headers = true → world.holder = some i) ∧
    (checkCreateOnly request.headers = true →
      existing = none ∧ (request.directory = true → world.node = none))
  | .publishing existing =>
    (hasPutConditionals request.headers = true → world.holder = some i) ∧
    (checkCreateOnly request.headers = true → existing = none ∧
        (request.directory = true ∨ request.streaming = true → world.node = none))
  | .settling =>
    (hasPutConditionals request.headers = true → world.holder = some i) ∧
    (checkCreateOnly request.headers = true → world.published i = some false)
  | .done (.ok _) => checkCreateOnly request.headers = true → world.published i = some false

def Guarded (requests : ℕ → KeyRequest) (world : PutWorld) : Prop :=
  ∀ i request, requests i = .put request → Standing world i request (world.phase i)

variable {requests : ℕ → KeyRequest} {world next : PutWorld}

/-- What a step of request `i` leaves to the other requests. -/
structure Frame (requests : ℕ → KeyRequest) (world next : PutWorld) (i : ℕ) : Prop where
  phase : ∀ j, j ≠ i → next.phase j = world.phase j
  holder : ∀ j, j ≠ i → world.holder = some j → next.holder = some j
  published : ∀ j, j ≠ i → next.published j = world.published j
  node : ∀ j, j ≠ i → InGap requests world j → next.node = none

variable {i : ℕ}

section

variable (h : Guarded requests world)
include h

theorem Guarded.frame (hf : Frame requests world next i)
    (hi : ∀ request, requests i = .put request → Standing next i request (next.phase i)) :
    Guarded requests next := by
  intro j request hrequest
  by_cases hj : j = i
  · subst hj
    exact hi request hrequest
  · have hs := h j request hrequest
    have hnode := hf.node j hj
    rw [hf.phase j hj]
    cases hp : world.phase j with
    | start | canceled => trivial
    | checking | rechecking =>
      rw [hp] at hs
      exact fun hc => hf.holder j hj (hs hc)
    | preparing existing =>
      rw [hp] at hs
      refine ⟨fun hc => hf.holder j hj (hs.1 hc), fun hcreate => ⟨(hs.2 hcreate).1, ?_⟩⟩
      intro hdir
      exact hnode ⟨request, hrequest, hcreate, .inl ⟨hdir, existing, hp⟩⟩
    | publishing existing =>
      rw [hp] at hs
      refine ⟨fun hc => hf.holder j hj (hs.1 hc), fun hcreate => ⟨(hs.2 hcreate).1, ?_⟩⟩
      intro hkind
      exact hnode ⟨request, hrequest, hcreate, .inr ⟨hkind, existing, hp⟩⟩
    | settling =>
      rw [hp] at hs
      refine ⟨fun hc => hf.holder j hj (hs.1 hc), fun hcreate => ?_⟩
      rw [hf.published j hj]
      exact hs.2 hcreate
    | done result =>
      rw [hp] at hs
      cases result with
      | error => trivial
      | ok _ =>
        intro hcreate
        rw [hf.published j hj]
        exact hs hcreate

theorem Guarded.at {phase : PutPhase} {request : PutRequest}
    (hrequest : requests i = .put request) (hp : world.phase i = phase) :
    Standing world i request phase :=
  hp ▸ h i request hrequest

theorem Guarded.node_eq_none (hgap : InGap requests world i) : world.node = none := by
  obtain ⟨request, hrequest, hcreate, ⟨hdir, existing, hp⟩ | ⟨hkind, existing, hp⟩⟩ := hgap
  · exact ((h.at hrequest hp).2 hcreate).2 hdir
  · exact ((h.at hrequest hp).2 hcreate).2 hkind

theorem Guarded.holder_of_gap (hgap : InGap requests world i) : world.holder = some i := by
  obtain ⟨request, hrequest, hcreate, ⟨-, existing, hp⟩ | ⟨-, existing, hp⟩⟩ := hgap
  · exact (h.at hrequest hp).1 (hasPutConditionals_of_createOnly hcreate)
  · exact (h.at hrequest hp).1 (hasPutConditionals_of_createOnly hcreate)

end

/-! ## Steps -/

variable {phase : PutPhase}

section

variable (h : Guarded requests world)
include h

theorem Guarded.setPhase
    (hi : ∀ request, requests i = .put request → Standing world i request phase) :
    Guarded requests (world.setPhase i phase) := by
  refine h.frame (i := i) ⟨?_, fun _ _ hh => hh, fun _ _ => rfl,
    fun _ _ hgap => h.node_eq_none hgap⟩ ?_
  · intro j hj
    exact update_of_ne hj _ _
  · intro request hrequest
    have hphase : (world.setPhase i phase).phase i = phase := update_self _ _ _
    rw [hphase]
    have hs := hi request hrequest
    cases phase with
    | done result => cases result <;> exact hs
    | _ => exact hs

theorem Guarded.setPhase_put {request : PutRequest} (hrequest : requests i = .put request)
    (hs : Standing world i request phase) : Guarded requests (world.setPhase i phase) :=
  h.setPhase fun _ hrequest' => by
    cases hrequest.symm.trans hrequest'
    exact hs

theorem Guarded.leave (hi : phase = .canceled ∨ (∃ failure, phase = .done (.error failure)) ∨
      phase = .done (.ok ()) ∧ world.phase i = .settling) :
    Guarded requests (world.leave i phase) := by
  refine h.frame (i := i) ⟨?_, ?_, fun _ _ => rfl, fun _ _ hgap => h.node_eq_none hgap⟩ ?_
  · intro j hj
    exact update_of_ne hj _ _
  · intro j hj hholder
    have hne : world.holder ≠ some i := by
      rw [hholder]
      exact fun heq => hj (Option.some.inj heq)
    simpa only [PutWorld.leave, if_neg hne] using hholder
  · intro request hrequest
    have hphase : (world.leave i phase).phase i = phase := update_self _ _ _
    rw [hphase]
    rcases hi with rfl | ⟨failure, rfl⟩ | ⟨rfl, hp⟩
    · trivial
    · trivial
    · exact (h.at hrequest hp).2

theorem Guarded.fail (failure : S3Failure) : Guarded requests (world.fail i failure) :=
  h.leave (.inr (.inl ⟨failure, rfl⟩))

theorem Guarded.publish (hp : world.phase i = .publishing existing)
    (hrace : (requests i).locks = false → ∀ j, j ≠ i → ¬ InGap requests world j)
    (hnone : (requests i).createOnly = true → world.node = none) (node : Stats) :
    Guarded requests (world.publish i node) := by
  refine h.frame (i := i) ⟨?_, fun _ _ hh => hh, ?_, ?_⟩ ?_
  · intro j hj
    exact update_of_ne hj _ _
  · intro j hj
    exact update_of_ne hj _ _
  · -- A request that locks holds the lock, so no other one is in its gap.
    intro j hj hgap
    cases hlocks : (requests i).locks with
    | false => exact absurd hgap (hrace hlocks j hj)
    | true =>
      cases hrequest : requests i with
      | put request =>
        rw [hrequest] at hlocks
        have hholder := (h.at hrequest hp).1 hlocks
        rw [h.holder_of_gap hgap] at hholder
        exact absurd (Option.some.inj hholder) hj
      | copyObject | completeMultipart =>
        rw [hrequest] at hlocks
        cases hlocks
  · intro request hrequest
    have hs := h.at hrequest hp
    have hphase : (world.publish i node).phase i = .settling := update_self _ _ _
    rw [hphase]
    refine ⟨hs.1, fun hcreate => ?_⟩
    have hold : world.node = none := hnone (by rw [hrequest]; exact hcreate)
    simp [PutWorld.publish, hold]

end

variable {request : PutRequest}

theorem Guarded.lock (h : Guarded requests world) (hrequest : requests i = .put request) :
    Guarded requests (world.lock i request) := by
  unfold PutWorld.lock
  split_ifs with hc hholder
  · refine h.setPhase_put hrequest ?_
    exact fun htrue => absurd (hc.symm.trans htrue) (by decide)
  · have hf : Frame requests world { world.setPhase i .checking with holder := some i } i :=
      { phase := fun j hj => update_of_ne hj _ _
        holder := fun j _ hj => by rw [hholder] at hj; cases hj
        published := fun _ _ => rfl
        node := fun _ _ hgap => h.node_eq_none hgap }
    refine h.frame hf ?_
    intro request' _
    have hphase : update world.phase i .checking i = .checking :=
      update_self _ _ _
    simp only [PutWorld.setPhase, hphase]
    exact fun _ => rfl
  · exact h

variable {outcome : PutOutcome}

section

variable (h : Guarded requests world)
include h

theorem Guarded.check (hrequest : requests i = .put request) (hp : world.phase i = .checking)
    (hstat : checkCreateOnly request.headers = true → request.directory = true →
      outcome.ok = true ∨ world.node = none) :
    Guarded requests (world.check i request outcome) := by
  have hs := h.at hrequest hp
  unfold PutWorld.check
  dsimp only
  split
  · exact h.fail _
  · rename_i hok
    refine h.setPhase_put hrequest ⟨hs, fun hcreate => ?_⟩
    have hexisting := existing_eq_none hcreate hok
    refine ⟨hexisting, fun hdir => ?_⟩
    rcases hstat hcreate hdir with hread | hnode
    · rwa [if_pos hread] at hexisting
    · exact hnode

theorem Guarded.prepare (hrequest : requests i = .put request)
    (hp : world.phase i = .preparing existing) :
    Guarded requests (world.prepare i existing request outcome) := by
  have hs := h.at hrequest hp
  unfold PutWorld.prepare
  split_ifs with hok hbody hstream
  · exact h.fail _
  · exact h.fail _
  · exact h.setPhase_put hrequest hs.1
  · refine h.setPhase_put hrequest ⟨hs.1, fun hcreate => ⟨(hs.2 hcreate).1, fun hkind => ?_⟩⟩
    cases hdir : request.directory with
    | true => exact (hs.2 hcreate).2 hdir
    | false =>
      -- A streaming PUT of a file would have gone to its second `stat`.
      rw [hdir] at hkind
      have hstreaming : request.streaming = true := hkind.resolve_left (by decide)
      refine absurd ⟨hdir, hstreaming, ?_⟩ hstream
      rw [(hs.2 hcreate).1]
      exact hcreate

theorem Guarded.recheck (hp : world.phase i = .rechecking) :
    Guarded requests (world.recheck i outcome) := by
  unfold PutWorld.recheck
  split_ifs with hok hnode
  · exact h.fail _
  · exact h.fail _
  · refine h.setPhase ?_
    intro request hrequest
    have hs := h.at hrequest hp
    exact ⟨hs, fun _ => ⟨rfl, fun _ => by simpa using hnode⟩⟩

theorem Guarded.rename (hp : world.phase i = .publishing existing)
    (hrace : (requests i).locks = false → ∀ j, j ≠ i → ¬ InGap requests world j)
    (hnone : (requests i).createOnly = true → world.node = none) :
    Guarded requests (world.rename i outcome) := by
  unfold PutWorld.rename
  split_ifs
  · exact h.fail _
  · exact h.publish hp hrace hnone _

theorem Guarded.publishPut (hrequest : requests i = .put request)
    (hp : world.phase i = .publishing existing)
    (hrace : outcome.ok = true → (requests i).locks = false → ∀ j, j ≠ i →
      ¬ InGap requests world j) :
    Guarded requests (world.publishPut i existing request outcome) := by
  have hs := h.at hrequest hp
  have hcreates : (requests i).createOnly = true → checkCreateOnly request.headers = true := by
    rw [hrequest]
    exact id
  unfold PutWorld.publishPut
  by_cases hok : outcome.ok = false
  · rw [if_pos hok]
    exact h.fail _
  have hrace := hrace (eq_true_of_ne_false hok)
  rw [if_neg hok]
  split_ifs with hdir hstream
  · have hnone : (requests i).createOnly = true → world.node = none := fun hcreate =>
      (hs.2 (hcreates hcreate)).2 (.inl hdir)
    unfold mkdir
    split
    · split_ifs
      · exact h.publish hp hrace hnone _
      · exact h.fail _
    · exact h.publish hp hrace hnone _
  · exact h.rename hp hrace fun hcreate => (hs.2 (hcreates hcreate)).2 (.inr hstream)
  · unfold openFile
    split
    · split_ifs with hfail
      · exact h.fail _
      · -- The `open` of a create-only request would have failed.
        refine h.publish hp hrace (fun hcreate => absurd (.inl ?_) hfail) _
        rw [(hs.2 (hcreates hcreate)).1]
        exact hcreates hcreate
    · rename_i hnode
      exact h.publish hp hrace (fun _ => hnode) _

theorem Guarded.settle (hp : world.phase i = .settling) :
    Guarded requests (world.settle i outcome) := by
  unfold PutWorld.settle
  split_ifs
  · exact h.fail _
  · exact h.leave (.inr (.inr ⟨rfl, hp⟩))

theorem Guarded.step (hu : Unraced requests world (.run i outcome)) :
    Guarded requests (world.step requests i outcome) := by
  obtain ⟨hrace, hstat⟩ := hu
  unfold PutWorld.step
  split
  · rename_i request hrequest hp
    exact h.lock hrequest
  · rename_i request hrequest hp
    exact h.check hrequest hp fun hcreate hdir => hstat request hrequest hcreate hdir hp
  · rename_i request existing hrequest hp
    exact h.prepare hrequest hp
  · rename_i hp
    exact h.recheck hp
  · rename_i request existing hrequest hp
    exact h.publishPut hrequest hp (hrace ⟨existing, hp⟩)
  · rename_i hp hput
    split_ifs
    · exact h.fail _
    · refine h.setPhase ?_
      intro request hrequest
      exact (hput request hrequest).elim
  · rename_i existing hp hput
    split_ifs with hok
    · exact h.fail _
    · refine h.rename hp (hrace ⟨existing, hp⟩ (eq_true_of_ne_false hok)) ?_
      intro hcreate
      cases hrequest : requests i with
      | put request => exact (hput request hrequest).elim
      | copyObject | completeMultipart => rw [hrequest] at hcreate; cases hcreate
  · rename_i hp
    exact h.settle hp
  · exact h

end

variable {move : PutMove}

theorem Guarded.apply (h : Guarded requests world) (hu : Unraced requests world move) :
    Guarded requests (world.apply requests move) := by
  cases move with
  | run => exact h.step hu
  | cancel i =>
    simp only [apply]
    split
    · exact h
    · exact h.leave (.inl rfl)
  | delete =>
    intro i request hrequest
    have hs := h i request hrequest
    simp only [apply]
    cases hp : world.phase i with
    | preparing | publishing =>
      rw [hp] at hs
      exact ⟨hs.1, fun hcreate => ⟨(hs.2 hcreate).1, fun _ => rfl⟩⟩
    | done result =>
      rw [hp] at hs
      cases result <;> exact hs
    | _ =>
      rw [hp] at hs
      exact hs

/-! ## Without deletions -/

/-- What a move does to the node and to the record of who made an object visible. -/
def Publishes (world next : PutWorld) : Prop :=
  next.node = world.node ∧ next.published = world.published ∨ ∃ i, next.node.isSome = true ∧
      next.published = update world.published i (some world.node.isSome)

theorem publishes_of_eq (hn : next.node = world.node) (hp : next.published = world.published) :
    Publishes world next :=
  .inl ⟨hn, hp⟩

theorem publishes_publish (i : ℕ) (node : Stats) : Publishes world (world.publish i node) :=
  .inr ⟨i, rfl, rfl⟩

theorem publishes_rename (i : ℕ) (outcome : PutOutcome) :
    Publishes world (world.rename i outcome) := by
  unfold rename
  split_ifs
  · exact publishes_of_eq rfl rfl
  · exact publishes_publish _ _

theorem publishes_publishPut (i : ℕ) (existing : Option Stats) (request : PutRequest)
    (outcome : PutOutcome) : Publishes world (world.publishPut i existing request outcome) := by
  unfold publishPut
  split_ifs
  · exact publishes_of_eq rfl rfl
  · unfold mkdir
    split
    · split_ifs
      · exact publishes_publish _ _
      · exact publishes_of_eq rfl rfl
    · exact publishes_publish _ _
  · exact publishes_rename _ _
  · unfold openFile
    split
    · split_ifs
      · exact publishes_of_eq rfl rfl
      · exact publishes_publish _ _
    · exact publishes_publish _ _

theorem publishes_step (i : ℕ) (outcome : PutOutcome) :
    Publishes world (world.step requests i outcome) := by
  unfold step
  split
  · unfold lock
    split_ifs <;> exact publishes_of_eq rfl rfl
  · unfold check
    dsimp only
    split <;> exact publishes_of_eq rfl rfl
  · unfold prepare
    split_ifs <;> exact publishes_of_eq rfl rfl
  · unfold recheck
    split_ifs <;> exact publishes_of_eq rfl rfl
  · exact publishes_publishPut _ _ _ _
  · split_ifs <;> exact publishes_of_eq rfl rfl
  · split_ifs
    · exact publishes_of_eq rfl rfl
    · exact publishes_rename _ _
  · unfold settle
    split_ifs <;> exact publishes_of_eq rfl rfl
  · exact publishes_of_eq rfl rfl

theorem publishes_apply (hmove : move ≠ .delete) : Publishes world (world.apply requests move) := by
  cases move with
  | run i outcome => exact publishes_step i outcome
  | cancel i =>
    simp only [apply]
    split <;> exact publishes_of_eq rfl rfl
  | delete => exact absurd rfl hmove

/-- Nothing was made visible on an absent path, and one request at most found it absent. -/
structure Sole (world : PutWorld) : Prop where
  absent : world.node = none → ∀ i, world.published i = none
  first : ∀ i j, world.published i = some false → world.published j = some false → i = j

theorem Sole.publishes (h : Sole world) (hp : Publishes world next) : Sole next := by
  rcases hp with ⟨hn, hp⟩ | ⟨k, hn, hp⟩
  · exact ⟨by rw [hn, hp]; exact h.absent, by rw [hp]; exact h.first⟩
  · refine ⟨fun hnone => ?_, ?_⟩
    · rw [hnone] at hn
      cases hn
    · cases hnode : world.node with
      | none =>
        -- Nobody was first before, so only `k` is now.
        have hk : ∀ i, next.published i = some false → i = k := by
          intro i hi
          by_contra hne
          rw [hp, update_of_ne hne, h.absent hnode] at hi
          cases hi
        intro i j hi hj
        rw [hk i hi, hk j hj]
      | some =>
        have hk : ∀ i, next.published i = some false → world.published i = some false := by
          intro i hi
          by_cases hik : i = k
          · subst hik
            rw [hp, update_self, hnode] at hi
            cases hi
          · rwa [hp, update_of_ne hik] at hi
        exact fun i j hi hj => h.first i j (hk i hi) (hk j hj)

/-! ## Runs -/

theorem run_append (requests : ℕ → KeyRequest) (node : Option Stats) (moves : List PutMove)
    (move : PutMove) :
    run requests node (moves ++ [move]) =
      (run requests node moves).apply requests move := by
  simp [run]

theorem guarded_run (requests : ℕ → KeyRequest) (node : Option Stats) (moves : List PutMove)
    (h : ∀ before move after, moves = before ++ move :: after →
      Unraced requests (run requests node before) move) :
    Guarded requests (run requests node moves) := by
  induction moves using List.reverseRecOn with
  | nil => exact fun _ _ _ => trivial
  | append_singleton moves move ih =>
    rw [run_append]
    refine (ih fun before move' after hm => ?_).apply (h moves move [] rfl)
    exact h before move' (after ++ [move]) (by rw [hm]; simp)

theorem sole_run (requests : ℕ → KeyRequest) (moves : List PutMove)
    (h : ∀ move ∈ moves, move ≠ .delete) : Sole (run requests none moves) := by
  induction moves using List.reverseRecOn with
  | nil => exact ⟨fun _ _ => rfl, fun _ _ hi => by cases hi⟩
  | append_singleton moves move ih =>
    rw [run_append]
    refine (ih fun move' hmove => h move' (by simp [hmove])).publishes ?_
    exact publishes_apply (h move (by simp))

/-- In every run without a race in the gap, a create-only PUT that answers 200 made its
object visible where none existed; on an absent key that is not deleted at most one
answers 200. -/
theorem create_only_put_never_replaces (requests : ℕ → KeyRequest) (node : Option Stats)
    (moves : List PutMove)
    (h : ∀ before move after, moves = before ++ move :: after →
      Unraced requests (PutWorld.run requests node before) move) :
    (∀ i, (requests i).createOnly = true →
      (PutWorld.run requests node moves).phase i = .done (.ok ()) →
      (PutWorld.run requests node moves).published i = some false) ∧
    (node = none → (∀ move ∈ moves, move ≠ .delete) →
      ∀ i j, (requests i).createOnly = true → (requests j).createOnly = true →
        (PutWorld.run requests node moves).phase i = .done (.ok ()) →
        (PutWorld.run requests node moves).phase j = .done (.ok ()) → i = j) := by
  have hfirst : ∀ i, (requests i).createOnly = true →
      (PutWorld.run requests node moves).phase i = .done (.ok ()) →
      (PutWorld.run requests node moves).published i = some false := by
    intro i hcreate hdone
    cases hrequest : requests i with
    | put request =>
      have hs := guarded_run requests node moves h i request hrequest
      rw [hdone] at hs
      rw [hrequest] at hcreate
      exact hs hcreate
    | copyObject | completeMultipart => rw [hrequest] at hcreate; cases hcreate
  refine ⟨hfirst, ?_⟩
  rintro rfl hdelete i j hi hj hdonei hdonej
  exact (sole_run requests moves hdelete).first i j (hfirst i hi hdonei) (hfirst j hj hdonej)

def createOnlyPut (streaming : Bool) : KeyRequest :=
  .put
    { headers := { ifMatch := none, ifNoneMatch := some ["*"], ifUnmodifiedSince := none }
      directory := false, streaming, emptyBody := false }

def plainPut : KeyRequest :=
  .put
    { headers := { ifMatch := none, ifNoneMatch := none, ifUnmodifiedSince := none }
      directory := false, streaming := false, emptyBody := false }

/-- A move whose driver calls succeed. -/
def PutMove.succeed (i : ℕ) : PutMove :=
  .run i { ok := true, stats := { etag := "etag", mtime := 0, directory := false } }

/-- A streaming create-only PUT and a PUT without conditionals. -/
def racingPuts (i : ℕ) : KeyRequest := if i = 0 then createOnlyPut true else plainPut

/-- The plain PUT runs between the second `stat` and the `rename` of the create-only one,
which then replaces its object and answers 200. -/
theorem streaming_put_replaces_object :
    let world := PutWorld.run racingPuts none
      ([0, 0, 0, 0, 1, 1, 1, 1, 1, 0, 0].map PutMove.succeed)
    (racingPuts 0).createOnly = true ∧ world.published 0 = some true ∧
      (∃ result, world.phase 0 = .done result ∧ result.isOk = true) ∧
      ∃ result, world.phase 1 = .done result ∧ result.isOk = true :=
  ⟨by decide, by decide +kernel, ⟨_, rfl, rfl⟩, ⟨_, rfl, rfl⟩⟩

deriving instance DecidableEq for PutPhase

/-- A streaming and a buffered create-only PUT, and PUTs without conditionals. -/
def contendingPuts : ℕ → KeyRequest
  | 0 => createOnlyPut true
  | 1 => createOnlyPut false
  | _ => plainPut

/-- The streaming PUT comes to its `rename`. One plain PUT fails in this gap, and another one
publishes right after it; the buffered PUT waits for the lock. -/
def contendingPutMoves : List PutMove :=
  [0, 0, 0, 0, 1, 2, 2, 2, 3, 3, 3].map .succeed ++
    .run 3 { ok := false, stats := { etag := "", mtime := 0, directory := false } } ::
    [0, 2, 0, 2, 1, 1].map .succeed

def contendedPut (k : ℕ) : PutWorld :=
  PutWorld.run contendingPuts none (contendingPutMoves.take k)

/-- The plain PUT that publishes does so after the `rename`. -/
theorem contendedPut_plain : ∀ k < contendingPutMoves.length, ∀ i ∈ [2, 3],
    contendingPutMoves[k]? = some (.succeed i) →
    (contendedPut k).phase 0 = .settling ∧ (contendedPut k).phase 1 = .start ∨
      (contendedPut k).phase i ∈ [.start, .checking, .preparing none, .settling] := by
  decide +kernel

theorem contendedPut_unraced (k : ℕ) (hk : k < contendingPutMoves.length) (i : ℕ)
    (hi : i < 4) (hmove : contendingPutMoves[k]? = some (.succeed i)) :
    Unraced contendingPuts (contendedPut k) (.succeed i) := by
  refine ⟨?_, ?_⟩
  · rintro ⟨existing, hp⟩ - hlocks j - ⟨request, hrequest, hcreate, hgap⟩
    have hplain : i ∈ [2, 3] := by
      rcases i with _ | _ | i
      · cases hlocks
      · cases hlocks
      · simp
        omega
    have hphases := (contendedPut_plain k hk i hplain hmove).resolve_right (by simp [hp])
    rcases j with _ | _ | j <;> cases hrequest
    · simp [hphases.1] at hgap
    · simp [hphases.2] at hgap
    · cases hcreate
  · intro request hrequest _ hdir
    rcases i with _ | _ | i <;> cases hrequest <;> cases hdir

theorem create_only_put_never_replaces_contended :
    (contendedPut 18).published 0 = some false ∧ (contendedPut 18).published 2 = some true ∧
      (contendedPut 18).phase 1 = .done (.error .preconditionFailed) := by
  refine ⟨?_, by decide +kernel, by decide +kernel⟩
  refine (create_only_put_never_replaces contendingPuts none contendingPutMoves ?_).1 0 (by decide)
    (by decide +kernel)
  intro before move after hmoves
  have hbefore : before = contendingPutMoves.take before.length := by rw [hmoves]; simp
  have hmove : contendingPutMoves[before.length]? = some move := by rw [hmoves]; simp
  have hmem : move ∈ contendingPutMoves := List.mem_of_getElem? hmove
  rw [contendingPutMoves, List.mem_append, List.mem_cons, List.mem_map, List.mem_map] at hmem
  rw [hbefore]
  have hlen : before.length < contendingPutMoves.length := by rw [hmoves]; simp
  have hsmall : ∀ i ∈ [0, 0, 0, 0, 1, 2, 2, 2, 3, 3, 3] ++ [0, 2, 0, 2, 1, 1], i < 4 := by decide
  rcases hmem with ⟨i, hi, rfl⟩ | rfl | ⟨i, hi, rfl⟩
  · exact contendedPut_unraced _ hlen i (hsmall i (List.mem_append_left _ hi)) hmove
  · -- The call fails, and the request is not create-only.
    refine ⟨fun _ hok => (by cases hok), ?_⟩
    intro request hrequest hcreate
    cases hrequest
    cases hcreate
  · exact contendedPut_unraced _ hlen i (hsmall i (List.mem_append_right _ hi)) hmove

end MountRs.S3
