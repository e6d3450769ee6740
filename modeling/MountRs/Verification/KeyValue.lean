import MountRs.Model.KeyValue
import Mathlib.Tactic.Cases

/-! # Durability of the key-value filesystem

A flush clears the dirty mark before its store call takes effect. When flushes do not overlap,
a handle is closed once, and nothing changes the buffer through a handle that is being closed,
what `sync` and `close` report is true. -/

namespace MountRs.KeyValue

open Function World List

/-- The call flushes the buffer. -/
def Request.flushes : Request → Bool
  | .sync _ | .close _ => true
  | _ => false

def Request.handle : Request → ℕ
  | .write h _ _ | .truncate h _ | .sync h | .close h => h

/-- A `sync` or `close` is under way. -/
@[grind =] def Phase.busy : Phase → Bool
  | .closing | .flushing | .storing _ _ | .flushed _ => true
  | .unstarted | .checked | .returned _ => false

@[grind =] def Phase.unflushed : Phase → Bool
  | .closing | .flushing => true
  | .unstarted | .checked | .storing _ _ | .flushed _ | .returned _ => false

@[grind →] theorem Phase.busy_of_unflushed {phase : Phase} (h : phase.unflushed = true) :
    phase.busy = true := by
  cases phase with grind

namespace World

/-- No `sync` or `close` is under way. -/
def Quiet (world : World) : Prop := ∀ i, (world.phases i).busy = false

/-- The content is one that the buffer had when the call was made, or later. -/
def Since (world : World) (i : ℕ) (content : Bytes) : Prop :=
  content ∈ world.history.drop (world.made i)

/-- The event may follow: a flush is not made during another one, and a handle is closed once,
when no change through it is under way. -/
def Separate (requests : ℕ → Request) (world : World) : Event → Prop
  | .run i _ =>
    world.phases i = .unstarted →
      match requests i with
      | .sync _ => world.Quiet
      | .close h =>
        world.Quiet ∧ (world.handles h).closed = false ∧
          ∀ j, world.phases j = .checked → (requests j).handle ≠ h
      | _ => True
  | _ => True

def Separated (requests : ℕ → Request) (world : World) : List Event → Prop
  | [] => True
  | event :: events =>
    world.Separate requests event ∧ (world.step requests event).Separated requests events

section Updates

variable (world : World) (i j : ℕ)

@[grind =] theorem setPhase_phases (phase : Phase) :
    (world.setPhase i phase).phases j = if j = i then phase else world.phases j :=
  update_apply _ _ _ _

@[simp, grind =] theorem setPhase_file (phase : Phase) :
    (world.setPhase i phase).file = world.file := rfl

@[simp, grind =] theorem setPhase_handles (phase : Phase) :
    (world.setPhase i phase).handles j = world.handles j := rfl

@[simp, grind =] theorem setPhase_stored (phase : Phase) :
    (world.setPhase i phase).stored = world.stored := rfl

@[grind =] theorem setHandle_handles (handle : HandleState) :
    (world.setHandle i handle).handles j = if j = i then handle else world.handles j :=
  update_apply _ _ _ _

@[grind =] theorem make_made :
    (world.make i).made j = if j = i then world.history.length - 1 else world.made j :=
  update_apply _ _ _ _

@[simp, grind =] theorem setHandle_phases (handle : HandleState) :
    (world.setHandle i handle).phases j = world.phases j := rfl

@[simp, grind =] theorem make_phases : (world.make i).phases j = world.phases j := rfl

@[simp, grind =] theorem make_file : (world.make i).file = world.file := rfl

@[simp, grind =] theorem make_handles : (world.make i).handles j = world.handles j := rfl

end Updates

end World

/-- What one event does in a separated run. -/
inductive Move (requests : ℕ → Request) (world : World) : World → Prop
  | idle : Move requests world world
  | refuse (i : ℕ) (code : ErrorCode) (hrequest : (requests i).flushes = false)
      (hphase : (world.phases i).busy = false) :
      Move requests world (world.setPhase i (.returned (some code)))
  | check (i : ℕ) (hphase : world.phases i = .unstarted)
      (hopen : (world.handles (requests i).handle).closed = false) :
      Move requests world (world.setPhase i .checked)
  | change (i : ℕ) (data : Bytes) (handles : ℕ → HandleState)
      (hrequest : (requests i).flushes = false) (hphase : world.phases i = .checked)
      (hhandles : ∀ h, (handles h).closed = (world.handles h).closed) :
      Move requests world ({ world.change data with handles }.setPhase i (.returned none))
  | sync (i : ℕ) (hphase : world.phases i = .unstarted) (hquiet : world.Quiet)
      (hrequest : ∀ h, requests i ≠ .close h) :
      Move requests world ((world.make i).setPhase i .flushing)
  | close (i h : ℕ) (hphase : world.phases i = .unstarted) (hrequest : requests i = .close h)
      (hquiet : world.Quiet)
      (hchecked : ∀ j, world.phases j = .checked → (requests j).handle ≠ h) :
      Move requests world
        (((world.make i).setHandle h { world.handles h with closed := true }).setPhase i .closing)
  | release (i refs : ℕ) (hphase : world.phases i = .closing) :
      Move requests world ({ world with file.refs := refs }.setPhase i .flushing)
  | clean (i : ℕ) (hphase : world.phases i = .flushing)
      (hclean : world.file.dirty = false ∨ world.file.orphan = true) :
      Move requests world (world.setPhase i (.flushed none))
  | snapshot (i : ℕ) (hphase : world.phases i = .flushing) (hdirty : world.file.dirty = true) :
      Move requests world
        ({ world with file.dirty := false }.setPhase i (.storing world.file.data false))
  | effect (i : ℕ) (content : Bytes) (hphase : world.phases i = .storing content false) :
      Move requests world ({ world with stored := content }.setPhase i (.storing content true))
  | succeed (i : ℕ) (content : Bytes) (hphase : world.phases i = .storing content true) :
      Move requests world (world.setPhase i (.flushed none))
  | fail (i : ℕ) (content : Bytes) (effective : Bool) (code : ErrorCode)
      (hphase : world.phases i = .storing content effective) :
      Move requests world ({ world with file.dirty := true }.setPhase i (.flushed (some code)))
  | finish (i : ℕ) (error : Option ErrorCode) (listed : Bool)
      (hphase : world.phases i = .flushed error) :
      Move requests world ({ world with listed }.setPhase i (.returned error))

section Moves

open World

variable {requests : ℕ → Request} {world : World} {i h : ℕ} {reserves : Bool}

theorem begin_move (hphase : world.phases i = .unstarted)
    (hrequest : (requests i).flushes = false) (hhandle : (requests i).handle = h) :
    Move requests world (world.begin i h) := by
  unfold begin
  split_ifs with hclosed
  · exact .refuse i _ hrequest (by rw [hphase]; rfl)
  · exact .check i hphase (by rw [hhandle]; grind)

theorem write_move {buffer : Bytes} {position : Option ℕ} (hphase : world.phases i = .checked)
    (hrequest : (requests i).flushes = false) :
    Move requests world (world.write i h buffer position reserves) := by
  unfold write
  dsimp only
  split
  · exact .refuse i _ hrequest (by rw [hphase]; rfl)
  · exact .change i _ _ hrequest hphase (by grind [change, update_apply])

theorem truncate_move {length : ℕ} (hphase : world.phases i = .checked)
    (hrequest : (requests i).flushes = false) :
    Move requests world (world.truncate i length reserves) := by
  unfold truncate
  split
  · exact .refuse i _ hrequest (by rw [hphase]; rfl)
  · exact .change i _ world.handles hrequest hphase fun _ => rfl

theorem flush_move (hphase : world.phases i = .flushing) : Move requests world (world.flush i) := by
  unfold flush
  split_ifs with hclean
  · exact .clean i hphase hclean
  · exact .snapshot i hphase (by grind)

theorem run_move (hseparate : world.Separate requests (.run i reserves)) :
    Move requests world (world.run i (requests i) reserves) := by
  unfold run
  cases hphase : world.phases i with
  | unstarted =>
    specialize hseparate hphase
    cases hrequest : requests i with
    | write | truncate =>
      exact begin_move hphase (by rw [hrequest]; rfl) (by rw [hrequest]; rfl)
    | sync h =>
      rw [hrequest] at hseparate
      exact .sync i hphase hseparate (by simp [hrequest])
    | close h =>
      rw [hrequest] at hseparate
      obtain ⟨hquiet, hopen, hchecked⟩ := hseparate
      have hclose := Move.close i h hphase hrequest hquiet hchecked
      simpa [close, make, hopen] using hclose
  | checked =>
    cases hrequest : requests i with
    | write => exact write_move hphase (by rw [hrequest]; rfl)
    | truncate => exact truncate_move hphase (by rw [hrequest]; rfl)
    | sync | close => exact .idle
  | closing => exact .release i _ hphase
  | flushing => exact flush_move hphase
  | storing content effective =>
    cases effective with
    | true => exact .succeed i content hphase
    | false => exact .idle
  | flushed error =>
    cases requests i with
    | close h => exact .finish i error _ hphase
    | _ => exact .finish i error world.listed hphase
  | returned => exact .idle

theorem step_move {event : Event} (hseparate : world.Separate requests event) :
    Move requests world (world.step requests event) := by
  cases event with
  | run => exact run_move hseparate
  | effect i =>
    dsimp only [step]
    split
    · next content hphase => exact .effect i content hphase
    · exact .idle
  | fail i code =>
    dsimp only [step]
    split
    · next content effective hphase => exact .fail i content effective code hphase
    · exact .idle

end Moves

structure Recorded (world : World) : Prop where
  current : world.history.getLast? = some world.file.data
  made_lt : ∀ i, world.made i < world.history.length

namespace Recorded

open World

variable {requests : ℕ → Request} {world next : World}

theorem since_data (hrecorded : Recorded world) (i : ℕ) : world.Since i world.file.data := by
  obtain ⟨_, hhistory⟩ := getLast?_eq_some_iff.mp hrecorded.current
  have hlt := hrecorded.made_lt i
  rw [hhistory, length_append, length_singleton] at hlt
  rw [Since, hhistory, drop_append_of_le_length (by omega)]
  simp

theorem move (hrecorded : Recorded world) (hmove : Move requests world next) : Recorded next := by
  obtain ⟨hcurrent, hmade⟩ := hrecorded
  cases hmove with
  | change =>
    refine ⟨by simp [setPhase, change], fun j => ?_⟩
    have hlt := hmade j
    simp only [setPhase, change, length_append, length_singleton]
    omega
  | sync i | close i =>
    exact ⟨hcurrent, fun j => by
      have := hmade j
      change (world.make i).made j < world.history.length
      grind⟩
  | _ => exact ⟨hcurrent, hmade⟩

end Recorded

/-- What the phase of a call says about the store. -/
@[grind] def World.Holds (world : World) (flushes : Bool) (i : ℕ) : Phase → Prop
  | .storing content effective =>
    world.Since i content ∧ (world.file.dirty = false → content = world.file.data) ∧
      (effective = true → world.stored = content)
  | .flushed error => error = none → world.Since i world.stored
  | .returned error => error = none → flushes = true → world.Since i world.stored
  | .unstarted | .checked | .closing | .flushing => True

/-- What the store holds, when flushes do not overlap. -/
structure Durable (requests : ℕ → Request) (world : World) : Prop where
  orphan : world.file.orphan = false
  single : ∀ i j, (world.phases i).busy = true → (world.phases j).busy = true → i = j
  /-- Without a mark, what is missing is in a store call that is still to take effect. -/
  clean : world.file.dirty = false → world.stored = world.file.data ∨
    ∃ i, world.phases i = .storing world.file.data false
  /-- A flush that is made later snapshots a later content. -/
  later : ∀ i j, (requests i).flushes = true → world.phases i = .returned none →
    (world.phases j).busy = true → world.made i ≤ world.made j
  holds : ∀ i, world.Holds (requests i).flushes i (world.phases i)

namespace Durable

open World

variable {requests : ℕ → Request} {world next : World} {i : ℕ} {phase : Phase}

theorem opened (content : Bytes) (count : ℕ) (handle : ℕ → HandleState) :
    Durable requests (opened content count handle) := by
  constructor <;> grind [opened, Phase.busy]

theorem since_change {content data : Bytes} (hsince : world.Since i content) :
    (world.change data).Since i content := by
  rw [Since, change, drop_append]
  exact mem_append_left _ hsince

theorem since_of_le {j : ℕ} {content : Bytes} (hle : world.made i ≤ world.made j)
    (hsince : world.Since j content) : world.Since i content :=
  (drop_sublist_drop_left world.history hle).subset hsince

variable (hdurable : Durable requests world)
include hdurable

theorem setPhase (hidle : (world.phases i).busy = false) (hphase : phase.busy = false)
    (hrequest : phase = .returned none → (requests i).flushes = false) :
    Durable requests (world.setPhase i phase) where
  orphan := hdurable.orphan
  single j k := by have := hdurable.single j k; grind
  clean hdirty := (hdurable.clean hdirty).imp id fun ⟨j, hj⟩ => ⟨j, by grind⟩
  later j k hj hreturned hk := hdurable.later j k hj (by grind) (by grind)
  holds j := by
    have hholds := hdurable.holds j
    rw [setPhase_phases]
    split_ifs with hji
    · cases phase with grind
    · exact hholds

theorem change (data : Bytes) (handles : ℕ → HandleState) :
    Durable requests { world.change data with handles } where
  orphan := hdurable.orphan
  single := hdurable.single
  clean := nofun
  later := hdurable.later
  holds j := by
    have hholds := hdurable.holds j
    have hgrow : ∀ content, world.Since j content → (world.change data).Since j content :=
      fun _ => since_change
    change (world.change data).Holds _ j (world.phases j)
    cases hphase : world.phases j with
    | storing =>
      rw [hphase] at hholds
      exact ⟨hgrow _ hholds.1, nofun, hholds.2.2⟩
    | _ => grind [change]

theorem make (hrecorded : Recorded world)
    (handles : ℕ → HandleState) (hquiet : world.Quiet) (hphase : phase.unflushed = true) :
    Durable requests ({ world.make i with handles }.setPhase i phase) where
  orphan := hdurable.orphan
  single j k hj hk := by
    have hj' := hquiet j
    have hk' := hquiet k
    simp only [setPhase_phases] at hj hk
    grind [make]
  clean hdirty := (hdurable.clean hdirty).imp id fun ⟨j, hj⟩ => by
    have := hquiet j
    grind
  later j k hj hreturned hk := by
    have hk' := hquiet k
    have hj' := hrecorded.made_lt j
    simp only [setPhase_phases] at hreturned hk
    change (if k = i then phase else world.phases k).busy = true at hk
    change (world.make i).made j ≤ (world.make i).made k
    grind [Phase.unflushed]
  holds j := by
    have hholds := hdurable.holds j
    rw [setPhase_phases]
    split_ifs with hji
    · cases phase with grind [Phase.unflushed]
    · have hsince : ∀ content, world.Since j content →
          ({ world.make i with handles }.setPhase i phase).Since j content := by
        intro content hcontent
        change content ∈ world.history.drop ((world.make i).made j)
        rwa [make_made, if_neg hji]
      change Holds _ _ j (world.phases j)
      have := hquiet j
      cases hj : world.phases j with grind [make]

/-- The flush under way takes a step: what the store holds afterwards is recent enough for the
calls that were made before it. -/
theorem advance {file : OpenFile} {stored : Bytes}
    {listed : Bool} (hbusy : (world.phases i).busy = true) (horphan : file.orphan = false)
    (hclean : file.dirty = false → stored = file.data ∨ phase = .storing file.data false)
    (hstored : ∀ j, world.made j ≤ world.made i → world.Since j world.stored → world.Since j stored)
    (hphase : { world with file, stored, listed }.Holds (requests i).flushes i phase) :
    Durable requests ({ world with file, stored, listed }.setPhase i phase) where
  orphan := horphan
  single j k hj hk := by
    have hj' := hdurable.single j i
    have hk' := hdurable.single k i
    simp only [setPhase_phases] at hj hk
    grind
  clean hdirty := (hclean hdirty).imp id fun h =>
    ⟨i, by rw [setPhase_phases, if_pos rfl]; exact h⟩
  later j k hj hreturned hk := by
    have hk' := hdurable.single k i
    have hlater := hdurable.later j i hj
    simp only [setPhase_phases] at hreturned hk
    change world.made j ≤ world.made k
    grind
  holds j := by
    have hholds := hdurable.holds j
    have hsingle := hdurable.single j i
    have hlater := hdurable.later j i
    have hj' := hstored j
    rw [setPhase_phases]
    split_ifs with hji
    · rw [hji]
      exact hphase
    · change Holds _ _ j (world.phases j)
      cases hj : world.phases j with
      | returned =>
        rintro rfl hflushes
        rw [hj] at hholds
        exact hj' (hlater hflushes hj hbusy) (hholds rfl hflushes)
      | _ => grind

theorem move (hrecorded : Recorded world)
    (hmove : Move requests world next) : Durable requests next := by
  have horphan := hdurable.orphan
  have hunchanged : ∀ j i, world.made j ≤ world.made i → world.Since j world.stored →
      world.Since j world.stored := fun _ _ _ => id
  -- The store call of another flush would make two of them.
  have hstored : ∀ i, (world.phases i).busy = true →
      (∀ content, world.phases i ≠ .storing content false) → world.file.dirty = false →
        world.stored = world.file.data := by
    intro i hbusy hphase hdirty
    refine (hdurable.clean hdirty).resolve_right fun ⟨j, hj⟩ => ?_
    have := hdurable.single j i
    grind
  cases hmove with
  | idle => exact hdurable
  | refuse i code hrequest hphase => exact hdurable.setPhase hphase rfl fun _ => hrequest
  | check _ hphase => exact hdurable.setPhase (by rw [hphase]; rfl) rfl nofun
  | change i data handles hrequest hphase =>
    exact (hdurable.change data handles).setPhase (by
      change (world.phases i).busy = false
      rw [hphase]
      rfl) rfl fun _ => hrequest
  | sync _ _ hquiet => exact hdurable.make hrecorded _ hquiet rfl
  | close _ _ _ _ hquiet => exact hdurable.make hrecorded _ hquiet rfl
  | release i refs hphase =>
    have hbusy : (world.phases i).busy = true := by rw [hphase]; rfl
    exact hdurable.advance hbusy horphan (fun hdirty => .inl (hstored i hbusy (by grind) hdirty))
      (fun j => hunchanged j i) trivial
  | clean i hphase =>
    have hbusy : (world.phases i).busy = true := by rw [hphase]; rfl
    have hdata := hstored i hbusy (by grind) (by grind)
    exact hdurable.advance hbusy horphan (fun _ => .inl hdata) (fun j => hunchanged j i)
      fun _ => by
        change world.Since i world.stored
        exact hdata ▸ hrecorded.since_data i
  | snapshot i hphase =>
    exact hdurable.advance (by rw [hphase]; rfl) horphan (fun _ => .inr rfl)
      (fun j => hunchanged j i) ⟨hrecorded.since_data i, fun _ => rfl, nofun⟩
  | effect i content hphase =>
    obtain ⟨hsince, hsnapshot, -⟩ : world.Holds _ i (.storing content false) :=
      hphase ▸ hdurable.holds i
    exact hdurable.advance (by rw [hphase]; rfl) horphan (fun hdirty => .inl (hsnapshot hdirty))
      (fun j hle _ => since_of_le hle hsince) ⟨hsince, hsnapshot, fun _ => rfl⟩
  | succeed i content hphase =>
    have hbusy : (world.phases i).busy = true := by rw [hphase]; rfl
    obtain ⟨hsince, -, heffective⟩ : world.Holds _ i (.storing content true) :=
      hphase ▸ hdurable.holds i
    exact hdurable.advance hbusy horphan (fun hdirty => .inl (hstored i hbusy (by grind) hdirty))
      (fun j => hunchanged j i) fun _ => by
        change world.Since i world.stored
        exact (heffective rfl) ▸ hsince
  | fail i _ _ _ hphase =>
    exact hdurable.advance (by rw [hphase]; rfl) horphan nofun (fun j => hunchanged j i) nofun
  | finish i error _ hphase =>
    have hbusy : (world.phases i).busy = true := by rw [hphase]; rfl
    have hholds : world.Holds _ i (.flushed error) := hphase ▸ hdurable.holds i
    exact hdurable.advance hbusy horphan (fun hdirty => .inl (hstored i hbusy (by grind) hdirty))
      (fun j => hunchanged j i) fun herror _ => hholds herror

end Durable

/-- The call is a `close` that fails. -/
def World.FailsClose (requests : ℕ → Request) (world : World) (i : ℕ) : Prop :=
  (∃ h, requests i = .close h) ∧
    ∃ code, world.phases i = .flushed (some code) ∨ world.phases i = .returned (some code)

/-- A handle is open, or a `close` told of its failure. -/
def World.Attended (requests : ℕ → Request) (world : World) : Prop :=
  (∃ h, (world.handles h).closed = false) ∨ ∃ i, world.FailsClose requests i

/-- Whom a change of the buffer that is not in the store is left to. -/
structure Owed (requests : ℕ → Request) (world : World) : Prop where
  checked : ∀ i, world.phases i = .checked → (world.handles (requests i).handle).closed = false
  dirty : world.file.dirty = true → world.Attended requests ∨
    ∃ i h, requests i = .close h ∧ (world.phases i).unflushed = true
  storing : ∀ i content effective, world.phases i = .storing content effective →
    world.Attended requests ∨ ∃ h, requests i = .close h

namespace Owed

open World

variable {requests : ℕ → Request} {world next : World}

theorem failsClose_move {i : ℕ} (hfails : world.FailsClose requests i)
    (hmove : Move requests world next) : next.FailsClose requests i := by
  obtain ⟨hclose, code, hphase⟩ := hfails
  refine ⟨hclose, code, ?_⟩
  cases hmove with
    grind [setPhase, make, change, setHandle, Request.flushes]

theorem attended_move (hattended : world.Attended requests) (hmove : Move requests world next)
    (hhandles : ∀ h, (next.handles h).closed = (world.handles h).closed) :
    next.Attended requests :=
  hattended.imp (fun ⟨h, hopen⟩ => ⟨h, (hhandles h).trans hopen⟩)
    fun ⟨i, hi⟩ => ⟨i, failsClose_move hi hmove⟩

theorem move (howed : Owed requests world) (hdurable : Durable requests world)
    (hmove : Move requests world next) : Owed requests next := by
  obtain ⟨hchecked, hdirty, hstoring⟩ := howed
  have horphan := hdurable.orphan
  have hsingle := hdurable.single
  have hattended := fun h => attended_move h hmove
  cases hmove with
  | idle => exact ⟨hchecked, hdirty, hstoring⟩
  | close i h _ hrequest hquiet hnone =>
    refine ⟨fun j hj => ?_, fun _ => .inr ⟨i, h, hrequest, ?_⟩, fun j content effective hj => ?_⟩
    · have hj' : world.phases j = .checked := by grind
      rw [setPhase_handles, setHandle_handles, if_neg (hnone j hj')]
      exact hchecked j hj'
    · grind
    · have := hquiet j
      grind
  | change i _ _ _ hphase hhandles =>
    replace hattended := fun h => hattended h hhandles
    refine ⟨fun j hj => ?_, fun _ => .inl (.inl ⟨(requests i).handle, ?_⟩),
      fun j content effective hj => ?_⟩
    · exact (hhandles _).trans (hchecked j (by grind [change]))
    · exact (hhandles _).trans (hchecked i hphase)
    · have := hstoring j content effective
      grind [change]
  | fail i content effective code hphase =>
    replace hattended := fun h => hattended h fun _ => rfl
    refine ⟨by grind, fun _ => ?_, by grind⟩
    refine .inl ((hstoring i content effective hphase).elim hattended fun hclose => ?_)
    exact .inr ⟨i, hclose, code, .inl (by grind)⟩
  | _ =>
    replace hattended := fun h => hattended h fun _ => rfl
    constructor <;> grind

end Owed

section Runs

open World

variable {requests : ℕ → Request} {world : World}

theorem steps_sound (events : List Event) (hseparated : world.Separated requests events)
    (hrecorded : Recorded world) (hdurable : Durable requests world)
    (howed : Owed requests world) :
    Durable requests (world.steps requests events) ∧
      Owed requests (world.steps requests events) := by
  induction events generalizing world with
  | nil => exact ⟨hdurable, howed⟩
  | cons _ _ ih =>
    have hmove := step_move hseparated.1
    exact ih hseparated.2 (hrecorded.move hmove) (hdurable.move hrecorded hmove)
      (howed.move hdurable hmove)

/-- In a run where flushes do not overlap, no handle is closed twice and no change of the
buffer is under way through a handle that is closed: the store holds a content of the buffer
that is not older than any `sync` or `close` that returned `Ok`, and the last one when every
handle was closed without an error. -/
theorem separated_run_durable (requests : ℕ → Request) (content : Bytes) (count : ℕ)
    (handle : ℕ → HandleState) (events : List Event)
    (hseparated : (World.opened content count handle).Separated requests events) :
    let world := (World.opened content count handle).steps requests events
    (∀ i, (requests i).flushes = true → world.phases i = .returned none →
      world.Since i world.stored) ∧
    ((∀ h, (world.handles h).closed = true) → world.Quiet →
      (∀ i, ¬world.FailsClose requests i) → world.stored = world.file.data) := by
  intro world
  obtain ⟨hdurable, howed⟩ := steps_sound events hseparated ⟨rfl, fun _ => Nat.one_pos⟩
    (Durable.opened content count handle) ⟨nofun, nofun, nofun⟩
  refine ⟨fun i hflushes hreturned => ?_, fun hclosed hquiet hfails => ?_⟩
  · have hholds : world.Holds _ i (.returned none) := hreturned ▸ hdurable.holds i
    exact hholds rfl hflushes
  · have hclean : world.file.dirty = false := by
      by_contra hdirty
      obtain (⟨h, hopen⟩ | ⟨i, hi⟩) | ⟨i, h, -, hi⟩ := howed.dirty (by simpa using hdirty)
      · exact absurd (hclosed h) (by simp [world, hopen])
      · exact hfails i hi
      · exact absurd (Phase.busy_of_unflushed hi) (by simp [hquiet i, world])
    refine (hdurable.clean hclean).resolve_right fun ⟨i, hi⟩ => ?_
    have := hquiet i
    grind

/-- Two handles of an empty file, each open for writing at the start. -/
def twoHandles : World :=
  World.opened [] 2 fun _ => { write := true, append := false, position := 0, closed := false }

/-- A write and a `sync` through the first handle, a write through the second one, and the
`close` of both. -/
def twoWriters : ℕ → Request
  | 0 => .write 0 [7] none
  | 1 => .sync 0
  | 2 => .write 1 [8, 9] none
  | 3 => .close 1
  | _ => .close 0

/-- The second write begins while the `sync` flushes, and changes the buffer while the store call
of the `sync` is under way. -/
def twoWritersEvents : List Event :=
  [.run 0 true, .run 0 true, .run 1 true, .run 2 true, .run 1 true, .run 2 true, .effect 1,
    .run 1 true, .run 1 true, .run 3 true, .run 3 true, .run 3 true, .effect 3, .run 3 true,
    .run 3 true, .run 4 true, .run 4 true, .run 4 true, .run 4 true]

theorem twoWriters_durable :
    let world := twoHandles.steps twoWriters twoWritersEvents
    twoHandles.Separated twoWriters twoWritersEvents ∧ world.phases 1 = .returned none ∧
      world.history[world.made 1]? = some [7] ∧ world.Since 1 world.stored ∧
      world.stored = world.file.data ∧ world.file.data = [8, 9] := by
  intro world
  have hseparated : twoHandles.Separated twoWriters twoWritersEvents := by
    refine ⟨fun _ => trivial, nofun, fun _ i => ?_, fun _ => trivial, nofun, nofun, trivial, nofun,
      nofun, fun _ => ⟨fun i => ?_, rfl, fun j => ?_⟩, nofun, nofun, trivial, nofun, nofun,
      fun _ => ⟨fun i => ?_, rfl, fun j => ?_⟩, nofun, nofun, nofun, trivial⟩
    · rcases i with _ | _ | _ | i <;> rfl
    · rcases i with _ | _ | _ | _ | i <;> rfl
    · rcases j with _ | _ | _ | _ | j <;> nofun
    · rcases i with _ | _ | _ | _ | _ | i <;> rfl
    · rcases j with _ | _ | _ | _ | _ | j <;> nofun
  obtain ⟨hsince, hstored⟩ := separated_run_durable twoWriters [] 2 _ twoWritersEvents hseparated
  refine ⟨hseparated, by decide, by decide, hsince 1 rfl (by decide), ?_, by decide⟩
  refine hstored (fun h => ?_) (fun i => ?_) fun i => ?_
  · rcases h with _ | _ | h <;> rfl
  · rcases i with _ | _ | _ | _ | _ | i <;> rfl
  · rintro ⟨-, code, hcode⟩
    rcases i with _ | _ | _ | _ | _ | i <;> rcases hcode with hcode | hcode <;> cases hcode

/-- A `sync` returns while the store call of another one has not taken effect; the store call
of a `close` takes effect after that of a later one; a write passes the check of its handle
before and changes the buffer after the `close`; and a handle is closed a second time. -/
theorem overlapping_flushes_lose_changes :
    (let requests : ℕ → Request := fun i =>
        if i = 0 then .write 0 [1] none else if i = 1 then .sync 0 else .sync 1
      let world := twoHandles.steps requests
        [.run 0 true, .run 0 true, .run 1 true, .run 1 true, .run 2 true, .run 2 true, .run 2 true]
      world.phases 0 = .returned none ∧ world.phases 2 = .returned none ∧
        world.history.drop (world.made 2) = [[1]] ∧ world.stored = []) ∧
    (let requests : ℕ → Request := fun i =>
        if i = 0 then .write 0 [1] none else if i = 1 then .close 0
        else if i = 2 then .write 1 [2] none else .close 1
      let world := twoHandles.steps requests
        [.run 0 true, .run 0 true, .run 1 true, .run 1 true, .run 1 true, .run 2 true,
          .run 2 true, .run 3 true, .run 3 true, .run 3 true, .effect 3, .effect 1,
          .run 1 true, .run 1 true, .run 3 true, .run 3 true]
      (∀ i < 4, world.phases i = .returned none) ∧ (∀ h < 2, (world.handles h).closed = true) ∧
        world.file.data = [2] ∧ world.stored = [1]) ∧
    (let requests : ℕ → Request := fun i =>
        if i = 0 then .write 0 [1] none else if i = 1 then .close 0 else .close 1
      let world := twoHandles.steps requests
        [.run 0 true, .run 1 true, .run 1 true, .run 1 true, .run 1 true, .run 2 true,
          .run 2 true, .run 2 true, .run 2 true, .run 0 true]
      (∀ i < 3, world.phases i = .returned none) ∧ (∀ h < 2, (world.handles h).closed = true) ∧
        world.file.data = [1] ∧ world.stored = []) ∧
    (let requests : ℕ → Request := fun i => if i = 1 then .write 1 [1] none else .close 0
      let world := twoHandles.steps requests
        [.run 0 true, .run 0 true, .run 0 true, .run 0 true, .run 1 true, .run 1 true, .run 2 true]
      world.phases 1 = .returned none ∧ world.phases 2 = .returned none ∧
        world.history.drop (world.made 2) = [[1]] ∧ world.stored = []) := by
  decide

end Runs

end MountRs.KeyValue
