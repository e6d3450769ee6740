import MountRs.Model.Nfs.Shares
import MountRs.Verification.Nfs.Clients

/-! # Share reservations under interleaving

The share check of an OPEN stays true until its insertion as long as no conflicting
open is placed in between. -/

namespace MountRs.Nfs

open V4State BTreeMap

/-! ### Bits -/

variable {x y z : ℕ}

theorem and_or_eq_zero : x &&& (y ||| z) = 0 ↔ x &&& y = 0 ∧ x &&& z = 0 := by
  rw [Nat.and_or_distrib_left, Nat.or_eq_zero_iff]

theorem or_and_eq_zero : (x ||| y) &&& z = 0 ↔ x &&& z = 0 ∧ y &&& z = 0 := by
  rw [Nat.and_or_distrib_right, Nat.or_eq_zero_iff]

variable {left right : Reservation}

theorem Reservation.Clash.symm (h : left.Clash right) :
    right.Clash left := by
  obtain ⟨hfile, howner, hbits⟩ := h
  refine ⟨hfile.symm, ?_, hbits.symm⟩
  intro hsame
  exact howner ⟨hsame.1.symm, hsame.2.symm⟩

variable {state : V4State} {entry : Entry} {clientid access : ℕ} {args : OpenArgs}

theorem shareConflict_iff : state.shareConflict entry.fileid clientid access args = true ↔
      ∃ opened ∈ state.opens.values,
        opened.reservation.Clash (asked args access clientid entry) := by
  simp only [shareConflict, List.any_eq_true, Bool.and_eq_true, beq_iff_eq,
    Bool.not_eq_true', Bool.and_eq_false_iff, beq_eq_false_iff_ne, Bool.or_eq_true, bne_iff_ne,
    Reservation.Clash, OpenState.reservation, asked, and_assoc, not_and_or]

/-! ### What one section does to the opens -/

/-- The OPEN of task `i` has passed its share check with the reservation. -/
def Pending (requests : ℕ → ShareRequest) (world : ShareWorld) (i : ℕ)
    (reservation : Reservation) : Prop :=
  ∃ args cursor file access clientid entry, requests i = .openFile args cursor file ∧
    world.phase i = .checked access clientid entry ∧
    reservation = asked args access clientid entry

variable {world : ShareWorld} {i : ℕ}

theorem Pending.unique {requests : ℕ → ShareRequest} (hleft : Pending requests world i left)
    (hright : Pending requests world i right) :
    left = right := by
  obtain ⟨_, _, _, _, _, _, hrequest, hphase, rfl⟩ := hleft
  obtain ⟨_, _, _, _, _, _, hrequest', hphase', rfl⟩ := hright
  rw [hrequest] at hrequest'
  rw [hphase] at hphase'
  cases hrequest'
  cases hphase'
  rfl

variable {opened : OpenState} {other : Reservation}

/-- Whatever an open clashes with after the last section of OPEN, an earlier open or the
reservation itself clashes with as well. -/
theorem clash_placeOpen {server : Server}
    (h : opened ∈ (state.placeOpen server entry clientid access args).2.opens.values)
    (hclash : opened.reservation.Clash other) :
    (∃ old ∈ state.opens.values, old.reservation.Clash other) ∨
      (asked args access clientid entry).Clash other := by
  have hkept : opened ∈ state.opens.values →
      (∃ old ∈ state.opens.values, old.reservation.Clash other) ∨
        (asked args access clientid entry).Clash other :=
    fun hmem => .inl ⟨opened, hmem, hclash⟩
  unfold placeOpen at h
  split at h
  · next key own hown =>
      have hget := ownOpen_eq_some hown
      have hsame := List.find?_some hown
      simp only [Bool.and_eq_true, beq_iff_eq] at hsame
      obtain ⟨⟨hclient, hfile⟩, howner⟩ := hsame
      obtain ⟨place, hplace⟩ := mem_values_iff.mp h
      simp only [get?_insert] at hplace
      split_ifs at hplace
      · cases hplace
        -- An upgraded open has the bits of the old one and of the request.
        obtain ⟨hf, ho, hbits⟩ := hclash
        simp only [OpenState.reservation, upgraded, ne_eq, and_or_eq_zero, or_and_eq_zero,
          not_and_or] at hf ho hbits
        have hold : own ∈ state.opens.values := mem_values_iff.mpr ⟨key, hget⟩
        rw [← not_and_or] at ho
        rcases hbits with (hbits | hbits) | (hbits | hbits)
        · exact .inl ⟨own, hold, hf, ho, .inl hbits⟩
        · rw [hclient, howner] at ho
          rw [hfile] at hf
          exact .inr ⟨hf, ho, .inl hbits⟩
        · exact .inl ⟨own, hold, hf, ho, .inr hbits⟩
        · rw [hclient, howner] at ho
          rw [hfile] at hf
          exact .inr ⟨hf, ho, .inr hbits⟩
      · exact hkept (mem_values_iff.mpr ⟨place, hplace⟩)
  · split_ifs at h
    · exact hkept h
    · unfold allocateStateid at h
      split_ifs at h
      · exact hkept h
      · obtain ⟨place, hplace⟩ := mem_values_iff.mp h
        simp only [get?_insert] at hplace
        split_ifs at hplace
        · cases hplace
          exact .inr hclash
        · exact hkept (mem_values_iff.mpr ⟨place, hplace⟩)

variable {stateid : Stateid} {deny : ℕ}

theorem clash_narrowOpen (h : opened ∈ (state.narrowOpen stateid access deny).2.opens.values)
    (hclash : opened.reservation.Clash other) :
    ∃ old ∈ state.opens.values, old.reservation.Clash other := by
  unfold narrowOpen at h
  split at h
  · exact ⟨opened, h, hclash⟩
  · next old hold =>
      split_ifs at h with hwider
      · exact ⟨opened, h, hclash⟩
      · simp only [ne_eq, not_or, not_not] at hwider
        obtain ⟨haccess, hdeny⟩ := hwider
        obtain ⟨place, hplace⟩ := mem_values_iff.mp h
        simp only [get?_insert] at hplace
        split_ifs at hplace
        · cases hplace
          obtain ⟨hf, ho, hbits⟩ := hclash
          refine ⟨old, mem_values_iff.mpr ⟨_, hold⟩, hf, ho, ?_⟩
          simp only [OpenState.reservation] at hbits ⊢
          rw [← haccess, ← hdeny, ne_eq, ne_eq, and_or_eq_zero, or_and_eq_zero]
          tauto
        · exact ⟨opened, mem_values_iff.mpr ⟨place, hplace⟩, hclash⟩

theorem clash_removeOpen (h : opened ∈ (state.removeOpen stateid).2.opens.values) :
    opened ∈ state.opens.values := by
  rcases removeOpen_cases state stateid with hsame | ⟨_, _, hnew⟩
  · rw [hsame] at h
    exact h
  · rw [hnew] at h
    exact mem_values_erase h

variable {server : Server} {requests : ℕ → ShareRequest}

theorem clash_step (h : opened ∈ (world.step server requests i).state.opens.values)
    (hclash : opened.reservation.Clash other) :
    (∃ old ∈ world.state.opens.values, old.reservation.Clash other) ∨
      ∃ reservation, Pending requests world i reservation ∧ reservation.Clash other := by
  have hkept : opened ∈ world.state.opens.values →
      (∃ old ∈ world.state.opens.values, old.reservation.Clash other) ∨
        ∃ reservation, Pending requests world i reservation ∧ reservation.Clash other :=
    fun hmem => .inl ⟨opened, hmem, hclash⟩
  simp only [ShareWorld.step] at h
  unfold ShareRequest.section at h
  split at h
  · split at h
    · exact hkept h
    · exact hkept h
  · split at h
    · exact hkept h
    · split_ifs at h
      · exact hkept h
      · exact hkept h
  · next args cursor file access clientid entry hrequest hphase =>
      rcases clash_placeOpen h hclash with hold | hasked
      · exact .inl hold
      · exact .inr ⟨_, ⟨args, cursor, file, access, clientid, entry, hrequest, hphase, rfl⟩, hasked⟩
  · exact hkept h
  · exact .inl (clash_narrowOpen h hclash)
  · split at h
    · exact hkept h
    · exact hkept h
  · exact hkept (clash_removeOpen h)
  · exact hkept h

variable {j : ℕ}

theorem step_phase_other (h : j ≠ i) : (world.step server requests i).phase j = world.phase j :=
  Function.update_of_ne h _ _

theorem step_phase_self : (world.step server requests i).phase i =
      ((requests i).section server world.state (world.phase i)).1 :=
  Function.update_self _ _ _

variable {request : ShareRequest} {phase : SharePhase}

theorem section_checked
    (h : (request.section server state phase).1 = .checked access clientid entry)
    (hnew : phase ≠ .checked access clientid entry) :
    ∃ args cursor file, request = .openFile args cursor file ∧
      (request.section server state phase).2.opens = state.opens ∧
      ∀ opened ∈ state.opens.values,
        ¬opened.reservation.Clash (asked args access clientid entry) := by
  unfold ShareRequest.section at h ⊢
  split at h
  · split at h
    · cases h
    · cases h
  · split at h
    · cases h
    · next args cursor file found clientid' _ =>
        split_ifs at h with hconflict
        cases h
        refine ⟨_, _, _, rfl, ?_, ?_⟩
        · rw [if_neg hconflict]
          rfl
        · intro opened hopened hclash
          exact hconflict (shareConflict_iff.mpr ⟨opened, hopened, hclash⟩)
  · cases h
  · unfold validateDowngrade at h
    repeat' split at h
    all_goals cases h
  · cases h
  · split at h
    · cases h
    · cases h
  · cases h
  · exact absurd h hnew

theorem pending_step {reservation : Reservation}
    (h : Pending requests (world.step server requests i) j reservation) :
    Pending requests world j reservation ∧ (j = i → (world.step server requests i).state.opens =
        world.state.opens) ∨
      (j = i ∧ (world.step server requests i).state.opens = world.state.opens ∧
        ∀ opened ∈ world.state.opens.values, ¬opened.reservation.Clash reservation) := by
  obtain ⟨args, cursor, file, access, clientid, entry, hrequest, hphase, rfl⟩ := h
  by_cases hsame : j = i
  · subst hsame
    rw [step_phase_self] at hphase
    by_cases hold : world.phase j = .checked access clientid entry
    · -- The section after the check answers.
      rw [hold, hrequest] at hphase
      cases hphase
    · obtain ⟨_, _, _, hrequest', hopens, hfree⟩ := section_checked hphase hold
      rw [hrequest] at hrequest'
      cases hrequest'
      exact .inr ⟨rfl, hopens, hfree⟩
  · rw [step_phase_other hsame] at hphase
    exact .inl ⟨⟨args, cursor, file, access, clientid, entry, hrequest, hphase, rfl⟩,
      fun h => absurd h hsame⟩

/-! ### Runs -/

structure Reserved (requests : ℕ → ShareRequest) (world : ShareWorld) : Prop where
  opens : ∀ left ∈ world.state.opens.values, ∀ right ∈ world.state.opens.values,
    ¬left.reservation.Clash right.reservation
  pending : ∀ i reservation, Pending requests world i reservation →
    ∀ opened ∈ world.state.opens.values, ¬opened.reservation.Clash reservation

/-- The condition of a step of task `i`: if it is about to place an open, no other OPEN
that clashes with it is between its check and its placement. -/
def Undisturbed (requests : ℕ → ShareRequest) (world : ShareWorld) (i : ℕ) : Prop :=
  ∀ reservation j other, Pending requests world i reservation →
    Pending requests world j other → ¬reservation.Clash other

theorem Reserved.step (h : Reserved requests world) (hundisturbed : Undisturbed requests world i) :
    Reserved requests (world.step server requests i) := by
  constructor
  · intro left hleft right hright hclash
    rcases clash_step hleft hclash with ⟨old, hold, hclash⟩ | ⟨reservation, hpending, hclash⟩
    · rcases clash_step hright hclash.symm with ⟨twin, htwin, hclash⟩ | ⟨_, hpending, hclash⟩
      · exact h.opens twin htwin old hold hclash
      · exact h.pending i _ hpending old hold hclash.symm
    · rcases clash_step hright hclash.symm with ⟨twin, htwin, hclash⟩ | ⟨_, hpending', hclash⟩
      · exact h.pending i _ hpending twin htwin hclash
      · exact hundisturbed _ i _ hpending' hpending hclash
  · intro j reservation hpending opened hopened hclash
    rcases pending_step hpending with ⟨hbefore, hsame⟩ | ⟨_, hsame, hfree⟩
    · rcases clash_step hopened hclash with ⟨old, hold, hclash⟩ | ⟨other, hother, hclash⟩
      · exact h.pending j reservation hbefore old hold hclash
      · exact hundisturbed other j reservation hother hbefore hclash
    · rw [hsame] at hopened
      exact hfree opened hopened hclash

/-- Interleavings from a state without opens, all of whose steps meet the condition. -/
inductive ShareRun (server : Server) (requests : ℕ → ShareRequest) : ShareWorld → Prop
  | start {state : V4State} : state.opens = ∅ →
      ShareRun server requests { state, phase := fun _ => .start }
  | step {world : ShareWorld} {i : ℕ} : ShareRun server requests world →
      Undisturbed requests world i → ShareRun server requests (world.step server requests i)

theorem ShareRun.reserved (h : ShareRun server requests world) : Reserved requests world := by
  induction h with
  | start hempty =>
    constructor
    · intro left hleft
      simp [hempty] at hleft
    · intro i reservation _ opened hopened
      simp [hempty] at hopened
  | step _ hundisturbed ih => exact ih.step hundisturbed

/-! ### Refusals -/

theorem map_eq_error {α β : Type*} {x : Except Status α} {f : α → β} {status : Status} :
    x.map f = .error status ↔ x = .error status := by
  cases x <;> simp [Except.map]

variable {cursor : Cursor}

theorem admitOpen_ne : state.admitOpen server args cursor ≠ .error .shareDenied := by
  intro h
  unfold admitOpen at h
  repeat' split at h
  all_goals cases h

theorem validateStateid_ne {required : Option ℕ} :
    state.validateStateid stateid cursor required ≠ .error .shareDenied := by
  intro h
  unfold validateStateid at h
  repeat' split at h
  all_goals cases h

theorem placeOpen_ne :
    (state.placeOpen server entry clientid access args).1 ≠ .error .shareDenied := by
  intro h
  unfold placeOpen at h
  repeat' split at h
  all_goals cases h

theorem narrowOpen_ne : (state.narrowOpen stateid access deny).1 ≠ .error .shareDenied := by
  intro h
  unfold narrowOpen at h
  repeat' split at h
  all_goals cases h

theorem removeOpen_ne : (state.removeOpen stateid).1 ≠ .error .shareDenied := by
  intro h
  unfold removeOpen at h
  dsimp only at h
  repeat' split at h
  all_goals cases h

/-- A section answers that the share is denied only as the check of an OPEN that finds a
clashing open. -/
theorem section_shareDenied
    (h : (request.section server state phase).1 = .answered (.error .shareDenied))
    (hnew : phase ≠ .answered (.error .shareDenied)) :
    ∃ args cursor entry access clientid, request = .openFile args cursor (.ok entry) ∧
      phase = .admitted access clientid ∧
      ∃ opened ∈ state.opens.values,
        opened.reservation.Clash (asked args access clientid entry) := by
  unfold ShareRequest.section at h
  split at h
  · split at h
    · next hadmit =>
        cases h
        exact absurd hadmit admitOpen_ne
    · cases h
  · split at h
    · cases h
    · split_ifs at h with hconflict
      obtain ⟨opened, hopened, hclash⟩ := shareConflict_iff.mp hconflict
      exact ⟨_, _, _, _, _, rfl, rfl, opened, hopened, hclash⟩
  · simp only [SharePhase.answered.injEq, map_eq_error] at h
    exact absurd h placeOpen_ne
  · unfold validateDowngrade at h
    split at h
    · cases h
    · split_ifs at h
      · cases h
      · split at h
        · next hvalidate =>
            cases h
            exact absurd hvalidate validateStateid_ne
        · cases h
  · simp only [SharePhase.answered.injEq, map_eq_error] at h
    exact absurd h narrowOpen_ne
  · split at h
    · next hvalidate =>
        cases h
        exact absurd hvalidate validateStateid_ne
    · cases h
  · simp only [SharePhase.answered.injEq, map_eq_error] at h
    exact absurd h removeOpen_ne
  · exact absurd h hnew

/-- In every interleaving whose steps meet the condition, no two opens of a file by
different owners have access bits that meet deny bits of the other. An OPEN is refused
for its share only by a section that finds such an open in the table. -/
theorem share_reservations_exclusive {world : ShareWorld} (h : ShareRun server requests world) :
    (∀ left ∈ world.state.opens.values, ∀ right ∈ world.state.opens.values,
      ¬left.reservation.Clash right.reservation) ∧
    ∀ i, world.phase i ≠ .answered (.error .shareDenied) →
      (world.step server requests i).phase i = .answered (.error .shareDenied) →
      ∃ args cursor entry access clientid, requests i = .openFile args cursor (.ok entry) ∧
        world.phase i = .admitted access clientid ∧
        ∃ opened ∈ world.state.opens.values,
          opened.reservation.Clash (asked args access clientid entry) := by
  refine ⟨h.reserved.opens, fun i hnew hdenied => ?_⟩
  rw [step_phase_self] at hdenied
  exact section_shareDenied hdenied hnew

/-! ### Two clients -/

/-- Clients 1 and 2 ask to write file 7 and to deny everything to others. -/
def sampleOpens (i : ℕ) : ShareRequest :=
  .openFile ⟨2, 3, "o"⟩ { clientid := some (i + 1), current := none } (.ok ⟨3, 7⟩)

/-- The two clients, without opens. -/
def sampleShares : ShareWorld :=
  { state :=
      { V4State.start 0 with
        clients := BTreeMap.ofList ([1, 2].map fun id =>
          (id, { owner := "c", verifier := "v", id, confirmed := true, sequence := 1
                 renewed := 0, reclaimComplete := true, createSessionReplay := none })) }
    phase := fun _ => .start }

/-- The world after the tasks have taken their steps in the order given. -/
def sampleRun (schedule : List ℕ) : ShareWorld :=
  schedule.foldl (fun world i => world.step sampleServer sampleOpens i) sampleShares

/-- Both OPENs check before either places its open, and both succeed. -/
theorem concurrent_opens_clash :
    let world := sampleRun [0, 0, 1, 1, 0, 1]
    world.phase 0 = .answered (.ok (some ⟨1, 1⟩)) ∧ world.phase 1 = .answered (.ok (some ⟨1, 2⟩)) ∧
      ∃ left ∈ world.state.opens.values, ∃ right ∈ world.state.opens.values,
        left.reservation.Clash right.reservation := by
  decide +kernel

theorem undisturbed_of_phase
    (h : ∀ access clientid entry, world.phase i ≠ .checked access clientid entry) :
    Undisturbed requests world i := by
  intro reservation j other hpending
  obtain ⟨_, _, _, access, clientid, entry, _, hphase, _⟩ := hpending
  exact absurd hphase (h access clientid entry)

theorem undisturbed_of_alone (h : ∀ j, j ≠ i → world.phase j = .start) :
    Undisturbed requests world i := by
  intro reservation j other hpending hother hclash
  by_cases hsame : j = i
  · subst hsame
    rw [hpending.unique hother] at hclash
    exact hclash.2.1 ⟨rfl, rfl⟩
  · obtain ⟨_, _, _, _, _, _, _, hphase, _⟩ := hother
    rw [h j hsame] at hphase
    cases hphase

/-- The first client opens the file undisturbed, and the check of the second one finds
its open. -/
theorem share_reservations_exclusive_refused :
    ShareRun sampleServer sampleOpens (sampleRun [0, 0, 0, 1]) ∧
      (sampleRun [0, 0, 0, 1, 1]).phase 1 = .answered (.error .shareDenied) ∧
      ∃ args cursor entry access clientid, sampleOpens 1 = .openFile args cursor (.ok entry) ∧
        (sampleRun [0, 0, 0, 1]).phase 1 = .admitted access clientid ∧
        ∃ opened ∈ (sampleRun [0, 0, 0, 1]).state.opens.values,
          opened.reservation.Clash (asked args access clientid entry) := by
  have hothers : ∀ schedule, (∀ i ∈ schedule, i = 0) → ∀ j, j ≠ 0 →
      (sampleRun schedule).phase j = .start := by
    intro schedule
    induction schedule using List.reverseRecOn with
    | nil => exact fun _ _ _ => rfl
    | append_singleton schedule i ih =>
      intro hall j hj
      have hi : i = 0 := hall i (by simp)
      subst hi
      have hlast : sampleRun (schedule ++ [0]) =
          (sampleRun schedule).step sampleServer sampleOpens 0 := by
        simp [sampleRun, List.foldl_append]
      rw [hlast, step_phase_other hj]
      exact ih (fun k hk => hall k (by simp [hk])) j hj
  have halone : ∀ schedule, (∀ i ∈ schedule, i = 0) →
      Undisturbed sampleOpens (sampleRun schedule) 0 :=
    fun schedule hall => undisturbed_of_alone (hothers schedule hall)
  have hopened : ShareRun sampleServer sampleOpens (sampleRun [0, 0, 0]) :=
    .step (.step (.step (.start rfl) (halone [] (by simp))) (halone [0] (by simp)))
      (halone [0, 0] (by simp))
  have hrun : ShareRun sampleServer sampleOpens (sampleRun [0, 0, 0, 1]) := by
    refine .step hopened (undisturbed_of_phase fun access clientid entry hphase => ?_)
    have hstart : (sampleRun [0, 0, 0]).phase 1 = .start :=
      hothers [0, 0, 0] (by simp) 1 (by decide)
    cases hstart.symm.trans hphase
  refine ⟨hrun, by decide +kernel, ?_⟩
  exact (share_reservations_exclusive hrun).2 1 (by decide +kernel) (by decide +kernel)

end MountRs.Nfs
