import MountRs.Verification.WebDav.Scopes

/-! # The lock table invariant

Sweeping, refreshing and removing only shrink the set of scopes of the table, and
`create` adds one scope after it has swept and found no lock in conflict with it. -/

namespace MountRs.WebDav

open BTreeMap Function DavLockTable Option LockHistory

/-! ### Well-formed tables -/

/-- Locks are stored under their tokens with canonical paths, `order` lists each token
once, and two locks whose scopes share a path are both shared. -/
structure WellFormed (table : DavLockTable) : Prop where
  keyed : ∀ token lock, table.locks.get? token = some lock → lock.token = token
  canonical : ∀ token lock, table.locks.get? token = some lock → Canonical lock.path
  nodup : table.order.Nodup
  ordered : ∀ token, token ∈ table.order ↔ token ∈ table.locks.keys
  compatible : ∀ token lock other twin, table.locks.get? token = some lock →
    table.locks.get? other = some twin → token ≠ other →
    Overlap lock.path lock.depth twin.path twin.depth →
    lock.exclusive = false ∧ twin.exclusive = false

theorem wellFormed_new (options : DavLockTableOptions) : WellFormed (.new options) := by
  constructor <;> simp [new]

variable {table : DavLockTable} {history : LockHistory} {now : ℤ} {parses : String → Bool}
  {lock : DavLock} {token : String} {options : DavLockTableOptions}

theorem get?_sweep : (table.sweep now).locks.get? token = some lock ↔
      table.locks.get? token = some lock ∧ now < lock.expiresAt := by
  simp [sweep, get?_retain_eq_some]

@[simp] theorem sweep_options (table : DavLockTable) (now : ℤ) :
    (table.sweep now).options = table.options := rfl

@[simp] theorem sweep_issued (table : DavLockTable) (now : ℤ) :
    (table.sweep now).issued = table.issued := rfl

@[simp] theorem sweep_sweep (table : DavLockTable) (now : ℤ) :
    (table.sweep now).sweep now = table.sweep now := by
  have hlocks : (table.sweep now).locks.retain (fun _ lock => decide (now < lock.expiresAt)) =
      (table.sweep now).locks := by
    apply ext_get?
    intro token
    apply Option.ext
    intro lock
    rw [get?_retain_eq_some, decide_eq_true_eq]
    constructor
    · exact fun h => h.1
    · exact fun h => ⟨h, (get?_sweep.mp h).2⟩
  have horder : (table.sweep now).order.filter (fun token =>
      (table.sweep now).locks.contains token) = (table.sweep now).order := by
    apply List.filter_eq_self.mpr
    intro token htoken
    exact (List.mem_filter.mp htoken).2
  unfold sweep at hlocks horder ⊢
  simp only [hlocks, horder]

theorem WellFormed.sweep (h : WellFormed table) (now : ℤ) : WellFormed (table.sweep now) where
  keyed token lock hlock := h.keyed token lock (get?_sweep.mp hlock).1
  canonical token lock hlock := h.canonical token lock (get?_sweep.mp hlock).1
  nodup := h.nodup.filter _
  ordered token := by
    have hkeys : token ∈ (table.sweep now).locks.keys → token ∈ table.order := by
      intro hkey
      obtain ⟨lock, hlock⟩ := mem_keys_iff.mp hkey
      exact (h.ordered token).mpr (mem_keys_iff.mpr ⟨lock, (get?_sweep.mp hlock).1⟩)
    have hsweep : token ∈ (table.sweep now).order ↔
        token ∈ table.order ∧ token ∈ (table.sweep now).locks.keys := by
      simp [DavLockTable.sweep, contains_iff]
    rw [hsweep]
    exact ⟨fun hboth => hboth.2, fun hkey => ⟨hkeys hkey, hkey⟩⟩
  compatible token lock other twin hlock htwin :=
    h.compatible token lock other twin (get?_sweep.mp hlock).1 (get?_sweep.mp htwin).1

theorem WellFormed.mem_listed (h : WellFormed table) :
    lock ∈ table.listed ↔ table.locks.get? lock.token = some lock := by
  simp only [listed, List.mem_filterMap]
  constructor
  · intro ⟨token, _, hlock⟩
    rw [h.keyed token lock hlock]
    exact hlock
  · intro hlock
    exact ⟨lock.token, (h.ordered _).mpr (mem_keys_iff.mpr ⟨lock, hlock⟩), hlock⟩

theorem WellFormed.listed_unexpired (h : WellFormed table)
    (hlock : lock ∈ (table.sweep now).listed) :
    table.locks.get? lock.token = some lock ∧ now < lock.expiresAt :=
  get?_sweep.mp ((h.sweep now).mem_listed.mp hlock)

/-! ### The conflict scan -/

theorem conflict_mem {path : String} {depth : LockDepth}
    {exclusive : Bool}
    (h : (table.conflict path depth exclusive now).1 = some lock) :
    lock ∈ (table.sweep now).listed := by
  simp only [conflict, or_eq_some_iff] at h
  rcases h with h | ⟨_, h⟩
  · exact List.mem_of_find?_eq_some h
  · split_ifs at h
    exact List.mem_of_find?_eq_some h

/-- The scan finds nothing exactly when every unexpired lock with an overlapping scope
is shared and so is the request. -/
theorem conflict_eq_none_iff (h : WellFormed table) {path : String}
    (hpath : Canonical path) (depth : LockDepth) (exclusive : Bool) (now : ℤ) :
    (table.conflict path depth exclusive now).1 = none ↔
      ∀ token lock, table.locks.get? token = some lock → now < lock.expiresAt →
        Overlap lock.path lock.depth path depth → lock.exclusive = false ∧ exclusive = false := by
  have hscan : (table.conflict path depth exclusive now).1 = none ↔
      ∀ lock ∈ (table.sweep now).listed,
        ¬(conflictCandidate lock path depth exclusive now .covering = true ∨
          depth = .infinity ∧ conflictCandidate lock path depth exclusive now .within = true) := by
    simp only [conflict, or_eq_none_iff, List.find?_eq_none]
    by_cases hdepth : depth = .infinity
    · simp only [hdepth, if_true, List.find?_eq_none, true_and, not_or]
      exact ⟨fun hboth lock hlock => ⟨hboth.1 lock hlock, hboth.2 lock hlock⟩,
        fun hall => ⟨fun lock hlock => (hall lock hlock).1, fun lock hlock => (hall lock hlock).2⟩⟩
    · simp [hdepth]
  rw [hscan]
  constructor
  · intro hall token lock hlock hlive hoverlap
    have hkey : lock.token = token := h.keyed token lock hlock
    have hmem : lock ∈ (table.sweep now).listed := by
      apply (h.sweep now).mem_listed.mpr
      rw [hkey]
      exact get?_sweep.mpr ⟨hlock, hlive⟩
    have hfree := hall lock hmem
    rw [conflictCandidate_iff (h.canonical token lock hlock) hpath] at hfree
    have hboth : ¬(lock.exclusive = true ∨ exclusive = true) :=
      fun hone => hfree ⟨hlive, hone, hoverlap⟩
    simpa [not_or] using hboth
  · intro hall lock hmem
    obtain ⟨hlock, hlive⟩ := h.listed_unexpired hmem
    rw [conflictCandidate_iff (h.canonical _ lock hlock) hpath]
    intro ⟨_, hone, hoverlap⟩
    obtain ⟨hfirst, hsecond⟩ := hall _ lock hlock hlive hoverlap
    simp [hfirst, hsecond] at hone

/-! ### Granting -/

/-- How many locks of the table are unexpired. -/
def active (table : DavLockTable) (now : ℤ) : ℕ :=
  (table.locks.entries.filter fun entry => decide (now < entry.2.expiresAt)).length

/-- No unexpired lock with an overlapping scope is incompatible with the request, the
table has room, and a configured generator has budget left and gave a valid token. -/
structure Permits (parses : String → Bool) (table : DavLockTable) (request : DavLockRequest)
    (now : ℤ) (draws : TokenDraws) : Prop where
  compatible : ∀ token lock, table.locks.get? token = some lock → now < lock.expiresAt →
    Overlap lock.path lock.depth request.path request.depth →
    lock.exclusive = false ∧ request.exclusive = false
  capacity : active table now < table.options.maxLocks
  budget : table.options.newToken = true → table.issued.size < maxLocks
  valid : table.options.newToken = true → draws.generated.utf8ByteSize ≤ maxInjectedTokenBytes ∧
      usableLockTokenUri parses draws.generated = true

/-- A token is fresh when no unexpired lock has it and a configured generator has never
been granted it. -/
def Fresh (table : DavLockTable) (now : ℤ) (token : String) : Prop :=
  (table.sweep now).taken token = false

variable {request : DavLockRequest}

theorem create_cases (parses : String → Bool) (h : WellFormed table) (hpath : Canonical request.path) (now : ℤ) (draws : TokenDraws) :
    (Permits parses table request now draws ∧ table.create parses request now draws =
        ((candidates table.options draws).find? fun token =>
          !(table.sweep now).taken token).map fun token =>
            (.granted ((table.sweep now).grant request now token),
              (table.sweep now).insertLock ((table.sweep now).grant request now token))) ∨
    (¬Permits parses table request now draws ∧ ((∃ lock ∈ (table.sweep now).listed,
          table.create parses request now draws = some (.conflict lock, table.sweep now)) ∨
        table.create parses request now draws = some (.full, table.sweep now))) := by
  have hsize : (table.sweep now).locks.size = active table now := rfl
  have hscan := conflict_eq_none_iff h hpath request.depth request.exclusive now
  have hconflict : table.conflict request.path request.depth request.exclusive now =
      ((table.conflict request.path request.depth request.exclusive now).1, table.sweep now) := rfl
  unfold create
  rw [hconflict]
  cases hfound : (table.conflict request.path request.depth request.exclusive now).1 with
  | some lock =>
    refine .inr ⟨fun hpermits => ?_, .inl ⟨lock, conflict_mem hfound, rfl⟩⟩
    have hnone := hscan.mpr hpermits.compatible
    rw [hfound] at hnone
    cases hnone
  | none =>
    have hcompatible := hscan.mp hfound
    simp only [DavLockTable.size, sweep_sweep, sweep_options, sweep_issued, hsize]
    split_ifs with hfull hbudget hinvalid
    · exact .inr ⟨fun hpermits => absurd hpermits.capacity (by omega), .inr rfl⟩
    · exact .inr ⟨fun hpermits => absurd (hpermits.budget hbudget.1) (by omega), .inr rfl⟩
    · refine .inr ⟨fun hpermits => ?_, .inr rfl⟩
      obtain ⟨hshort, husable⟩ := hpermits.valid hinvalid.1
      rcases hinvalid.2 with hlong | hunusable
      · omega
      · exact hunusable husable
    · refine .inl ⟨⟨hcompatible, by omega, fun hnew => ?_, fun hnew => ?_⟩, rfl⟩
      · by_contra hspent
        exact hbudget ⟨hnew, by omega⟩
      · by_contra hbad
        refine hinvalid ⟨hnew, ?_⟩
        by_contra hgood
        simp only [not_or, Nat.not_lt, not_not] at hgood
        exact hbad hgood

/-- `create` grants a lock exactly when the table permits it and one of the drawn tokens
is fresh; it goes on drawing exactly when the table permits it and none is. -/
theorem create_grants_iff (parses : String → Bool) (h : WellFormed table) (hpath : Canonical request.path) (now : ℤ) (draws : TokenDraws) :
    ((∃ lock after, table.create parses request now draws = some (.granted lock, after)) ↔
      Permits parses table request now draws ∧
        ∃ token ∈ candidates table.options draws, Fresh table now token) ∧
    (table.create parses request now draws = none ↔ Permits parses table request now draws ∧
        ∀ token ∈ candidates table.options draws, ¬Fresh table now token) := by
  rcases create_cases parses h hpath now draws with ⟨hpermits, hcreate⟩ | ⟨hdenied, hcreate⟩
  · cases hfind : (candidates table.options draws).find? fun token =>
        !(table.sweep now).taken token with
    | none =>
      rw [hfind, map_none] at hcreate
      have hall := List.find?_eq_none.mp hfind
      simp only [Bool.not_eq_true', Bool.not_eq_false] at hall
      simp only [hcreate, hpermits, true_and, Fresh]
      constructor
      · simpa using hall
      · simpa using hall
    | some token =>
      rw [hfind, map_some] at hcreate
      have hmem := List.mem_of_find?_eq_some hfind
      have hfresh := List.find?_some hfind
      simp only [Bool.not_eq_true'] at hfresh
      simp only [hcreate, hpermits, true_and, Fresh]
      constructor
      · constructor
        · intro _
          exact ⟨token, hmem, hfresh⟩
        · intro _
          exact ⟨_, _, rfl⟩
      · constructor
        · intro habsurd
          cases habsurd
        · intro hnone
          exact absurd hfresh (hnone token hmem)
  · rcases hcreate with ⟨lock, _, hcreate⟩ | hcreate
    · simp [hcreate, hdenied]
    · simp [hcreate, hdenied]

/-! ### Updates -/

theorem WellFormed.insertLock (h : WellFormed table)
    (hpath : Canonical lock.path) (hnew : lock.token ∉ table.locks.keys)
    (hcompatible : ∀ token twin, table.locks.get? token = some twin →
      Overlap twin.path twin.depth lock.path lock.depth →
      twin.exclusive = false ∧ lock.exclusive = false) :
    WellFormed (table.insertLock lock) where
  keyed token twin htwin := by
    rcases get?_insert_eq_some htwin with ⟨hsame, rfl⟩ | ⟨-, htwin⟩
    · exact hsame.symm
    · exact h.keyed token twin htwin
  canonical token twin htwin := by
    rcases get?_insert_eq_some htwin with ⟨hsame, rfl⟩ | ⟨-, htwin⟩
    · exact hpath
    · exact h.canonical token twin htwin
  nodup := by
    have hfresh : lock.token ∉ table.order := fun hmem => hnew ((h.ordered _).mp hmem)
    simpa [DavLockTable.insertLock, List.nodup_append, h.nodup] using
      fun token hmem (hsame : token = lock.token) => hfresh (hsame ▸ hmem)
  ordered token := by
    simp only [DavLockTable.insertLock, List.mem_append, List.mem_singleton,
      mem_keys_insert, h.ordered token]
    exact or_comm
  compatible token first other second hfirst hsecond hne hoverlap := by
    simp only [DavLockTable.insertLock, get?_insert] at hfirst hsecond
    split_ifs at hfirst with hold
    · cases hfirst
      split_ifs at hsecond with hother
      · exact absurd (hold.trans hother.symm) hne
      · exact (hcompatible other second hsecond hoverlap.symm).symm
    · split_ifs at hsecond with hother
      · cases hsecond
        exact hcompatible token first hfirst hoverlap
      · exact h.compatible token first other second hfirst hsecond hne hoverlap

theorem WellFormed.replace (h : WellFormed table)
    {existing lock : DavLock} (hexisting : table.locks.get? token = some existing)
    (htoken : lock.token = existing.token) (hpath : lock.path = existing.path)
    (hdepth : lock.depth = existing.depth) (hexclusive : lock.exclusive = existing.exclusive) :
    WellFormed { table with locks := table.locks.insert token lock } := by
  -- Every binding of the new table has the scope of an old one under the same token.
  have hback : ∀ key twin, (table.locks.insert token lock).get? key = some twin →
      ∃ old, table.locks.get? key = some old ∧ twin.token = old.token ∧ twin.path = old.path ∧
        twin.depth = old.depth ∧ twin.exclusive = old.exclusive := by
    intro key twin htwin
    rcases get?_insert_eq_some htwin with ⟨hsame, rfl⟩ | ⟨-, htwin⟩
    · subst hsame
      exact ⟨existing, hexisting, htoken, hpath, hdepth, hexclusive⟩
    · exact ⟨twin, htwin, rfl, rfl, rfl, rfl⟩
  constructor
  · intro key twin htwin
    obtain ⟨old, hold, hsame, _⟩ := hback key twin htwin
    rw [hsame]
    exact h.keyed key old hold
  · intro key twin htwin
    obtain ⟨old, hold, _, hsame, _⟩ := hback key twin htwin
    rw [hsame]
    exact h.canonical key old hold
  · exact h.nodup
  · intro key
    have hkey : token ∈ table.locks.keys := mem_keys_iff.mpr ⟨existing, hexisting⟩
    simp only [mem_keys_insert, h.ordered key]
    constructor
    · exact .inr
    · intro hmem
      rcases hmem with rfl | hmem
      · exact hkey
      · exact hmem
  · intro key first other second hfirst hsecond hne hoverlap
    obtain ⟨old, hold, _, hp, hd, he⟩ := hback key first hfirst
    obtain ⟨old', hold', _, hp', hd', he'⟩ := hback other second hsecond
    rw [hp, hd, hp', hd'] at hoverlap
    rw [he, he']
    exact h.compatible key old other old' hold hold' hne hoverlap

theorem WellFormed.erase (h : WellFormed table) (token : String) :
    WellFormed { table with
      locks := table.locks.erase token
      order := table.order.filter fun entry => entry != token } := by
  have hback : ∀ key lock, (table.locks.erase token).get? key = some lock →
      table.locks.get? key = some lock := by
    intro key lock hlock
    rw [get?_erase] at hlock
    split_ifs at hlock
    exact hlock
  constructor
  · exact fun key lock hlock => h.keyed key lock (hback key lock hlock)
  · exact fun key lock hlock => h.canonical key lock (hback key lock hlock)
  · exact h.nodup.filter _
  · intro key
    simp only [List.mem_filter, bne_iff_ne, mem_keys_erase, h.ordered key]
    exact and_comm
  · intro key first other second hfirst hsecond
    exact h.compatible key first other second (hback key first hfirst) (hback other second hsecond)

/-! ### Histories -/

/-- The table is well formed, each lock has the expiry last granted to its token, and a
table with a generator remembers every token it has granted. -/
structure Recorded (history : LockHistory) : Prop where
  wellFormed : WellFormed history.table
  expiry : ∀ token lock, history.table.locks.get? token = some lock →
    history.expiry token = some lock.expiresAt
  issued : history.table.options.newToken = true →
    ∀ token ∈ history.granted, token ∈ history.table.issued
  nodup : history.table.options.newToken = true → history.granted.Nodup

theorem recorded_start (options : DavLockTableOptions) :
    Recorded { table := .new options, granted := [], expiry := fun _ => none } where
  wellFormed := wellFormed_new options
  expiry := by simp [new]
  issued := by simp
  nodup := by simp

theorem Recorded.sweep (h : Recorded history) (now : ℤ) :
    Recorded { history with table := history.table.sweep now } where
  wellFormed := h.wellFormed.sweep now
  expiry token lock hlock := h.expiry token lock (get?_sweep.mp hlock).1
  issued := h.issued
  nodup := h.nodup

theorem not_mem_of_fresh (h : Fresh table now token) : token ∉ (table.sweep now).locks.keys ∧
      (table.options.newToken = true → token ∉ table.issued) := by
  simp only [Fresh, taken, Bool.or_eq_false_iff, sweep_options, sweep_issued] at h
  constructor
  · intro hmem
    rw [contains_iff.mpr hmem] at h
    exact absurd h.1 (by simp)
  · intro hnew hmem
    have hissued : table.issued.contains token = true := contains_iff.mpr hmem
    rw [hnew, hissued] at h
    exact absurd h.2 (by simp)

section

variable (h : Recorded history)
include h

theorem Recorded.granted {draws : TokenDraws}
    (hpath : Canonical request.path) (hpermits : Permits parses history.table request now draws)
    (hfresh : Fresh history.table now token) : Recorded (history.record
      ((history.table.sweep now).insertLock ((history.table.sweep now).grant request now token))
      (.granted ((history.table.sweep now).grant request now token))) := by
  obtain ⟨hunlocked, hunissued⟩ := not_mem_of_fresh hfresh
  have hwell : WellFormed ((history.table.sweep now).insertLock
      ((history.table.sweep now).grant request now token)) := by
    have hscope : Canonical ((history.table.sweep now).grant request now token).path := hpath
    have hkey : ((history.table.sweep now).grant request now token).token ∉
        (history.table.sweep now).locks.keys := hunlocked
    apply (h.wellFormed.sweep now).insertLock hscope hkey
    intro other twin htwin hoverlap
    obtain ⟨htwin, hlive⟩ := get?_sweep.mp htwin
    exact hpermits.compatible other twin htwin hlive hoverlap
  constructor
  · exact hwell
  · intro other lock hlock
    simp only [record, insertLock, get?_insert] at hlock ⊢
    split_ifs at hlock with hsame
    · cases hlock
      rw [hsame, update_self]
    · rw [update_of_ne hsame]
      exact h.expiry other lock (get?_sweep.mp hlock).1
  · intro hnew other hother
    have hnew : history.table.options.newToken = true := hnew
    simp only [record, insertLock, sweep_options, sweep_issued, hnew,
      if_true, BTreeSet.mem_add, List.mem_append, List.mem_singleton] at hother ⊢
    rcases hother with hother | hother
    · exact .inr (h.issued hnew other hother)
    · exact .inl hother
  · intro hnew
    have hnew : history.table.options.newToken = true := hnew
    simp only [record, List.nodup_append, List.nodup_singleton, List.mem_singleton,
      true_and]
    refine ⟨h.nodup hnew, ?_⟩
    intro other hother last hlast hsame
    subst hlast
    exact hunissued hnew (hsame ▸ h.issued hnew other hother)

theorem Recorded.refreshed {existing : DavLock} {seconds : ℕ} {expiresAt : ℤ}
    (hexisting : (history.table.sweep now).locks.get? token = some existing) :
    Recorded (history.record { history.table.sweep now with
        locks := (history.table.sweep now).locks.insert token
          { existing with timeoutSeconds := seconds, expiresAt } }
      (.refreshed { existing with timeoutSeconds := seconds, expiresAt })) := by
  have hkey : existing.token = token := (h.wellFormed.sweep now).keyed token existing hexisting
  constructor
  · exact (h.wellFormed.sweep now).replace hexisting rfl rfl rfl rfl
  · intro other lock hlock
    simp only [record, get?_insert] at hlock ⊢
    split_ifs at hlock with hsame
    · cases hlock
      rw [hsame, hkey, update_self]
    · rw [hkey, update_of_ne hsame]
      exact h.expiry other lock (get?_sweep.mp hlock).1
  · exact h.issued
  · exact h.nodup

theorem Recorded.removed (token : String) :
    Recorded { history with table := (history.table.remove token).2 } := by
  unfold remove
  split_ifs
  · constructor
    · exact h.wellFormed.erase token
    · intro other lock hlock
      simp only [get?_erase] at hlock
      split_ifs at hlock
      exact h.expiry other lock hlock
    · exact h.issued
    · exact h.nodup
  · exact h

/-! ### What a call shows -/

/-- The locks of the table before the call that its answer shows. -/
def LockAnswer.shown : LockAnswer → List DavLock
  | .refreshed lock => [lock]
  | .seen locks => locks
  | .granted _ | .silent => []

/-- Every lock shown was granted an expiry later than the clock reading of the call,
and the answer carries the expiry granted last. -/
def Timely (history : LockHistory) (now : Option ℤ) (answer : LockAnswer) (after : LockHistory) :
    Prop :=
  ∀ lock ∈ answer.shown, ∃ reading expiresAt, now = some reading ∧
    history.expiry lock.token = some expiresAt ∧ reading < expiresAt ∧
    after.expiry lock.token = some lock.expiresAt

theorem Recorded.timely_seen
    {locks : List DavLock} (hlocks : ∀ lock ∈ locks, lock ∈ (history.table.sweep now).listed)
    (table : DavLockTable) :
    Timely history (some now) (.seen locks) (history.record table (.seen locks)) := by
  intro lock hlock
  obtain ⟨hget, hlive⟩ := h.wellFormed.listed_unexpired (hlocks lock hlock)
  have hexpiry := h.expiry lock.token lock hget
  exact ⟨now, lock.expiresAt, rfl, hexpiry, hlive, hexpiry⟩

theorem Recorded.call {call : LockCall} (hcanonical : call.Canonical) {answer : LockAnswer}
    (hanswer : call.answer parses history.table = some (answer, table)) :
    Recorded (history.record table answer) ∧
      Timely history call.now answer (history.record table answer) := by
  have hsilent : ∀ now after, Timely history now .silent after := by
    intro now after lock hlock
    cases hlock
  cases call with
  | create _ now draws =>
    rcases create_cases parses h.wellFormed hcanonical now draws with
      ⟨hpermits, hcreate⟩ | ⟨_, ⟨lock, hlock, hcreate⟩ | hcreate⟩
    · cases hfind : (candidates history.table.options draws).find? fun token =>
          !(history.table.sweep now).taken token with
      | none => simp [LockCall.answer, hcreate, hfind] at hanswer
      | some token =>
        have hfresh := List.find?_some hfind
        simp only [Bool.not_eq_true'] at hfresh
        simp only [LockCall.answer, hcreate, hfind, map_some] at hanswer
        cases hanswer
        refine ⟨h.granted hcanonical hpermits hfresh, ?_⟩
        intro lock hlock
        cases hlock
    · simp only [LockCall.answer, hcreate, map_some] at hanswer
      cases hanswer
      refine ⟨h.sweep now, h.timely_seen ?_ _⟩
      intro twin htwin
      rw [List.mem_singleton.mp htwin]
      exact hlock
    · simp only [LockCall.answer, hcreate, map_some] at hanswer
      cases hanswer
      exact ⟨h.sweep now, hsilent _ _⟩
  | refresh token _ now =>
    cases hfound : (history.table.sweep now).locks.get? token with
    | none =>
      simp only [LockCall.answer, refresh, find, hfound] at hanswer
      cases hanswer
      exact ⟨h.sweep now, hsilent _ _⟩
    | some existing =>
      simp only [LockCall.answer, refresh, find, hfound] at hanswer
      cases hanswer
      refine ⟨h.refreshed hfound, ?_⟩
      intro lock hlock
      rw [List.mem_singleton.mp hlock]
      obtain ⟨hget, hlive⟩ := get?_sweep.mp hfound
      have hkey : existing.token = token := h.wellFormed.keyed token existing hget
      refine ⟨now, existing.expiresAt, rfl, ?_, hlive, update_self ..⟩
      rw [hkey]
      exact h.expiry token existing hget
  | remove token =>
    cases hanswer
    exact ⟨h.removed token, hsilent _ _⟩
  | find token now =>
    cases hanswer
    refine ⟨h.sweep now, h.timely_seen ?_ _⟩
    intro lock hlock
    have hget : (history.table.sweep now).locks.get? token = some lock :=
      mem_toList.mp hlock
    apply (h.wellFormed.sweep now).mem_listed.mpr
    rw [(h.wellFormed.sweep now).keyed token lock hget]
    exact hget
  | covering path now | within path now =>
    cases hanswer
    exact ⟨h.sweep now, h.timely_seen (fun lock hlock => (List.mem_filter.mp hlock).1) _⟩
  | conflict _ _ _ now =>
    cases hanswer
    refine ⟨h.sweep now, h.timely_seen ?_ _⟩
    intro lock hlock
    exact conflict_mem (mem_toList.mp hlock)
  | size now =>
    cases hanswer
    exact ⟨h.sweep now, hsilent _ _⟩

end

theorem LockRun.recorded (h : LockRun parses options history) : Recorded history := by
  induction h with
  | start => exact recorded_start options
  | call _ hcanonical hanswer ih => exact (ih.call hcanonical hanswer).1

/-- After any calls with canonical paths, at any clock readings: locks with a common
path are shared, `create` grants exactly what the table permits, `order` lists the
tokens once each, no call shows a lock past the expiry it was granted last, and a
configured generator is granted no token twice. -/
theorem lock_table_invariant (h : LockRun parses options history) :
    (∀ token lock other twin, history.table.locks.get? token = some lock →
      history.table.locks.get? other = some twin → token ≠ other →
      Overlap lock.path lock.depth twin.path twin.depth →
      lock.exclusive = false ∧ twin.exclusive = false) ∧
    (∀ request now draws, Canonical request.path → ((∃ lock after,
          history.table.create parses request now draws = some (.granted lock, after)) ↔
        Permits parses history.table request now draws ∧
          ∃ token ∈ DavLockTable.candidates history.table.options draws,
            Fresh history.table now token) ∧
      (history.table.create parses request now draws = none ↔
        Permits parses history.table request now draws ∧
          ∀ token ∈ DavLockTable.candidates history.table.options draws,
            ¬Fresh history.table now token)) ∧
    history.table.order.Nodup ∧
    (∀ token, token ∈ history.table.order ↔ token ∈ history.table.locks.keys) ∧
    (∀ call answer table, LockCall.Canonical call →
      call.answer parses history.table = some (answer, table) →
      Timely history call.now answer (history.record table answer)) ∧
    (history.table.options.newToken = true → history.granted.Nodup) := by
  have hrecorded := h.recorded
  refine ⟨hrecorded.wellFormed.compatible, ?_, hrecorded.wellFormed.nodup,
    hrecorded.wellFormed.ordered, ?_, hrecorded.nodup⟩
  · intro request now draws hpath
    exact create_grants_iff parses hrecorded.wellFormed hpath now draws
  · intro call answer table hcanonical hanswer
    exact (hrecorded.call hcanonical hanswer).2

/-- The history after one more call; a call that does not return changes nothing. -/
def LockHistory.after (history : LockHistory) (call : LockCall) : LockHistory :=
  match call.answer (fun _ => true) history.table with
  | some (answer, table) => history.record table answer
  | none => history

theorem LockRun.after (h : LockRun (fun _ => true) options history) {call : LockCall}
    (hcanonical : call.Canonical) : LockRun (fun _ => true) options (history.after call) := by
  unfold LockHistory.after
  split
  · next hanswer => exact h.call hcanonical hanswer
  · exact h

/-- A shared lock on `/a` with everything below it, and one on `/a/b` below it. The
generator repeats its first token, so the second lock gets a random one. -/
def sampleLocks : LockHistory :=
  (LockHistory.after { table := .new { newToken := true }, granted := [], expiry := fun _ => none }
    (.create ⟨"/a", true, .infinity, false, none, some (.seconds 10)⟩ 0 ⟨"urn:t:1", []⟩)).after
    (.create ⟨"/a/b", false, .zero, false, none, some .infinite⟩ 5000 ⟨"urn:t:1", ["2"]⟩)

theorem lock_table_invariant_shared : LockRun (fun _ => true) { newToken := true } sampleLocks ∧
      sampleLocks.table.order = ["urn:t:1", "urn:uuid:2"] ∧ sampleLocks.granted.Nodup := by
  have hrun : LockRun (fun _ => true) { newToken := true } sampleLocks := by
    unfold sampleLocks
    apply LockRun.after
    · apply LockRun.after
      · exact .start
      · show Canonical "/a"
        unfold Canonical
        decide
    · show Canonical "/a/b"
      unfold Canonical
      decide
  obtain ⟨_, _, _, _, _, hnodup⟩ := lock_table_invariant hrun
  exact ⟨hrun, by decide +kernel, hnodup (by decide +kernel)⟩

end MountRs.WebDav
