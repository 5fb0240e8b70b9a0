import CodeIndexer.Lib.Transition

/-!
# Reference-counted cleanup of index versions

Query threads count their use of an index path in `QueryTracker`; cleanup workers run
`_process_cleanup_queue`, which reads the count of a queued path under the tracker's lock and deletes
the path later, outside it. A step is one critical section or one call of that loop. The calls of the
job tracker, made between the check and the deletion, are swallowed when they raise and touch nothing
else; they are the time spent in `gated`.

`NoLateIncrement` is what the design needs of the query threads, and with it
(`refCount_eq_zero_of_deleting`) no path is in use while it is deleted.
-/

namespace CodeIndexer.Cleanup

open TransitionSystem Function

variable {P W : Type} [DecidableEq P] [DecidableEq W]

/-! ### Query tracker -/

/-- The dictionary of reference counts; entries that reach zero are deleted. -/
structure QueryTracker (P : Type) where
  refCounts : P → Option ℕ
  pos : ∀ p n, refCounts p = some n → 0 < n

namespace QueryTracker

def new : QueryTracker P := ⟨fun _ => none, nofun⟩

def getRefCount (t : QueryTracker P) (p : P) : ℕ := (t.refCounts p).getD 0

def incrementRef (t : QueryTracker P) (p : P) : QueryTracker P where
  refCounts := update t.refCounts p (some (t.getRefCount p + 1))
  pos q n h := by
    by_cases hq : q = p
    · subst hq
      rw [update_self] at h
      exact Option.some.inj h ▸ Nat.succ_pos _
    · rw [update_of_ne hq] at h
      exact t.pos q n h

def decrementRef (t : QueryTracker P) (p : P) : Option (QueryTracker P) :=
  if t.getRefCount p = 0 then none
  else some {
    refCounts := update t.refCounts p
      (if t.getRefCount p - 1 = 0 then none else some (t.getRefCount p - 1))
    pos := fun q n h => by
      by_cases hq : q = p
      · subst hq
        rw [update_self] at h
        split at h
        · cases h
        · exact Option.some.inj h ▸ Nat.pos_of_ne_zero ‹_›
      · rw [update_of_ne hq] at h
        exact t.pos q n h }

theorem getRefCount_incrementRef (t : QueryTracker P) (p q : P) :
    (t.incrementRef p).getRefCount q = if q = p then t.getRefCount p + 1 else t.getRefCount q := by
  show Option.getD (update t.refCounts p _ q) 0 = _
  rw [update_apply]
  split <;> rfl

variable {t t' : QueryTracker P}

theorem getRefCount_decrementRef {p : P} (h : t.decrementRef p = some t') (q : P) :
    t'.getRefCount q = if q = p then t.getRefCount p - 1 else t.getRefCount q := by
  unfold decrementRef at h
  split at h <;> cases h
  show Option.getD (update t.refCounts p _ q) 0 = _
  rw [update_apply]
  split
  · split
    · rename_i hzero
      exact hzero.symm
    · rfl
  · rfl

theorem getRefCount_decrementRef_le {p : P} (h : t.decrementRef p = some t')
    (q : P) : t'.getRefCount q ≤ t.getRefCount q := by
  rw [getRefCount_decrementRef h]
  split
  · subst q
    exact Nat.sub_le _ _
  · exact le_rfl

end QueryTracker

/-! ### Cleanup workers -/

def maxFailures : ℕ := 5

def baseBackoffDelay : ℚ := 1

def maxBackoffDelay : ℚ := 60

/-- Where a call of `_process_cleanup_queue` stands; `todo` are the paths of its snapshot it has not
reached. -/
inductive Pc (P : Type)
  | idle
  | scanning (todo : List P)
  | tripped (path : P) (todo : List P)
  | waiting (path : P) (todo : List P)
  | checking (path : P) (todo : List P)
  | gated (path : P) (todo : List P)
  | deleting (path : P) (todo : List P)
  | discarding (path : P) (todo : List P)
  | resetting (path : P) (todo : List P)
  | failing (path : P) (todo : List P)
deriving DecidableEq

structure State (P W : Type) where
  tracker : QueryTracker P
  cleanupQueue : Finset P
  failureCounts : P → ℕ
  nextRetryTimes : P → ℚ
  pc : W → Pc P

/-- What a step is and what its environment answers: whether file descriptors run short, the order in
which the queue's set is listed, the clock, and whether the deletion raised. -/
inductive Act (P W : Type)
  | incrementRef (p : P)
  | decrementRef (p : P)
  | scheduleCleanup (p : P)
  | start (w : W) (fdUsageHigh : Bool) (order : List P)
  | finish (w : W)
  | getFailureCount (w : W)
  | discardTripped (w : W)
  | isReadyForRetry (w : W) (now : ℚ)
  | getRefCount (w : W)
  | beginDelete (w : W)
  | endDelete (w : W) (raised : Bool)
  | discardDeleted (w : W)
  | resetFailureCount (w : W)
  | recordFailure (w : W) (now : ℚ)

namespace State

def goto (s : State P W) (w : W) (pc : Pc P) : State P W := { s with pc := update s.pc w pc }

def init : State P W := ⟨.new, ∅, fun _ => 0, fun _ => 0, fun _ => .idle⟩

end State

def backoffDelay (count : ℕ) : ℚ := min (baseBackoffDelay * 2 ^ (count - 1)) maxBackoffDelay

def step (s : State P W) : Act P W → Option (State P W)
  | .incrementRef p => some { s with tracker := s.tracker.incrementRef p }
  | .decrementRef p =>
    match s.tracker.decrementRef p with
    | some tracker => some { s with tracker }
    | none => some s
  | .scheduleCleanup p => some { s with cleanupQueue := insert p s.cleanupQueue }
  | .start w fdUsageHigh order =>
    match s.pc w with
    | .idle =>
      if fdUsageHigh then some (s.goto w .idle)
      else if order.Nodup ∧ order.toFinset = s.cleanupQueue then some (s.goto w (.scanning order))
      else none
    | _ => none
  | .finish w =>
    match s.pc w with
    | .scanning [] => some (s.goto w .idle)
    | _ => none
  | .getFailureCount w =>
    match s.pc w with
    | .scanning (p :: todo) =>
      some (s.goto w (if maxFailures ≤ s.failureCounts p then .tripped p todo else .waiting p todo))
    | _ => none
  | .discardTripped w =>
    match s.pc w with
    | .tripped p todo =>
      some ({ s with cleanupQueue := s.cleanupQueue.erase p }.goto w (.scanning todo))
    | _ => none
  | .isReadyForRetry w now =>
    match s.pc w with
    | .waiting p todo =>
      some (s.goto w (if s.nextRetryTimes p ≤ now then .checking p todo else .scanning todo))
    | _ => none
  | .getRefCount w =>
    match s.pc w with
    | .checking p todo =>
      some (s.goto w (if s.tracker.getRefCount p ≠ 0 then .scanning todo else .gated p todo))
    | _ => none
  | .beginDelete w =>
    match s.pc w with
    | .gated p todo => some (s.goto w (.deleting p todo))
    | _ => none
  | .endDelete w raised =>
    match s.pc w with
    | .deleting p todo => some (s.goto w (if raised then .failing p todo else .discarding p todo))
    | _ => none
  | .discardDeleted w =>
    match s.pc w with
    | .discarding p todo =>
      some ({ s with cleanupQueue := s.cleanupQueue.erase p }.goto w (.resetting p todo))
    | _ => none
  | .resetFailureCount w =>
    match s.pc w with
    | .resetting p todo =>
      some ({ s with
        failureCounts := update s.failureCounts p 0
        nextRetryTimes := update s.nextRetryTimes p 0 }.goto w (.scanning todo))
    | _ => none
  | .recordFailure w now =>
    match s.pc w with
    | .failing p todo =>
      let count := s.failureCounts p + 1
      some ({ s with
        failureCounts := update s.failureCounts p count
        nextRetryTimes := update s.nextRetryTimes p (now + backoffDelay count) }.goto w
          (.scanning todo))
    | _ => none

def cleanup (P W : Type) [DecidableEq P] [DecidableEq W] : TransitionSystem (State P W) (Act P W) where
  init s := s = State.init
  step := step

/-! ### What the workers rely on -/

def Pc.claimed : Pc P → Option P
  | .gated p _ | .deleting p _ => some p
  | _ => none

def Act.takes : Act P W → Option P
  | .incrementRef p => some p
  | _ => none

/-- No query takes a reference on a path between its zero check and the end of its deletion. -/
def NoLateIncrement (s : State P W) (a : Act P W) : Prop := ∀ w, ∀ p ∈ a.takes, (s.pc w).claimed ≠ some p

instance [Fintype W] (s : State P W) (a : Act P W) : Decidable (NoLateIncrement s a) :=
  inferInstanceAs (Decidable (∀ w, ∀ p ∈ a.takes, (s.pc w).claimed ≠ some p))

def Unused (s : State P W) : Prop := ∀ w p, (s.pc w).claimed = some p → s.tracker.getRefCount p = 0

/-- A worker's move: it claims nothing, keeps its claim, or claims a path it found unused. -/
structure Moved (s s' : State P W) (w : W) (pc : Pc P) : Prop where
  tracker : s'.tracker = s.tracker
  moved : s'.pc = update s.pc w pc
  claim : ∀ p, pc.claimed = some p → (s.pc w).claimed = some p ∨ s.tracker.getRefCount p = 0

variable {a : Act P W} {s s' : State P W}

theorem step_cases (h : step s a = some s') :
    (∃ p, a = .incrementRef p ∧ s'.tracker = s.tracker.incrementRef p ∧ s'.pc = s.pc) ∨
    ((∀ p, s'.tracker.getRefCount p ≤ s.tracker.getRefCount p) ∧ s'.pc = s.pc) ∨
    ∃ w pc, Moved s s' w pc := by
  cases a <;> simp only [step] at h
  case incrementRef p =>
    cases h
    exact .inl ⟨p, rfl, rfl, rfl⟩
  case decrementRef p =>
    refine .inr (.inl ?_)
    rcases hd : s.tracker.decrementRef p with _ | t
    · simp only [hd] at h
      cases h
      exact ⟨fun _ => le_rfl, rfl⟩
    · simp only [hd] at h
      cases h
      exact ⟨QueryTracker.getRefCount_decrementRef_le hd, rfl⟩
  case scheduleCleanup p =>
    cases h
    exact .inr (.inl ⟨fun _ => le_rfl, rfl⟩)
  case start w fdUsageHigh order =>
    refine .inr (.inr ⟨w, ?_⟩)
    split at h
    · split at h
      · cases h
        exact ⟨.idle, rfl, rfl, nofun⟩
      · split at h <;> cases h
        exact ⟨.scanning order, rfl, rfl, nofun⟩
    · cases h
  case getFailureCount w | isReadyForRetry w now | endDelete w raised =>
    refine .inr (.inr ⟨w, ?_⟩)
    split at h <;> cases h
    exact ⟨_, rfl, rfl, fun q hq => by split at hq <;> cases hq⟩
  case getRefCount w =>
    refine .inr (.inr ⟨w, ?_⟩)
    split at h <;> cases h
    refine ⟨_, rfl, rfl, fun q hq => .inr ?_⟩
    split at hq <;> cases hq
    exact not_not.1 ‹_›
  case beginDelete w =>
    refine .inr (.inr ⟨w, ?_⟩)
    split at h
    · rename_i hpc
      cases h
      exact ⟨_, rfl, rfl, fun q hq => .inl (by rw [hpc]; exact hq)⟩
    · cases h
  case finish w | discardTripped w | discardDeleted w | resetFailureCount w | recordFailure w now =>
    refine .inr (.inr ⟨w, ?_⟩)
    split at h <;> cases h
    exact ⟨_, rfl, rfl, nofun⟩

theorem Unused.step (h : Unused s) (hlate : NoLateIncrement s a) (hs : step s a = some s') : Unused s' := by
  intro w p hp
  rcases step_cases hs with ⟨q, rfl, htracker, hpc⟩ | ⟨hle, hpc⟩ | ⟨w', pc, htracker, hpc, hclaim⟩
  · rw [hpc] at hp
    rw [htracker, QueryTracker.getRefCount_incrementRef, if_neg]
    · exact h w p hp
    · rintro rfl
      exact hlate w p rfl hp
  · rw [hpc] at hp
    exact Nat.le_zero.1 (h w p hp ▸ hle p)
  · rw [htracker]
    rw [hpc] at hp
    by_cases hw : w = w'
    · subst hw
      rw [update_self] at hp
      rcases hclaim p hp with hp | hp
      · exact h w p hp
      · exact hp
    · rw [update_of_ne hw] at hp
      exact h w p hp

/-- While a path is deleted its reference count is zero, in every run in which no query takes a
reference on a path between its zero check and the end of its deletion. The condition cannot be
dropped for the time of the deletion: a reference taken then is counted. -/
theorem refCount_eq_zero_of_deleting {s : State P W} (h : (cleanup P W).Reachable NoLateIncrement s) :
    (∀ w p todo, s.pc w = .deleting p todo → s.tracker.getRefCount p = 0) ∧
    (∀ w p todo s', s.pc w = .deleting p todo → step s (.incrementRef p) = some s' →
      s'.pc w = .deleting p todo ∧ s'.tracker.getRefCount p ≠ 0) := by
  have hunused : Unused s := by
    refine h.invariant ?_ ?_
    · rintro s rfl w p hp
      cases hp
    · intro s a s' hs hlate hstep
      exact hs.step hlate hstep
  constructor
  · intro w p todo hpc
    exact hunused w p (by rw [hpc]; rfl)
  · intro w p todo s' hpc hstep
    cases hstep
    refine ⟨hpc, ?_⟩
    rw [QueryTracker.getRefCount_incrementRef, if_pos rfl]
    exact Nat.succ_ne_zero _

/-- A query comes and goes, then the path is deleted. -/
theorem refCount_eq_zero_of_deleting_after_query :
    ∃ s : State ℕ Unit, (cleanup ℕ Unit).Reachable NoLateIncrement s ∧ s.pc () = .deleting 7 [] ∧
      s.tracker.getRefCount 7 = 0 := by
  exact exists_of_run_and State.init
    [.incrementRef 7, .scheduleCleanup 7, .decrementRef 7, .start () false [7], .getFailureCount (),
     .isReadyForRetry () 0, .getRefCount (), .beginDelete ()] rfl (by decide +kernel) fun s hreach hpc =>
    (refCount_eq_zero_of_deleting hreach).1 () 7 [] hpc

/-- A query that starts between the zero check and the deletion is deleted under. -/
theorem deleting_under_query :
    ∃ s : State ℕ Unit, (cleanup ℕ Unit).Reachable Any s ∧ s.pc () = .deleting 7 [] ∧
      s.tracker.getRefCount 7 = 1 := by
  exact exists_of_run_mem State.init
    [.scheduleCleanup 7, .start () false [7], .getFailureCount (), .isReadyForRetry () 0,
     .getRefCount (), .incrementRef 7, .beginDelete ()] rfl (by decide +kernel)

end CodeIndexer.Cleanup
