import CodeIndexer.Lib.Dict
import CodeIndexer.Lib.PyText

/-!
# Account lockout (`server/auth/login_rate_limiter.py`)

`LoginRateLimiter` keeps failures and lockouts in two dictionaries, or in the tables `login_failures`
and `login_lockouts` once a connection pool is set. Floats are exact rationals; a call carries the
clock readings it makes, and a recorded failure makes two.

The two modes forget failures at different moments: an expired lockout takes the in-memory failures
of the account with it, while the rows of the table only leave the window. `Agree` relates the two
through the number of failures either would count at any later reading.
-/

namespace CodeIndexer.Login

open PyText List Dict

structure Settings where
  maxAttempts : ℤ
  lockoutDurationMinutes : ℚ
  windowMinutes : ℚ
  enabled : Bool
deriving DecidableEq

def Settings.defaults : Settings := ⟨5, 15, 15, true⟩

def Settings.lockoutDurationSeconds (cfg : Settings) : ℚ := cfg.lockoutDurationMinutes * 60

def Settings.windowSeconds (cfg : Settings) : ℚ := cfg.windowMinutes * 60

structure Answer where
  locked : Bool
  remaining : ℚ
deriving DecidableEq

/-! ### The in-memory mode -/

structure Memory where
  failures : Dict Str (List ℚ)
  lockoutUntil : Dict Str ℚ

def Memory.empty : Memory := ⟨Dict.empty, Dict.empty⟩

def Memory.checkLocked (m : Memory) (username : Str) (now : ℚ) : Memory × Answer :=
  match m.lockoutUntil.get? username with
  | none => (m, ⟨false, 0⟩)
  | some lockoutUntil =>
    if now < lockoutUntil then (m, ⟨true, lockoutUntil - now⟩)
    else (⟨m.failures.erase username, m.lockoutUntil.erase username⟩, ⟨false, 0⟩)

def Memory.failuresOf (m : Memory) (username : Str) : List ℚ := (m.failures.get? username).getD []

def Memory.pruneOldFailures (cfg : Settings) (m : Memory) (username : Str) (now : ℚ) : Memory :=
  let cutoff := now - cfg.windowSeconds
  match m.failures.get? username with
  | none => m
  | some timestamps =>
    { m with failures := m.failures.set username (timestamps.filter fun ts => decide (ts > cutoff)) }

def Memory.recordFailure (cfg : Settings) (m : Memory) (username : Str) (now : ℚ) : Memory × Answer :=
  let pruned := m.pruneOldFailures cfg username now
  let recorded := { pruned with failures := pruned.failures.set username (pruned.failuresOf username ++ [now]) }
  let failureCount : ℤ := (recorded.failuresOf username).length
  if failureCount ≥ cfg.maxAttempts then
    ({ recorded with lockoutUntil := recorded.lockoutUntil.set username (now + cfg.lockoutDurationSeconds) },
      ⟨true, cfg.lockoutDurationSeconds⟩)
  else (recorded, ⟨false, 0⟩)

def Memory.recordSuccess (m : Memory) (username : Str) : Memory :=
  ⟨m.failures.erase username, m.lockoutUntil.erase username⟩

/-! ### The PostgreSQL mode -/

structure Failure where
  username : Str
  failedAt : ℚ
deriving DecidableEq

structure Postgres where
  loginFailures : List Failure
  loginLockouts : Dict Str ℚ

def Postgres.empty : Postgres := ⟨[], Dict.empty⟩

def Postgres.checkLocked (p : Postgres) (username : Str) (now : ℚ) : Answer :=
  match (p.loginLockouts.get? username).filter fun lockedUntil => decide (lockedUntil > now) with
  | none => ⟨false, 0⟩
  | some lockedUntil => ⟨true, lockedUntil - now⟩

def Postgres.failureCount (p : Postgres) (username : Str) (cutoff : ℚ) : ℕ :=
  p.loginFailures.countP fun f => decide (f.username = username ∧ f.failedAt > cutoff)

def Postgres.recordFailure (cfg : Settings) (p : Postgres) (username : Str) (now : ℚ) : Postgres × Answer :=
  let inserted := { p with loginFailures := p.loginFailures ++ [⟨username, now⟩] }
  let cutoff := now - cfg.windowSeconds
  let failureCount : ℤ := inserted.failureCount username cutoff
  if failureCount ≥ cfg.maxAttempts then
    ({ inserted with loginLockouts := inserted.loginLockouts.set username (now + cfg.lockoutDurationSeconds) },
      ⟨true, cfg.lockoutDurationSeconds⟩)
  else (inserted, ⟨false, 0⟩)

def Postgres.recordSuccess (p : Postgres) (username : Str) : Postgres :=
  ⟨p.loginFailures.filter fun f => decide (f.username ≠ username), p.loginLockouts.erase username⟩

/-! ### The calls -/

inductive Storage
  | memory (m : Memory)
  | postgres (p : Postgres)

def Storage.checkLocked (username : Str) (now : ℚ) : Storage → Storage × Answer
  | .memory m => ((m.checkLocked username now).map .memory id)
  | .postgres p => (.postgres p, p.checkLocked username now)

def isLocked (cfg : Settings) (s : Storage) (username : Str) (now : ℚ) : Storage × Answer :=
  if cfg.enabled then s.checkLocked username now else (s, ⟨false, 0⟩)

/-- The clock is read once for the lock check and once for the failure. -/
def checkAndRecordFailure (cfg : Settings) (s : Storage) (username : Str) (checkedAt now : ℚ) : Storage × Answer :=
  if cfg.enabled then
    let checked := s.checkLocked username checkedAt
    if checked.2.locked then (checked.1, ⟨true, checked.2.remaining⟩)
    else
      match checked.1 with
      | .postgres p => (p.recordFailure cfg username now).map .postgres id
      | .memory m => (m.recordFailure cfg username now).map .memory id
  else (s, ⟨false, 0⟩)

def recordSuccess (cfg : Settings) (s : Storage) (username : Str) : Storage :=
  if cfg.enabled then
    match s with
    | .postgres p => .postgres (p.recordSuccess username)
    | .memory m => .memory (m.recordSuccess username)
  else s

inductive Event
  | failure (username : Str) (checkedAt now : ℚ)
  | success (username : Str)
  | check (username : Str) (now : ℚ)
deriving DecidableEq

def Event.readings : Event → List ℚ
  | .failure _ checkedAt now => [checkedAt, now]
  | .success _ => []
  | .check _ now => [now]

def Event.lastReading (now : ℚ) : Event → ℚ
  | .failure _ _ t => t
  | .success _ => now
  | .check _ t => t

theorem Event.lastReading_mem (now : ℚ) (e : Event) : e.lastReading now ∈ now :: e.readings := by
  cases e <;> simp [lastReading, readings]

def Timed (history : List Event) : Prop := (history.flatMap Event.readings).Pairwise (· ≤ ·)

instance (history : List Event) : Decidable (Timed history) := inferInstanceAs (Decidable (List.Pairwise _ _))

def step (cfg : Settings) (s : Storage) : Event → Storage × Option Answer
  | .failure username checkedAt now => (checkAndRecordFailure cfg s username checkedAt now).map id some
  | .success username => (recordSuccess cfg s username, none)
  | .check username now => (isLocked cfg s username now).map id some

def answers (cfg : Settings) : Storage → List Event → List (Option Answer)
  | _, [] => []
  | s, e :: history => (step cfg s e).2 :: answers cfg (step cfg s e).1 history

def after (cfg : Settings) : Storage → List Event → Storage
  | s, [] => s
  | s, e :: history => after cfg (step cfg s e).1 history

theorem answers_append (cfg : Settings) (s : Storage) (h h' : List Event) :
    answers cfg s (h ++ h') = answers cfg s h ++ answers cfg (after cfg s h) h' := by
  induction h generalizing s with
  | nil => rfl
  | cons e h ih => simp [answers, after, ih]

theorem length_answers (cfg : Settings) (s : Storage) (h : List Event) : (answers cfg s h).length = h.length := by
  induction h generalizing s with
  | nil => rfl
  | cons e h ih => simp [answers, ih]

variable {cfg : Settings} {now : ℚ} {p : Postgres}

theorem answers_disabled (h : cfg.enabled = false) (history : List Event) (s s' : Storage) :
    answers cfg s history = answers cfg s' history := by
  induction history generalizing s s' with
  | nil => rfl
  | cons e history ih =>
    cases e with
    | failure u checkedAt t => simp [answers, step, checkAndRecordFailure, h, ih s s']
    | success u => simp [answers, step, recordSuccess, h, ih s s']
    | check u t => simp [answers, step, isLocked, h, ih s s']

/-! ### What either mode counts -/

def Memory.recent (m : Memory) (username : Str) (cutoff : ℚ) : ℕ :=
  (m.failuresOf username).countP fun ts => decide (ts > cutoff)

theorem Memory.failuresOf_pruneOldFailures (cfg : Settings) (m : Memory) (u : Str) (now : ℚ) (v : Str) :
    (m.pruneOldFailures cfg u now).failuresOf v =
      if v = u then (m.failuresOf u).filter fun ts => decide (ts > now - cfg.windowSeconds)
      else m.failuresOf v := by
  unfold pruneOldFailures failuresOf
  cases h : m.failures.get? u with
  | none =>
    by_cases hv : v = u
    · simp [hv, h]
    · simp [hv]
  | some timestamps =>
    by_cases hv : v = u <;> simp [hv, get?_set]

theorem Memory.lockoutUntil_pruneOldFailures (cfg : Settings) (m : Memory) (u : Str) (now : ℚ) :
    (m.pruneOldFailures cfg u now).lockoutUntil = m.lockoutUntil := by
  unfold pruneOldFailures
  split <;> rfl

def Memory.recorded (cfg : Settings) (m : Memory) (u : Str) (now : ℚ) : Memory :=
  { m.pruneOldFailures cfg u now with
    failures := (m.pruneOldFailures cfg u now).failures.set u
      ((m.pruneOldFailures cfg u now).failuresOf u ++ [now]) }

theorem Memory.lockoutUntil_recorded (cfg : Settings) (m : Memory) (u : Str) (now : ℚ) :
    (m.recorded cfg u now).lockoutUntil = m.lockoutUntil := lockoutUntil_pruneOldFailures cfg m u now

theorem Memory.failuresOf_recorded (cfg : Settings) (m : Memory) (u : Str) (now : ℚ) (v : Str) :
    (m.recorded cfg u now).failuresOf v =
      if v = u then ((m.failuresOf u).filter fun ts => decide (ts > now - cfg.windowSeconds)) ++ [now]
      else m.failuresOf v := by
  by_cases hv : v = u
  · subst hv
    rw [if_pos rfl]
    conv_lhs => rw [failuresOf, recorded, get?_set_self, Option.getD_some, failuresOf_pruneOldFailures, if_pos rfl]
  · rw [if_neg hv]
    conv_lhs => rw [failuresOf, recorded, get?_set_of_ne _ _ hv]
    have h := failuresOf_pruneOldFailures cfg m u now v
    rw [if_neg hv] at h
    exact h

theorem Memory.length_recorded (cfg : Settings) (m : Memory) (u : Str) (now : ℚ) :
    ((m.recorded cfg u now).failuresOf u).length = m.recent u (now - cfg.windowSeconds) + 1 := by
  rw [failuresOf_recorded, if_pos rfl, length_append, ← countP_eq_length_filter]
  rfl

theorem Memory.recent_recorded (cfg : Settings) (m : Memory) (u : Str) {t : ℚ} (ht : now ≤ t) (v : Str) :
    (m.recorded cfg u now).recent v (t - cfg.windowSeconds) =
      m.recent v (t - cfg.windowSeconds) + if v = u ∧ now > t - cfg.windowSeconds then 1 else 0 := by
  by_cases hv : v = u
  · subst hv
    rw [recent, failuresOf_recorded, if_pos rfl, countP_append, countP_filter, recent]
    congr 1
    · refine countP_congr fun ts _ => ?_
      simp only [Bool.and_eq_true, decide_eq_true_eq, and_iff_left_iff_imp]
      intro h
      linarith
    · simp [countP_singleton]
  · rw [recent, failuresOf_recorded, if_neg hv, recent]
    simp [hv]

theorem Postgres.failureCount_append (p : Postgres) (u : Str) (now : ℚ) (v : Str) (cutoff : ℚ) :
    Postgres.failureCount { p with loginFailures := p.loginFailures ++ [⟨u, now⟩] } v cutoff =
      p.failureCount v cutoff + if v = u ∧ now > cutoff then 1 else 0 := by
  rw [failureCount, countP_append, countP_singleton, failureCount]
  simp only [decide_eq_true_eq, eq_comm (a := u)]

theorem Postgres.checkLocked_of_get? {u : Str}
    (h : ∀ lockedUntil, p.loginLockouts.get? u = some lockedUntil → lockedUntil ≤ now) :
    p.checkLocked u now = ⟨false, 0⟩ := by
  unfold checkLocked
  cases hget : p.loginLockouts.get? u with
  | none => rfl
  | some lockedUntil =>
    have hle : ¬ now < lockedUntil := not_lt.2 (h lockedUntil hget)
    simp [Option.filter, hle]

theorem Postgres.checkLocked_of_lt {u : Str} {lockedUntil : ℚ}
    (h : p.loginLockouts.get? u = some lockedUntil) (hlt : now < lockedUntil) :
    p.checkLocked u now = ⟨true, lockedUntil - now⟩ := by
  simp [checkLocked, h, Option.filter, hlt]

theorem Memory.recordFailure_eq (cfg : Settings) (m : Memory) (u : Str) (now : ℚ) :
    m.recordFailure cfg u now =
      if ((m.recent u (now - cfg.windowSeconds) + 1 : ℕ) : ℤ) ≥ cfg.maxAttempts then
        ({ m.recorded cfg u now with
            lockoutUntil := (m.recorded cfg u now).lockoutUntil.set u (now + cfg.lockoutDurationSeconds) },
          ⟨true, cfg.lockoutDurationSeconds⟩)
      else (m.recorded cfg u now, ⟨false, 0⟩) := by
  rw [← length_recorded]
  rfl

theorem Postgres.recordFailure_eq (hW : 0 < cfg.windowSeconds) (p : Postgres) (u : Str) (now : ℚ) :
    p.recordFailure cfg u now =
      if ((p.failureCount u (now - cfg.windowSeconds) + 1 : ℕ) : ℤ) ≥ cfg.maxAttempts then
        (⟨p.loginFailures ++ [⟨u, now⟩], p.loginLockouts.set u (now + cfg.lockoutDurationSeconds)⟩,
          ⟨true, cfg.lockoutDurationSeconds⟩)
      else ({ p with loginFailures := p.loginFailures ++ [⟨u, now⟩] }, ⟨false, 0⟩) := by
  have hin : u = u ∧ now > now - cfg.windowSeconds := ⟨rfl, sub_lt_self now hW⟩
  have hcount := failureCount_append p u now u (now - cfg.windowSeconds)
  rw [if_pos hin] at hcount
  rw [← hcount]
  rfl

/-! ### The two modes agree -/

/-- The states of the two modes after the same calls, the last clock reading being `now`. An account
that memory holds for unlocked is unlocked in the table, and a later reading counts the same failures
of it; unless a single failure locks, when the count does not matter. -/
structure Agree (cfg : Settings) (now : ℚ) (m : Memory) (p : Postgres) : Prop where
  past : ∀ f ∈ p.loginFailures, f.failedAt ≤ now
  locked : ∀ u lockoutUntil, m.lockoutUntil.get? u = some lockoutUntil →
    p.loginLockouts.get? u = some lockoutUntil ∧
      ∀ f ∈ p.loginFailures, f.username = u → f.failedAt ≤ lockoutUntil - cfg.lockoutDurationSeconds
  unlocked : ∀ u, m.lockoutUntil.get? u = none → ∀ lockedUntil, p.loginLockouts.get? u = some lockedUntil →
    lockedUntil ≤ now
  counts : ∀ u, m.lockoutUntil.get? u = none → 1 < cfg.maxAttempts → ∀ t, now ≤ t →
    m.recent u (t - cfg.windowSeconds) = p.failureCount u (t - cfg.windowSeconds)

namespace Agree

variable {cfg : Settings} {now now' : ℚ} {m : Memory} {p : Postgres}

theorem empty (cfg : Settings) (now : ℚ) : Agree cfg now .empty .empty where
  past := nofun
  locked := fun u lockoutUntil h => by cases h
  unlocked := fun u _ lockedUntil h => by cases h
  counts := fun _ _ _ _ _ => rfl

theorem later (h : Agree cfg now m p) (hle : now ≤ now') : Agree cfg now' m p where
  past := fun f hf => (h.past f hf).trans hle
  locked := h.locked
  unlocked := fun u hu x hx => (h.unlocked u hu x hx).trans hle
  counts := fun u hu hM t ht => h.counts u hu hM t (hle.trans ht)

variable {u : Str}

theorem expire (h : Agree cfg now m p) (hcfg : cfg.maxAttempts ≤ 1 ∨ cfg.windowSeconds ≤ cfg.lockoutDurationSeconds)
    {lockoutUntil : ℚ} (hu : m.lockoutUntil.get? u = some lockoutUntil) (hle : lockoutUntil ≤ now) :
    Agree cfg now ⟨m.failures.erase u, m.lockoutUntil.erase u⟩ p where
  past := h.past
  locked := fun v x hx => h.locked v x (get?_erase_eq_some.1 hx).2
  unlocked := by
    intro v hv x hx
    by_cases hvu : v = u
    · subst hvu
      have hsame : p.loginLockouts.get? v = some lockoutUntil := (h.locked v lockoutUntil hu).1
      obtain rfl : lockoutUntil = x := Option.mem_unique hsame hx
      exact hle
    · rw [get?_erase_of_ne _ hvu] at hv
      exact h.unlocked v hv x hx
  counts := by
    intro v hv hM t ht
    by_cases hvu : v = u
    · subst hvu
      have hmem : Memory.recent ⟨m.failures.erase v, m.lockoutUntil.erase v⟩ v (t - cfg.windowSeconds) = 0 := by
        simp [Memory.recent, Memory.failuresOf, get?_erase]
      have hrows : p.failureCount v (t - cfg.windowSeconds) = 0 := by
        refine countP_eq_zero.2 fun f hf hin => ?_
        obtain ⟨hname, hafter⟩ := of_decide_eq_true hin
        have hbefore := (h.locked v lockoutUntil hu).2 f hf hname
        have hwindow : cfg.windowSeconds ≤ cfg.lockoutDurationSeconds := hcfg.resolve_left (not_le.2 hM)
        linarith
      rw [hmem, hrows]
    · rw [get?_erase_of_ne _ hvu] at hv
      have hcount := h.counts v hv hM t ht
      rw [← hcount]
      simp [Memory.recent, Memory.failuresOf, get?_erase, hvu]

theorem recordSuccess (h : Agree cfg now m p) (u : Str) : Agree cfg now (m.recordSuccess u) (p.recordSuccess u) where
  past := fun f hf => h.past f (mem_filter.1 hf).1
  locked := by
    intro v x hx
    obtain ⟨hvu, hx⟩ := get?_erase_eq_some.1 hx
    obtain ⟨hlock, hrows⟩ := h.locked v x hx
    refine ⟨get?_erase_eq_some.2 ⟨hvu, hlock⟩, fun f hf => hrows f (mem_filter.1 hf).1⟩
  unlocked := by
    intro v hv x hx
    obtain ⟨hvu, hx⟩ := get?_erase_eq_some.1 hx
    rw [Memory.recordSuccess, get?_erase_of_ne _ hvu] at hv
    exact h.unlocked v hv x hx
  counts := by
    intro v hv hM t ht
    by_cases hvu : v = u
    · subst hvu
      have hrows : (p.recordSuccess v).failureCount v (t - cfg.windowSeconds) = 0 := by
        refine countP_eq_zero.2 fun f hf hin => ?_
        exact of_decide_eq_true (mem_filter.1 hf).2 (of_decide_eq_true hin).1
      rw [hrows]
      simp [Memory.recent, Memory.failuresOf, Memory.recordSuccess, get?_erase]
    · rw [Memory.recordSuccess, get?_erase_of_ne _ hvu] at hv
      have hrows : (p.recordSuccess u).failureCount v (t - cfg.windowSeconds) =
          p.failureCount v (t - cfg.windowSeconds) := by
        rw [Postgres.failureCount, Postgres.recordSuccess, countP_filter, Postgres.failureCount]
        refine countP_congr fun f _ => ?_
        simp only [Bool.and_eq_true, decide_eq_true_eq, and_iff_left_iff_imp]
        exact fun hin hname => hvu (hin.1.symm.trans hname)
      rw [hrows, ← h.counts v hv hM t ht]
      simp [Memory.recent, Memory.failuresOf, Memory.recordSuccess, get?_erase, hvu]

theorem record (h : Agree cfg now m p) (hu : m.lockoutUntil.get? u = none) :
    Agree cfg now (m.recorded cfg u now) { p with loginFailures := p.loginFailures ++ [⟨u, now⟩] } where
  past := by
    intro f hf
    rcases mem_append.1 hf with hf | hf
    · exact h.past f hf
    · rw [mem_singleton.1 hf]
  locked := by
    intro v x hx
    rw [Memory.lockoutUntil_recorded] at hx
    obtain ⟨hlock, hrows⟩ := h.locked v x hx
    refine ⟨hlock, fun f hf hname => ?_⟩
    rcases mem_append.1 hf with hf | hf
    · exact hrows f hf hname
    · obtain rfl : u = v := by
        rw [mem_singleton.1 hf] at hname
        exact hname
      rw [hu] at hx
      cases hx
  unlocked := by
    intro v hv x hx
    rw [Memory.lockoutUntil_recorded] at hv
    exact h.unlocked v hv x hx
  counts := by
    intro v hv hM t ht
    rw [Memory.lockoutUntil_recorded] at hv
    rw [Memory.recent_recorded cfg m u ht, Postgres.failureCount_append, h.counts v hv hM t ht]

theorem lock (h : Agree cfg now m p) (u : Str) :
    Agree cfg now
      { m with lockoutUntil := m.lockoutUntil.set u (now + cfg.lockoutDurationSeconds) }
      { p with loginLockouts := p.loginLockouts.set u (now + cfg.lockoutDurationSeconds) } where
  past := h.past
  locked := by
    intro v x hx
    rw [get?_set] at hx ⊢
    split at hx
    · cases hx
      rename_i hvu
      refine ⟨if_pos hvu, fun f hf _ => ?_⟩
      rw [add_sub_cancel_right]
      exact h.past f hf
    · rename_i hvu
      rw [if_neg hvu]
      exact h.locked v x hx
  unlocked := by
    intro v hv x hx
    rw [get?_set] at hv hx
    split at hv
    · cases hv
    · rename_i hvu
      rw [if_neg hvu] at hx
      exact h.unlocked v hv x hx
  counts := by
    intro v hv hM t ht
    rw [get?_set] at hv
    split at hv
    · cases hv
    · exact h.counts v hv hM t ht

theorem checkLocked (h : Agree cfg now m p)
    (hcfg : cfg.maxAttempts ≤ 1 ∨ cfg.windowSeconds ≤ cfg.lockoutDurationSeconds)
    (u : Str) : (m.checkLocked u now).2 = p.checkLocked u now ∧ Agree cfg now (m.checkLocked u now).1 p ∧
      ((m.checkLocked u now).2.locked = false → (m.checkLocked u now).1.lockoutUntil.get? u = none) := by
  unfold Memory.checkLocked
  cases hu : m.lockoutUntil.get? u with
  | none =>
    refine ⟨?_, h, fun _ => hu⟩
    rw [Postgres.checkLocked_of_get? (h.unlocked u hu)]
  | some lockoutUntil =>
    have hsame := (h.locked u lockoutUntil hu).1
    by_cases hlt : now < lockoutUntil
    · simp only [if_pos hlt]
      refine ⟨?_, h, fun hfalse => by cases hfalse⟩
      rw [Postgres.checkLocked_of_lt hsame hlt]
    · simp only [if_neg hlt]
      have hle : lockoutUntil ≤ now := not_lt.1 hlt
      refine ⟨?_, h.expire hcfg hu hle, fun _ => ?_⟩
      · rw [Postgres.checkLocked_of_get?]
        intro x hx
        obtain rfl : lockoutUntil = x := Option.mem_unique hsame hx
        exact hle
      · rw [get?_erase, if_pos rfl]

theorem recordFailure (h : Agree cfg now m p) (hW : 0 < cfg.windowSeconds)
    (hu : m.lockoutUntil.get? u = none) :
    (m.recordFailure cfg u now).2 = (p.recordFailure cfg u now).2 ∧
      Agree cfg now (m.recordFailure cfg u now).1 (p.recordFailure cfg u now).1 := by
  have hlocks : ((m.recent u (now - cfg.windowSeconds) + 1 : ℕ) : ℤ) ≥ cfg.maxAttempts ↔
      ((p.failureCount u (now - cfg.windowSeconds) + 1 : ℕ) : ℤ) ≥ cfg.maxAttempts := by
    by_cases hM : 1 < cfg.maxAttempts
    · rw [h.counts u hu hM now le_rfl]
    · constructor <;> intro _ <;> omega
  have hrecord := h.record hu
  rw [Memory.recordFailure_eq, Postgres.recordFailure_eq hW]
  by_cases hcount : ((m.recent u (now - cfg.windowSeconds) + 1 : ℕ) : ℤ) ≥ cfg.maxAttempts
  · rw [if_pos hcount, if_pos (hlocks.1 hcount)]
    exact ⟨rfl, hrecord.lock u⟩
  · rw [if_neg hcount, if_neg (mt hlocks.2 hcount)]
    exact ⟨rfl, hrecord⟩

/-- One call: the same answer, and states that agree at its last clock reading. -/
theorem step (h : Agree cfg now m p) (henabled : cfg.enabled = true) (hW : 0 < cfg.windowSeconds)
    (hcfg : cfg.maxAttempts ≤ 1 ∨ cfg.windowSeconds ≤ cfg.lockoutDurationSeconds) {e : Event}
    (hnow : ∀ t ∈ e.readings, now ≤ t) (htimed : e.readings.Pairwise (· ≤ ·)) :
    ∃ m' p' a, Login.step cfg (.memory m) e = (.memory m', a) ∧ Login.step cfg (.postgres p) e = (.postgres p', a) ∧
      Agree cfg (e.lastReading now) m' p' := by
  cases e with
  | failure u checkedAt t =>
    have hchecked : now ≤ checkedAt := hnow checkedAt (by simp [Event.readings])
    have ht : checkedAt ≤ t := rel_of_pairwise_cons htimed mem_cons_self
    obtain ⟨hanswer, hagree, hunlocked⟩ := (h.later hchecked).checkLocked hcfg u
    simp only [Login.step, checkAndRecordFailure, henabled, ↓reduceIte, Storage.checkLocked, Prod.map, id, ← hanswer]
    rcases Bool.eq_false_or_eq_true (m.checkLocked u checkedAt).2.locked with hlocked | hlocked
    · simp only [hlocked, ↓reduceIte]
      exact ⟨_, _, _, rfl, rfl, hagree.later ht⟩
    · simp only [hlocked, Bool.false_eq_true, ↓reduceIte]
      obtain ⟨hresult, hagree⟩ := (hagree.later ht).recordFailure hW (hunlocked hlocked)
      rw [← hresult]
      exact ⟨_, _, _, rfl, rfl, hagree⟩
  | success u =>
    simp only [Login.step, Login.recordSuccess, henabled, ↓reduceIte]
    exact ⟨_, _, _, rfl, rfl, h.recordSuccess u⟩
  | check u t =>
    have ht : now ≤ t := hnow t (by simp [Event.readings])
    obtain ⟨hanswer, hagree, -⟩ := (h.later ht).checkLocked hcfg u
    simp only [Login.step, isLocked, henabled, ↓reduceIte, Storage.checkLocked, Prod.map, id, ← hanswer]
    exact ⟨_, _, _, rfl, rfl, hagree⟩

theorem answers_eq (h : Agree cfg now m p) (henabled : cfg.enabled = true) (hW : 0 < cfg.windowSeconds)
    (hcfg : cfg.maxAttempts ≤ 1 ∨ cfg.windowSeconds ≤ cfg.lockoutDurationSeconds) {history : List Event}
    (hnow : ∀ t ∈ history.flatMap Event.readings, now ≤ t) (htimed : Timed history) :
    answers cfg (.memory m) history = answers cfg (.postgres p) history := by
  induction history generalizing now m p with
  | nil => rfl
  | cons e history ih =>
    rw [Timed, flatMap_cons, pairwise_append] at htimed
    obtain ⟨he, hrest, hcross⟩ := htimed
    obtain ⟨m', p', a, hm, hp, hagree⟩ :=
      h.step henabled hW hcfg (fun t ht => hnow t (mem_append_left _ ht)) he
    have hlast : ∀ t ∈ history.flatMap Event.readings, e.lastReading now ≤ t := by
      intro t ht
      rcases mem_cons.1 (e.lastReading_mem now) with heq | hmem
      · rw [heq]
        exact hnow t (mem_append_right _ ht)
      · exact hcross _ hmem t ht
    rw [answers, answers, hm, hp]
    exact congrArg (a :: ·) (ih hagree hlast hrest)

end Agree

/-! ### A lockout shorter than the window -/

theorem after_append (cfg : Settings) (s : Storage) (h h' : List Event) :
    after cfg s (h ++ h') = after cfg (after cfg s h) h' := by
  induction h generalizing s with
  | nil => rfl
  | cons e h ih => exact ih (Login.step cfg s e).1

section Relock

variable {cfg : Settings} {u : Str}

def burst (n : ℕ) (u : Str) : List Event := List.replicate n (.failure u 0 0)

theorem after_burst_succ (cfg : Settings) (s : Storage) (n : ℕ) (u : Str) :
    after cfg s (burst (n + 1) u) = (step cfg (after cfg s (burst n u)) (.failure u 0 0)).1 := by
  rw [burst, replicate_succ', after_append]
  rfl

variable {m : Memory} {t : ℚ} {n : ℕ}

theorem Memory.step_failure (henabled : cfg.enabled = true)
    (hu : (m.checkLocked u t).2.locked = false) :
    step cfg (.memory m) (.failure u t t) =
      (.memory ((m.checkLocked u t).1.recordFailure cfg u t).1,
      some ((m.checkLocked u t).1.recordFailure cfg u t).2) := by
  simp only [step, checkAndRecordFailure, henabled, Storage.checkLocked, Prod.map, id, hu,
    Bool.false_eq_true, ↓reduceIte]

theorem Postgres.step_failure (henabled : cfg.enabled = true) {p : Postgres}
    (hu : (p.checkLocked u t).locked = false) :
    step cfg (.postgres p) (.failure u t t) =
      (.postgres (p.recordFailure cfg u t).1, some (p.recordFailure cfg u t).2) := by
  simp only [step, checkAndRecordFailure, henabled, Storage.checkLocked, Prod.map, id, hu,
    Bool.false_eq_true, ↓reduceIte]

theorem Memory.checkLocked_of_none (hu : m.lockoutUntil.get? u = none) (t : ℚ) :
    m.checkLocked u t = (m, ⟨false, 0⟩) := by
  rw [checkLocked, hu]

theorem Memory.after_burst (henabled : cfg.enabled = true) (hW : 0 < cfg.windowSeconds)
    (hn : (n : ℤ) < cfg.maxAttempts) :
    ∃ m, after cfg (.memory .empty) (burst n u) = .memory m ∧ m.lockoutUntil.get? u = none ∧
      m.failuresOf u = List.replicate n 0 := by
  induction n with
  | zero => exact ⟨.empty, rfl, rfl, rfl⟩
  | succ n ih =>
    obtain ⟨m, hm, hu, hfailures⟩ := ih (by omega)
    have hrecent : m.recent u (0 - cfg.windowSeconds) = n := by
      simp [recent, hfailures, countP_replicate, hW]
    have hfew : ¬ ((n + 1 : ℕ) : ℤ) ≥ cfg.maxAttempts := not_le.2 hn
    refine ⟨m.recorded cfg u 0, ?_, ?_, ?_⟩
    · rw [after_burst_succ, hm, step_failure henabled (by rw [checkLocked_of_none hu]), checkLocked_of_none hu,
        recordFailure_eq, hrecent, if_neg hfew]
    · rw [lockoutUntil_recorded, hu]
    · rw [failuresOf_recorded, if_pos rfl, hfailures, replicate_succ']
      simp [hW]

theorem Postgres.after_burst (henabled : cfg.enabled = true) (hW : 0 < cfg.windowSeconds)
    (hn : (n : ℤ) < cfg.maxAttempts) :
    after cfg (.postgres .empty) (burst n u) = .postgres ⟨List.replicate n ⟨u, 0⟩, Dict.empty⟩ := by
  induction n with
  | zero => rfl
  | succ n ih =>
    have hcount : failureCount ⟨List.replicate n ⟨u, 0⟩, Dict.empty⟩ u (0 - cfg.windowSeconds) = n := by
      simp [failureCount, countP_replicate, hW]
    have hfew : ¬ ((n + 1 : ℕ) : ℤ) ≥ cfg.maxAttempts := not_le.2 hn
    rw [after_burst_succ, ih (by omega), step_failure henabled rfl, recordFailure_eq hW, hcount, if_neg hfew,
      replicate_succ']

theorem Memory.answer_after_lockout (henabled : cfg.enabled = true) (hW : 0 < cfg.windowSeconds)
    (hM : 1 < cfg.maxAttempts) (hn : ((n + 1 : ℕ) : ℤ) = cfg.maxAttempts) :
    (step cfg (after cfg (.memory .empty) (burst (n + 1) u))
      (.failure u cfg.lockoutDurationSeconds cfg.lockoutDurationSeconds)).2 = some ⟨false, 0⟩ := by
  obtain ⟨m, hm, hu, hfailures⟩ := Memory.after_burst (u := u) (n := n) henabled hW (by omega)
  have hrecent : m.recent u (0 - cfg.windowSeconds) = n := by
    simp [recent, hfailures, countP_replicate, hW]
  have hmany : ((n + 1 : ℕ) : ℤ) ≥ cfg.maxAttempts := hn.ge
  rw [after_burst_succ, hm, step_failure henabled (by rw [checkLocked_of_none hu]), checkLocked_of_none hu,
    recordFailure_eq, hrecent, if_pos hmany]
  have hcheck : Memory.checkLocked
      { m.recorded cfg u 0 with
        lockoutUntil := (m.recorded cfg u 0).lockoutUntil.set u (0 + cfg.lockoutDurationSeconds) }
      u cfg.lockoutDurationSeconds =
        (⟨(m.recorded cfg u 0).failures.erase u,
          ((m.recorded cfg u 0).lockoutUntil.set u (0 + cfg.lockoutDurationSeconds)).erase u⟩, ⟨false, 0⟩) := by
    simp [checkLocked, get?_set]
  have hfew : ¬ ((0 + 1 : ℕ) : ℤ) ≥ cfg.maxAttempts := by omega
  rw [step_failure henabled (by rw [hcheck]), hcheck, recordFailure_eq]
  have hnone : ∀ d, Memory.recent ⟨(m.recorded cfg u 0).failures.erase u, d⟩ u
      (cfg.lockoutDurationSeconds - cfg.windowSeconds) = 0 := by
    simp [recent, failuresOf, get?_erase]
  rw [hnone, if_neg hfew]

theorem Postgres.answer_after_lockout (henabled : cfg.enabled = true) (hL : 0 < cfg.lockoutDurationSeconds)
    (hlt : cfg.lockoutDurationSeconds < cfg.windowSeconds) (hn : ((n + 1 : ℕ) : ℤ) = cfg.maxAttempts) :
    (step cfg (after cfg (.postgres .empty) (burst (n + 1) u))
      (.failure u cfg.lockoutDurationSeconds cfg.lockoutDurationSeconds)).2 =
        some ⟨true, cfg.lockoutDurationSeconds⟩ := by
  have hW : 0 < cfg.windowSeconds := hL.trans hlt
  have hcount : failureCount ⟨List.replicate n ⟨u, 0⟩, Dict.empty⟩ u (0 - cfg.windowSeconds) = n := by
    simp [failureCount, countP_replicate, hW]
  have hmany : ((n + 1 : ℕ) : ℤ) ≥ cfg.maxAttempts := hn.ge
  rw [after_burst_succ, after_burst henabled hW (by omega), step_failure henabled rfl, recordFailure_eq hW, hcount,
    if_pos hmany]
  have hopen : checkLocked ⟨List.replicate n ⟨u, 0⟩ ++ [⟨u, 0⟩],
      (Dict.empty : Dict Str ℚ).set u (0 + cfg.lockoutDurationSeconds)⟩ u cfg.lockoutDurationSeconds = ⟨false, 0⟩ := by
    apply checkLocked_of_get?
    intro x hx
    rw [get?_set_self] at hx
    linarith [Option.some.inj hx]
  have hstill : failureCount ⟨List.replicate n ⟨u, 0⟩ ++ [⟨u, 0⟩],
      (Dict.empty : Dict Str ℚ).set u (0 + cfg.lockoutDurationSeconds)⟩ u
        (cfg.lockoutDurationSeconds - cfg.windowSeconds) = n + 1 := by
    simp [failureCount, countP_replicate, hlt]
  have hmore : ((n + 1 + 1 : ℕ) : ℤ) ≥ cfg.maxAttempts := by omega
  rw [step_failure henabled (by rw [hopen]), recordFailure_eq hW, hstill, if_pos hmore]

theorem timed_burst_append (n : ℕ) (u : Str) (ht : 0 ≤ t) : Timed (burst n u ++ [.failure u t t]) := by
  have hzero : ∀ x ∈ (burst n u).flatMap Event.readings, x = 0 := by
    intro x hx
    obtain ⟨e, he, hx⟩ := mem_flatMap.1 hx
    rw [eq_of_mem_replicate he] at hx
    simpa [Event.readings] using hx
  rw [Timed, flatMap_append, pairwise_append]
  refine ⟨?_, ?_, ?_⟩
  · refine pairwise_of_forall_mem_list fun a ha b hb => ?_
    rw [hzero a ha, hzero b hb]
  · simp [Event.readings]
  · intro a ha b hb
    rw [hzero a ha]
    simpa [Event.readings] using (by simpa [Event.readings] using hb : b = t) ▸ ht

theorem answers_ne_of_lt (henabled : cfg.enabled = true) (hM : 1 < cfg.maxAttempts)
    (hL : 0 < cfg.lockoutDurationSeconds)
    (hlt : cfg.lockoutDurationSeconds < cfg.windowSeconds) (u : Str) :
    ∃ history, Timed history ∧ answers cfg (.memory .empty) history ≠ answers cfg (.postgres .empty) history := by
  obtain ⟨n, hn⟩ : ∃ n : ℕ, ((n + 1 : ℕ) : ℤ) = cfg.maxAttempts := ⟨(cfg.maxAttempts - 1).toNat, by omega⟩
  refine ⟨burst (n + 1) u ++ [.failure u cfg.lockoutDurationSeconds cfg.lockoutDurationSeconds],
    timed_burst_append (n + 1) u hL.le, fun heq => ?_⟩
  have hmem := Memory.answer_after_lockout (u := u) henabled (hL.trans hlt) hM hn
  have hrows := Postgres.answer_after_lockout (u := u) henabled hL hlt hn
  rw [answers_append, answers_append] at heq
  have hlast := append_inj_right heq (by rw [length_answers, length_answers])
  simp [answers, hmem, hrows] at hlast

end Relock

/-- The PostgreSQL mode gives the answers of the in-memory mode on every history exactly when a
single failure locks, or a lockout lasts at least a window. -/
theorem storageIndependent_iff (cfg : Settings) (hM : 0 < cfg.maxAttempts) (hL : 0 < cfg.lockoutDurationMinutes)
    (hW : 0 < cfg.windowMinutes) :
    (∀ history, Timed history → answers cfg (.memory .empty) history = answers cfg (.postgres .empty) history) ↔
      cfg.enabled = false ∨ cfg.maxAttempts = 1 ∨ cfg.windowMinutes ≤ cfg.lockoutDurationMinutes := by
  have hWs : 0 < cfg.windowSeconds := mul_pos hW (by norm_num)
  have hLs : 0 < cfg.lockoutDurationSeconds := mul_pos hL (by norm_num)
  constructor
  · intro hall
    by_contra hcon
    rw [not_or, not_or, Bool.not_eq_false, not_le] at hcon
    obtain ⟨henabled, hone, hlt⟩ := hcon
    have hlts : cfg.lockoutDurationSeconds < cfg.windowSeconds := mul_lt_mul_of_pos_right hlt (by norm_num)
    obtain ⟨history, htimed, hne⟩ := answers_ne_of_lt henabled (by omega) hLs hlts []
    exact hne (hall history htimed)
  · intro hcfg history htimed
    rcases Bool.eq_false_or_eq_true cfg.enabled with henabled | hdisabled
    · have hcfg' : cfg.maxAttempts ≤ 1 ∨ cfg.windowSeconds ≤ cfg.lockoutDurationSeconds := by
        rcases hcfg with h | h | h
        · rw [henabled] at h
          cases h
        · exact .inl h.le
        · exact .inr (mul_le_mul_of_nonneg_right h (by norm_num))
      -- the first reading bounds all others from below
      rcases hfirst : history.flatMap Event.readings with _ | ⟨now, rest⟩
      · exact (Agree.empty cfg 0).answers_eq henabled hWs hcfg' (by simp [hfirst]) htimed
      · refine (Agree.empty cfg now).answers_eq henabled hWs hcfg' (fun t ht => ?_) htimed
        rw [Timed, hfirst] at htimed
        rw [hfirst] at ht
        rcases mem_cons.1 ht with rfl | ht
        · exact le_rfl
        · exact rel_of_pairwise_cons htimed ht
    · exact answers_disabled hdisabled history _ _

theorem storageIndependent_iff_defaults :
    (0 < Settings.defaults.maxAttempts ∧ 0 < Settings.defaults.lockoutDurationMinutes ∧
      0 < Settings.defaults.windowMinutes) ∧
    ((∀ history, Timed history →
        answers .defaults (.memory .empty) history = answers .defaults (.postgres .empty) history) ↔
      Settings.defaults.enabled = false ∨ Settings.defaults.maxAttempts = 1 ∨
        Settings.defaults.windowMinutes ≤ Settings.defaults.lockoutDurationMinutes) :=
  ⟨by decide +kernel, storageIndependent_iff .defaults (by decide +kernel) (by decide +kernel) (by decide +kernel)⟩

/-- Two attempts in a quarter of an hour, locked for a minute: the failure at the end of the minute
locks again in PostgreSQL mode only. -/
theorem relocked_in_postgres_only :
    let cfg : Settings := ⟨2, 1, 15, true⟩
    let history : List Event := [.failure [] 0 0, .failure [] 0 0, .failure [] 60 60]
    Timed history ∧
      (answers cfg (.memory .empty) history).map (Option.map Answer.locked) = [some false, some true, some false] ∧
      (answers cfg (.postgres .empty) history).map (Option.map Answer.locked) = [some false, some true, some true] := by
  decide +kernel

end CodeIndexer.Login
