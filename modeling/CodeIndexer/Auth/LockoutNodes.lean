import CodeIndexer.Lib.ReadCommitted
import CodeIndexer.Lib.Transition
import CodeIndexer.Auth.LoginLockout

/-!
# The lockout of one account on several nodes (`server/auth/login_rate_limiter.py`)

The PostgreSQL mode, with the rows of one account. Every node runs at most one call at a time (it
holds `self._lock`); a step is one statement of a call at READ COMMITTED, together with what it
computes until its next statement. All nodes read the same clock.

A transaction counts its own failure and the committed ones, so transactions that overlap may all stay
below the limit. They do no harm while the failures of the open ones and the committed failures together
are below it: `Counts` asks for that, or for no overlap, at each `COUNT`.
-/

namespace CodeIndexer.Login

open ReadCommitted TransitionSystem List

/-- The statement a call runs next. Those of `_pg_record_failure` carry its `now`, and the commit whether
the account was locked. -/
inductive Pc
  | check (now : ℚ)
  | insert (now : ℚ)
  | count (now : ℚ)
  | upsert (now : ℚ)
  | commit (now : ℚ) (locked : Bool)
  | deleteFailures
  | deleteLockouts
  | commitSuccess
deriving DecidableEq

structure Nodes where
  loginFailures : Table ℕ ℕ ℚ
  loginLockouts : Table ℕ Unit ℚ
  nextId : ℕ
  clock : ℚ
  calls : Dict ℕ Pc

inductive Act
  | tick (now : ℚ)
  | checkAndRecordFailure (node : ℕ)
  | recordSuccess (node : ℕ)
  | statement (node : ℕ)
deriving DecidableEq

namespace Nodes

variable (cfg : Settings) (s : Nodes) (i : ℕ)

def goto (pc : Pc) : Nodes := { s with calls := s.calls.set i pc }

def finish : Nodes := { s with calls := s.calls.erase i }

def isLockedFor (now : ℚ) : Bool :=
  match (s.loginLockouts.visible i).get? () with
  | none => false
  | some lockedUntil => decide (lockedUntil > now)

def failureCountFor (cutoff : ℚ) : ℕ :=
  (s.loginFailures.visible i).items.countP fun e => decide (e.2 > cutoff)

def commit (s : Nodes) (i : ℕ) : Nodes :=
  { s with loginFailures := s.loginFailures.commit i, loginLockouts := s.loginLockouts.commit i }

def statement : Pc → Option Nodes
  | .check now =>
    -- a locked account is reported without recording the failure
    some (if s.isLockedFor i now then s.finish i else s.goto i (.insert s.clock))
  | .insert now =>
    (s.loginFailures.put i s.nextId now).map fun failures =>
      { s with loginFailures := failures, nextId := s.nextId + 1 }.goto i (.count now)
  | .count now =>
    let failureCount : ℤ := s.failureCountFor i (now - cfg.windowSeconds)
    some (s.goto i (if failureCount ≥ cfg.maxAttempts then .upsert now else .commit now false))
  | .upsert now =>
    (s.loginLockouts.put i () (now + cfg.lockoutDurationSeconds)).map fun lockouts =>
      { s with loginLockouts := lockouts }.goto i (.commit now true)
  | .deleteFailures =>
    (s.loginFailures.deleteWhere i fun _ _ => true).map fun failures =>
      { s with loginFailures := failures }.goto i .deleteLockouts
  | .deleteLockouts =>
    (s.loginLockouts.deleteWhere i fun _ _ => true).map fun lockouts =>
      { s with loginLockouts := lockouts }.goto i .commitSuccess
  | .commit _ _ | .commitSuccess => some ((s.commit i).finish i)

/-- A call that starts on a node without one. With `enabled` off the calls return at once. -/
def start (pc : Pc) : Option Nodes :=
  match s.calls.get? i with
  | some _ => none
  | none => some (if cfg.enabled then s.goto i pc else s)

def step : Act → Option Nodes
  | .tick now => if s.clock ≤ now then some { s with clock := now } else none
  | .checkAndRecordFailure i => s.start cfg i (.check s.clock)
  | .recordSuccess i => s.start cfg i .deleteFailures
  | .statement i => (s.calls.get? i).bind (s.statement cfg i)

def failedAt : List ℚ := s.loginFailures.committed.items.map Prod.snd

def isLocked (now : ℚ) : Bool :=
  match s.loginLockouts.committed.get? () with
  | none => false
  | some lockedUntil => decide (lockedUntil > now)

def fresh (now : ℚ) : Nodes := ⟨.empty, .empty, 0, now, Dict.empty⟩

def system : TransitionSystem Nodes Act where
  init s := ∃ now, s = fresh now
  step := step cfg

def inWindow (failedAt : List ℚ) (t : ℚ) : ℕ :=
  failedAt.countP fun f => decide (t - cfg.windowSeconds < f ∧ f ≤ t)

/-- Wherever `max_attempts` committed failures lie in one window, the account is locked from the last
of them on for the lockout duration. -/
def Held : Prop :=
  ∀ t ∈ s.failedAt, cfg.maxAttempts ≤ inWindow cfg s.failedAt t →
    ∀ now, t ≤ now → now < t + cfg.lockoutDurationSeconds → s.isLocked now = true

end Nodes

/-- The failure of a call that has not run its `COUNT`. -/
def Pc.waiting : Pc → Option ℚ
  | .insert now | .count now => some now
  | _ => none

/-- The failure of a call that has run its `COUNT`, and whether it locks the account. -/
def Pc.counted : Pc → Option (ℚ × Bool)
  | .upsert now => some (now, true)
  | .commit now locked => some (now, locked)
  | _ => none

def Pc.isSuccess : Pc → Bool
  | .deleteFailures | .deleteLockouts | .commitSuccess => true
  | _ => false

namespace Nodes

variable (cfg : Settings) (s : Nodes)

def waiting : List ℚ := s.calls.items.filterMap fun c => c.2.waiting

def entries : List (ℚ × Bool) := s.calls.items.filterMap fun c => c.2.counted

/-- The failures that are committed and those of the open calls that have run their `COUNT`. -/
def counted : List ℚ := s.entries.map Prod.fst ++ s.failedAt

/-- A success overlaps no other call. When a call runs its `COUNT` it is the only one, or the committed
failures and those of all open calls are below the limit in every window that ends with this failure or a
later one. -/
def Counts : Act → Prop
  | .recordSuccess _ => s.calls.items.isEmpty = true
  | .checkAndRecordFailure _ => (s.calls.items.all fun c => !c.2.isSuccess) = true
  | .statement i =>
    match s.calls.get? i with
    | some (.count now) => (∀ c ∈ s.calls.items, c.1 = i) ∨
      ∀ t ∈ s.waiting ++ s.counted, now ≤ t → inWindow cfg (s.waiting ++ s.counted) t < cfg.maxAttempts
    | _ => True
  | .tick _ => True

instance (s : Nodes) : (a : Act) → Decidable (s.Counts cfg a)
  | .recordSuccess _ | .checkAndRecordFailure _ => inferInstanceAs (Decidable (_ = true))
  | .statement i =>
    match hcall : s.calls.get? i with
    | some (.count now) => decidable_of_iff ((∀ c ∈ s.calls.items, c.1 = i) ∨
        ∀ t ∈ s.waiting ++ s.counted, now ≤ t → inWindow cfg (s.waiting ++ s.counted) t < cfg.maxAttempts)
      (by rw [Counts, hcall])
    | none | some (.check _) | some (.insert _) | some (.upsert _) | some (.commit ..) | some .deleteFailures
    | some .deleteLockouts | some .commitSuccess => .isTrue (by rw [Counts, hcall]; trivial)
  | .tick _ => .isTrue trivial

/-! ### Counting with overlaps

The failures are the committed ones, those of `entries` (open calls past their `COUNT`, with whether they lock the
account) and those of `waiting` (before it); `lock` is the committed lock. -/

variable {cfg : Settings}

structure Covered (cfg : Settings) (committed waiting : List ℚ) (entries : List (ℚ × Bool))
    (lock : Option ℚ) : Prop where
  held : ∀ t ∈ committed, cfg.maxAttempts ≤ inWindow cfg committed t →
    ∃ lockedUntil, lock = some lockedUntil ∧ t + cfg.lockoutDurationSeconds ≤ lockedUntil
  waiting : ∀ n ∈ waiting, ∀ t ∈ entries.map Prod.fst ++ committed, n < t →
    inWindow cfg (n :: (entries.map Prod.fst ++ committed)) t < cfg.maxAttempts
  entries : ∀ e ∈ entries, ∀ t ∈ entries.map Prod.fst ++ committed, e.1 < t ∨ e.1 = t ∧ e.2 = false →
    inWindow cfg (entries.map Prod.fst ++ committed) t < cfg.maxAttempts

section

variable {committed waiting committed' waiting' : List ℚ} {entries entries' : List (ℚ × Bool)} {lock : Option ℚ}
  {locks : Bool} {n t : ℚ}

theorem inWindow_cons_of_lt (h : t < n) (l : List ℚ) : inWindow cfg (n :: l) t = inWindow cfg l t :=
  countP_cons_of_neg fun hin => absurd (of_decide_eq_true hin).2 (not_le.2 h)

theorem inWindow_of_perm {l l' : List ℚ} (h : l.Perm l') (t : ℚ) : inWindow cfg l t = inWindow cfg l' t := h.countP_eq _

theorem inWindow_lt_of_subperm {l l' : List ℚ} (h : l.Subperm l') (hfew : inWindow cfg l' t < cfg.maxAttempts) :
    inWindow cfg l t < cfg.maxAttempts :=
  lt_of_le_of_lt (by exact_mod_cast h.countP_le _) hfew

theorem Covered.perm (h : Covered cfg committed waiting entries lock) (hcommitted : committed'.Perm committed)
    (hwaiting : waiting'.Perm waiting) (hentries : entries'.Perm entries) :
    Covered cfg committed' waiting' entries' lock := by
  have hall : (entries'.map Prod.fst ++ committed').Perm (entries.map Prod.fst ++ committed) :=
    (hentries.map _).append hcommitted
  refine ⟨fun t ht hmany => ?_, fun n hn t ht hlt => ?_, fun e he t ht hle => ?_⟩
  · rw [inWindow_of_perm hcommitted] at hmany
    exact h.held t (hcommitted.subset ht) hmany
  · rw [inWindow_of_perm (hall.cons n)]
    exact h.waiting n (hwaiting.subset hn) t (hall.subset ht) hlt
  · rw [inWindow_of_perm hall]
    exact h.entries e (hentries.subset he) t (hall.subset ht) hle

theorem Covered.enter (h : Covered cfg committed waiting entries lock)
    (hpast : ∀ t ∈ entries.map Prod.fst ++ committed, t ≤ n) : Covered cfg committed (n :: waiting) entries lock := by
  refine ⟨h.held, forall_mem_cons.2 ⟨fun t ht hlt => ?_, h.waiting⟩, h.entries⟩
  exact absurd (hpast t ht) (not_le.2 hlt)

/-- The `COUNT` of a call. Where it overlaps others, no window reaches the limit that its failure is in. -/
theorem Covered.count (h : Covered cfg committed (n :: waiting) entries lock)
    (hroom : waiting = [] ∧ entries = [] ∨ ∀ t ∈ n :: (waiting ++ (entries.map Prod.fst ++ committed)), n ≤ t →
      inWindow cfg (n :: (waiting ++ (entries.map Prod.fst ++ committed))) t < cfg.maxAttempts)
    (hfew : locks = false → inWindow cfg (n :: (entries.map Prod.fst ++ committed)) n < cfg.maxAttempts) :
    Covered cfg committed waiting ((n, locks) :: entries) lock := by
  have hsub : (n :: (entries.map Prod.fst ++ committed)).Sublist
    (n :: (waiting ++ (entries.map Prod.fst ++ committed))) :=
    (sublist_append_right ..).cons_cons n
  refine ⟨h.held, fun m hm t ht hlt => ?_, forall_mem_cons.2 ⟨fun t ht hle => ?_, fun e he t ht hle => ?_⟩⟩
  · have hroom := hroom.resolve_left fun halone => by rw [halone.1] at hm; cases hm
    have hswap := Perm.swap n m (entries.map Prod.fst ++ committed)
    rcases lt_or_ge t n with hbefore | hafter
    · rw [map_cons, cons_append, inWindow_of_perm hswap, inWindow_cons_of_lt hbefore]
      exact h.waiting m (mem_cons_of_mem _ hm) t ((mem_cons.1 ht).resolve_left hbefore.ne) hlt
    · refine inWindow_lt_of_subperm ?_ (hroom t (hsub.subset ht) hafter)
      exact hswap.subperm.trans ((subperm_cons n).2 ((singleton_subperm_iff.2 hm).append (Subperm.refl _)))
  · rcases hle with hlt | ⟨rfl, hlocks⟩
    · exact h.waiting n mem_cons_self t ((mem_cons.1 ht).resolve_left hlt.ne') hlt
    · exact hfew hlocks
  · have hroom := hroom.resolve_left fun halone => by rw [halone.2] at he; cases he
    rcases lt_or_ge t n with hbefore | hafter
    · rw [map_cons, cons_append, inWindow_cons_of_lt hbefore]
      exact h.entries e he t ((mem_cons.1 ht).resolve_left hbefore.ne) hle
    · exact inWindow_lt_of_subperm hsub.subperm (hroom t (hsub.subset ht) hafter)

/-- The commit of a call. Its lock replaces the one before, and is as late as every lock that has to be held. -/
theorem Covered.commit (h : Covered cfg committed waiting ((n, locks) :: entries) lock) :
    Covered cfg (n :: committed) waiting entries (if locks then some (n + cfg.lockoutDurationSeconds) else lock) := by
  have hall : (entries.map Prod.fst ++ n :: committed).Perm (((n, locks) :: entries).map Prod.fst ++ committed) :=
    perm_middle
  refine ⟨fun t ht hmany => ?_, fun m hm t ht hlt => ?_, fun e he t ht hle => ?_⟩
  · have hsub : (n :: committed).Subperm (((n, locks) :: entries).map Prod.fst ++ committed) :=
      (subperm_cons n).2 (sublist_append_right ..).subperm
    have hmine : ¬ (n < t ∨ n = t ∧ locks = false) := fun hle =>
      absurd hmany (not_le.2 (inWindow_lt_of_subperm hsub (h.entries _ mem_cons_self t (hsub.subset ht) hle)))
    rw [not_or, not_lt, not_and, Bool.not_eq_false] at hmine
    cases locks with
    | true => exact ⟨_, rfl, by linarith [hmine.1]⟩
    | false =>
      have hlt : t < n := hmine.1.lt_of_ne fun heq => Bool.false_ne_true (hmine.2 heq.symm)
      rw [inWindow_cons_of_lt hlt] at hmany
      exact h.held t ((mem_cons.1 ht).resolve_left hlt.ne) hmany
  · rw [inWindow_of_perm (hall.cons m)]
    exact h.waiting m hm t (hall.subset ht) hlt
  · rw [inWindow_of_perm hall]
    exact h.entries e (mem_cons_of_mem _ he) t (hall.subset ht) hle

theorem covered_nil (cfg : Settings) (lock : Option ℚ) : Covered cfg [] [] [] lock := by
  constructor <;> exact nofun

end

/-! ### The calls and their writes -/

end Nodes

/-- The failure whose row the call has inserted. -/
def Pc.inserted : Pc → Option ℚ
  | .count now | .upsert now | .commit now _ => some now
  | _ => none

def Pc.locked : Pc → Option ℚ
  | .commit now true => some now
  | _ => none

namespace Nodes

variable {cfg : Settings} {s s' : Nodes} {i : ℕ} {pc : Pc} {next : Option Pc} {n : ℚ} {β : Type}

theorem perm_filterMap (calls : Dict ℕ Pc) (i : ℕ) (g : Pc → Option β) : (calls.items.filterMap fun c => g c.2).Perm
    (((calls.get? i).bind g).toList ++ (calls.erase i).items.filterMap fun c => g c.2) := by
  cases hi : calls.get? i with
  | none =>
    have hself : (calls.erase i).items = calls.items := by
      refine filter_eq_self.2 fun c hc => decide_eq_true fun heq => ?_
      exact Dict.get?_eq_none_iff.1 hi (heq ▸ mem_map_of_mem hc)
    exact .of_eq (by rw [hself]; rfl)
  | some pc =>
    refine ((Dict.perm_items_erase hi).filterMap _).trans (.of_eq ?_)
    cases hg : g pc <;> simp [hg]

theorem perm_filterMap_update (calls : Dict ℕ Pc) (i : ℕ) (next : Option Pc) (g : Pc → Option β) :
    ((calls.update i next).items.filterMap fun c => g c.2).Perm
      ((next.bind g).toList ++ (calls.erase i).items.filterMap fun c => g c.2) := by
  cases next with
  | none => exact .refl _
  | some pc =>
    refine ((Dict.perm_items_set calls i pc).filterMap _).trans (.of_eq ?_)
    cases hg : g pc <;> simp [hg]

/-- What a step makes of the failures of the open calls. -/
theorem perm_of_update {cur : Option Pc} (hcur : s.calls.get? i = cur) {calls : Dict ℕ Pc}
    (hcalls : calls = s.calls.update i next) (g : Pc → Option β) :
    ((cur.bind g).toList ++ calls.items.filterMap fun c => g c.2).Perm
      ((next.bind g).toList ++ s.calls.items.filterMap fun c => g c.2) := by
  rw [hcalls]
  calc _ ~ (cur.bind g).toList ++ ((next.bind g).toList ++ (s.calls.erase i).items.filterMap fun c => g c.2) :=
        (perm_filterMap_update s.calls i next g).append_left _
    _ ~ (next.bind g).toList ++ ((cur.bind g).toList ++ (s.calls.erase i).items.filterMap fun c => g c.2) := by
        rw [← append_assoc, ← append_assoc]
        exact perm_append_comm.append_right _
    _ ~ _ := by
        rw [← hcur]
        exact (perm_filterMap s.calls i g).symm.append_left _

/-- Rows of failures are new, and each open call has made the writes of the statements it has run. -/
structure Recording (cfg : Settings) (s : Nodes) : Prop where
  failing : ∀ i pc, s.calls.get? i = some pc → pc.isSuccess = false
  writes : ∀ w ∈ s.loginFailures.writes, w.key < s.nextId ∧ w.key ∉ s.loginFailures.committed.items.map Prod.fst
  nodup : (s.loginFailures.writes.map Write.key).Nodup
  failures : ∀ i, (s.loginFailures.own i).map Write.value = ((s.calls.get? i).bind Pc.inserted).toList.map some
  lockouts : ∀ i, s.loginLockouts.own i =
    ((s.calls.get? i).bind Pc.locked).toList.map fun n => ⟨i, (), some (n + cfg.lockoutDurationSeconds)⟩

/-- What a success has done so far. -/
def Clearing (s : Nodes) (i : ℕ) : Pc → Prop
  | .deleteFailures => s.loginFailures.writes = [] ∧ s.loginLockouts.writes = []
  | .deleteLockouts => (s.loginFailures.visible i).items = [] ∧ (∀ w ∈ s.loginFailures.writes, w.txn = i) ∧
      s.loginLockouts.writes = []
  | .commitSuccess => (s.loginFailures.visible i).items = [] ∧ (∀ w ∈ s.loginFailures.writes, w.txn = i) ∧
      ∀ w ∈ s.loginLockouts.writes, w.txn = i
  | _ => False

structure Inv (cfg : Settings) (s : Nodes) : Prop where
  past : ∀ t ∈ s.waiting ++ s.counted, t ≤ s.clock
  keys : ∀ k ∈ s.loginFailures.committed.items.map Prod.fst, k < s.nextId
  covered : Covered cfg s.failedAt s.waiting s.entries (s.loginLockouts.committed.get? ())
  calls : Recording cfg s ∨ ∃ i pc, s.calls.items = [(i, pc)] ∧ Clearing s i pc

theorem Recording.update (h : Recording cfg s) (hcalls : s'.calls = s.calls.update i next)
    (hnext : ∀ pc, next = some pc → pc.isSuccess = false)
    (hwrites : ∀ w ∈ s'.loginFailures.writes, w.key < s'.nextId ∧ w.key ∉ s'.loginFailures.committed.items.map Prod.fst)
    (hnodup : (s'.loginFailures.writes.map Write.key).Nodup)
    (hother : ∀ j, j ≠ i → s'.loginFailures.own j = s.loginFailures.own j ∧
      s'.loginLockouts.own j = s.loginLockouts.own j)
    (hfailures : (s'.loginFailures.own i).map Write.value = (next.bind Pc.inserted).toList.map some)
    (hlockouts : s'.loginLockouts.own i =
      (next.bind Pc.locked).toList.map fun n => ⟨i, (), some (n + cfg.lockoutDurationSeconds)⟩) : Recording cfg s' := by
  refine ⟨fun j pc hj => ?_, hwrites, hnodup, fun j => ?_, fun j => ?_⟩
  · rw [hcalls] at hj
    exact (Dict.get?_update_eq_some.1 hj).elim (fun hmine => hnext pc hmine.2) fun hold => h.failing j pc hold.2
  · rw [hcalls, Dict.get?_update]
    split
    · rename_i heq
      rw [heq]
      exact hfailures
    · rename_i hne
      rw [(hother j hne).1]
      exact h.failures j
  · rw [hcalls, Dict.get?_update]
    split
    · rename_i heq
      rw [heq]
      exact hlockouts
    · rename_i hne
      rw [(hother j hne).2]
      exact h.lockouts j

/-- A statement that writes nothing. -/
theorem Recording.keep (h : Recording cfg s) {cur : Option Pc} (hcur : s.calls.get? i = cur) {calls : Dict ℕ Pc}
    (hcalls : calls = s.calls.update i next) (hnext : ∀ pc, next = some pc → pc.isSuccess = false)
    (hins : next.bind Pc.inserted = cur.bind Pc.inserted) (hlocked : next.bind Pc.locked = cur.bind Pc.locked) :
    Recording cfg { s with calls } := by
  have hf := h.failures i
  have hl := h.lockouts i
  rw [hcur] at hf hl
  refine h.update hcalls hnext h.writes h.nodup (fun _ _ => ⟨rfl, rfl⟩) ?_ ?_
  · rw [hins]
    exact hf
  · rw [hlocked]
    exact hl

/-- The row that a call has inserted, and what the call sees. -/
theorem Recording.visible (h : Recording cfg s) (hpc : s.calls.get? i = some pc) (hins : pc.inserted = some n) :
    ∃ w ∈ s.loginFailures.writes, w.txn = i ∧
      (s.loginFailures.visible i).items = s.loginFailures.committed.items ++ [(w.key, n)] := by
  have hown := h.failures i
  rw [hpc, Option.bind_some, hins] at hown
  obtain ⟨w, hw, hvalue⟩ := map_eq_singleton_iff.1 hown
  obtain ⟨hmem, htxn⟩ := mem_filter.1 (hw ▸ mem_singleton_self w : w ∈ s.loginFailures.own i)
  refine ⟨w, hmem, of_decide_eq_true htxn, ?_⟩
  rw [Table.visible_eq, hw, foldl_cons, foldl_nil, Table.apply, hvalue]
  exact Dict.set_items_of_not_mem n (h.writes w hmem).2

theorem Recording.visible_lock (h : Recording cfg s) (hpc : s.calls.get? i = some pc) :
    (s.loginLockouts.visible i).get? () = match pc.locked with
      | none => s.loginLockouts.committed.get? ()
      | some n => some (n + cfg.lockoutDurationSeconds) := by
  rw [Table.visible_eq, h.lockouts i, hpc, Option.bind_some]
  cases pc.locked with
  | none => rfl
  | some n => exact Dict.get?_set_self _ _ _

theorem Recording.commit (h : Recording cfg s) {locked : Bool} (hpc : s.calls.get? i = some (.commit n locked)) :
    Recording cfg ((s.commit i).finish i) := by
  obtain ⟨w, hw, htxn, hvisible⟩ := h.visible hpc rfl
  have hcalls : ((s.commit i).finish i).calls = s.calls.update i none := rfl
  refine h.update hcalls (by rintro _ ⟨⟩) (fun w' hw' => ?_) ?_ (fun j hne => ?_) ?_ ?_
  · obtain ⟨hold, hne⟩ := Table.mem_commit_writes.1 hw'
    obtain ⟨hlt, hkey⟩ := h.writes w' hold
    refine ⟨hlt, ?_⟩
    show w'.key ∉ (s.loginFailures.visible i).items.map Prod.fst
    rw [hvisible, map_append, mem_append, not_or]
    refine ⟨hkey, fun hmem => hne ?_⟩
    rw [inj_on_of_nodup_map h.nodup hold hw (mem_singleton.1 hmem), htxn]
  · exact h.nodup.sublist (filter_sublist.map _)
  · exact ⟨Table.own_commit_of_ne _ hne, Table.own_commit_of_ne _ hne⟩
  · exact congrArg (map Write.value) (Table.own_eq_nil_iff.2 fun w hw => (Table.mem_commit_writes.1 hw).2)
  · exact Table.own_eq_nil_iff.2 fun w hw => (Table.mem_commit_writes.1 hw).2

/-- A statement that commits nothing. -/
theorem Inv.goto (h : Inv cfg s) (hrec : Recording cfg s') {cur : Option Pc} (hcur : s.calls.get? i = cur)
    (hcalls : s'.calls = s.calls.update i next) (hclock : s'.clock = s.clock) (hid : s.nextId ≤ s'.nextId)
    (hfailures : s'.loginFailures.committed = s.loginFailures.committed)
    (hlockouts : s'.loginLockouts.committed = s.loginLockouts.committed)
    (hsame : next.bind Pc.waiting = cur.bind Pc.waiting ∧ next.bind Pc.counted = cur.bind Pc.counted) : Inv cfg s' := by
  have hwaiting := perm_of_update hcur hcalls Pc.waiting
  have hentries := perm_of_update hcur hcalls Pc.counted
  rw [hsame.1, perm_append_left_iff] at hwaiting
  rw [hsame.2, perm_append_left_iff] at hentries
  have hwaiting : s'.waiting.Perm s.waiting := hwaiting
  have hentries : s'.entries.Perm s.entries := hentries
  have hfailed : s'.failedAt = s.failedAt := congrArg (fun d => d.items.map Prod.snd) hfailures
  refine ⟨fun t ht => ?_, fun k hk => ?_, ?_, .inl hrec⟩
  · rw [counted, hfailed] at ht
    rw [hclock]
    exact h.past t ((hwaiting.append ((hentries.map _).append_right _)).subset ht)
  · rw [hfailures] at hk
    exact (h.keys k hk).trans_le hid
  · rw [hfailed, hlockouts]
    exact h.covered.perm (.refl _) hwaiting hentries

theorem Inv.check (h : Inv cfg s) (hrec : Recording cfg s) {now : ℚ} (hpc : s.calls.get? i = some (.check now)) :
    Inv cfg (if s.isLockedFor i now then s.finish i else s.goto i (.insert s.clock)) := by
  split
  · have hcalls : (s.finish i).calls = s.calls.update i none := rfl
    exact h.goto (hrec.keep hpc hcalls (by rintro _ ⟨⟩) rfl rfl) hpc hcalls rfl le_rfl rfl rfl ⟨rfl, rfl⟩
  · have hcalls : (s.goto i (.insert s.clock)).calls = s.calls.update i (some (.insert s.clock)) := rfl
    have hwaiting : (s.goto i (.insert s.clock)).waiting.Perm (s.clock :: s.waiting) :=
      perm_of_update hpc hcalls Pc.waiting
    have hentries : (s.goto i (.insert s.clock)).entries.Perm s.entries := perm_of_update hpc hcalls Pc.counted
    refine ⟨fun t ht => ?_, h.keys, ?_, .inl (hrec.keep hpc hcalls (by rintro _ ⟨⟩; rfl) rfl rfl)⟩
    · rcases mem_cons.1 ((hwaiting.append ((hentries.map _).append_right _)).subset ht) with rfl | ht
      · exact le_rfl
      · exact h.past t ht
    · exact (h.covered.enter fun t ht => h.past t (mem_append_right _ ht)).perm (.refl _) hwaiting hentries

theorem Inv.insert (h : Inv cfg s) (hrec : Recording cfg s) (hpc : s.calls.get? i = some (.insert n))
    (hstep : s.statement cfg i (.insert n) = some s') : Inv cfg s' := by
  obtain ⟨failures, hput, rfl⟩ := Option.map_eq_some_iff.1 hstep
  obtain ⟨-, rfl⟩ := Table.put_eq_some hput
  have hnil : s.loginFailures.own i = [] := by
    have hown := hrec.failures i
    rw [hpc] at hown
    exact map_eq_nil_iff.1 hown
  have hkeys : ((s.loginFailures.writes ++ [(⟨i, s.nextId, some n⟩ : Write ℕ ℕ ℚ)]).map Write.key).Nodup := by
    rw [map_append]
    refine nodup_append.2 ⟨hrec.nodup, nodup_singleton _, fun k hk k' hk' => ?_⟩
    obtain ⟨w, hw, rfl⟩ := mem_map.1 hk
    rw [mem_singleton.1 hk']
    exact (hrec.writes w hw).1.ne
  have hcalls : s.calls.set i (.count n) = s.calls.update i (some (.count n)) := rfl
  refine h.goto ?_ hpc hcalls rfl (Nat.le_succ _) rfl rfl ⟨rfl, rfl⟩
  refine hrec.update hcalls (by rintro _ ⟨⟩; rfl) (forall_mem_append.2 ⟨fun w hw => ?_, ?_⟩) hkeys
    (fun j hne => ⟨?_, rfl⟩) ?_ ?_
  · exact ⟨Nat.lt_succ_of_lt (hrec.writes w hw).1, (hrec.writes w hw).2⟩
  · exact forall_mem_singleton.2 ⟨Nat.lt_succ_self _, fun hk => absurd (h.keys _ hk) (lt_irrefl _)⟩
  · exact Table.own_append_of_ne _ fun w hw => by rw [mem_singleton.1 hw]; exact hne.symm
  · refine (congrArg (map Write.value) (Table.own_append_self _ fun w hw => ?_)).trans ?_
    · rw [mem_singleton.1 hw]
    · rw [hnil]
      rfl
  · have hown := hrec.lockouts i
    rw [hpc] at hown
    exact hown

theorem Inv.upsert (h : Inv cfg s) (hrec : Recording cfg s) (hpc : s.calls.get? i = some (.upsert n))
    (hstep : s.statement cfg i (.upsert n) = some s') : Inv cfg s' := by
  obtain ⟨lockouts, hput, rfl⟩ := Option.map_eq_some_iff.1 hstep
  obtain ⟨-, rfl⟩ := Table.put_eq_some hput
  have hf := hrec.failures i
  have hl := hrec.lockouts i
  rw [hpc] at hf hl
  have hcalls : s.calls.set i (.commit n true) = s.calls.update i (some (.commit n true)) := rfl
  refine h.goto ?_ hpc hcalls rfl le_rfl rfl rfl ⟨rfl, rfl⟩
  refine hrec.update hcalls (by rintro _ ⟨⟩; rfl) hrec.writes hrec.nodup (fun j hne => ⟨rfl, ?_⟩) hf ?_
  · exact Table.own_append_of_ne _ fun w hw => by rw [mem_singleton.1 hw]; exact hne.symm
  · refine (Table.own_append_self _ fun w hw => ?_).trans ?_
    · rw [mem_singleton.1 hw]
    · rw [hl]
      rfl

/-- The rows that a call counts include all that lie in the window of its failure. -/
theorem Recording.inWindow_le (h : Recording cfg s) (hpc : s.calls.get? i = some (.count n)) :
    inWindow cfg (n :: s.failedAt) n ≤ s.failureCountFor i (n - cfg.windowSeconds) := by
  obtain ⟨w, -, -, hvisible⟩ := h.visible hpc rfl
  have hmap : s.failureCountFor i (n - cfg.windowSeconds) =
      ((s.loginFailures.visible i).items.map Prod.snd).countP fun f => decide (f > n - cfg.windowSeconds) := by
    rw [countP_map]
    rfl
  rw [hmap, hvisible, map_append]
  refine le_trans (countP_mono_left fun f _ hf => ?_) ((perm_append_singleton n s.failedAt).countP_eq _).ge
  exact decide_eq_true (of_decide_eq_true hf).1

theorem Inv.count (h : Inv cfg s) (hrec : Recording cfg s) (hpc : s.calls.get? i = some (.count n))
    (hroom : s.Counts cfg (.statement i)) (hstep : s.statement cfg i (.count n) = some s') : Inv cfg s' := by
  obtain ⟨pc, locks, rfl, hwaits, hcounts, hins, hlocked, hfails, hfew⟩ : ∃ pc locks, s' = s.goto i pc ∧
      pc.waiting = none ∧ pc.counted = some (n, locks) ∧ pc.inserted = some n ∧ pc.locked = none ∧
      pc.isSuccess = false ∧
      (locks = false → (s.failureCountFor i (n - cfg.windowSeconds) : ℤ) < cfg.maxAttempts) := by
    refine ⟨_, decide ((s.failureCountFor i (n - cfg.windowSeconds) : ℤ) ≥ cfg.maxAttempts),
      (Option.some.inj hstep).symm, ?_⟩
    split
    · rename_i hmany
      exact ⟨rfl, by rw [decide_eq_true hmany]; rfl, rfl, rfl, rfl, fun hfew => absurd hmany (of_decide_eq_false hfew)⟩
    · rename_i hfew
      exact ⟨rfl, by rw [decide_eq_false hfew]; rfl, rfl, rfl, rfl, fun _ => not_le.1 hfew⟩
  have hcalls : s.calls.set i pc = s.calls.update i (some pc) := rfl
  have hwaiting := perm_of_update hpc hcalls Pc.waiting
  have hentries := perm_of_update hpc hcalls Pc.counted
  rw [show (some pc).bind Pc.waiting = none from hwaits] at hwaiting
  rw [show (some pc).bind Pc.counted = some (n, locks) from hcounts] at hentries
  have hwaiting : (n :: (s.goto i pc).waiting).Perm s.waiting := hwaiting
  have hentries : (s.goto i pc).entries.Perm ((n, locks) :: s.entries) := hentries
  have hall : (n :: ((s.goto i pc).waiting ++ s.counted)).Perm (s.waiting ++ s.counted) := hwaiting.append_right _
  simp only [Counts, hpc] at hroom
  have hone : (∀ c ∈ s.calls.items, c.1 = i) → s.calls.items = [(i, .count n)] := by
    intro halone
    have hperm := Dict.perm_items_erase hpc
    rwa [show (s.calls.erase i).items = [] from
      filter_eq_nil_iff.2 fun c hc hne => of_decide_eq_true hne (halone c hc), perm_singleton] at hperm
  have hcovered : Covered cfg s.failedAt (s.goto i pc).waiting ((n, locks) :: s.entries)
      (s.loginLockouts.committed.get? ()) := by
    refine (h.covered.perm (.refl _) hwaiting (.refl _)).count (hroom.imp (fun halone => ?_)
      fun hbelow t ht hle => ?_) fun hlocks => ?_
    · have hlone := hwaiting
      rw [waiting, waiting, hone halone] at hlone
      refine ⟨(cons.inj (perm_singleton.1 hlone)).2, ?_⟩
      rw [entries, hone halone]
      rfl
    · rw [← counted, inWindow_of_perm hall]
      exact hbelow t (hall.subset ht) hle
    · rcases hroom with halone | hbelow
      · rw [show s.entries = [] by rw [entries, hone halone]; rfl]
        exact lt_of_le_of_lt (by exact_mod_cast hrec.inWindow_le hpc) (hfew hlocks)
      · have hfew := hbelow n (hall.subset mem_cons_self) le_rfl
        rw [← inWindow_of_perm hall] at hfew
        exact inWindow_lt_of_subperm ((sublist_append_right _ s.counted).cons_cons n).subperm hfew
  refine ⟨fun t ht => h.past t (hall.subset ?_), h.keys, hcovered.perm (.refl _) (.refl _) hentries,
    .inl (hrec.keep hpc hcalls (by rintro _ ⟨⟩; exact hfails) hins hlocked)⟩
  exact ((((hentries.map Prod.fst).append_right _).append_left _).trans perm_middle).subset ht

theorem Inv.commit (h : Inv cfg s) (hrec : Recording cfg s) {locked : Bool}
    (hpc : s.calls.get? i = some (.commit n locked)) : Inv cfg ((s.commit i).finish i) := by
  obtain ⟨w, hw, -, hvisible⟩ := hrec.visible hpc rfl
  have hcalls : s.calls.erase i = s.calls.update i none := rfl
  have hwaiting : ((s.commit i).finish i).waiting.Perm s.waiting := perm_of_update hpc hcalls Pc.waiting
  have hentries : ((n, locked) :: ((s.commit i).finish i).entries).Perm s.entries :=
    perm_of_update hpc hcalls Pc.counted
  have hfailed : ((s.commit i).finish i).failedAt.Perm (n :: s.failedAt) := by
    rw [failedAt, show ((s.commit i).finish i).loginFailures.committed.items = _ from hvisible, map_append]
    exact perm_append_singleton _ _
  have hlock : ((s.commit i).finish i).loginLockouts.committed.get? () =
      if locked then some (n + cfg.lockoutDurationSeconds) else s.loginLockouts.committed.get? () := by
    refine (hrec.visible_lock hpc).trans ?_
    cases locked <;> rfl
  refine ⟨fun t ht => h.past t ?_, ?_, ?_, .inl (hrec.commit hpc)⟩
  · have hcounted : ((s.commit i).finish i).counted.Perm s.counted :=
      (hfailed.append_left _).trans (perm_middle.trans ((hentries.map Prod.fst).append_right _))
    exact (hwaiting.append hcounted).subset ht
  · show ∀ k ∈ (s.loginFailures.visible i).items.map Prod.fst, k < s.nextId
    rw [hvisible, map_append]
    exact forall_mem_append.2 ⟨h.keys, forall_mem_singleton.2 (hrec.writes w hw).1⟩
  · rw [hlock]
    exact ((h.covered.perm (.refl _) (.refl _) hentries).commit).perm hfailed hwaiting (.refl _)

/-! ### Successes and whole runs -/

theorem Recording.quiet (h : Recording cfg s) (hcalls : s.calls.items = []) :
    s.loginFailures.writes = [] ∧ s.loginLockouts.writes = [] := by
  have hnone : ∀ i, s.calls.get? i = none := fun i => by simp [Dict.get?, hcalls]
  constructor
  · refine eq_nil_iff_forall_not_mem.2 fun w hw => ?_
    have hown := h.failures w.txn
    rw [hnone] at hown
    exact Table.own_eq_nil_iff.1 (map_eq_nil_iff.1 hown) w hw rfl
  · refine eq_nil_iff_forall_not_mem.2 fun w hw => ?_
    have hown := h.lockouts w.txn
    rw [hnone] at hown
    exact Table.own_eq_nil_iff.1 hown w hw rfl

theorem recording_of_quiet (hfailures : s.loginFailures.writes = []) (hlockouts : s.loginLockouts.writes = [])
    (hcalls : s.calls.items = []) : Recording cfg s := by
  have hnone : ∀ i, s.calls.get? i = none := fun i => by simp [Dict.get?, hcalls]
  refine ⟨fun i pc hpc => ?_, ?_, ?_, fun i => ?_, fun i => ?_⟩
  · rw [hnone] at hpc
    cases hpc
  · rw [hfailures]
    exact forall_mem_nil _
  · rw [hfailures]
    exact nodup_nil
  · rw [hnone, Table.own, hfailures]
    rfl
  · rw [hnone, Table.own, hlockouts]
    rfl

theorem lists_of_success (h : ∀ c ∈ s.calls.items, c.2.isSuccess = true) : s.waiting = [] ∧ s.entries = [] := by
  have hnone : ∀ {pc : Pc}, pc.isSuccess = true → pc.waiting = none ∧ pc.counted = none := by
    intro pc hpc
    cases pc <;> first | exact ⟨rfl, rfl⟩ | cases hpc
  exact ⟨filterMap_eq_nil_iff.2 fun c hc => (hnone (h c hc)).1, filterMap_eq_nil_iff.2 fun c hc => (hnone (h c hc)).2⟩

theorem Clearing.isSuccess (h : Clearing s i pc) : pc.isSuccess = true := by
  cases pc <;> first | rfl | cases h

/-- While a success clears the account it is the only call, and what is committed stays. -/
theorem Inv.clearing (h : Inv cfg s) (hold : ∀ c ∈ s.calls.items, c.2.isSuccess = true)
    (hcalls : s'.calls.items = [(i, pc)])
    (hclearing : Clearing s' i pc) (hclock : s'.clock = s.clock) (hid : s'.nextId = s.nextId)
    (hfailures : s'.loginFailures.committed = s.loginFailures.committed)
    (hlockouts : s'.loginLockouts.committed = s.loginLockouts.committed) : Inv cfg s' := by
  have hnew : ∀ c ∈ s'.calls.items, c.2.isSuccess = true := by
    rw [hcalls]
    exact forall_mem_singleton.2 hclearing.isSuccess
  obtain ⟨hwaiting, hentries⟩ := lists_of_success hold
  obtain ⟨hwaiting', hentries'⟩ := lists_of_success hnew
  have hfailed : s'.failedAt = s.failedAt := congrArg (fun d => d.items.map Prod.snd) hfailures
  have hpast := h.past
  have hcovered := h.covered
  rw [counted, hwaiting, hentries] at hpast
  rw [hwaiting, hentries] at hcovered
  refine ⟨?_, ?_, ?_, .inr ⟨i, pc, hcalls, hclearing⟩⟩
  · rw [counted, hwaiting', hentries', hfailed, hclock]
    exact hpast
  · rw [hfailures, hid]
    exact h.keys
  · rw [hwaiting', hentries', hfailed, hlockouts]
    exact hcovered

theorem Inv.success (h : Inv cfg s) (hcalls : s.calls.items = [(i, pc)]) (hclearing : Clearing s i pc)
    (hstep : s.statement cfg i pc = some s') : Inv cfg s' := by
  have hold : ∀ c ∈ s.calls.items, c.2.isSuccess = true := by
    rw [hcalls]
    exact forall_mem_singleton.2 hclearing.isSuccess
  have hgoto : ∀ pc', (s.calls.set i pc').items = [(i, pc')] := by
    intro pc'
    simp [Dict.set, Dict.setItems, hcalls]
  cases pc with
  | deleteFailures =>
    obtain ⟨failures, hdelete, rfl⟩ := Option.map_eq_some_iff.1 hstep
    obtain ⟨hquiet, hquiet'⟩ := hclearing
    have hgone : (failures.visible i).items = [] :=
      Dict.items_eq_nil_of_get? fun k => by simp [Table.get?_visible_deleteWhere hdelete]
    have hkept : failures.committed = s.loginFailures.committed := by rw [Table.deleteWhere_eq_some hdelete]
    exact h.clearing hold (hgoto _) ⟨hgone, fun w => Table.txn_of_deleteWhere hdelete hquiet, hquiet'⟩ rfl rfl hkept rfl
  | deleteLockouts =>
    obtain ⟨lockouts, hdelete, rfl⟩ := Option.map_eq_some_iff.1 hstep
    obtain ⟨hgone, hown, hquiet⟩ := hclearing
    have hkept : lockouts.committed = s.loginLockouts.committed := by rw [Table.deleteWhere_eq_some hdelete]
    exact h.clearing hold (hgoto _) ⟨hgone, hown, fun w => Table.txn_of_deleteWhere hdelete hquiet⟩ rfl rfl rfl hkept
  | commitSuccess =>
    cases hstep
    obtain ⟨hgone, hfailures, hlockouts⟩ := hclearing
    have hnil : ((s.commit i).finish i).calls.items = [] := by simp [finish, Nodes.commit, Dict.erase, hcalls]
    have hfailed : ((s.commit i).finish i).failedAt = [] := congrArg (map Prod.snd) hgone
    obtain ⟨hwaiting, hentries⟩ := lists_of_success (s := (s.commit i).finish i) (by rw [hnil]; exact forall_mem_nil _)
    refine ⟨?_, ?_, ?_, .inl (recording_of_quiet ?_ ?_ hnil)⟩
    · rw [counted, hwaiting, hentries, hfailed]
      exact forall_mem_nil _
    · show ∀ k ∈ (s.loginFailures.visible i).items.map Prod.fst, k < s.nextId
      rw [hgone]
      exact forall_mem_nil _
    · rw [hwaiting, hentries, hfailed]
      exact covered_nil cfg _
    · exact Table.commit_writes_of_own hfailures
    · exact Table.commit_writes_of_own hlockouts
  | check now | insert now | count now | upsert now | commit now locked => cases hclearing

theorem Inv.statement (h : Inv cfg s) (hroom : s.Counts cfg (.statement i))
    (hstep : (s.calls.get? i).bind (s.statement cfg i) = some s') : Inv cfg s' := by
  obtain ⟨pc, hpc, hstep⟩ := Option.bind_eq_some_iff.1 hstep
  rcases h.calls with hrec | ⟨j, pc', hcalls, hclearing⟩
  · have hfails := hrec.failing i pc hpc
    cases pc with
    | check now =>
      cases hstep
      exact h.check hrec hpc
    | insert now => exact h.insert hrec hpc hstep
    | count now => exact h.count hrec hpc hroom hstep
    | upsert now => exact h.upsert hrec hpc hstep
    | commit now locked =>
      cases hstep
      exact h.commit hrec hpc
    | deleteFailures | deleteLockouts | commitSuccess => cases hfails
  · obtain ⟨rfl, rfl⟩ : j = i ∧ pc' = pc := by
      have hmem := Dict.mem_items_iff.2 hpc
      rw [hcalls, mem_singleton] at hmem
      exact ⟨(congrArg Prod.fst hmem).symm, (congrArg Prod.snd hmem).symm⟩
    exact h.success hcalls hclearing hstep

theorem Inv.step (h : Inv cfg s) {a : Act} (hroom : s.Counts cfg a) (hstep : s.step cfg a = some s') : Inv cfg s' := by
  cases a <;> rw [Nodes.step] at hstep
  case tick now =>
    split_ifs at hstep with hle
    cases hstep
    refine ⟨fun t ht => (h.past t ht).trans hle, h.keys, h.covered,
      h.calls.imp (fun hrec => ?_) fun hclearing => hclearing⟩
    exact ⟨hrec.failing, hrec.writes, hrec.nodup, hrec.failures, hrec.lockouts⟩
  case statement i => exact h.statement hroom hstep
  case recordSuccess i =>
    have hnil : s.calls.items = [] := isEmpty_iff.1 hroom
    rcases h.calls with hrec | ⟨j, pc, hcalls, -⟩
    · unfold start at hstep
      split at hstep
      · cases hstep
      · split_ifs at hstep <;> cases hstep
        · have hcalls : (s.goto i .deleteFailures).calls.items = [(i, .deleteFailures)] := by
            simp [Nodes.goto, Dict.set, Dict.setItems, hnil]
          exact h.clearing (by rw [hnil]; exact forall_mem_nil _) hcalls (hrec.quiet hnil) rfl rfl rfl rfl
        · exact h
    · rw [hnil] at hcalls
      cases hcalls
  case checkAndRecordFailure i =>
    rcases h.calls with hrec | ⟨j, pc, hcalls, hclearing⟩
    · unfold start at hstep
      split at hstep
      · cases hstep
      · rename_i hnone
        split_ifs at hstep <;> cases hstep
        · have hcalls : s.calls.set i (.check s.clock) = s.calls.update i (some (.check s.clock)) := rfl
          exact h.goto (hrec.keep hnone hcalls (by rintro _ ⟨⟩; rfl) rfl rfl) hnone hcalls rfl le_rfl rfl rfl ⟨rfl, rfl⟩
        · exact h
    · have hfails : (!pc.isSuccess) = true := all_eq_true.1 hroom (j, pc) (hcalls ▸ mem_singleton_self _)
      rw [hclearing.isSuccess] at hfails
      cases hfails

theorem fresh_isInit (cfg : Settings) (now : ℚ) : (system cfg).init (fresh now) := ⟨now, rfl⟩

theorem inv_fresh (cfg : Settings) (now : ℚ) : Inv cfg (fresh now) :=
  ⟨nofun, nofun, covered_nil cfg none, .inl (recording_of_quiet rfl rfl rfl)⟩

/-- In every run, with any number of nodes, in which each `COUNT` has room or is of the only open call: as soon as
`max_attempts` failures inside one window are committed and not cleared, the account is locked from the last of them on
for the lockout duration. -/
theorem held_of_counts {cfg : Settings} {s : Nodes} (h : (system cfg).Reachable (fun s => s.Counts cfg) s) :
    Held cfg s := by
  have hinv : Inv cfg s := by
    refine h.invariant ?_ fun s a s' hinv hroom hstep => hinv.step hroom hstep
    rintro s ⟨now, rfl⟩
    exact inv_fresh cfg now
  intro t ht hmany now _ hnow
  obtain ⟨lockedUntil, hget, hle⟩ := hinv.covered.held t ht hmany
  rw [isLocked, hget]
  exact decide_eq_true (hnow.trans_le hle)

def attempts (maxAttempts : ℤ) : Settings := ⟨maxAttempts, 15, 15, true⟩

/-- With a limit of three: two nodes record a failure at once, and the third failure locks the account. -/
theorem held_of_counts_three : ∃ s, (system (attempts 3)).Reachable (fun s => s.Counts (attempts 3)) s ∧
    (s.failedAt, s.isLocked 899, s.calls.items) = ([0, 0, 0], true, []) ∧ Held (attempts 3) s := by
  exact exists_of_run_and (fresh 0)
    [.checkAndRecordFailure 0, .checkAndRecordFailure 1, .statement 0, .statement 1, .statement 0, .statement 1,
     .statement 0, .statement 1, .statement 0, .statement 1, .checkAndRecordFailure 0, .statement 0, .statement 0,
     .statement 0, .statement 0, .statement 0]
    (fresh_isInit _ 0) (by decide +kernel) fun s hs _ => held_of_counts hs

/-- Two nodes record the two failures at once: each counts one, and the account stays open. -/
theorem open_after_two_failures : ∃ s, (system (attempts 2)).Reachable Any s ∧
    (s.failedAt, s.isLocked 0, s.calls.items) = ([0, 0], false, []) ∧ ¬ Held (attempts 2) s := by
  refine exists_of_run_and (fresh 0)
    [.checkAndRecordFailure 0, .checkAndRecordFailure 1, .statement 0, .statement 1, .statement 0, .statement 1,
     .statement 0, .statement 1, .statement 0, .statement 1] (fresh_isInit _ 0) (by decide +kernel)
    fun s hs hresult hheld => ?_
  obtain ⟨hfailed, hrest⟩ := Prod.mk.inj hresult
  have hlocked := hheld 0 (by rw [hfailed]; decide) (by rw [hfailed]; decide +kernel) 0 le_rfl (by decide +kernel)
  rw [(Prod.mk.inj hrest).1] at hlocked
  cases hlocked

end Nodes

end CodeIndexer.Login
