import CodeIndexer.Jobs.Execution
import CodeIndexer.Lib.UniqueTable

/-!
# Registering jobs (`JobTracker.register_job`, `BackgroundJobManager.submit_job`)

A job is inserted into `background_jobs` by one of several statements. `register_job_if_no_conflict`, which
`submit_job` uses for a job with a repository, is a plain `INSERT`. Otherwise the manager uses `save_job` of the
backend and the tracker its `_insert_job`, which replace or ignore. The table has a unique index on the
operation and the repository of its active rows, `idx_active_job_per_repo`.

The rows are shared; `jobs` and `tracked` are the memory of one process, which loses an entry when the job
ends or the process restarts. `returned` is a ghost: the ids that calls have returned and that have not been
cleaned up.
-/

namespace CodeIndexer.Jobs.Registration

open PyText TransitionSystem

/-- How the `JobTracker` stores its jobs: by its own statements, or by a backend. -/
inductive Mode
  | direct
  | sqliteBackend
  | postgresBackend
deriving DecidableEq

structure Entry where
  operationType : Str
  status : Status
  username : Str
  repoAlias : Option Str
deriving DecidableEq

/-- `idx_active_job_per_repo`. -/
def Entry.key (e : Entry) : Option (Str × Str) :=
  if e.status.active then e.repoAlias.map fun repo => (e.operationType, repo) else none

abbrev Table := UniqueTable Str Entry (Str × Str) Entry.key

inductive Error
  | value (name : Str)
  | duplicateJob (operationType repoAlias existingJobId : Str)
  | uniqueViolation
deriving DecidableEq

variable (mode : Mode) (s : State)

def saveJob (table : Table) (jobId : Str) (e : Entry) : Except Error Table :=
  match mode with
  | .postgresBackend =>
    match table.insertOnConflict jobId e with
    | some table => .ok table
    | none => .error .uniqueViolation
  | _ => .ok (table.insertOrIgnore jobId e)

def insertJob (table : Table) (jobId : Str) (e : Entry) : Except Error Table :=
  match mode with
  | .direct => .ok (table.insertOrReplace jobId e)
  | mode => saveJob mode table jobId e

def requireNonEmptyStr (name : String) (value : Str) : Except Error Unit :=
  if strip value = [] then .error (.value name.toList) else .ok ()

structure State where
  table : Table
  jobs : Dict Str Entry
  tracked : Dict Str Entry
  returned : List Str

/-- A call of `submit_job` with the id that it draws. `podPull` is whether the job is left to other nodes. -/
structure Submission where
  jobId : Str
  operationType : Str
  username : Str
  repoAlias : Option Str
  podPull : Bool
deriving DecidableEq

namespace State

variable (mode : Mode) (s : State) (jobId : Str)

def registerJob (operationType username : Str) (repoAlias : Option Str) : Except Error State := do
  let e : Entry := ⟨operationType, .pending, username, repoAlias⟩
  let table ← insertJob mode s.table jobId e
  return { s with table := table, tracked := s.tracked.set jobId e }

/-- `register_job_if_no_conflict`. The insert is tried again only if the row in the way has gone, which nobody
does in between. -/
def registerJobIfNoConflict (operationType username repoAlias : Str) : Except Error State := do
  requireNonEmptyStr "job_id" jobId
  requireNonEmptyStr "operation_type" operationType
  requireNonEmptyStr "username" username
  requireNonEmptyStr "repo_alias" repoAlias
  let e : Entry := ⟨operationType, .pending, username, some repoAlias⟩
  match s.table.insert jobId e with
  | some table => return { s with table := table, tracked := s.tracked.set jobId e }
  | none => .error (.duplicateJob operationType repoAlias ((s.table.clashing jobId e).headD []))

/-- `_persist_jobs` of a new job. A failure is only logged. -/
def persistNew (e : Entry) : State :=
  match saveJob mode s.table jobId e with
  | .ok table => { s with table := table }
  | .error _ => s

/-- A job without a repository is persisted and then registered with the tracker, whose exceptions are only
logged. -/
def persistAndRegister (operationType username : Str) (repoAlias : Option Str) : State :=
  let s := s.persistNew mode jobId ⟨operationType, .pending, username, repoAlias⟩
  match s.registerJob mode jobId operationType username repoAlias with
  | .ok s => s
  | .error _ => s

def submitJob (call : Submission) : Except Error State :=
  let e : Entry := ⟨call.operationType, .pending, call.username, call.repoAlias⟩
  match call.repoAlias with
  | some (c :: repo) => do
    let s ← s.registerJobIfNoConflict call.jobId call.operationType call.username (c :: repo)
    return if call.podPull then s else { s with jobs := s.jobs.set call.jobId e }
  | _ =>
    .ok ({ s with jobs := s.jobs.set call.jobId e }.persistAndRegister mode call.jobId call.operationType call.username
      call.repoAlias)

def getJob : Option Entry := (s.tracked.get? jobId).or (s.table.get? jobId)

def getJobStatus (username : Str) (isAdmin : Bool) : Option Entry :=
  match s.jobs.get? jobId with
  | some e => if !isAdmin && decide (e.username ≠ username) then none else some e
  | none => (s.table.get? jobId).filter fun e => isAdmin || decide (e.username = username)

def Retrievable : Prop :=
  (s.getJob jobId).isSome = true ∧ ∀ username, (s.getJobStatus jobId username true).isSome = true

/-- An id of `uuid.uuid4`. -/
def New : Prop :=
  s.table.get? jobId = none ∧ s.jobs.get? jobId = none ∧ s.tracked.get? jobId = none ∧ jobId ∉ s.returned

instance (s : State) (jobId : Str) : Decidable (s.New jobId) := inferInstanceAs (Decidable (_ ∧ _))

end State

/-- The update of a row's status; one that is not terminal does not replace one that is. -/
def Entry.withStatus (status : Status) (e : Entry) : Entry :=
  if !status.terminal && e.status.terminal then e else { e with status := status }

/-- Besides the two calls: a job goes on, the process forgets a job, and a job is cleaned up. -/
inductive Act
  | registerJob (jobId operationType username : Str) (repoAlias : Option Str)
  | submitJob (call : Submission)
  | updateStatus (jobId : Str) (status : Status)
  | forget (jobId : Str)
  | cleanUp (jobId : Str)
deriving DecidableEq

/-- A call that raises returns no id. -/
def State.step : Act → Option State
  | .registerJob jobId operationType username repoAlias =>
    match s.registerJob mode jobId operationType username repoAlias with
    | .ok s' => some { s' with returned := s'.returned ++ [jobId] }
    | .error _ => some s
  | .submitJob call =>
    if s.New call.jobId then
      match s.submitJob mode call with
      | .ok s' => some { s' with returned := s'.returned ++ [call.jobId] }
      | .error _ => some s
    else none
  | .updateStatus jobId status => some { s with table := s.table.modify jobId (Entry.withStatus status) }
  | .forget jobId => some { s with jobs := s.jobs.erase jobId, tracked := s.tracked.erase jobId }
  | .cleanUp jobId =>
    some { s with
      table := s.table.erase jobId
      jobs := s.jobs.erase jobId
      tracked := s.tracked.erase jobId
      returned := s.returned.filter fun x => decide (x ≠ jobId) }

def State.fresh : State := ⟨.empty, Dict.empty, Dict.empty, []⟩

def system : TransitionSystem State Act where
  init s := s = .fresh
  step := State.step mode

/-- No active row has the operation and the repository of a job that is registered by `register_job`, with
SQLite, or submitted with an empty repository. -/
def Unclaimed : Act → Prop
  | .registerJob jobId operationType username repoAlias =>
    mode = .postgresBackend ∨ s.table.clashing jobId ⟨operationType, .pending, username, repoAlias⟩ = []
  | .submitJob call =>
    call.repoAlias = some [] → s.table.clashing call.jobId ⟨call.operationType, .pending, call.username, some []⟩ = []
  | _ => True

instance (mode : Mode) (s : State) : (a : Act) → Decidable (Unclaimed mode s a)
  | .registerJob _ _ _ _ => inferInstanceAs (Decidable (_ ∨ _))
  | .submitJob _ => inferInstanceAs (Decidable (_ → _))
  | .updateStatus .. | .forget _ | .cleanUp _ => .isTrue trivial

/-! ### Every returned job has its row -/

def Stored : Prop := ∀ jobId ∈ s.returned, (s.table.get? jobId).isSome = true

section Stored

variable {mode : Mode} {s s' : State} {table : Table} {jobId : Str} {e : Entry}

variable {k operationType username : Str} {repoAlias : Option Str}

theorem isSome_saveJob (h : saveJob mode s.table jobId e = .ok table)
    (hclash : mode = .postgresBackend ∨ s.table.clashing jobId e = [])
    (hk : k = jobId ∨ (s.table.get? k).isSome = true) : (table.get? k).isSome = true := by
  cases mode with
  | postgresBackend =>
    simp only [saveJob] at h
    split at h
    · rename_i table' htable
      obtain rfl := Except.ok.inj h
      exact UniqueTable.isSome_insertOnConflict htable hk
    · cases h
  | direct | sqliteBackend =>
    obtain rfl := Except.ok.inj h
    exact UniqueTable.isSome_insertOrIgnore (hclash.resolve_left (by intro heq; cases heq)) hk

theorem isSome_insertJob (h : insertJob mode s.table jobId e = .ok table)
    (hclash : mode = .postgresBackend ∨ s.table.clashing jobId e = [])
    (hk : k = jobId ∨ (s.table.get? k).isSome = true) : (table.get? k).isSome = true := by
  cases mode with
  | direct =>
    obtain rfl := Except.ok.inj h
    exact UniqueTable.isSome_insertOrReplace (hclash.resolve_left (by intro heq; cases heq)) hk
  | sqliteBackend =>
    have hsave : saveJob .sqliteBackend s.table jobId e = .ok table := h
    exact isSome_saveJob hsave hclash hk
  | postgresBackend =>
    have hsave : saveJob .postgresBackend s.table jobId e = .ok table := h
    exact isSome_saveJob hsave hclash hk

theorem registerJob_eq_ok
    (h : s.registerJob mode jobId operationType username repoAlias = .ok s') :
    insertJob mode s.table jobId ⟨operationType, .pending, username, repoAlias⟩ = .ok s'.table ∧
      s'.returned = s.returned := by
  simp only [State.registerJob, bind, Except.bind] at h
  split at h
  · cases h
  · rename_i table htable
    obtain rfl := Except.ok.inj h
    exact ⟨htable, rfl⟩

theorem registerJobIfNoConflict_eq_ok {repoAlias : Str}
    (h : s.registerJobIfNoConflict jobId operationType username repoAlias = .ok s') :
    s.table.insert jobId ⟨operationType, .pending, username, some repoAlias⟩ = some s'.table ∧
      s'.returned = s.returned := by
  simp only [State.registerJobIfNoConflict, bind, Except.bind] at h
  iterate 4
    split at h
    · cases h
  split at h
  · rename_i table htable
    obtain rfl := Except.ok.inj h
    exact ⟨htable, rfl⟩
  · cases h

theorem get?_saveJob_of_ne (h : saveJob mode s.table jobId e = .ok table) (hne : k ≠ jobId) :
    table.get? k = s.table.get? k := by
  cases mode with
  | postgresBackend =>
    simp only [saveJob] at h
    split at h
    · rename_i table' htable
      obtain rfl := Except.ok.inj h
      exact UniqueTable.get?_insertOnConflict_of_ne htable hne
    · cases h
  | direct | sqliteBackend =>
    obtain rfl := Except.ok.inj h
    exact UniqueTable.get?_insertOrIgnore_of_ne s.table e hne

theorem saveJob_of_clashing_eq_nil (hclash : s.table.clashing jobId e = []) :
    ∃ table, saveJob mode s.table jobId e = .ok table := by
  cases mode with
  | direct | sqliteBackend => exact ⟨_, rfl⟩
  | postgresBackend =>
    simp only [saveJob, UniqueTable.insertOnConflict]
    cases hget : s.table.get? jobId with
    | some e' => exact ⟨s.table, rfl⟩
    | none =>
      obtain ⟨table, htable⟩ := UniqueTable.insert_of_clashing_eq_nil hget hclash
      refine ⟨table, ?_⟩
      rw [Option.isSome_none, if_neg Bool.false_ne_true, htable]

theorem clashing_of_repoAlias_eq_none (table : Table) (jobId operationType username : Str) (status : Status) :
    table.clashing jobId ⟨operationType, status, username, none⟩ = [] := by
  rw [UniqueTable.clashing_eq_nil_iff]
  intro k e' b _ _ _ hkey
  have hnone : (⟨operationType, status, username, none⟩ : Entry).key = none := by
    rw [Entry.key]
    split_ifs <;> rfl
  rw [hnone] at hkey
  cases hkey

theorem isSome_persistAndRegister
    (hclash : s.table.clashing jobId ⟨operationType, .pending, username, repoAlias⟩ = [])
    (hs : s' = s.persistAndRegister mode jobId operationType username repoAlias) :
    s'.returned = s.returned ∧ ∀ k, k = jobId ∨ (s.table.get? k).isSome = true → (s'.table.get? k).isSome = true := by
  obtain ⟨table, htable⟩ : ∃ table, saveJob mode s.table jobId
    ⟨operationType, .pending, username, repoAlias⟩ = .ok table :=
    saveJob_of_clashing_eq_nil hclash
  have hpersist : s.persistNew mode jobId ⟨operationType, .pending, username, repoAlias⟩ =
    { s with table := table } := by
    rw [State.persistNew, htable]
  have hrows : ∀ k, k = jobId ∨ (s.table.get? k).isSome = true → (table.get? k).isSome = true :=
    fun k hk => isSome_saveJob htable (.inr hclash) hk
  rw [State.persistAndRegister, hpersist] at hs
  split at hs
  · rename_i s₁ hregister
    obtain ⟨hinsert, hreturned⟩ := registerJob_eq_ok hregister
    have hclash' : table.clashing jobId ⟨operationType, .pending, username, repoAlias⟩ = [] :=
      UniqueTable.clashing_congr (fun k hne => get?_saveJob_of_ne htable hne) hclash
    rw [hs]
    exact ⟨hreturned, fun k hk => isSome_insertJob hinsert (.inr hclash') (.inr (hrows k hk))⟩
  · rw [hs]
    exact ⟨rfl, hrows⟩

theorem submitJob_eq_ok {call : Submission} (h : s.submitJob mode call = .ok s')
    (hclash : call.repoAlias = some [] → s.table.clashing call.jobId
      ⟨call.operationType, .pending, call.username, some []⟩ = []) :
    s'.returned = s.returned ∧ ∀ k, k = call.jobId ∨ (s.table.get? k).isSome = true →
      (s'.table.get? k).isSome = true := by
  cases halias : call.repoAlias with
  | none =>
    simp only [State.submitJob, halias] at h
    have hno : s.table.clashing call.jobId ⟨call.operationType, .pending, call.username, none⟩ = [] :=
      clashing_of_repoAlias_eq_none _ _ _ _ _
    exact isSome_persistAndRegister
      (s := { s with jobs := s.jobs.set call.jobId ⟨call.operationType, .pending, call.username, none⟩ }) hno
      (Except.ok.inj h).symm
  | some repo =>
    cases repo with
    | nil =>
      simp only [State.submitJob, halias] at h
      exact isSome_persistAndRegister
        (s := { s with jobs := s.jobs.set call.jobId ⟨call.operationType, .pending, call.username, some []⟩ })
        (hclash halias)
        (Except.ok.inj h).symm
    | cons c repo =>
      simp only [State.submitJob, halias, bind, Except.bind] at h
      split at h
      · cases h
      · rename_i s₁ hregister
        obtain ⟨hinsert, hreturned⟩ := registerJobIfNoConflict_eq_ok hregister
        have hs : s'.table = s₁.table ∧ s'.returned = s₁.returned := by
          rw [← Except.ok.inj h]
          split_ifs <;> exact ⟨rfl, rfl⟩
        rw [hs.1, hs.2]
        exact ⟨hreturned, fun k hk => UniqueTable.isSome_insert hinsert hk⟩

theorem Stored.step (h : Stored s) {a : Act} (hclaim : Unclaimed mode s a) (hs : s.step mode a = some s') :
    Stored s' := by
  cases a with
  | registerJob jobId operationType username repoAlias =>
    rw [State.step] at hs
    split at hs
    · rename_i s₁ hregister
      obtain ⟨hinsert, hreturned⟩ := registerJob_eq_ok hregister
      cases hs
      intro k hk
      refine isSome_insertJob hinsert hclaim ?_
      rcases List.mem_append.1 hk with hk | hk
      · exact .inr (h k (hreturned ▸ hk))
      · exact .inl (List.mem_singleton.1 hk)
    · cases hs
      exact h
  | submitJob call =>
    rw [State.step] at hs
    split_ifs at hs with hnew
    split at hs
    · rename_i s₁ hsubmit
      obtain ⟨hreturned, hrows⟩ := submitJob_eq_ok hsubmit hclaim
      cases hs
      intro k hk
      refine hrows k ?_
      rcases List.mem_append.1 hk with hk | hk
      · exact .inr (h k (hreturned ▸ hk))
      · exact .inl (List.mem_singleton.1 hk)
    · cases hs
      exact h
  | updateStatus jobId status =>
    cases hs
    exact fun k hk => UniqueTable.isSome_modify _ _ _ (h k hk)
  | forget jobId =>
    cases hs
    exact h
  | cleanUp jobId =>
    cases hs
    intro k hk
    obtain ⟨hk, hne⟩ := List.mem_filter.1 hk
    rw [UniqueTable.get?_erase, if_neg (of_decide_eq_true hne)]
    exact h k hk

theorem Stored.retrievable (h : Stored s) {jobId : Str} (hreturned : jobId ∈ s.returned) : s.Retrievable jobId := by
  obtain ⟨e, he⟩ := Option.isSome_iff_exists.1 (h jobId hreturned)
  constructor
  · rw [State.getJob, he, Option.isSome_or]
    simp
  · intro username
    rw [State.getJobStatus]
    split
    · rfl
    · rw [he]
      rfl

end Stored

def State.OnePerRepo : Prop :=
  ∀ jobId e jobId' e' repo, s.table.get? jobId = some e → s.table.get? jobId' = some e' → e.status.active = true →
    e'.status.active = true → e.operationType = e'.operationType → e.repoAlias = some repo →
    e'.repoAlias = some repo → jobId = jobId'

theorem onePerRepo : s.OnePerRepo := by
  intro jobId e jobId' e' repo he he' hactive hactive' hoperation hrepo hrepo'
  refine s.table.unique jobId e jobId' e' (e.operationType, repo) he he' ?_ ?_
  · rw [Entry.key, if_pos hactive, hrepo]
    rfl
  · rw [Entry.key, if_pos hactive', hrepo', hoperation]
    rfl

/-- If nobody registers a job over an active one of the same operation and repository, every job whose id was
returned is found until it is cleaned up. -/
theorem retrievable_of_unclaimed {mode : Mode} {s : State} (h : (system mode).Reachable (Unclaimed mode) s) :
    (∀ jobId ∈ s.returned, s.Retrievable jobId) ∧ s.OnePerRepo := by
  have hstored : Stored s := by
    refine h.invariant ?_ fun s₁ a s₂ hstored hclaim hs => hstored.step hclaim hs
    rintro s₁ rfl
    exact nofun
  exact ⟨fun jobId hmem => hstored.retrievable hmem, onePerRepo s⟩

/-! ### Runs -/

def register (jobId operationType : String) (repoAlias : Option String) : Act :=
  .registerJob jobId.toList operationType.toList "alice" (repoAlias.map String.toList)

def submit (jobId operationType : String) (repoAlias : Option String) : Act :=
  .submitJob ⟨jobId.toList, operationType.toList, "alice", repoAlias.map String.toList, false⟩

/-- Two submitted jobs and two registered ones, all of them forgotten by the process but one. -/
theorem retrievable_of_unclaimed_four : ∃ s, (system .direct).Reachable (Unclaimed .direct) s ∧
    s.returned = ["a".toList, "b".toList, "c".toList, "d".toList] ∧
    (∀ jobId ∈ s.returned, s.Retrievable jobId) ∧ s.OnePerRepo := by
  exact exists_of_run_and .fresh
    [submit "a" "refresh" (some "repo"), submit "b" "scan" none, register "c" "analysis" (some "repo"),
     .forget "a", .forget "b", .forget "c", .updateStatus "a" .completed,
     register "d" "refresh" (some "repo")] rfl (by decide +kernel) fun s hs _ => retrievable_of_unclaimed hs

/-- Two calls of `register_job` with the same operation and repository: the tracker's own statement deletes the
row of the first job, the SQLite backend does not insert that of the second. -/
theorem registered_and_hidden :
    (∃ s, (system .direct).Reachable TransitionSystem.Any s ∧ s.returned = ["a".toList, "b".toList] ∧
    ¬s.Retrievable "a") ∧
    ∃ s, (system .sqliteBackend).Reachable TransitionSystem.Any s ∧ s.returned = ["a".toList, "b".toList] ∧
      ¬s.Retrievable "b" := by
  have hnot : ∀ (s : State) jobId, s.getJobStatus jobId "alice" true = none → ¬s.Retrievable jobId := by
    intro s jobId hnone hretrievable
    have hsome := hretrievable.2 "alice"
    rw [hnone] at hsome
    cases hsome
  constructor
  · exact exists_of_run_imp (fun s => s.returned = ["a".toList, "b".toList] ∧
      s.getJobStatus "a" "alice" true = none) .fresh
      [register "a" "analysis" (some "repo"), register "b" "analysis" (some "repo")] rfl (by decide +kernel)
      fun s _ ⟨hreturned, hnone⟩ => ⟨hreturned, hnot s _ hnone⟩
  · exact exists_of_run_imp (fun s => s.returned = ["a".toList, "b".toList] ∧
      s.getJobStatus "b" "alice" true = none) .fresh
      [register "a" "analysis" (some "repo"), register "b" "analysis" (some "repo")] rfl (by decide +kernel)
      fun s _ ⟨hreturned, hnone⟩ => ⟨hreturned, hnot s _ hnone⟩

end CodeIndexer.Jobs.Registration
