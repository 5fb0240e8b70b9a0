import CodeIndexer.Jobs.Execution
import CodeIndexer.Lib.History

/-!
# Jobs of a cluster (`DistributedJobClaimer`, `JobReconciliationService`)

The nodes share the table `background_jobs`. A step is one SQL statement; `claim_next_job`, `cancel_job` (of a job that
is not in the memory of the node) and a reconciliation sweep are several. `FOR UPDATE SKIP LOCKED` lets a claim choose
among the rows that no other transaction has locked.

The ghost `log` says what happened to the jobs, and `standing` reads from it who owns a job (the node it was handed to
last, unless it was returned since) and whether it has ended.
-/

namespace CodeIndexer.Jobs.Cluster

open PyText TransitionSystem

/-! ### Ownership -/

inductive Actor
  | node (node : Str)
  | cancellation
  | sweep
deriving DecidableEq

structure Standing where
  owner : Option Str
  ended : Bool
deriving DecidableEq

inductive Kind
  | submitted (standing : Standing)
  | handed (node : Str)
  | returned
  | ended (actor : Actor)
deriving DecidableEq

structure Event where
  job : Str
  kind : Kind
deriving DecidableEq

def Kind.apply (standing : Standing) : Kind → Standing
  | .submitted standing => standing
  | .handed node => ⟨some node, false⟩
  | .returned => ⟨none, false⟩
  | .ended _ => ⟨standing.owner, true⟩

/-- A job is handed to a node only while it has no owner, and handed or returned only while it has not ended. A node
ends only a job of its own; a cancellation or a sweep ends only a job that has not ended. -/
def Kind.Allowed (standing : Standing) : Kind → Prop
  | .submitted _ => False
  | .handed _ => standing = ⟨none, false⟩
  | .returned => standing.ended = false
  | .ended (.node node) => standing.owner = some node
  | .ended _ => standing.ended = false

def Kind.advance (kind : Kind) : Option Standing → Option Standing
  | none =>
    match kind with
    | .submitted standing => some standing
    | _ => none
  | some standing => some (kind.apply standing)

def Kind.Fits (kind : Kind) : Option Standing → Prop
  | none => ∃ standing, kind = .submitted standing
  | some standing => kind.Allowed standing

def standing (log : List Event) (job : Str) : Option Standing :=
  log.foldl (fun standing e => if e.job = job then e.kind.advance standing else standing) none

def Legal (log : List Event) : Prop := History.Legal (fun before e => e.kind.Fits (standing before e.job)) log

/-! ### The table -/

structure Row where
  operationType : Str
  status : Status
  username : Str
  createdAt : ℚ
  startedAt : Option ℚ
  completedAt : Option ℚ
  claimedAt : Option ℚ
  executingNode : Option Str
  result : Option Str
  error : Option Str
  progress : ℕ
  cancelled : Bool
deriving DecidableEq

def Row.standing (row : Row) : Standing := ⟨row.executingNode, row.status.terminal⟩

structure Statement where
  selects : Str → Row → Bool
  set : Row → Row
  kind : Kind

structure TypeFilter where
  jobType : Str
  jobTypes : List Str
  excludeTypes : List Str
deriving DecidableEq

def TypeFilter.accepts (filter : TypeFilter) (operationType : Str) : Bool :=
  (filter.jobType = [] ∨ operationType = filter.jobType) ∧ (filter.jobTypes = [] ∨ operationType ∈ filter.jobTypes) ∧
    operationType ∉ filter.excludeTypes

def Row.claimable (row : Row) (filter : TypeFilter) : Bool :=
  row.status = .pending ∧ row.executingNode = none ∧ filter.accepts row.operationType

def claimStatement (node job : Str) (now : ℚ) : Statement where
  selects j _ := j = job
  set row := { row with executingNode := some node, claimedAt := some now, status := .running, startedAt := some now }
  kind := .handed node

def releaseStatement (node job : Str) : Statement where
  selects j row := j = job ∧ row.executingNode = some node
  set row := { row with status := .pending, executingNode := none, claimedAt := none, startedAt := none }
  kind := .returned

def completeStatement (node job : Str) (result : Option Str) (now : ℚ) : Statement where
  selects j row := j = job ∧ row.executingNode = some node
  set row := { row with status := .completed, completedAt := some now, result := result, progress := 100 }
  kind := .ended (.node node)

def failStatement (node job error : Str) (now : ℚ) : Statement where
  selects j row := j = job ∧ row.executingNode = some node
  set row := { row with status := .failed, completedAt := some now, error := some error }
  kind := .ended (.node node)

def cancelStatement (job : Str) (now : ℚ) : Statement where
  selects j _ := j = job
  set row := { row with status := .cancelled, cancelled := true, completedAt := some now }
  kind := .ended .cancellation

def reclaimDeadStatement (activeNodes : List Str) (graceSeconds now : ℚ) : Statement where
  selects _ row :=
    row.status = .running ∧ (∃ node ∈ row.executingNode, node ∉ activeNodes) ∧
      ∀ t ∈ row.claimedAt, t < now - graceSeconds
  set row := { row with status := .pending, executingNode := none, startedAt := none, claimedAt := none }
  kind := .returned

def stuckError : Str :=
  "Reclaimed by JobReconciliationService: stuck in active state beyond max_execution_time (Bug #1141)"

def reclaimStuckStatement (excluded : List Str) (maxExecutionTime now : ℚ) : Statement where
  selects j row :=
    row.status = .running ∧ row.startedAt = none ∧
    row.claimedAt.getD row.createdAt ≤ now - maxExecutionTime ∧ j ∉ excluded
  set row := { row with status := .failed, error := some (row.error.getD stuckError) }
  kind := .ended .sweep

/-! ### The system -/

inductive Call
  | claim (node : Str) (filter : TypeFilter)
  | cancel (job : Str)
  | reclaimDead (activeNodes : List Str)
  | reclaimStuck (reclaimedIds : List Str)
deriving DecidableEq

structure Config where
  maxConcurrentJobs : ℕ
  graceSeconds : ℚ
  maxExecutionTime : ℚ

structure State where
  jobs : Dict Str Row
  calls : Dict ℕ Call
  log : List Event

/-- `locked` are the rows that other transactions have locked, `choice` is the job that the sub-select gives: one of the
oldest. `admitted` is the answer of the memory gate, `authorized` that of the check of the user. -/
inductive Act
  | submit (job : Str) (row : Row)
  | claim (i : ℕ) (node : Str) (filter : TypeFilter) (admitted : Bool)
  | claimUpdate (i : ℕ) (locked : List Str) (choice : Option Str) (now : ℚ)
  | release (node job : Str)
  | complete (node job : Str) (result : Option Str) (now : ℚ)
  | fail (node job error : Str) (now : ℚ)
  | cancel (i : ℕ) (job : Str) (authorized : Bool)
  | sweep (i : ℕ) (activeNodes : List Str)
  | advance (i : ℕ) (now : ℚ)

namespace State

def selected (s : State) (st : Statement) : List Str := (s.jobs.items.filter fun e => st.selects e.1 e.2).map Prod.fst

def execute (s : State) (st : Statement) : State :=
  { s with
    jobs := s.jobs.mapValues fun job row => if st.selects job row then st.set row else row
    log := s.log ++ (s.selected st).map fun job => ⟨job, st.kind⟩ }

def setCall (s : State) (i : ℕ) (call : Call) : State := { s with calls := s.calls.set i call }

def endCall (s : State) (i : ℕ) : State := { s with calls := s.calls.erase i }

def runningCount (s : State) : ℕ := s.jobs.items.countP fun e => e.2.status = .running

def candidates (s : State) (filter : TypeFilter) (locked : List Str) : List (Str × Row) :=
  s.jobs.items.filter fun e => e.2.claimable filter ∧ e.1 ∉ locked

/-- `ORDER BY created_at LIMIT 1`. -/
def Chooses (s : State) (filter : TypeFilter) (locked : List Str) : Option Str → Prop
  | none => s.candidates filter locked = []
  | some job => ∃ e ∈ s.candidates filter locked, e.1 = job ∧
      ∀ e' ∈ s.candidates filter locked, e.2.createdAt ≤ e'.2.createdAt

instance (s : State) (filter : TypeFilter) (locked : List Str) : (choice : Option Str) →
    Decidable (s.Chooses filter locked choice)
  | none => inferInstanceAs (Decidable (s.candidates filter locked = []))
  | some job => inferInstanceAs (Decidable (∃ e ∈ s.candidates filter locked, e.1 = job ∧
      ∀ e' ∈ s.candidates filter locked, e.2.createdAt ≤ e'.2.createdAt))

/-- `INSERT … ON CONFLICT (job_id) DO NOTHING`; a row with an `executing_node` is of that node from the start. -/
def submit (s : State) (job : Str) (row : Row) : State :=
  if (s.jobs.get? job).isSome then s
  else { s with jobs := s.jobs.set job row, log := s.log ++ [⟨job, .submitted row.standing⟩] }

def advance (cfg : Config) (s : State) (i : ℕ) (now : ℚ) : Call → Option State
  | .claim _ _ => none
  | .cancel job => some ((s.execute (cancelStatement job now)).endCall i)
  | .reclaimDead [] => some (s.setCall i (.reclaimStuck []))
  | .reclaimDead (node :: nodes) =>
    let st := reclaimDeadStatement (node :: nodes) cfg.graceSeconds now
    some ((s.execute st).setCall i (.reclaimStuck (s.selected st)))
  | .reclaimStuck reclaimedIds =>
      some ((s.execute (reclaimStuckStatement reclaimedIds cfg.maxExecutionTime now)).endCall i)

def step (cfg : Config) (s : State) : Act → Option State
  | .submit job row => some (s.submit job row)
  | .claim i node filter admitted =>
    if (s.calls.get? i).isSome then none
    else if admitted ∧ (cfg.maxConcurrentJobs = 0 ∨ s.runningCount < cfg.maxConcurrentJobs) then
      some (s.setCall i (.claim node filter))
    else some s
  | .claimUpdate i locked choice now =>
    match s.calls.get? i with
    | some (.claim node filter) =>
      if s.Chooses filter locked choice then
        match choice with
        | some job => some ((s.execute (claimStatement node job now)).endCall i)
        | none => some (s.endCall i)
      else none
    | _ => none
  | .release node job => some (s.execute (releaseStatement node job))
  | .complete node job result now => some (s.execute (completeStatement node job result now))
  | .fail node job error now => some (s.execute (failStatement node job error now))
  | .cancel i job authorized =>
    if (s.calls.get? i).isSome then none
    else if authorized ∧ ∃ row ∈ s.jobs.get? job, row.status.active = true then some (s.setCall i (.cancel job))
    else some s
  | .sweep i activeNodes => if (s.calls.get? i).isSome then none else some (s.setCall i (.reclaimDead activeNodes))
  | .advance i now => (s.calls.get? i).bind (s.advance cfg i now)

end State

def State.start : State := ⟨Dict.empty, Dict.empty, []⟩

def system (cfg : Config) : TransitionSystem State Act where
  init s := s = .start
  step := State.step cfg

def Call.cancels : Call → Option Str
  | .cancel job => some job
  | _ => none

/-- No node releases a job of its own that has ended, and no cancellation is written to a job that has ended since it
was checked. -/
def Guarded (s : State) : Act → Prop
  | .release node job => ∀ row ∈ s.jobs.get? job, row.executingNode = some node → row.status.terminal = false
  | .advance i _ => ∀ call ∈ s.calls.get? i, ∀ job ∈ call.cancels, ∀ row ∈ s.jobs.get? job, row.status.terminal = false
  | _ => True

instance (s : State) : (a : Act) → Decidable (Guarded s a)
  | .release node job =>
    inferInstanceAs (Decidable (∀ row ∈ s.jobs.get? job, row.executingNode = some node → row.status.terminal = false))
  | .advance i _ =>
    inferInstanceAs (Decidable (∀ call ∈ s.calls.get? i, ∀ job ∈ call.cancels, ∀ row ∈ s.jobs.get? job,
      row.status.terminal = false))
  | .submit .. | .claim .. | .claimUpdate .. | .complete .. | .fail .. | .cancel .. | .sweep .. => .isTrue trivial

def State.Final (s s' : State) : Prop :=
  ∀ job row, s.jobs.get? job = some row → row.status.terminal = true →
    ∃ row', s'.jobs.get? job = some row' ∧ row'.status.terminal = true

/-! ### Histories -/

theorem standing_concat (log : List Event) (e : Event) (job : Str) :
    standing (log ++ [e]) job = if e.job = job then e.kind.advance (standing log job) else standing log job := by
  rw [standing, List.foldl_append]
  rfl

theorem legal_and_standing_append {kind : Kind} {jobs : List Str} (hnodup : jobs.Nodup) {log : List Event}
    (h : Legal log)
    (hjobs : ∀ job ∈ jobs, kind.Fits (standing log job)) :
    Legal (log ++ jobs.map fun job => ⟨job, kind⟩) ∧
      ∀ job, standing (log ++ jobs.map fun job => ⟨job, kind⟩) job =
        if job ∈ jobs then kind.advance (standing log job) else standing log job := by
  induction jobs generalizing log with
  | nil => simpa using h
  | cons first rest ih =>
    obtain ⟨hfirst, hrest⟩ := List.nodup_cons.mp hnodup
    have hother : ∀ job, job ≠ first → standing (log ++ [⟨first, kind⟩]) job = standing log job := fun job hne => by
      rw [standing_concat, if_neg (Ne.symm hne)]
    have hne : ∀ job ∈ rest, job ≠ first := fun job hjob heq => hfirst (heq ▸ hjob)
    obtain ⟨hlegal, hstanding⟩ := ih hrest (History.Legal.concat h (hjobs first (by simp))) fun job hjob => by
      rw [hother job (hne job hjob)]
      exact hjobs job (by simp [hjob])
    rw [List.map_cons, ← List.singleton_append, ← List.append_assoc]
    refine ⟨hlegal, fun job => ?_⟩
    rw [hstanding]
    by_cases hjob : job = first
    · rw [if_neg (fun hmem => hne job hmem hjob), standing_concat, if_pos hjob.symm, if_pos (by simp [hjob])]
    · rw [hother job hjob]
      simp [hjob]

/-! ### Statements -/

structure Statement.Sound (st : Statement) (s : State) : Prop where
  allowed : ∀ job row, s.jobs.get? job = some row → st.selects job row = true → st.kind.Allowed row.standing
  standing : ∀ job row, s.jobs.get? job = some row → st.selects job row = true →
    (st.set row).standing = st.kind.apply row.standing

structure Inv (s : State) : Prop where
  legal : Legal s.log
  standing : ∀ job, (s.jobs.get? job).map Row.standing = standing s.log job

def Keeps (s s' : State) : Prop := Inv s' ∧ s.Final s'

section Steps

variable {s s' : State} {st : Statement} {cfg : Config}

variable {job node : Str}

theorem State.mem_selected : job ∈ s.selected st ↔ ∃ row, s.jobs.get? job = some row ∧ st.selects job row = true := by
  simp only [State.selected, List.mem_map, List.mem_filter, Prod.exists, ← Dict.mem_items_iff]
  constructor
  · rintro ⟨job', row, ⟨hmem, hselects⟩, rfl⟩
    exact ⟨row, hmem, hselects⟩
  · rintro ⟨row, hmem, hselects⟩
    exact ⟨job, row, ⟨hmem, hselects⟩, rfl⟩

theorem State.selected_nodup : (s.selected st).Nodup := s.jobs.nodup.sublist (List.filter_sublist.map Prod.fst)

theorem State.get?_execute (job : Str) :
    (s.execute st).jobs.get? job = (s.jobs.get? job).map fun row => if st.selects job row then st.set row else row :=
  Dict.get?_mapValues _ _ _

theorem Inv.execute (h : Inv s) (hst : st.Sound s) : Inv (s.execute st) := by
  have hfits : ∀ job ∈ s.selected st, st.kind.Fits (Cluster.standing s.log job) := fun job hjob => by
    obtain ⟨row, hrow, hselects⟩ := State.mem_selected.mp hjob
    rw [← h.standing, hrow]
    exact hst.allowed job row hrow hselects
  obtain ⟨hlegal, hstanding⟩ := legal_and_standing_append State.selected_nodup h.legal hfits
  refine ⟨hlegal, fun job => ?_⟩
  rw [State.get?_execute, State.execute, hstanding, ← h.standing]
  cases hrow : s.jobs.get? job with
  | none =>
    have hnot : job ∉ s.selected st := fun hmem => by
      obtain ⟨row, hrow', -⟩ := State.mem_selected.mp hmem
      rw [hrow] at hrow'
      cases hrow'
    rw [if_neg hnot]
    rfl
  | some row =>
    cases hselects : st.selects job row with
    | true =>
      rw [if_pos (State.mem_selected.mpr ⟨row, hrow, hselects⟩)]
      simpa [hselects, Kind.advance] using hst.standing job row hrow hselects
    | false =>
      have hnot : job ∉ s.selected st := fun hmem => by
        obtain ⟨row', hrow', hselects'⟩ := State.mem_selected.mp hmem
        obtain rfl := Option.mem_unique hrow hrow'
        rw [hselects] at hselects'
        cases hselects'
      rw [if_neg hnot]
      simp [hselects]

theorem State.Final.refl (s : State) : s.Final s := fun _ row hrow hended => ⟨row, hrow, hended⟩

theorem State.Final.trans {s'' : State} (h : s.Final s') (h' : s'.Final s'') : s.Final s'' :=
    fun job row hrow hended => by
  obtain ⟨row', hrow', hended'⟩ := h job row hrow hended
  exact h' job row' hrow' hended'

theorem State.final_execute (hst : ∀ job row, s.jobs.get? job = some row → st.selects job row = true →
    row.status.terminal = true → (st.set row).status.terminal = true) : s.Final (s.execute st) := by
  intro job row hrow hended
  refine ⟨if st.selects job row then st.set row else row, ?_, ?_⟩
  · rw [State.get?_execute, hrow]; rfl
  · split
    · rename_i hselects; exact hst job row hrow hselects hended
    · exact hended

theorem Inv.statement (h : Inv s) (hst : st.Sound s) (hfinal : ∀ job row, s.jobs.get? job = some row →
    st.selects job row = true → row.status.terminal = true → (st.set row).status.terminal = true) :
    Keeps s (s.execute st) := ⟨h.execute hst, State.final_execute hfinal⟩

theorem Inv.statement_of_open (h : Inv s) (hst : st.Sound s) (hopen : ∀ job row, s.jobs.get? job = some row →
    st.selects job row = true → row.status.terminal = false) : Keeps s (s.execute st) := by
  refine h.statement hst fun job row hrow hselects hended => ?_
  rw [hopen job row hrow hselects] at hended
  cases hended

theorem claimStatement_keeps (h : Inv s) {filter : TypeFilter} {locked : List Str} (now : ℚ)
    (hchoice : s.Chooses filter locked (some job)) : Keeps s (s.execute (claimStatement node job now)) := by
  obtain ⟨⟨job', row⟩, hmem, rfl, -⟩ := hchoice
  obtain ⟨hitem, hcandidate⟩ := List.mem_filter.mp hmem
  obtain ⟨hclaimable, -⟩ := of_decide_eq_true hcandidate
  obtain ⟨hpending, hnode, -⟩ := of_decide_eq_true hclaimable
  have hstanding : row.standing = ⟨none, false⟩ := by rw [Row.standing, hnode, hpending]; rfl
  have hrow : ∀ j row', s.jobs.get? j = some row' → (claimStatement node job' now).selects j row' = true →
      row'.standing = ⟨none, false⟩ := fun j row' hj hselects => by
    obtain rfl : j = job' := of_decide_eq_true hselects
    rw [Option.mem_unique hj (Dict.mem_items_iff.mp hitem), hstanding]
  exact h.statement_of_open ⟨hrow, fun _ _ _ _ => rfl⟩ fun j row' hj hselects =>
    congrArg Standing.ended (hrow j row' hj hselects)

theorem completeStatement_keeps (h : Inv s) (node job : Str) (result : Option Str) (now : ℚ) :
    Keeps s (s.execute (completeStatement node job result now)) :=
  h.statement ⟨fun _ _ _ hselects => (of_decide_eq_true hselects).2, fun _ _ _ _ => rfl⟩ fun _ _ _ _ _ => rfl

theorem failStatement_keeps (h : Inv s) (node job error : Str) (now : ℚ) :
    Keeps s (s.execute (failStatement node job error now)) :=
  h.statement ⟨fun _ _ _ hselects => (of_decide_eq_true hselects).2, fun _ _ _ _ => rfl⟩ fun _ _ _ _ _ => rfl

theorem cancelStatement_keeps (h : Inv s) (now : ℚ) (hopen : ∀ row ∈ s.jobs.get? job, row.status.terminal = false) :
    Keeps s (s.execute (cancelStatement job now)) := by
  have hrow : ∀ j row, s.jobs.get? j = some row → (cancelStatement job now).selects j row = true →
    row.status.terminal = false :=
    fun j row hj hselects => by
      obtain rfl : j = job := of_decide_eq_true hselects
      exact hopen row hj
  exact h.statement_of_open ⟨hrow, fun _ _ _ _ => rfl⟩ hrow

theorem terminal_of_running {row : Row} (h : row.status = .running) : row.status.terminal = false := by rw [h]; rfl

theorem reclaimDeadStatement_keeps (h : Inv s) (activeNodes : List Str) (graceSeconds now : ℚ) :
    Keeps s (s.execute (reclaimDeadStatement activeNodes graceSeconds now)) := by
  have hrow : ∀ j row, s.jobs.get? j = some row →
    (reclaimDeadStatement activeNodes graceSeconds now).selects j row = true →
      row.status.terminal = false := fun j row _ hselects => terminal_of_running (of_decide_eq_true hselects).1
  exact h.statement_of_open ⟨hrow, fun _ _ _ _ => rfl⟩ hrow

theorem reclaimStuckStatement_keeps (h : Inv s) (excluded : List Str) (maxExecutionTime now : ℚ) :
    Keeps s (s.execute (reclaimStuckStatement excluded maxExecutionTime now)) := by
  have hrow : ∀ j row, s.jobs.get? j = some row →
      (reclaimStuckStatement excluded maxExecutionTime now).selects j row = true → row.status.terminal = false :=
    fun j row _ hselects => terminal_of_running (of_decide_eq_true hselects).1
  exact h.statement_of_open ⟨hrow, fun _ _ _ _ => rfl⟩ hrow

theorem releaseStatement_keeps (h : Inv s) (hguard : Guarded s (.release node job)) :
    Keeps s (s.execute (releaseStatement node job)) := by
  have hrow : ∀ j row, s.jobs.get? j = some row → (releaseStatement node job).selects j row = true →
      row.status.terminal = false := fun j row hj hselects => by
    obtain ⟨rfl, hnode⟩ := of_decide_eq_true hselects
    exact hguard row hj hnode
  exact h.statement_of_open ⟨hrow, fun _ _ _ _ => rfl⟩ hrow

theorem Inv.submit (h : Inv s) (job : Str) (row : Row) : Keeps s (s.submit job row) := by
  rw [State.submit]
  split
  · exact ⟨h, .refl s⟩
  · rename_i hnew
    rw [Bool.not_eq_true, Option.isSome_eq_false_iff, Option.isNone_iff_eq_none] at hnew
    have hnone : Cluster.standing s.log job = none := by rw [← h.standing, hnew]; rfl
    refine ⟨⟨History.Legal.concat h.legal ?_, fun j => ?_⟩, fun j row' hj hended => ⟨row', ?_, hended⟩⟩
    · show Kind.Fits _ (Cluster.standing s.log job)
      rw [hnone]; exact ⟨row.standing, rfl⟩
    · rw [Dict.get?_set, standing_concat]
      by_cases heq : j = job
      · rw [if_pos heq, if_pos heq.symm, heq, hnone]; rfl
      · rw [if_neg heq, if_neg (Ne.symm heq)]; exact h.standing j
    · have hne : j ≠ job := by
        rintro rfl
        rw [hnew] at hj
        cases hj
      rwa [Dict.get?_set_of_ne _ _ hne]

theorem Keeps.setCall (h : Keeps s s') (i : ℕ) (call : Call) : Keeps s (s'.setCall i call) :=
    ⟨⟨h.1.legal, h.1.standing⟩, h.2⟩

theorem Keeps.endCall (h : Keeps s s') (i : ℕ) : Keeps s (s'.endCall i) := ⟨⟨h.1.legal, h.1.standing⟩, h.2⟩

theorem Inv.keeps (h : Inv s) : Keeps s s := ⟨h, .refl s⟩

theorem Inv.advance (h : Inv s) {i : ℕ} {now : ℚ} {call : Call}
    (hguard : ∀ job ∈ call.cancels, ∀ row ∈ s.jobs.get? job, row.status.terminal = false)
    (hs : s.advance cfg i now call = some s') : Keeps s s' := by
  cases call with
  | claim node filter => cases hs
  | cancel job =>
    cases hs
    exact (cancelStatement_keeps h now (hguard job rfl)).endCall i
  | reclaimDead activeNodes =>
    cases activeNodes with
    | nil => cases hs; exact h.keeps.setCall i _
    | cons node nodes => cases hs; exact (reclaimDeadStatement_keeps h _ _ now).setCall i _
  | reclaimStuck reclaimedIds =>
    cases hs
    exact (reclaimStuckStatement_keeps h _ _ now).endCall i

theorem Inv.step (h : Inv s) {a : Act} (hguard : Guarded s a) (hs : s.step cfg a = some s') : Keeps s s' := by
  cases a with
  | submit job row => cases hs; exact h.submit job row
  | claim i node filter admitted | cancel i job authorized =>
    rw [State.step] at hs
    split_ifs at hs
    · cases hs; exact h.keeps.setCall i _
    · cases hs; exact h.keeps
  | claimUpdate i locked choice now =>
    rw [State.step] at hs
    split at hs
    · split_ifs at hs with hchoice
      cases choice with
      | some job => cases hs; exact (claimStatement_keeps h now hchoice).endCall i
      | none => cases hs; exact h.keeps.endCall i
    · cases hs
  | release node job => cases hs; exact releaseStatement_keeps h hguard
  | complete node job result now => cases hs; exact completeStatement_keeps h node job result now
  | fail node job error now => cases hs; exact failStatement_keeps h node job error now
  | sweep i activeNodes =>
    rw [State.step] at hs
    split_ifs at hs
    cases hs
    exact h.keeps.setCall i _
  | advance i now =>
    obtain ⟨call, hcall, hs⟩ := Option.bind_eq_some_iff.1 hs
    exact h.advance (hguard call hcall) hs

theorem inv_of_reachable (h : (system cfg).Reachable Guarded s) : Inv s := by
  refine h.invariant ?_ fun s₁ a s₂ hinv hguard hs => (hinv.step hguard hs).1
  rintro _ rfl
  exact ⟨History.legal_nil, fun job => rfl⟩

/-- If no job that has ended is released or cancelled, a job is handed to a node only while it has no owner, only its
owner completes or fails it, and a job that has ended stays so. -/
theorem one_owner_and_final (h : (system cfg).Reachable Guarded s)
    (h' : ((system cfg).startedAt s).Reachable Guarded s') :
    Legal s'.log ∧ s.Final s' := by
  have hkeeps : Keeps s s' := by
    refine h'.invariant ?_ fun s₁ a s₂ hkeeps hguard hs => ?_
    · rintro _ rfl
      exact (inv_of_reachable h).keeps
    · obtain ⟨hinv, hfinal⟩ := hkeeps.1.step hguard hs
      exact ⟨hinv, hkeeps.2.trans hfinal⟩
  exact ⟨hkeeps.1.legal, hkeeps.2⟩

end Steps

/-! ### Runs -/

def limits : Config := ⟨4, 15, 1800⟩

def pendingRow : Row := ⟨"index", .pending, "user", 0, none, none, none, none, none, none, 0, false⟩

def anyType : TypeFilter := ⟨[], [], []⟩

def claims (i : ℕ) (node : String) (now : ℚ) : List Act :=
  [.claim i node.toList anyType true, .claimUpdate i [] (some "j") now]

/-- The job is claimed, released and claimed by another node that completes it; a late completion by the first node
changes nothing. -/
def handedOn : List Act :=
  .submit "j" pendingRow :: claims 0 "a" 1 ++ [.release "a" "j"] ++ claims 0 "b" 2 ++
    [.complete "a" "j" none 3, .complete "b" "j" none 4]

def statusOf (s : State) : Option Status := (s.jobs.get? "j").map fun row => row.status

def nodeOf (s : State) : Option (Option Str) := (s.jobs.get? "j").map fun row => row.executingNode

theorem one_owner_and_final_handed : ∃ s s', (system limits).Reachable Guarded s ∧
    ((system limits).startedAt s).Reachable Guarded s' ∧ statusOf s = some .completed ∧
    s.log.map Event.kind = [.submitted ⟨none, false⟩, .handed "a", .returned, .handed "b", .ended (.node "b")] ∧
    statusOf s' = some .completed ∧ Legal s'.log ∧ s.Final s' := by
  obtain ⟨s, s', hs, hs', hstatus, hlog, hstatus'⟩ := exists_of_runs_mem (M := system limits) (C := Guarded)
    (P := fun s s' => statusOf s = some .completed ∧ s.log.map Event.kind =
      [.submitted ⟨none, false⟩, .handed "a", .returned, .handed "b", .ended (.node "b")] ∧
      statusOf s' = some .completed)
    .start handedOn [.sweep 2 ["a"], .advance 2 5000, .advance 2 5000] rfl (by decide +kernel)
  exact ⟨s, s', hs, hs', hstatus, hlog, hstatus', one_owner_and_final hs hs'⟩

def completedRun : List Act := .submit "j" pendingRow :: claims 0 "a" 1 ++ [.complete "a" "j" none 2]

def cancelledRun : List Act :=
  .submit "j" pendingRow :: claims 0 "a" 1 ++ [.cancel 1 "j" true, .complete "a" "j" none 2]

/-- A node that shuts down releases the job that it has just completed, and another node runs it again; a cancellation
changes the outcome of a job that its owner has completed. -/
theorem ended_twice :
    (∃ s s', (system limits).Reachable Any s ∧ ((system limits).startedAt s).Reachable Any s' ∧
      statusOf s = some .completed ∧ statusOf s' = some .running ∧ nodeOf s' = some (some "b".toList)) ∧
    ∃ s s', (system limits).Reachable Any s ∧ ((system limits).startedAt s).Reachable Any s' ∧
      statusOf s = some .completed ∧ nodeOf s = some (some "a".toList) ∧ statusOf s' = some .cancelled := by
  constructor
  · exact exists_of_runs_mem .start completedRun (.release "a" "j" :: claims 1 "b" 3) rfl (by decide +kernel)
  · exact exists_of_runs_mem .start cancelledRun [.advance 1 3] rfl (by decide +kernel)

end CodeIndexer.Jobs.Cluster
