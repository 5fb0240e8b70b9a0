import CodeIndexer.Lib.PyText
import CodeIndexer.Lib.Dict
import CodeIndexer.Lib.Transition

/-!
# One background job (`server/repositories/background_jobs.py`, `server/services/job_tracker.py`)

A job submitted to `BackgroundJobManager` has three copies of its status: the `BackgroundJob` in `self.jobs`
of the executing node, the entry of `JobTracker._active_jobs` there, and the row of `background_jobs`, which
all nodes share. `_execute_job` runs on one worker; `cancel_job`, the `JobTracker` methods and the
`progress_callback` and `cancel_check` handed to the function run on any number of other threads, `cancel_job`
and the `JobTracker` methods also on other nodes. A step is what a thread does under one lock, or one
statement on the row.

`accepted` and `answers` are ghosts: whether some `cancel_job` is to answer that the job is cancelled, and what
the `cancel_job` calls have returned. A call that works on the job in memory or on its tracker entry accepts with
its check of the status or of the user, one that works on the row with its `UPDATE`.
-/

namespace CodeIndexer.Jobs

open PyText

inductive Status
  | pending
  | running
  | completed
  | completedPartial
  | failed
  | cancelled
  | resolvingPrerequisites
deriving DecidableEq

namespace Status

def value : Status → Str
  | .pending => "pending"
  | .running => "running"
  | .completed => "completed"
  | .completedPartial => "completed_partial"
  | .failed => "failed"
  | .cancelled => "cancelled"
  | .resolvingPrerequisites => "resolving_prerequisites"

def terminal : Status → Bool
  | .completed => true
  | .completedPartial => true
  | .failed => true
  | .cancelled => true
  | _ => false

def active : Status → Bool
  | .pending => true
  | .running => true
  | _ => false

theorem terminal_of_active {t : Status} (h : t.active = true) : t.terminal = false := by
  cases t <;> first | rfl | cases h

end Status

structure Row where
  status : Status
  cancelled : Bool
deriving DecidableEq

def Row.update (row : Row) (guardTerminal : Bool) (status : Status) (cancelled : Option Bool) : Row :=
  if guardTerminal && !status.terminal && row.status.terminal then row else ⟨status, cancelled.getD row.cancelled⟩

structure Job where
  status : Status
  cancelled : Bool
deriving DecidableEq

/-- What a result says if it is a dictionary: `success` is `False`, `partial` is `True`. -/
structure Result where
  successIsFalse : Bool
  partialIsTrue : Bool
deriving DecidableEq

/-- How the function of the job ends. The wrapper of functions without `progress_callback` interrupts them when
the job is flagged as cancelled. -/
inductive Finish
  | returned (result : Result)
  | interrupted
  | raised
deriving DecidableEq

def Finish.status (cancelled : Bool) : Finish → Status
  | .returned result =>
    if cancelled then .cancelled
    else if result.successIsFalse then .failed
    else if result.partialIsTrue then .completedPartial
    else .completed
  | .interrupted => .cancelled
  | .raised => if cancelled then .cancelled else .failed

inductive Branch
  | early
  | returned
  | interrupted
  | raised
deriving DecidableEq

def Finish.branch : Finish → Branch
  | .returned _ => .returned
  | .interrupted => .interrupted
  | .raised => .raised

structure Ending where
  branch : Branch
  status : Status
deriving DecidableEq

inductive Worker
  | queued
  | start
  | snapshotRunning
  | writeRunning (snapshot : Job)
  | trackRunning
  | upsertRunning
  | precheck
  | running
  | snapshot (e : Ending)
  | write (e : Ending) (snapshot : Job)
  | notify (e : Ending)
  | load (e : Ending) (status : Status)
  | upsert (e : Ending) (status : Status)
  | evict (e : Ending)
  | done (e : Ending)
deriving DecidableEq

def Worker.ending : Worker → Option Ending
  | .snapshot e => some e
  | .write e _ => some e
  | .notify e => some e
  | .load e _ => some e
  | .upsert e _ => some e
  | .evict e => some e
  | .done e => some e
  | _ => none

/-- The two early returns skip the eviction. -/
def Worker.afterTracker (e : Ending) : Worker := if e.branch = .early then .done e else .evict e

inductive Node
  | executing
  | other
deriving DecidableEq

structure Request where
  username : Str
  isAdmin : Bool
deriving DecidableEq

structure Response where
  success : Bool
  message : Str
deriving DecidableEq

namespace Response

def unauthorized : Response := ⟨false, "Job not found or not authorized"⟩

def refused (status : Status) : Response := ⟨false, "Cannot cancel job in " ++ status.value ++ " status"⟩

def cancelled : Response := ⟨true, "Job cancelled successfully"⟩

end Response

/-- A call on the job. The `progress_callback` persists the job if its debounce interval has passed. -/
inductive Call
  | cancelJob (node : Node) (request : Request)
  | updateStatus (node : Node) (status : Option Status)
  | completeJob (node : Node)
  | failJob (node : Node)
  | progressCallback (persists : Bool)
  | cancelCheck
deriving DecidableEq

/-- What a call does next. `response` is what a `cancel_job` returns at its end. -/
inductive CallPc
  | lookup (node : Node) (request : Request)
  | flag (request : Request)
  | snapshot (response : Option Response)
  | write (snapshot : Job) (response : Option Response)
  | children (node : Node) (request : Request)
  | tracked (request : Request)
  | read (request : Request)
  | update
  | status (node : Node) (status : Option Status)
  | finish (node : Node) (status : Status) (response : Option Response)
  | load (status : Status) (response : Option Response)
  | upsert (status : Status) (response : Option Response)
  | poll
  | pollFlag
deriving DecidableEq

def Call.first : Call → CallPc
  | .cancelJob node request => .lookup node request
  | .updateStatus node status => .status node status
  | .completeJob node => .finish node .completed none
  | .failJob node => .finish node .failed none
  | .progressCallback persists => if persists then .snapshot none else .poll
  | .cancelCheck => .poll

structure Config where
  owner : Str
  tracker : Bool
deriving DecidableEq

variable (cfg : Config)

def Config.authorizes (request : Request) : Bool := request.isAdmin || decide (request.username = cfg.owner)

/-- `children` is whether driver processes are registered for the job. The worker keeps its reference to the
job after it has been evicted from `self.jobs`. -/
structure State where
  row : Row
  job : Job
  inMemory : Bool
  tracked : Option Status
  children : Bool
  worker : Worker
  calls : Dict ℕ CallPc
  accepted : Bool
  answers : List Response

namespace State

variable (s : State)

def updateRow (guardTerminal : Bool) (status : Status) (cancelled : Option Bool) : State :=
  { s with row := s.row.update guardTerminal status cancelled }

def persist (snapshot : Job) : State := s.updateRow true snapshot.status (some snapshot.cancelled)

def upsertJob (status : Status) : State := s.updateRow true status none

def setStatus (status : Status) : State := { s with job := { s.job with status := status } }

def goto (worker : Worker) : State := { s with worker := worker }

def answer (response : Option Response) : State := { s with answers := s.answers ++ response.toList }

def entry : Node → Option Status
  | .executing => s.tracked
  | .other => none

def setEntry (node : Node) (status : Option Status) : State :=
  match node with
  | .executing => { s with tracked := status }
  | .other => s

def notified (e : Ending) : Status :=
  match e.branch with
  | .returned =>
    match s.job.status with
    | .completed => .completed
    | .completedPartial => .completed
    | .failed => .failed
    | _ => .cancelled
  | .raised => if s.job.cancelled then .cancelled else .failed
  | _ => .cancelled

def work (cfg : Config) (s : State) : Option State :=
  match s.worker with
  | .queued =>
    if s.job.cancelled then some ((s.setStatus .cancelled).goto (.snapshot ⟨.early, .cancelled⟩))
      else some (s.goto .start)
  | .start => some ((s.setStatus .running).goto .snapshotRunning)
  | .snapshotRunning => some (s.goto (.writeRunning s.job))
  | .writeRunning snapshot => some ((s.persist snapshot).goto (if cfg.tracker then .trackRunning else .precheck))
  | .trackRunning =>
    match s.tracked with
    | none => some (s.goto .precheck)
    | some _ => some ((s.setEntry .executing (some .running)).goto .upsertRunning)
  | .upsertRunning => some ((s.upsertJob .running).goto .precheck)
  | .precheck =>
    if s.job.cancelled then some ((s.setStatus .cancelled).goto (.snapshot ⟨.early, .cancelled⟩))
      else some (s.goto .running)
  | .running => none
  | .snapshot e => some (s.goto (.write e s.job))
  | .write e snapshot => some ((s.persist snapshot).goto (if cfg.tracker then .notify e else .afterTracker e))
  | .notify e =>
    match s.tracked with
    | some _ => some ((s.setEntry .executing none).goto (.upsert e (s.notified e)))
    | none => some (s.goto (.load e (s.notified e)))
  | .load e status => some (s.goto (if s.row.status.terminal then .afterTracker e else .upsert e status))
  | .upsert e status => some ((s.upsertJob status).goto (.afterTracker e))
  | .evict e => some ({ s with inMemory := false }.goto (.done e))
  | .done _ => none

def finish (f : Finish) : Option State :=
  if s.worker = .running then
    some ((s.setStatus (f.status s.job.cancelled)).goto (.snapshot ⟨f.branch, f.status s.job.cancelled⟩))
  else none

def afterPersist (response : Option Response) : State × Option CallPc :=
  match response with
  | some _ => (s.answer response, none)
  | none => (s, some .poll)

def advance (cfg : Config) (s : State) : CallPc → State × Option CallPc
  | .lookup node request =>
    (s, some (if node = .executing ∧ s.inMemory = true then .flag request else .children node request))
  | .flag request =>
    if !cfg.authorizes request then (s.answer (some .unauthorized), none)
    else if !s.job.status.active then (s.answer (some (.refused s.job.status)), none)
    else
      ({ s with
          job := ⟨if s.job.status = .pending then .cancelled else s.job.status, true⟩
          accepted := true },
        some (.snapshot (some .cancelled)))
  | .snapshot response => if s.inMemory then (s, some (.write s.job response)) else s.afterPersist response
  | .write snapshot response => (s.persist snapshot).afterPersist response
  | .children node request =>
    (s, some (if node = .executing ∧ s.children = true ∧ cfg.tracker = true then .tracked request else .read request))
  | .tracked request =>
    if !cfg.authorizes request then (s.answer (some .unauthorized), none)
    else ({ s with accepted := true }, some (.finish .executing .failed (some .cancelled)))
  | .read request =>
    if !cfg.authorizes request then (s.answer (some .unauthorized), none)
    else if !s.row.status.active then (s.answer (some (.refused s.row.status)), none)
    else (s, some .update)
  | .update =>
    ({ s.updateRow false .cancelled (some true) with accepted := true }.answer (some .cancelled), none)
  | .status node status =>
    match s.entry node with
    | none => (s, none)
    | some old => (s.setEntry node (some (status.getD old)), some (.upsert (status.getD old) none))
  | .finish node status response =>
    match s.entry node with
    | none => (s, some (.load status response))
    | some _ => (s.setEntry node none, some (.upsert status response))
  | .load status response =>
    if s.row.status.terminal then (s.answer response, none) else (s, some (.upsert status response))
  | .upsert status response => ((s.upsertJob status).answer response, none)
  | .poll => (s, if s.row.status = .cancelled then some .pollFlag else none)
  | .pollFlag => (if s.inMemory then { s with job := { s.job with cancelled := true } } else s, none)

/-- The `JobTracker` can be called if there is one, and the callbacks once the function has been started. -/
def admits (cfg : Config) (s : State) : Call → Bool
  | .cancelJob _ _ => true
  | .updateStatus _ _ => cfg.tracker
  | .completeJob _ => cfg.tracker
  | .failJob _ => cfg.tracker
  | .progressCallback _ => decide (s.worker = .running) || s.worker.ending.isSome
  | .cancelCheck => decide (s.worker = .running) || s.worker.ending.isSome

end State

inductive Act
  | work
  | finish (f : Finish)
  | call (i : ℕ) (call : Call)
  | statement (i : ℕ)
  | setChildren (registered : Bool)
deriving DecidableEq

def State.step (s : State) : Act → Option State
  | .work => s.work cfg
  | .finish f => s.finish f
  | .call i call =>
    if s.calls.get? i = none ∧ s.admits cfg call = true then some { s with calls := s.calls.set i call.first } else none
  | .statement i =>
    (s.calls.get? i).map fun pc =>
      let (s', next) := s.advance cfg pc
      { s' with calls := s'.calls.update i next }
  | .setChildren registered => some { s with children := registered }

def State.fresh (registered : Bool) : State where
  row := ⟨.pending, false⟩
  job := ⟨.pending, false⟩
  inMemory := true
  tracked := if registered then some .pending else none
  children := false
  worker := .queued
  calls := Dict.empty
  accepted := false
  answers := []

def system : TransitionSystem State Act where
  init s := ∃ registered, (registered = true → cfg.tracker = true) ∧ s = .fresh registered
  step := State.step cfg

theorem fresh_isInit : (system cfg).init (.fresh cfg.tracker) := ⟨cfg.tracker, fun h => h, rfl⟩

end CodeIndexer.Jobs
