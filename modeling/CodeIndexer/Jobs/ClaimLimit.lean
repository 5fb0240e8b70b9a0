import CodeIndexer.Jobs.ClusterClaims

/-!
# The limit of running jobs

`claim_next_job` counts the running jobs of the cluster in one transaction and claims a job in another. Between the
two the call is one that has counted (`State.counted`); it will claim a job, whatever the others do meanwhile. So the
limit is kept if a call goes on only where the jobs that run and the calls that have counted leave room for it.
-/

namespace CodeIndexer.Jobs.Cluster

open PyText

def Call.isClaim : Call → Bool
  | .claim _ _ => true
  | _ => false

def State.counted (s : State) : ℕ := s.calls.items.countP fun e => e.2.isClaim

/-- Claims, and everything that ends or returns jobs. A new job does not run yet. -/
def Act.claimsOrEnds : Act → Bool
  | .submit _ row => row.status ≠ .running
  | _ => true

def claimSystem (cfg : Config) : TransitionSystem State Act where
  init s := s.runningCount ≤ cfg.maxConcurrentJobs ∧ s.calls = Dict.empty
  step s a := if a.claimsOrEnds then s.step cfg a else none

/-- A call that finds the limit not reached is not one too many with those that have counted before it. -/
def Room (cfg : Config) (s : State) : Act → Prop
  | .claim _ _ _ _ => s.runningCount < cfg.maxConcurrentJobs → s.runningCount + s.counted < cfg.maxConcurrentJobs
  | _ => True

instance (cfg : Config) (s : State) : (a : Act) → Decidable (Room cfg s a)
  | .claim _ _ _ _ => inferInstanceAs (Decidable
      (s.runningCount < cfg.maxConcurrentJobs → s.runningCount + s.counted < cfg.maxConcurrentJobs))
  | .submit .. | .claimUpdate .. | .release .. | .complete .. | .fail .. | .cancel .. | .sweep .. | .advance .. =>
    .isTrue trivial

section Counting
variable {s s' : State} {st : Statement} {i : ℕ} {call : Call}

theorem runningCount_execute (s : State) (st : Statement) :
    (s.execute st).runningCount = s.jobs.items.countP fun e =>
      (if st.selects e.1 e.2 then st.set e.2 else e.2).status = .running := by
  rw [State.runningCount, State.execute, Dict.mapValues, List.countP_map]
  rfl

theorem runningCount_execute_le (hst : ∀ row, (st.set row).status ≠ .running) :
    (s.execute st).runningCount ≤ s.runningCount := by
  rw [runningCount_execute]
  refine List.countP_mono_left fun e _ he => ?_
  by_cases hselects : st.selects e.1 e.2 = true
  · rw [if_pos hselects] at he
    exact absurd (of_decide_eq_true he) (hst e.2)
  · rwa [if_neg hselects] at he

theorem countP_key_le_one (job : Str) : s.jobs.items.countP (fun e => decide (e.1 = job)) ≤ 1 := by
  have hcount := List.nodup_iff_count_le_one.mp s.jobs.nodup job
  rw [List.count, List.countP_map] at hcount
  refine le_trans (List.countP_mono_left fun e _ he => ?_) hcount
  simpa using he

theorem runningCount_claim_le (node job : Str) (now : ℚ) :
    (s.execute (claimStatement node job now)).runningCount ≤ s.runningCount + 1 := by
  rw [runningCount_execute]
  have hsplit : ∀ l : List (Str × Row),
      (l.countP fun e => (if (claimStatement node job now).selects e.1 e.2 then (claimStatement node job now).set e.2
        else e.2).status = .running) ≤
        (l.countP fun e => e.2.status = .running) + l.countP fun e => decide (e.1 = job) := by
    intro l
    induction l with
    | nil => rfl
    | cons e l ih =>
      simp only [List.countP_cons]
      by_cases hjob : e.1 = job
      · simp only [hjob, decide_true, if_true]
        split_ifs <;> omega
      · have hselects : (claimStatement node job now).selects e.1 e.2 = false := decide_eq_false hjob
        simp only [hselects, Bool.false_eq_true, if_false]
        omega
  have hone := @countP_key_le_one s job
  have := hsplit s.jobs.items
  rw [State.runningCount]
  omega

theorem runningCount_submit_le (job : Str) {row : Row} (hrow : row.status ≠ .running) :
    (s.submit job row).runningCount ≤ s.runningCount := by
  rw [State.submit]
  split_ifs with hthere
  · exact le_rfl
  · have hnone : s.jobs.get? job = none := by simpa using hthere
    simp only [State.runningCount]
    rw [Dict.countP_items_set_of_none hnone, if_neg (by simpa using hrow)]
    rfl

theorem counted_setCall (hfree : s.calls.get? i = none) :
    (s.setCall i call).counted = s.counted + if call.isClaim then 1 else 0 :=
  Dict.countP_items_set_of_none hfree call fun e => e.2.isClaim

theorem counted_replace {call' : Call} (h : s.calls.get? i = some call) (hold : call.isClaim = false)
    (hnew : call'.isClaim = false) : (s.setCall i call').counted = s.counted := by
  have := Dict.countP_items_set h call' fun e => e.2.isClaim
  simp only [hold, hnew, Bool.false_eq_true, if_false] at this
  exact this

theorem counted_endCall (h : s.calls.get? i = some call) :
    (s.endCall i).counted + (if call.isClaim then 1 else 0) = s.counted :=
  Dict.countP_items_erase h fun e => e.2.isClaim

end Counting

/-! ### Steps -/

section Steps
variable {cfg : Config} {s s' : State}

/-- The jobs that run and the calls that will start one are within the limit. -/
def Within (cfg : Config) (s : State) : Prop := s.runningCount + s.counted ≤ cfg.maxConcurrentJobs

theorem Within.execute {st : Statement} (h : Within cfg s) (hst : ∀ row, (st.set row).status ≠ .running) :
    Within cfg (s.execute st) := by
  have hrunning := runningCount_execute_le (s := s) hst
  have hcounted : (s.execute st).counted = s.counted := rfl
  simp only [Within] at h ⊢
  omega

variable {call : Call} {i : ℕ}

theorem Within.endCall (h : Within cfg s) (hcall : s.calls.get? i = some call) : Within cfg (s.endCall i) := by
  have hcounted := counted_endCall hcall
  have hrunning : (s.endCall i).runningCount = s.runningCount := rfl
  simp only [Within] at h ⊢
  omega

theorem Within.replace {call' : Call} (h : Within cfg s) (hcall : s.calls.get? i = some call)
    (hold : call.isClaim = false) (hnew : call'.isClaim = false) : Within cfg (s.setCall i call') := by
  have hrunning : (s.setCall i call').runningCount = s.runningCount := rfl
  rw [Within, hrunning, counted_replace hcall hold hnew]
  exact h

theorem Within.open (h : Within cfg s) (hfree : s.calls.get? i = none)
    (hcall : call.isClaim = false) : Within cfg (s.setCall i call) := by
  have hrunning : (s.setCall i call).runningCount = s.runningCount := rfl
  rw [Within, hrunning, counted_setCall hfree, hcall]
  exact h

theorem Within.claim {node : Str} {filter : TypeFilter} {admitted : Bool} (h : Within cfg s)
    (hlimit : 1 ≤ cfg.maxConcurrentJobs) (hroom : Room cfg s (.claim i node filter admitted))
    (hs : s.step cfg (.claim i node filter admitted) = some s') : Within cfg s' := by
  rw [State.step] at hs
  split_ifs at hs with hbusy hgo <;> cases hs
  · have hlt : s.runningCount < cfg.maxConcurrentJobs := hgo.2.resolve_left (by omega)
    have hcounted : (s.setCall i (.claim node filter)).counted = s.counted + 1 :=
      counted_setCall (by simpa using hbusy)
    have hrunning : (s.setCall i (.claim node filter)).runningCount = s.runningCount := rfl
    have hroom := hroom hlt
    simp only [Within]
    omega
  · exact h

theorem Within.claimUpdate {locked : List Str} {choice : Option Str} {now : ℚ} (h : Within cfg s)
    (hs : s.step cfg (.claimUpdate i locked choice now) = some s') : Within cfg s' := by
  rw [State.step] at hs
  split at hs
  · next node filter hcall =>
    split_ifs at hs
    cases choice with
    | none =>
      cases hs
      exact h.endCall hcall
    | some job =>
      cases hs
      -- the job that starts takes the place of the call
      have hrunning := runningCount_claim_le (s := s) node job now
      have hcounted := counted_endCall (s := s.execute (claimStatement node job now)) hcall
      have hsame : (s.execute (claimStatement node job now)).counted = s.counted := rfl
      have hend : ((s.execute (claimStatement node job now)).endCall i).runningCount =
        (s.execute (claimStatement node job now)).runningCount := rfl
      simp only [Within, Call.isClaim, if_true] at h hcounted ⊢
      omega
  · cases hs

theorem Within.advance {now : ℚ} (h : Within cfg s) (hcall : s.calls.get? i = some call)
    (hs : s.advance cfg i now call = some s') : Within cfg s' := by
  cases call with
  | claim node filter => cases hs
  | cancel job =>
    cases hs
    exact (h.execute fun row => by simp [cancelStatement]).endCall hcall
  | reclaimDead activeNodes =>
    cases activeNodes with
    | nil =>
      cases hs
      exact h.replace hcall rfl rfl
    | cons node nodes =>
      cases hs
      exact (h.execute fun row => by simp [reclaimDeadStatement]).replace hcall rfl rfl
  | reclaimStuck reclaimedIds =>
    cases hs
    exact (h.execute fun row => by simp [reclaimStuckStatement]).endCall hcall

theorem Within.step {a : Act} (h : Within cfg s) (hlimit : 1 ≤ cfg.maxConcurrentJobs) (hroom : Room cfg s a)
    (hs : (claimSystem cfg).step s a = some s') : Within cfg s' := by
  simp only [claimSystem] at hs
  split_ifs at hs with hscope
  cases a with
  | submit job row =>
    cases hs
    have hrunning := runningCount_submit_le (s := s) job (of_decide_eq_true hscope)
    have hcounted : (s.submit job row).counted = s.counted := by
      rw [State.submit]; split_ifs <;> rfl
    simp only [Within] at h ⊢
    omega
  | claim i node filter admitted => exact h.claim hlimit hroom hs
  | claimUpdate i locked choice now => exact h.claimUpdate hs
  | release node job => cases hs; exact h.execute fun row => by simp [releaseStatement]
  | complete node job result now => cases hs; exact h.execute fun row => by simp [completeStatement]
  | fail node job error now => cases hs; exact h.execute fun row => by simp [failStatement]
  | cancel i job authorized =>
    rw [State.step] at hs
    split_ifs at hs with hbusy
    · cases hs; exact h.open (by simpa using hbusy) rfl
    · cases hs; exact h
  | sweep i activeNodes =>
    rw [State.step] at hs
    split_ifs at hs with hbusy
    cases hs
    exact h.open (by simpa using hbusy) rfl
  | advance i now =>
    obtain ⟨call, hcall, hs⟩ := Option.bind_eq_some_iff.1 hs
    exact h.advance hcall hs

/-- In every run in which a call that finds the limit not reached has room among those that counted before it, no
more jobs run than the limit allows. -/
theorem limit_of_room (hlimit : 1 ≤ cfg.maxConcurrentJobs) (h : (claimSystem cfg).Reachable (Room cfg) s) :
    s.runningCount ≤ cfg.maxConcurrentJobs := by
  have hwithin : Within cfg s := by
    refine h.invariant ?_ fun s₁ a s₂ hwithin hroom hs => hwithin.step hlimit hroom hs
    rintro s₀ ⟨hrunning, hcalls⟩
    have hcounted : s₀.counted = 0 := by rw [State.counted, hcalls]; rfl
    rw [Within, hcounted]
    exact hrunning
  exact (Nat.le_add_right _ _).trans hwithin

end Steps

/-! ### Runs -/

def oneAtATime : Config := ⟨1, 15, 1800⟩

def twoPending : State :=
  ⟨(Dict.empty.set "j".toList pendingRow).set "k".toList pendingRow, Dict.empty, []⟩

theorem init_twoPending : (claimSystem oneAtATime).init twoPending := ⟨by decide +kernel, rfl⟩

def claimActs (i : ℕ) (node job : String) (now : ℚ) : Act × Act :=
  (.claim i node.toList anyType true, .claimUpdate i [] (some job.toList) now)

def inTurn : List Act :=
  [(claimActs 0 "a" "j" 1).1, (claimActs 0 "a" "j" 1).2, (claimActs 1 "b" "k" 2).1,
    .complete "a" "j" none 3, (claimActs 1 "b" "k" 4).1, (claimActs 1 "b" "k" 4).2]

theorem limit_of_room_in_turn : ∃ s, (claimSystem oneAtATime).Reachable (Room oneAtATime) s ∧
    s.runningCount = 1 ∧ s.runningCount ≤ 1 := by
  exact TransitionSystem.exists_of_run_and twoPending inTurn init_twoPending (by decide +kernel) fun s hs _ =>
    limit_of_room (by decide) hs

def bothCount : List Act :=
  [(claimActs 0 "a" "j" 1).1, (claimActs 1 "b" "k" 1).1, (claimActs 0 "a" "j" 1).2, (claimActs 1 "b" "k" 1).2]

theorem limit_exceeded : oneAtATime.maxConcurrentJobs = 1 ∧
    ∃ s, (claimSystem oneAtATime).Reachable TransitionSystem.Any s ∧ s.runningCount = 2 := by
  exact ⟨rfl, TransitionSystem.exists_of_run_mem twoPending bothCount init_twoPending (by decide +kernel)⟩

end CodeIndexer.Jobs.Cluster
