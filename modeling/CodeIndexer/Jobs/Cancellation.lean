import CodeIndexer.Jobs.Finality

/-!
# A successful cancellation wins

On the executing node `cancel_job` sets a flag under the lock under which the worker decides, so the worker
sees it. From another node it only writes the row, which the worker looks at when the function reports its
progress or asks `cancel_check`; the worker that does not look writes its own outcome over the cancellation.
-/

namespace CodeIndexer.Jobs

open TransitionSystem

structure State.Finished (s : State) : Prop where
  worker : ∃ e, s.worker = .done e
  calls : s.calls.items = []

structure State.CancelWins (s : State) : Prop where
  cancelled : (∃ r ∈ s.answers, r.success = true) → s.row.status = .cancelled
  refused : s.row.status = .completed → ∀ r ∈ s.answers, r.success = false

theorem Core.cancelled_of_accepted {strict : Bool} {s : State} (h : Core strict s) {e : Ending}
    (hending : s.worker.ending = some e) (haccepted : s.accepted = true) : e.status = .cancelled := by
  rcases h.accepted haccepted with hflag | hrow
  · exact h.flagged e hending hflag
  · have hset := h.row (by rw [hrow]; rfl)
    rw [settled_iff_of_ending hending, hrow] at hset
    exact Status.seen_eq_cancelled hset.symm

theorem Inv.row_of_accepted {strict : Bool} {s : State} (h : Inv strict s) {e : Ending} (hdone : s.worker = .done e)
    (haccepted : s.accepted = true) : s.row.status = .cancelled := by
  have hending : s.worker.ending = some e := by
    rw [hdone]
    rfl
  have hworker := h.worker
  rw [hdone] at hworker
  have hset := h.core.row hworker
  rw [settled_iff_of_ending hending, h.core.cancelled_of_accepted hending haccepted] at hset
  exact Status.seen_eq_cancelled hset

/-- In an orderly run, whether the worker is told of a cancellation by the flag or by the row. -/
theorem cancelWins_of_orderly {cfg : Config} {s : State} (h : (system cfg).Reachable (Orderly false) s)
    (hfinished : s.Finished) :
    s.CancelWins := by
  have hinv := inv_of_orderly h
  obtain ⟨e, hdone⟩ := hfinished.worker
  have hcancelled : (∃ r ∈ s.answers, r.success = true) → s.row.status = .cancelled := by
    rintro ⟨r, hr, hsuccess⟩
    exact hinv.row_of_accepted hdone (hinv.core.answered r hr hsuccess)
  refine ⟨hcancelled, fun hcompleted r hr => ?_⟩
  refine Bool.eq_false_of_not_eq_true fun hsuccess => ?_
  rw [hcancelled ⟨r, hr, hsuccess⟩] at hcompleted
  cases hcompleted

def cancelledElsewhere : List Act :=
  [.call 0 (.cancelJob .other ⟨"alice", false⟩), .statement 0, .statement 0, .statement 0, .statement 0]

def returns : List Act := [.finish (.returned ⟨false, false⟩), .work, .work, .work, .work, .work]

/-- The function asks `cancel_check` after another node has cancelled the job. -/
theorem cancelWins_of_orderly_checked : ∃ s, (system alone).Reachable (Orderly false) s ∧ s.Finished ∧
    (s.row.status, s.answers) = (.cancelled, [.cancelled]) ∧ s.CancelWins := by
  refine exists_of_run_imp (fun s => (s.row.status, s.answers) = (.cancelled, [.cancelled]) ∧
      s.worker = .done ⟨.returned, .cancelled⟩ ∧ s.calls.items = []) (.fresh true)
    (started ++ cancelledElsewhere ++ [.call 1 .cancelCheck, .statement 1, .statement 1] ++ returns)
      (fresh_isInit alone)
    (by decide +kernel) fun s hs ⟨hrow, hdone, hcalls⟩ => ?_
  have hfinished : s.Finished := ⟨⟨_, hdone⟩, hcalls⟩
  exact ⟨hfinished, hrow, cancelWins_of_orderly hs hfinished⟩

/-- The function does not ask: another node's `cancel_job` returns success, and the job ends as completed. -/
theorem cancelled_and_completed : ∃ s, (system alone).Reachable Any s ∧ s.Finished ∧
    s.row.status = .completed ∧ ∃ r ∈ s.answers, r.success = true := by
  exact exists_of_run_imp (fun s => s.row.status = .completed ∧ (∃ r ∈ s.answers, r.success = true) ∧
      s.worker = .done ⟨.returned, .completed⟩ ∧ s.calls.items = []) (.fresh true)
    (started ++ cancelledElsewhere ++ returns) (fresh_isInit alone) (by decide +kernel)
    fun s _ ⟨hstatus, hanswer, hdone, hcalls⟩ => ⟨⟨⟨_, hdone⟩, hcalls⟩, hstatus, hanswer⟩

end CodeIndexer.Jobs
