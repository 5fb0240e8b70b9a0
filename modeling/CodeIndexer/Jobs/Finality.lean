import CodeIndexer.Jobs.Execution

/-!
# The terminal status of a job

All writers of the row write a terminal status without looking at the one that is there. The row keeps its
terminal status if what is still to be written agrees with what the worker has decided or, before that, with
a cancellation that it is going to decide. `Orderly` says when it does; `Inv` says what every step then keeps.

The worker reports a partial completion to the `JobTracker` as a completion. With `strict` the two are told
apart.
-/

namespace CodeIndexer.Jobs

open TransitionSystem

def Status.seen (strict : Bool) : Status → Status
  | .completedPartial => if strict then .completedPartial else .completed
  | t => t

def State.Cancelling (s : State) : Prop := s.job.cancelled = true ∨ s.row.status = .cancelled

/-- Other nodes write their cancellation before the worker decides; no driver processes are registered for a
job that has been evicted; and the `JobTracker` is told a terminal status from outside only if it is the one
in memory, or if the row has one and the `JobTracker` has forgotten the job. -/
def CallOrderly (s : State) : CallPc → Prop
  | .children node _ => node = .executing → s.children = false
  | .update => s.worker.ending = none
  | .status _ status => status.all (fun t => !t.terminal) = true
  | .finish node status _ => s.job.status = status ∨ (s.row.status.terminal = true ∧ s.entry node = none)
  | _ => True

instance (s : State) : (pc : CallPc) → Decidable (CallOrderly s pc)
  | .children _ _ => inferInstanceAs (Decidable (_ → _))
  | .update => inferInstanceAs (Decidable (_ = _))
  | .status _ _ => inferInstanceAs (Decidable (_ = true))
  | .finish _ _ _ => inferInstanceAs (Decidable (_ ∨ _))
  | .lookup .. | .flag _ | .snapshot _ | .write .. | .tracked _ | .read _ | .load .. | .upsert .. | .poll
  | .pollFlag => .isTrue trivial

/-- The calls are orderly; and the function does not end unaware of a cancellation in the row, nor, if partial
completions are told apart, with a partial result of a job that the `JobTracker` holds. -/
def Orderly (strict : Bool) (s : State) : Act → Prop
  | .finish f =>
    (s.row.status = .cancelled → s.job.cancelled = true ∨ f = .interrupted) ∧
    (strict = true → f.status s.job.cancelled = .completedPartial → s.tracked = none)
  | .statement i => ∀ pc ∈ s.calls.get? i, CallOrderly s pc
  | _ => True

instance (strict : Bool) (s : State) : (a : Act) → Decidable (Orderly strict s a)
  | .finish _ => inferInstanceAs (Decidable (_ ∧ _))
  | .statement i => inferInstanceAs (Decidable (∀ pc ∈ s.calls.get? i, CallOrderly s pc))
  | .work | .call .. | .setChildren _ => .isTrue trivial

/-- A terminal status that the row may have: the one that is decided, or a cancellation before that. -/
def Settled (strict : Bool) (s : State) (t : Status) : Prop :=
  match s.worker.ending with
  | some e => t.seen strict = e.status.seen strict
  | none => t = .cancelled ∧ s.Cancelling

def BranchOk (s : State) (e : Ending) : Prop :=
  match e.branch with
  | .returned => True
  | .raised => e.status = .failed ∨ (e.status = .cancelled ∧ s.job.cancelled = true)
  | _ => e.status = .cancelled

structure Core (strict : Bool) (s : State) : Prop where
  tracked : ∀ t, s.tracked = some t → t.terminal = false
  undecided : s.worker.ending = none → s.job.status.terminal = true → s.job.status = .cancelled ∧ s.job.cancelled = true
  decided : ∀ e, s.worker.ending = some e → s.job.status = e.status ∧ e.status.terminal = true
  flagged : ∀ e, s.worker.ending = some e → s.job.cancelled = true → e.status = .cancelled
  row : s.row.status.terminal = true → Settled strict s s.row.status
  accepted : s.accepted = true → s.Cancelling
  unaccepted : s.worker.ending = none → s.Cancelling → s.accepted = true
  answered : ∀ r ∈ s.answers, r.success = true → s.accepted = true
  partials : strict = true → ∀ e, s.worker.ending = some e → e.status = .completedPartial → s.tracked = none
  branch : ∀ e, s.worker.ending = some e → BranchOk s e

def WorkerOk (strict : Bool) (s : State) : Worker → Prop
  | .writeRunning snapshot => snapshot.status.terminal = true → Settled strict s snapshot.status
  | .write e snapshot => snapshot.status = e.status
  | .notify _ => s.row.status.terminal = true
  | .load _ _ => s.row.status.terminal = true
  | .upsert _ status => s.row.status.terminal = true ∧ Settled strict s status
  | .evict _ => s.row.status.terminal = true
  | .done _ => s.row.status.terminal = true
  | _ => True

def CallOk (strict : Bool) (s : State) : CallPc → Prop
  | .snapshot response => response.isSome = true → s.accepted = true
  | .write snapshot response =>
    (snapshot.status.terminal = true → Settled strict s snapshot.status) ∧ (response.isSome = true → s.accepted = true)
  | .tracked _ => False
  | .finish _ status response => status.terminal = true ∧ status ≠ .cancelled ∧ response = none
  | .load status response => (s.row.status.terminal = true ∨ Settled strict s status) ∧ response = none
  | .upsert status response => (status.terminal = true → Settled strict s status) ∧ response = none
  | .pollFlag => s.row.status = .cancelled
  | _ => True

structure Inv (strict : Bool) (s : State) : Prop where
  core : Core strict s
  worker : WorkerOk strict s s.worker
  calls : ∀ i pc, s.calls.get? i = some pc → CallOk strict s pc

structure Kept (strict : Bool) (s s' : State) : Prop where
  settled : ∀ t, Settled strict s t → Settled strict s' t
  terminal : s.row.status.terminal = true → s'.row.status.terminal = true
  cancelled : s.row.status = .cancelled → s'.row.status = .cancelled
  accepted : s.accepted = true → s'.accepted = true

section Kept

variable {strict : Bool} {s s' s'' : State}

variable {t : Status}

theorem Status.seen_eq_cancelled (h : t.seen strict = Status.cancelled.seen strict) : t = .cancelled := by
  cases t with
  | completedPartial => cases strict <;> cases h
  | cancelled => rfl
  | pending | running | completed | failed | resolvingPrerequisites => cases h

theorem settled_iff_of_ending {e : Ending} (h : s.worker.ending = some e) (t : Status) :
    Settled strict s t ↔ t.seen strict = e.status.seen strict := by
  rw [Settled, h]

theorem settled_iff_of_none (h : s.worker.ending = none) (t : Status) : Settled strict s t ↔
    t = .cancelled ∧ s.Cancelling := by
  rw [Settled, h]

theorem Settled.unique {t' : Status} (h : Settled strict s t) (h' : Settled strict s t') :
    t.seen strict = t'.seen strict := by
  cases hending : s.worker.ending with
  | none =>
    rw [settled_iff_of_none hending] at h h'
    rw [h.1, h'.1]
  | some e =>
    rw [settled_iff_of_ending hending] at h h'
    exact h.trans h'.symm

theorem Settled.mono (h : Settled strict s t) (hending : s'.worker.ending = s.worker.ending)
    (hcancelling : s.Cancelling → s'.Cancelling) : Settled strict s' t := by
  rw [Settled, hending]
  rw [Settled] at h
  split at h
  · exact h
  · exact ⟨h.1, hcancelling h.2⟩

theorem Kept.refl (s : State) : Kept strict s s := ⟨fun _ h => h, fun h => h, fun h => h, fun h => h⟩

theorem Kept.trans (h : Kept strict s s') (h' : Kept strict s' s'') : Kept strict s s'' :=
  ⟨fun t ht => h'.settled t (h.settled t ht), fun ht => h'.terminal (h.terminal ht),
    fun ht => h'.cancelled (h.cancelled ht),
    fun ht => h'.accepted (h.accepted ht)⟩

theorem Kept.of_eq (hending : s'.worker.ending = s.worker.ending) (hjob : s'.job = s.job) (hrow : s'.row = s.row)
    (haccepted : s'.accepted = s.accepted) : Kept strict s s' := by
  refine ⟨fun t ht => ht.mono hending ?_, fun ht => hrow ▸ ht, fun ht => hrow ▸ ht, fun ht => haccepted ▸ ht⟩
  rw [State.Cancelling, State.Cancelling, hjob, hrow]
  exact id

theorem WorkerOk.mono {w : Worker} (h : WorkerOk strict s w) (hkept : Kept strict s s') : WorkerOk strict s' w := by
  cases w with
  | writeRunning snapshot => exact fun ht => hkept.settled _ (h ht)
  | write e snapshot => exact h
  | notify e | load e status | evict e | done e => exact hkept.terminal h
  | upsert e status => exact ⟨hkept.terminal h.1, hkept.settled _ h.2⟩
  | queued | start | snapshotRunning | trackRunning | upsertRunning | precheck | running | snapshot e => trivial

theorem CallOk.mono {pc : CallPc} (h : CallOk strict s pc) (hkept : Kept strict s s') : CallOk strict s' pc := by
  cases pc with
  | snapshot response => exact fun hr => hkept.accepted (h hr)
  | write snapshot response => exact ⟨fun ht => hkept.settled _ (h.1 ht), fun hr => hkept.accepted (h.2 hr)⟩
  | tracked request | finish node status response => exact h
  | load status response => exact ⟨h.1.imp hkept.terminal (hkept.settled _), h.2⟩
  | upsert status response => exact ⟨fun ht => hkept.settled _ (h.1 ht), h.2⟩
  | pollFlag => exact hkept.cancelled h
  | lookup node request => trivial
  | flag request => trivial
  | children node request => trivial
  | read request => trivial
  | update => trivial
  | status node status => trivial
  | poll => trivial

end Kept

section Core

variable {strict : Bool} {s s' : State}

theorem Core.of_undecided (hending : s.worker.ending = none) (htracked : ∀ t, s.tracked = some t → t.terminal = false)
    (hjob : s.job.status.terminal = true → s.job.status = .cancelled ∧ s.job.cancelled = true)
    (hrow : s.row.status.terminal = true → Settled strict s s.row.status) (haccepted : s.accepted = true → s.Cancelling)
    (hunaccepted : s.Cancelling → s.accepted = true)
      (hanswered : ∀ r ∈ s.answers, r.success = true → s.accepted = true) :
    Core strict s := by
  have hno : ∀ e, s.worker.ending ≠ some e := by
    intro e he
    rw [hending] at he
    cases he
  exact ⟨htracked, fun _ => hjob, fun e he => absurd he (hno e), fun e he => absurd he (hno e), hrow, haccepted,
    fun _ => hunaccepted, hanswered, fun _ e he => absurd he (hno e), fun e he => absurd he (hno e)⟩

theorem Core.of_eq (h : Core strict s) (hending : s'.worker.ending = s.worker.ending) (hjob : s'.job = s.job)
    (hrow : s'.row = s.row) (haccepted : s'.accepted = s.accepted) (hanswers : ∀ r ∈ s'.answers, r ∈ s.answers ∨
      (r.success = true → s.accepted = true))
    (htracked : s'.tracked = none ∨ s'.tracked = s.tracked ∨
      (s.tracked ≠ none ∧ ∀ t, s'.tracked = some t → t.terminal = false)) : Core strict s' := by
  have hcancelling : s'.Cancelling ↔ s.Cancelling := by rw [State.Cancelling, State.Cancelling, hjob, hrow]
  refine ⟨?_, ?_, ?_, ?_, ?_, ?_, ?_, ?_, ?_, ?_⟩
  · intro t ht
    rcases htracked with hnone | heq | ⟨-, hnew⟩
    · rw [hnone] at ht
      cases ht
    · exact h.tracked t (heq ▸ ht)
    · exact hnew t ht
  · rw [hending, hjob]
    exact h.undecided
  · rw [hending, hjob]
    exact h.decided
  · rw [hending, hjob]
    exact h.flagged
  · intro ht
    rw [hrow] at ht ⊢
    exact (Kept.of_eq hending hjob hrow haccepted).settled _ (h.row ht)
  · rw [haccepted, hcancelling]
    exact h.accepted
  · rw [haccepted, hcancelling, hending]
    exact h.unaccepted
  · intro r hr hsuccess
    rw [haccepted]
    exact (hanswers r hr).elim (fun hr => h.answered r hr hsuccess) fun hr => hr hsuccess
  · intro hstrict e he hpart
    rw [hending] at he
    have hnone := h.partials hstrict e he hpart
    rcases htracked with htracked | heq | ⟨hsome, -⟩
    · exact htracked
    · exact heq.trans hnone
    · exact absurd hnone hsome
  · intro e he
    rw [hending] at he
    rw [BranchOk, hjob]
    exact h.branch e he

theorem Row.update_status (row : Row) (t : Status) (c : Option Bool) : (row.update true t c).status = row.status ∨
    ((row.update true t c).status = t ∧ (t.terminal = true ∨ row.status.terminal = false)) := by
  unfold Row.update
  split
  · exact .inl rfl
  · rename_i hguard
    cases ht : t.terminal <;> cases hrow : row.status.terminal <;> simp_all

variable {t : Status} {w : Worker}

section

variable (h : Core strict s)
include h

theorem Core.write (c : Option Bool) (ht : t.terminal = true → Settled strict s t) :
    Core strict (s.updateRow true t c) ∧ Kept strict s (s.updateRow true t c) := by
  have hcancelled : s.row.status = .cancelled → (s.row.update true t c).status = .cancelled := by
    intro hrow
    rcases s.row.update_status t c with heq | ⟨heq, hterminal | hopen⟩
    · rw [heq, hrow]
    · have hold := h.row (by rw [hrow]; rfl)
      rw [hrow] at hold
      rw [heq]
      exact Status.seen_eq_cancelled ((ht hterminal).unique hold)
    · rw [hrow] at hopen
      cases hopen
  have hsettled : ∀ t', Settled strict s t' → Settled strict (s.updateRow true t c) t' :=
    fun t' ht' => ht'.mono rfl fun hold => hold.imp_right hcancelled
  have hterminal : s.row.status.terminal = true → (s.row.update true t c).status.terminal = true := by
    intro hrow
    rcases s.row.update_status t c with heq | ⟨heq, hterminal | hopen⟩
    · rw [heq, hrow]
    · rw [heq, hterminal]
    · rw [hrow] at hopen
      cases hopen
  refine ⟨⟨h.tracked, h.undecided, h.decided, h.flagged, ?_, ?_, ?_, h.answered, h.partials, h.branch⟩,
    hsettled, hterminal, hcancelled, fun ha => ha⟩
  · intro hrow
    rcases s.row.update_status t c with heq | ⟨heq, -⟩
    · have hsame : (s.updateRow true t c).row.status = s.row.status := heq
      rw [hsame] at hrow ⊢
      exact hsettled _ (h.row hrow)
    · have hnew : (s.updateRow true t c).row.status = t := heq
      rw [hnew] at hrow ⊢
      exact hsettled _ (ht hrow)
  · exact fun ha => (h.accepted ha).imp_right hcancelled
  · rintro hending (hflag | hrow)
    · exact h.unaccepted hending (.inl hflag)
    · rcases s.row.update_status t c with heq | ⟨heq, -⟩
      · exact h.unaccepted hending (.inr (heq.symm.trans hrow))
      · -- a cancellation that is settled has been accepted
        have hnew : t = .cancelled := heq.symm.trans hrow
        have hset : Settled strict s t := ht (by rw [hnew]; rfl)
        have hold : s.worker.ending = none := hending
        exact h.unaccepted hold ((settled_iff_of_none hold t).1 hset).2

theorem Core.flag (hending : s.worker.ending = none)
    (ht : t.terminal = true → t = .cancelled) :
    Core strict { s with job := ⟨t, true⟩, accepted := true } ∧
      Kept strict s { s with job := ⟨t, true⟩, accepted := true } := by
  have hsettled : ∀ t', Settled strict s t' → Settled strict { s with job := ⟨t, true⟩, accepted := true } t' :=
    fun t' ht' => ht'.mono rfl fun _ => .inl rfl
  refine ⟨.of_undecided hending h.tracked (fun hterminal => ⟨ht hterminal, rfl⟩) (fun hrow => hsettled _ (h.row hrow))
    (fun _ => .inl rfl) (fun _ => rfl) fun _ _ _ => rfl, hsettled, fun hrow => hrow, fun hrow => hrow, fun _ => rfl⟩

theorem Core.pollFlag (hrow : s.row.status = .cancelled) :
    Core strict { s with job := { s.job with cancelled := true } } ∧
    Kept strict s { s with job := { s.job with cancelled := true } } := by
  have hset : Settled strict s .cancelled := hrow ▸ h.row (by rw [hrow]; rfl)
  have hcancelled : ∀ e, s.worker.ending = some e → e.status = .cancelled := by
    intro e he
    rw [settled_iff_of_ending he] at hset
    exact Status.seen_eq_cancelled hset.symm
  have hsettled : ∀ t, Settled strict s t → Settled strict { s with job := { s.job with cancelled := true } } t :=
    fun t ht => ht.mono rfl fun _ => .inl rfl
  refine ⟨⟨h.tracked, fun hending hterminal => ⟨(h.undecided hending hterminal).1, rfl⟩, h.decided,
    fun e he _ => hcancelled e he, fun hterminal => hsettled _ (h.row hterminal), fun _ => .inl rfl,
    fun hending _ => h.unaccepted hending (.inr hrow), h.answered, h.partials, ?_⟩, hsettled, fun ht => ht,
    fun ht => ht, fun ha => ha⟩
  intro e he
  have hold := h.branch e he
  rw [BranchOk] at hold ⊢
  split
  · trivial
  · exact .inr ⟨hcancelled e he, rfl⟩
  · exact hcancelled e he

theorem Core.cancelRow (hending : s.worker.ending = none) :
    Core strict { s.updateRow false .cancelled (some true) with accepted := true } ∧
    Kept strict s { s.updateRow false .cancelled (some true) with accepted := true } := by
  have hending' : ({ s.updateRow false .cancelled (some true) with accepted := true } : State).worker.ending =
    none := hending
  have hset : Settled strict { s.updateRow false .cancelled (some true) with accepted := true } .cancelled :=
    (settled_iff_of_none hending' _).2 ⟨rfl, .inr rfl⟩
  exact ⟨.of_undecided hending h.tracked (h.undecided hending) (fun _ => hset) (fun _ => .inr rfl) (fun _ => rfl)
    fun _ _ _ => rfl, fun t ht => ht.mono rfl fun _ => .inr rfl, fun _ => rfl, fun _ => rfl, fun _ => rfl⟩

end

theorem Core.answer (h : Core strict s) {response : Option Response}
    (hresponse : ∀ r, response = some r → r.success = true → s.accepted = true) : Core strict (s.answer response) := by
  refine h.of_eq rfl rfl rfl rfl (fun r hr => ?_) (.inr (.inl rfl))
  rcases List.mem_append.1 hr with hr | hr
  · exact .inl hr
  · exact .inr (hresponse r (Option.mem_toList.1 hr))

theorem Core.setEntry (h : Core strict s) {node : Node} {old : Status} (hold : s.entry node = some old)
    {new : Option Status}
    (hnew : ∀ t, new = some t → t.terminal = false) : Core strict (s.setEntry node new) := by
  cases node with
  | other => cases hold
  | executing =>
    refine h.of_eq rfl rfl rfl rfl (fun r hr => .inl hr) (.inr (.inr ⟨?_, hnew⟩))
    intro hnone
    have hsome : s.tracked = some old := hold
    rw [hnone] at hsome
    cases hsome

theorem Core.goto (h : Core strict s) (hending : w.ending = s.worker.ending) :
    Core strict (s.goto w) ∧ Kept strict s (s.goto w) :=
  ⟨h.of_eq hending rfl rfl rfl (fun _ hr => .inl hr) (.inr (.inl rfl)), .of_eq hending rfl rfl rfl⟩

theorem Core.decide (h : Core strict s) (hending : s.worker.ending = none) {e : Ending}
    (hterminal : e.status.terminal = true)
    (hcancelling : s.Cancelling → e.status = .cancelled)
    (hpart : strict = true → e.status = .completedPartial → s.tracked = none) (hbranch : BranchOk s e) :
    Core strict ((s.setStatus e.status).goto (.snapshot e)) ∧
      Kept strict s ((s.setStatus e.status).goto (.snapshot e)) := by
  have hending' : ((s.setStatus e.status).goto (.snapshot e)).worker.ending = some e := rfl
  have hsome : ∀ e', ((s.setStatus e.status).goto (.snapshot e)).worker.ending = some e' → e' = e :=
    fun e' he' => (Option.some.inj he').symm
  have hsettled : ∀ t, Settled strict s t → Settled strict ((s.setStatus e.status).goto (.snapshot e)) t := by
    intro t ht
    rw [settled_iff_of_none hending] at ht
    rw [settled_iff_of_ending hending', ht.1, hcancelling ht.2]
  refine ⟨⟨h.tracked, ?_, ?_, ?_, fun hrow => hsettled _ (h.row hrow), h.accepted, ?_, h.answered, ?_, ?_⟩,
    hsettled, fun ht => ht, fun ht => ht, fun ha => ha⟩
  · intro hnone
    cases hnone
  · intro e' he'
    rw [hsome e' he']
    exact ⟨rfl, hterminal⟩
  · intro e' he' hflag
    rw [hsome e' he']
    exact hcancelling (.inl hflag)
  · intro hnone
    cases hnone
  · intro hstrict e' he' hpart'
    rw [hsome e' he'] at hpart'
    exact hpart hstrict hpart'
  · intro e' he'
    rw [hsome e' he']
    exact hbranch

theorem Core.start (h : Core strict s) (hending : s.worker.ending = none) (hw : w.ending = none) :
    Core strict ((s.setStatus .running).goto w) ∧ Kept strict s ((s.setStatus .running).goto w) := by
  have hsettled : ∀ t, Settled strict s t → Settled strict ((s.setStatus .running).goto w) t :=
    fun t ht => ht.mono (hw.trans hending.symm) id
  exact ⟨.of_undecided hw h.tracked nofun (fun hrow => hsettled _ (h.row hrow)) h.accepted
    (h.unaccepted hending) h.answered,
    hsettled, fun ht => ht, fun ht => ht, fun ha => ha⟩

end Core

/-! ### Steps -/

structure Advanced (strict : Bool) (s s' : State) (next : Option CallPc) : Prop where
  core : Core strict s'
  kept : Kept strict s s'
  worker : s'.worker = s.worker
  calls : s'.calls = s.calls
  next : ∀ pc, next = some pc → CallOk strict s' pc

section Steps

variable {strict : Bool} {cfg : Config} {s s' : State}

variable {next : Option CallPc} {response : Option Response} {t old status : Status} {node : Node}
  {new : Option Status} {w : Worker} {e : Ending}

theorem Advanced.look (h : Core strict s) (hnext : ∀ pc, next = some pc → CallOk strict s pc) :
    Advanced strict s s next := ⟨h, .refl s, rfl, rfl, hnext⟩

theorem Advanced.answer (h : Core strict s)
    (hresponse : ∀ r, response = some r → r.success = true → s.accepted = true) :
    Advanced strict s (s.answer response) none :=
  ⟨h.answer hresponse, .of_eq rfl rfl rfl rfl, rfl, rfl, fun pc hpc => (by cases hpc)⟩

theorem Advanced.afterPersist (h : Core strict s) (hresponse : response.isSome = true → s.accepted = true) :
    Advanced strict s (s.afterPersist response).1 (s.afterPersist response).2 := by
  cases response with
  | none =>
    refine .look h fun pc hpc => ?_
    cases hpc
    trivial
  | some r => exact .answer h fun _ _ _ => hresponse rfl

theorem Advanced.trans {s'' : State} {next' : Option CallPc} (h : Advanced strict s s' next)
    (h' : Advanced strict s' s'' next') : Advanced strict s s'' next' :=
  ⟨h'.core, h.kept.trans h'.kept, h'.worker.trans h.worker, h'.calls.trans h.calls, h'.next⟩

theorem Advanced.write (h : Core strict s) (c : Option Bool) (ht : t.terminal = true → Settled strict s t) :
    Advanced strict s (s.updateRow true t c) none :=
  ⟨(h.write c ht).1, (h.write c ht).2, rfl, rfl, fun pc hpc => (by cases hpc)⟩

theorem Core.settled_job (h : Core strict s) (ht : s.job.status.terminal = true) : Settled strict s s.job.status := by
  cases hending : s.worker.ending with
  | none =>
    obtain ⟨hstatus, hflag⟩ := h.undecided hending ht
    exact (settled_iff_of_none hending _).2 ⟨hstatus, .inl hflag⟩
  | some e =>
    rw [settled_iff_of_ending hending, (h.decided e hending).1]

theorem entry_setEntry_fields (s : State) (node : Node) (new : Option Status) :
    (s.setEntry node new).worker = s.worker ∧ (s.setEntry node new).calls = s.calls ∧
    (s.setEntry node new).job = s.job ∧
    (s.setEntry node new).row = s.row ∧ (s.setEntry node new).accepted = s.accepted := by
  cases node <;> exact ⟨rfl, rfl, rfl, rfl, rfl⟩

theorem Advanced.setEntry (h : Core strict s) (hold : s.entry node = some old)
    (hnew : ∀ t, new = some t → t.terminal = false) : Advanced strict s (s.setEntry node new) none := by
  obtain ⟨hworker, hcalls, hjob, hrow, haccepted⟩ := entry_setEntry_fields s node new
  exact ⟨h.setEntry hold hnew, .of_eq (by rw [hworker]) hjob hrow haccepted, hworker, hcalls,
    fun pc hpc => (by cases hpc)⟩

theorem Advanced.then {next : CallPc} (h : Advanced strict s s' none) (hnext : CallOk strict s' next) :
    Advanced strict s s' (some next) :=
  ⟨h.core, h.kept, h.worker, h.calls, fun _ hpc => Option.some.inj hpc ▸ hnext⟩

section

variable (h : Core strict s)
include h

theorem Advanced.refuse {response : Response} (hresponse : response.success = false) :
    Advanced strict s (s.answer (some response)) none := by
  refine .answer h fun r hr hsuccess => ?_
  rw [← Option.some.inj hr, hresponse] at hsuccess
  cases hsuccess

theorem advanced_flag (request : Request) :
    Advanced strict s (s.advance cfg (.flag request)).1 (s.advance cfg (.flag request)).2 := by
  have hflag : s.job.status.terminal = false → ∀ t : Status, (t.terminal = true → t = .cancelled) →
      Advanced strict s { s with job := ⟨t, true⟩, accepted := true } (some (.snapshot (some .cancelled))) := by
    intro hopen t ht
    have hending : s.worker.ending = none := by
      refine Option.eq_none_iff_forall_ne_some.2 fun e he => ?_
      obtain ⟨hstatus, hterminal⟩ := h.decided e he
      rw [hstatus, hterminal] at hopen
      cases hopen
    obtain ⟨hcore, hkept⟩ := h.flag hending ht
    exact ⟨hcore, hkept, rfl, rfl, fun pc hpc => Option.some.inj hpc ▸ fun _ => rfl⟩
  rw [State.advance]
  split_ifs with hauth hactive hpending
  · exact .refuse h rfl
  · exact .refuse h rfl
  · have hopen : s.job.status.terminal = false := Status.terminal_of_active (by simpa using hactive)
    exact hflag hopen _ fun _ => rfl
  · have hopen : s.job.status.terminal = false := Status.terminal_of_active (by simpa using hactive)
    exact hflag hopen _ fun ht => absurd ht (by rw [hopen]; exact Bool.false_ne_true)

theorem advanced_read (request : Request) :
    Advanced strict s (s.advance cfg (.read request)).1 (s.advance cfg (.read request)).2 := by
  rw [State.advance]
  split_ifs with hauth hactive
  · exact .refuse h rfl
  · exact .refuse h rfl
  · exact .look h fun pc hpc => by
      cases hpc
      trivial

theorem advanced_update (hending : s.worker.ending = none) :
    Advanced strict s (s.advance cfg .update).1 (s.advance cfg .update).2 := by
  obtain ⟨hcore, hkept⟩ := h.cancelRow hending
  have hwritten : Advanced strict s { s.updateRow false .cancelled (some true) with accepted := true } none :=
    ⟨hcore, hkept, rfl, rfl, fun pc hpc => (by cases hpc)⟩
  exact hwritten.trans (.answer hcore fun _ _ _ => rfl)

theorem advanced_status {status : Option Status}
    (hstatus : status.all (fun t => !t.terminal) = true) :
    Advanced strict s (s.advance cfg (.status node status)).1 (s.advance cfg (.status node status)).2 := by
  rw [State.advance]
  split
  · exact .look h fun pc hpc => by cases hpc
  · rename_i old hold
    have hopen : (status.getD old).terminal = false := by
      cases status with
      | some t => simpa using hstatus
      | none =>
        cases node with
        | executing => exact h.tracked old hold
        | other => cases hold
    have hentry := Advanced.setEntry h hold fun t ht => (by rw [← Option.some.inj ht]; exact hopen : t.terminal = false)
    refine hentry.then ⟨fun ht => ?_, rfl⟩
    rw [hopen] at ht
    cases ht

theorem advanced_finish
    (hpc : CallOk strict s (.finish node status response)) (horder : CallOrderly s (.finish node status response)) :
    Advanced strict s (s.advance cfg (.finish node status response)).1
      (s.advance cfg (.finish node status response)).2 := by
  obtain ⟨hterminal, -, hresponse⟩ := hpc
  rw [State.advance]
  split
  · refine .look h fun pc hpc => ?_
    cases hpc
    refine ⟨?_, hresponse⟩
    rcases horder with hjob | ⟨hrow, -⟩
    · exact .inr (hjob ▸ h.settled_job (hjob ▸ hterminal))
    · exact .inl hrow
  · rename_i old hold
    have hentry : Advanced strict s (s.setEntry node none) none := .setEntry h hold fun t ht => (by cases ht)
    have hset : Settled strict s status := by
      rcases horder with hjob | ⟨-, hnone⟩
      · exact hjob ▸ h.settled_job (hjob ▸ hterminal)
      · rw [hold] at hnone
        cases hnone
    exact hentry.then ⟨fun _ => hentry.kept.settled _ hset, hresponse⟩

theorem advanced_load (hpc : CallOk strict s (.load status response)) :
    Advanced strict s (s.advance cfg (.load status response)).1 (s.advance cfg (.load status response)).2 := by
  obtain ⟨hset, rfl⟩ := hpc
  rw [State.advance]
  split_ifs with hterminal
  · exact .answer h fun r hr => by cases hr
  · refine .look h fun pc hpc => ?_
    cases hpc
    exact ⟨fun _ => hset.resolve_left hterminal, rfl⟩

theorem advanced {pc : CallPc} (hpc : CallOk strict s pc) (horder : CallOrderly s pc) :
    Advanced strict s (s.advance cfg pc).1 (s.advance cfg pc).2 := by
  cases pc with
  | lookup node request =>
    refine .look h fun pc hpc => ?_
    cases hpc
    split_ifs <;> trivial
  | flag request => exact advanced_flag h request
  | snapshot response =>
    rw [State.advance]
    split_ifs
    · refine .look h fun pc' hpc' => ?_
      cases hpc'
      exact ⟨h.settled_job, hpc⟩
    · exact .afterPersist h hpc
  | write snapshot response =>
    have hwrite := Advanced.write h (some snapshot.cancelled) hpc.1
    exact hwrite.trans (.afterPersist hwrite.core hpc.2)
  | children node request =>
    refine .look h fun pc hpc => ?_
    cases hpc
    split_ifs with hchildren
    · have hno := horder hchildren.1
      rw [hchildren.2.1] at hno
      cases hno
    · trivial
  | tracked request => exact absurd hpc id
  | read request => exact advanced_read h request
  | update => exact advanced_update h horder
  | status node status => exact advanced_status h horder
  | finish node status response => exact advanced_finish h hpc horder
  | load status response => exact advanced_load h hpc
  | upsert status response =>
    obtain ⟨hset, rfl⟩ := hpc
    have hwrite := Advanced.write h none hset
    exact hwrite.trans (.answer hwrite.core fun r hr => by cases hr)
  | poll =>
    refine .look h fun pc hpc => ?_
    rw [State.advance] at hpc
    split_ifs at hpc with hrow
    cases hpc
    exact hrow
  | pollFlag =>
    rw [State.advance]
    obtain ⟨hcore, hkept⟩ := h.pollFlag hpc
    split_ifs
    · exact ⟨hcore, hkept, rfl, rfl, fun pc hpc => (by cases hpc)⟩
    · exact .look h fun pc hpc => by cases hpc

end

structure Worked (strict : Bool) (s s' : State) : Prop where
  core : Core strict s'
  kept : Kept strict s s'
  worker : WorkerOk strict s' s'.worker
  calls : s'.calls = s.calls

theorem Worked.goto (h : Core strict s) (hending : w.ending = s.worker.ending) (hw : WorkerOk strict s w) :
    Worked strict s (s.goto w) :=
  ⟨(h.goto hending).1, (h.goto hending).2, hw.mono (h.goto hending).2, rfl⟩

theorem Worked.write (h : Core strict s) (c : Option Bool) (ht : t.terminal = true → Settled strict s t)
    (hending : w.ending = s.worker.ending) (hw : WorkerOk strict (s.updateRow true t c) w) :
    Worked strict s ((s.updateRow true t c).goto w) := by
  obtain ⟨hcore, hkept⟩ := h.write c ht
  have hgoto := Worked.goto hcore hending hw
  exact ⟨hgoto.core, hkept.trans hgoto.kept, hgoto.worker, rfl⟩

theorem Worked.setEntry (h : Core strict s) (hold : s.tracked = some old)
    (hnew : ∀ t, new = some t → t.terminal = false) (hending : w.ending = s.worker.ending)
    (hw : WorkerOk strict s w) : Worked strict s ((s.setEntry .executing new).goto w) := by
  have hheld : s.entry .executing = some old := hold
  have hentry : Advanced strict s (s.setEntry .executing new) none := .setEntry h hheld hnew
  have hgoto := Worked.goto hentry.core hending (hw.mono hentry.kept)
  exact ⟨hgoto.core, hentry.kept.trans hgoto.kept, hgoto.worker, rfl⟩

theorem Worked.decide (h : Core strict s) (hending : s.worker.ending = none) (hterminal : e.status.terminal = true)
    (hcancelling : s.Cancelling → e.status = .cancelled)
    (hpart : strict = true → e.status = .completedPartial → s.tracked = none) (hbranch : BranchOk s e) :
    Worked strict s ((s.setStatus e.status).goto (.snapshot e)) :=
  ⟨(h.decide hending hterminal hcancelling hpart hbranch).1,
    (h.decide hending hterminal hcancelling hpart hbranch).2, trivial,
    rfl⟩

theorem Row.update_of_terminal (row : Row) (ht : t.terminal = true) (guardTerminal : Bool) (c : Option Bool) :
    (row.update guardTerminal t c).status = t := by
  rw [Row.update, ht]
  simp

theorem workerOk_afterTracker (hrow : s.row.status.terminal = true) (e : Ending) :
    WorkerOk strict s (.afterTracker e) := by
  unfold Worker.afterTracker
  split_ifs <;> exact hrow

theorem ending_afterTracker (e : Ending) : (Worker.afterTracker e).ending = some e := by
  unfold Worker.afterTracker
  split_ifs <;> rfl

theorem Core.notified (h : Core strict s) (hending : s.worker.ending = some e) (htracked : s.tracked ≠ none) :
    (s.notified e).seen strict = e.status.seen strict := by
  obtain ⟨hjob, hterminal⟩ := h.decided e hending
  have hbranch := h.branch e hending
  rw [BranchOk] at hbranch
  rw [State.notified, hjob]
  cases hb : e.branch with
  | early | interrupted =>
    rw [hb] at hbranch
    rw [hbranch]
  | raised =>
    rw [hb] at hbranch
    split_ifs with hflag
    · rw [h.flagged e hending hflag]
    · rw [hbranch.resolve_right fun hcancelled => hflag hcancelled.2]
  | returned =>
    cases hstatus : e.status with
    | completedPartial =>
      cases hstrict : strict with
      | false => rfl
      | true => exact absurd (h.partials hstrict e hending hstatus) htracked
    | completed | failed | cancelled => rfl
    | pending | running | resolvingPrerequisites =>
      rw [hstatus] at hterminal
      cases hterminal

theorem worked (h : Core strict s) (hworker : WorkerOk strict s s.worker) (hs : s.work cfg = some s') :
    Worked strict s s' := by
  rw [State.work] at hs
  -- `hending` reads the ending off the constructor in each case
  obtain ⟨w, hw⟩ : ∃ w, s.worker = w := ⟨_, rfl⟩
  have hending : s.worker.ending = w.ending := congrArg Worker.ending hw
  rw [hw] at hs hworker
  cases w with
  | queued | precheck =>
    dsimp only at hs
    split_ifs at hs with hflag <;> cases hs
    · exact Worked.decide h hending (e := ⟨.early, .cancelled⟩) rfl (fun _ => rfl) nofun rfl
    · exact .goto h hending.symm trivial
  | start =>
    cases hs
    obtain ⟨hcore, hkept⟩ := h.start hending (w := .snapshotRunning) rfl
    exact ⟨hcore, hkept, trivial, rfl⟩
  | snapshotRunning =>
    cases hs
    exact .goto h hending.symm h.settled_job
  | writeRunning snapshot =>
    cases hs
    refine .write h (some snapshot.cancelled) hworker ?_ ?_
    · rw [hending]
      split_ifs <;> rfl
    · split_ifs <;> trivial
  | trackRunning =>
    dsimp only at hs
    split at hs
    · cases hs
      exact .goto h hending.symm trivial
    · rename_i old hold
      cases hs
      exact .setEntry h hold (fun t ht => Option.some.inj ht ▸ rfl) hending.symm trivial
  | upsertRunning =>
    cases hs
    exact .write h none (fun ht => by cases ht) hending.symm trivial
  | running | done e => cases hs
  | snapshot e =>
    cases hs
    exact .goto h hending.symm (h.decided e hending).1
  | write e snapshot =>
    have hsnapshot : snapshot.status = e.status := hworker
    have hterminal : snapshot.status.terminal = true := hsnapshot ▸ (h.decided e hending).2
    cases hs
    have hrow : (s.persist snapshot).row.status.terminal = true := by
      rw [State.persist, State.updateRow, Row.update_of_terminal _ hterminal, hterminal]
    refine .write h (some snapshot.cancelled) (fun _ => ?_) ?_ ?_
    · rw [settled_iff_of_ending hending, hsnapshot]
    · rw [hending]
      split_ifs
      · rfl
      · exact ending_afterTracker e
    · split_ifs
      · exact hrow
      · exact workerOk_afterTracker hrow e
  | notify e =>
    dsimp only at hs
    split at hs
    · rename_i old hold
      cases hs
      refine .setEntry h hold (fun t ht => (by cases ht)) hending.symm ⟨hworker, ?_⟩
      rw [settled_iff_of_ending hending]
      exact h.notified hending (by rw [hold]; exact Option.some_ne_none _)
    · cases hs
      exact .goto h hending.symm hworker
  | load e status =>
    have hrow : s.row.status.terminal = true := hworker
    cases hs
    rw [if_pos hrow]
    exact .goto h (by rw [hending]; exact ending_afterTracker e) (workerOk_afterTracker hrow e)
  | upsert e status =>
    obtain ⟨hrow, hset⟩ := hworker
    cases hs
    refine .write h none (fun _ => hset) (by rw [hending]; exact ending_afterTracker e) ?_
    exact workerOk_afterTracker ((h.write none fun _ => hset).2.terminal hrow) e
  | evict e =>
    have hrow : s.row.status.terminal = true := hworker
    cases hs
    exact ⟨h.of_eq hending.symm rfl rfl rfl (fun _ hr => .inl hr) (.inr (.inl rfl)),
      .of_eq hending.symm rfl rfl rfl, hrow, rfl⟩

theorem worked_finish (h : Core strict s) {f : Finish}
    (hrow : s.row.status = .cancelled → s.job.cancelled = true ∨ f = .interrupted)
    (hpart : strict = true → f.status s.job.cancelled = .completedPartial → s.tracked = none)
    (hs : s.finish f = some s') : Worked strict s s' := by
  rw [State.finish] at hs
  split_ifs at hs with hw
  cases hs
  refine Worked.decide h (e := ⟨f.branch, f.status s.job.cancelled⟩) (by rw [hw]; rfl) ?_ ?_ hpart ?_
  · cases f with
    | returned result | raised =>
      simp only [Finish.status]
      split_ifs <;> rfl
    | interrupted => rfl
  · intro hcancelling
    have haware : s.job.cancelled = true ∨ f = .interrupted := hcancelling.elim .inl hrow
    rcases haware with hflag | rfl
    · rw [hflag]
      cases f <;> rfl
    · rfl
  · cases f with
    | returned result => trivial
    | interrupted => exact rfl
    | raised =>
      cases hflag : s.job.cancelled with
      | true => exact .inr ⟨rfl, hflag⟩
      | false => exact .inl rfl

theorem Inv.step (h : Inv strict s) {a : Act} (horder : Orderly strict s a) (hs : s.step cfg a = some s') :
    Inv strict s' ∧ Kept strict s s' := by
  have hworked : Worked strict s s' → Inv strict s' ∧ Kept strict s s' := by
    intro hw
    refine ⟨⟨hw.core, hw.worker, fun i pc hpc => ?_⟩, hw.kept⟩
    rw [hw.calls] at hpc
    exact (h.calls i pc hpc).mono hw.kept
  cases a with
  | work => exact hworked (worked h.core h.worker hs)
  | finish f => exact hworked (worked_finish h.core horder.1 horder.2 hs)
  | call i call =>
    rw [State.step] at hs
    split_ifs at hs with hfree
    cases hs
    have hkept : Kept strict s { s with calls := s.calls.set i call.first } := .of_eq rfl rfl rfl rfl
    refine ⟨⟨h.core.of_eq rfl rfl rfl rfl (fun _ hr => .inl hr) (.inr (.inl rfl)), h.worker.mono hkept, ?_⟩, hkept⟩
    intro j pc hpc
    rw [Dict.get?_set] at hpc
    split_ifs at hpc
    · cases hpc
      cases call with
      | cancelJob node request | updateStatus node status | cancelCheck => trivial
      | completeJob node | failJob node => exact ⟨rfl, (by intro h; cases h), rfl⟩
      | progressCallback persists =>
        cases persists with
        | true => exact fun hr => by cases hr
        | false => trivial
    · exact (h.calls j pc hpc).mono hkept
  | statement i =>
    obtain ⟨pc, hpc, rfl⟩ := Option.map_eq_some_iff.1 hs
    have hadv : Advanced strict s (s.advance cfg pc).1 (s.advance cfg pc).2 :=
      advanced h.core (h.calls i pc hpc) (horder pc hpc)
    have hkept : Kept strict s
        { (s.advance cfg pc).1 with calls := (s.advance cfg pc).1.calls.update i (s.advance cfg pc).2 } :=
      hadv.kept.trans (.of_eq rfl rfl rfl rfl)
    have hown : Kept strict (s.advance cfg pc).1
        { (s.advance cfg pc).1 with calls := (s.advance cfg pc).1.calls.update i (s.advance cfg pc).2 } :=
        .of_eq rfl rfl rfl rfl
    refine ⟨⟨hadv.core.of_eq rfl rfl rfl rfl (fun _ hr => .inl hr) (.inr (.inl rfl)), ?_, ?_⟩, hkept⟩
    · exact (hadv.worker.symm ▸ h.worker : WorkerOk strict s (s.advance cfg pc).1.worker).mono hkept
    · intro j pc' hpc'
      have hcalls : ({ (s.advance cfg pc).1 with
          calls := (s.advance cfg pc).1.calls.update i (s.advance cfg pc).2 } : State).calls =
          s.calls.update i (s.advance cfg pc).2 := congrArg (fun d => Dict.update d i (s.advance cfg pc).2) hadv.calls
      have hget : (s.calls.update i (s.advance cfg pc).2).get? j = some pc' := hcalls ▸ hpc'
      rw [Dict.get?_update] at hget
      split_ifs at hget
      · exact (hadv.next pc' hget).mono hown
      · exact (h.calls j pc' hget).mono hkept
  | setChildren registered =>
    cases hs
    exact hworked ⟨h.core.of_eq rfl rfl rfl rfl (fun _ hr => .inl hr) (.inr (.inl rfl)), .of_eq rfl rfl rfl rfl,
      h.worker.mono (.of_eq rfl rfl rfl rfl), rfl⟩

end Steps

theorem inv_fresh (strict registered : Bool) : Inv strict (.fresh registered) := by
  refine ⟨.of_undecided rfl ?_ nofun nofun nofun ?_ nofun, trivial, fun i pc hpc => (by cases hpc)⟩
  · intro t ht
    cases registered with
    | true =>
      cases ht
      rfl
    | false => cases ht
  · rintro (hflag | hrow)
    · cases hflag
    · cases hrow

variable {strict : Bool} {cfg : Config} {s s' : State}

theorem inv_of_orderly (h : (system cfg).Reachable (Orderly strict) s) : Inv strict s := by
  refine h.invariant ?_ fun s₁ a s₂ hinv horder hs => (hinv.step horder hs).1
  rintro s₁ ⟨registered, -, rfl⟩
  exact inv_fresh strict registered

theorem Inv.row_kept (h : Inv strict s) (h' : Inv strict s') (hkept : Kept strict s s')
    (hterminal : s.row.status.terminal = true) : s'.row.status.seen strict = s.row.status.seen strict :=
  (h'.core.row (hkept.terminal hterminal)).unique (hkept.settled _ (h.core.row hterminal))

theorem Inv.run (h : Inv strict s)
    (h' : ((system cfg).startedAt s).Reachable (Orderly strict) s') : Inv strict s' ∧ Kept strict s s' := by
  refine h'.invariant (I := fun t => Inv strict t ∧ Kept strict s t) ?_ ?_
  · rintro t rfl
    exact ⟨h, .refl t⟩
  · intro t a t' ht horder hs
    obtain ⟨hinv, hkept⟩ := ht.1.step horder hs
    exact ⟨hinv, ht.2.trans hkept⟩

/-- Without an accepted cancellation a terminal status is there only when an outcome is decided, and it is that
one, in memory and in the row; the row has it once the worker is done. -/
structure State.AsDecided (s : State) : Prop where
  decided : s.row.status.terminal = true ∨ s.job.status.terminal = true → ∃ e, s.worker.ending = some e
  memory : ∀ e, s.worker.ending = some e → s.job.status = e.status
  row : ∀ e, s.worker.ending = some e → s.row.status.terminal = true → s.row.status = e.status
  done : ∀ e, s.worker = .done e → s.row.status = e.status

theorem Status.seen_true (t : Status) : t.seen true = t := by
  cases t <;> rfl

theorem Inv.asDecided (h : Inv true s) (haccepted : s.accepted = false) : s.AsDecided := by
  have hrow : ∀ e, s.worker.ending = some e → s.row.status.terminal = true → s.row.status = e.status := by
    intro e he hterminal
    have hset := h.core.row hterminal
    rwa [settled_iff_of_ending he, Status.seen_true, Status.seen_true] at hset
  have hcalm : s.worker.ending = none → ¬s.Cancelling := by
    intro hnone hcancelling
    rw [h.core.unaccepted hnone hcancelling] at haccepted
    cases haccepted
  refine ⟨fun hterminal => ?_, fun e he => (h.core.decided e he).1, hrow, fun e he => ?_⟩
  · refine Option.ne_none_iff_exists'.1 fun hnone => ?_
    rcases hterminal with hterminal | hterminal
    · exact hcalm hnone ((settled_iff_of_none hnone _).1 (h.core.row hterminal)).2
    · exact hcalm hnone (.inl (h.core.undecided hnone hterminal).2)
  · have hworker := h.worker
    rw [he] at hworker
    exact hrow e (by rw [he]; rfl) hworker

/-- In an orderly run the terminal status of the row is final and, if no cancellation was accepted, the one
that was decided. -/
theorem final_of_orderly {cfg : Config} {s s' : State} (h : (system cfg).Reachable (Orderly true) s)
    (h' : ((system cfg).startedAt s).Reachable (Orderly true) s') :
    (s.row.status.terminal = true → s'.row.status = s.row.status) ∧ (s.accepted = false → s.AsDecided) := by
  have hinv := inv_of_orderly h
  obtain ⟨hinv', hkept⟩ := hinv.run h'
  refine ⟨fun hterminal => ?_, hinv.asDecided⟩
  have hseen := hinv.row_kept hinv' hkept hterminal
  rwa [Status.seen_true, Status.seen_true] at hseen

/-! ### Runs -/

def alone : Config := ⟨"alice", true⟩

def started : List Act := [.work, .work, .work, .work, .work, .work, .work]

/-- A job that completes, when the row has been written and when the worker is done. -/
theorem final_of_orderly_completed : ∃ s s', (system alone).Reachable (Orderly true) s ∧
    ((system alone).startedAt s).Reachable (Orderly true) s' ∧
    (s.row.status, s.accepted, s'.worker) = (.completed, false, .done ⟨.returned, .completed⟩) ∧
    (s.row.status.terminal = true → s'.row.status = s.row.status) ∧ (s.accepted = false → s.AsDecided) := by
  exact exists_of_runs_and (.fresh true) (started ++ [.finish (.returned ⟨false, false⟩), .work, .work])
    [.work, .work, .work] (fresh_isInit alone) (by decide +kernel) fun s s' hs hs' => final_of_orderly hs hs'

/-- Nobody but the worker runs, and a partial completion in the row becomes a completion: the status is not
final and not the one that was decided. A cancellation written by another node is overwritten by a completion. -/
theorem not_final :
    (∃ s s', (system alone).Reachable Any s ∧ ((system alone).startedAt s).Reachable Any s' ∧
      s.row.status = .completedPartial ∧ s'.row.status = .completed ∧ s'.accepted = false ∧
      s'.worker = .done ⟨.returned, .completedPartial⟩) ∧
    ∃ s s', (system alone).Reachable Any s ∧ ((system alone).startedAt s).Reachable Any s' ∧
      s.row.status = .cancelled ∧ s'.row.status = .completed := by
  constructor
  · exact exists_of_runs_mem (.fresh true) (started ++ [.finish (.returned ⟨false, true⟩), .work, .work])
      [.work, .work, .work] (fresh_isInit alone) (by decide +kernel)
  · exact exists_of_runs_mem (.fresh true)
      (started ++ [.call 0 (.cancelJob .other ⟨"alice", false⟩), .statement 0, .statement 0, .statement 0,
      .statement 0])
      [.finish (.returned ⟨false, false⟩), .work, .work] (fresh_isInit alone) (by decide +kernel)

end CodeIndexer.Jobs
