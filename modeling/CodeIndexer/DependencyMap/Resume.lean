import CodeIndexer.DependencyMap.NoChangeLost
import CodeIndexer.Lib.History

/-!
# Resuming a delta

A delta run skips a domain whose journal has the fingerprint of the delta. The histories of `DeltaRun` are traced here:
what a run is given at its detection (the aliases of the delta and the commits that the repositories to update have
then), which domains were updated and what the update has read, which were skipped, and which runs reported success.
-/

namespace CodeIndexer.DependencyMap.Resume

open PyText TransitionSystem List

/-- The aliases of a delta, and the commits of its changed and new repositories. -/
structure Work where
  aliases : Delta
  commits : List (Str × Option Str)
deriving DecidableEq

def workOf (s : State) (delta : Delta) : Work :=
  ⟨delta.fingerprint, delta.fingerprint.updated.map fun repo => (repo, s.currentCommit repo)⟩

inductive Event
  | updated (domain : Str) (read : Work)
  | skipped (domain : Str) (given : Work)
  | reported (domains : List Str) (given : Work)
deriving DecidableEq

/-- A domain is skipped, and a run reports success, only after the domains were updated with what the run was given. -/
def Event.Backed (before : List Event) : Event → Prop
  | .updated _ _ => True
  | .skipped domain given => .updated domain given ∈ before
  | .reported domains given => ∀ domain ∈ domains, .updated domain given ∈ before

structure Traced where
  state : State
  given : List Work
  current : Work
  affected : List Str
  errors : Bool
  log : List Event

/-- The update of a domain adds to `errors`: the placeholder cannot be created, or the last attempt raises. That the
last attempt fails is only logged. -/
def raises (s : State) (delta : Delta) (domain : Str) (answer : Answer) : Bool :=
  if (s.docs.get? domain).isNone && !answer.written then true
  else if s.journaled delta domain then false
  else (settled answer.attempts).isNone && (answer.attempts.take maxDomainRetries).getLast? = some .raised

def eventOf (s : State) (given : Work) (delta : Delta) (domain : Str) (answer : Answer) : List Event :=
  if (s.docs.get? domain).isNone && !answer.written then []
  else if s.journaled delta domain then [.skipped domain given]
  else if (settled answer.attempts).isSome then [.updated domain (workOf s delta)] else []

namespace Traced

def note (t : Traced) (answer : Answer) : Pc → Traced
  | .detect =>
    let work := workOf t.state t.state.detectChanges
    { t with given := t.given ++ [work], current := work, affected := [], errors := false }
  | .update run (domain :: _) =>
    if t.state.cancelEvent then { t with affected := run.affectedDomains }
    else
      { t with
        affected := run.affectedDomains
        errors := t.errors || raises t.state run.delta domain answer
        log := t.log ++ eventOf t.state t.current run.delta domain answer }
  | .update run [] => { t with affected := run.affectedDomains }
  | .finalize _ =>
    -- the status is `completed` and the list of errors is empty
    if !t.state.cancelEvent && !t.errors then { t with log := t.log ++ [.reported t.affected t.current] } else t
  | _ => t

def step (t : Traced) (a : Act) : Option Traced :=
  (t.state.step a).map fun s =>
    match a, t.state.pc with
    | .advance answer, some pc => { t.note answer pc with state := s }
    | _, _ => { t with state := s }

def start (s : State) : Traced := ⟨s, [], ⟨⟨[], [], []⟩, []⟩, [], false, []⟩

end Traced

def system : TransitionSystem Traced Act where
  init t := ∃ s : State, s.pc = none ∧ (∀ domain doc, s.docs.get? domain = some doc → doc.lastDeltaApplied = none) ∧
    t = .start s
  step := Traced.step

def deltaOf : Pc → Option Delta
  | .identify delta _ => some delta
  | .discover run => some run.delta
  | .discoverUncovered run => some run.delta
  | .update run _ => some run.delta
  | _ => none

variable (t : Traced)

/-- Two runs that are given the same aliases are given the same commits, the repositories of a delta keep their commits
while its domains are updated, and an update that does not succeed raises. -/
def ResumableStep (answer : Answer) : Pc → Prop
  | .detect => ∀ work ∈ t.given, work.aliases = t.state.detectChanges.fingerprint →
      work = workOf t.state t.state.detectChanges
  | .update run (domain :: _) =>
    t.state.cancelEvent = true ∨ t.state.journaled run.delta domain = true ∨ (settled answer.attempts).isSome = true ∨
      raises t.state run.delta domain answer = true
  | _ => True

def Resumable : Act → Prop
  | .setRepo repo golden =>
    ∀ pc ∈ t.state.pc, ∀ delta ∈ deltaOf pc, repo ∈ delta.updated → golden.currentCommit = t.state.currentCommit repo
  | .removeRepo repo => ∀ pc ∈ t.state.pc, ∀ delta ∈ deltaOf pc, repo ∈ delta.updated →
      t.state.currentCommit repo = none
  | .advance answer => ∀ pc ∈ t.state.pc, ResumableStep t answer pc
  | _ => True

instance (t : Traced) (answer : Answer) : (pc : Pc) → Decidable (ResumableStep t answer pc)
  | .detect => inferInstanceAs (Decidable (∀ work ∈ t.given, _ → _))
  | .update run (domain :: _) =>
    inferInstanceAs (Decidable (t.state.cancelEvent = true ∨ t.state.journaled run.delta domain = true ∨
      (settled answer.attempts).isSome = true ∨ raises t.state run.delta domain answer = true))
  | .update _ [] | .identify .. | .unaffected _ | .discover _ | .discoverUncovered _ | .clean _ | .regenerate _
  | .finalize _ => .isTrue trivial

instance (t : Traced) : (a : Act) → Decidable (Resumable t a)
  | .setRepo repo golden => inferInstanceAs (Decidable (∀ pc ∈ t.state.pc, ∀ delta ∈ deltaOf pc, repo ∈ delta.updated →
      golden.currentCommit = t.state.currentCommit repo))
  | .removeRepo repo => inferInstanceAs (Decidable (∀ pc ∈ t.state.pc, ∀ delta ∈ deltaOf pc, repo ∈ delta.updated →
      t.state.currentCommit repo = none))
  | .advance answer => inferInstanceAs (Decidable (∀ pc ∈ t.state.pc, ResumableStep t answer pc))
  | .refresh | .cancel | .start | .crash => .isTrue trivial

/-! ### The invariant -/

def Given (delta : Delta) : Prop := t.current = workOf t.state delta ∧ t.current ∈ t.given

def Done (domain : Str) : Prop := .updated domain t.current ∈ t.log

def PhaseOk : Pc → Prop
  | .detect => True
  | .identify delta _ => Given t delta ∧ t.affected = []
  | .unaffected _ => t.affected = []
  | .discover run => Given t run.delta
  | .discoverUncovered run => Given t run.delta
  | .update run todo =>
    Given t run.delta ∧ ∀ domain ∈ run.affectedDomains, domain ∈ todo ∨ t.errors = true ∨ Done t domain
  | .clean _ => t.state.cancelEvent = true ∨ t.errors = true ∨ ∀ domain ∈ t.affected, Done t domain
  | .regenerate _ => t.state.cancelEvent = true ∨ t.errors = true ∨ ∀ domain ∈ t.affected, Done t domain
  | .finalize _ => t.state.cancelEvent = true ∨ t.errors = true ∨ ∀ domain ∈ t.affected, Done t domain

def Journals : Prop :=
  ∀ domain doc aliases, t.state.docs.get? domain = some doc → doc.lastDeltaApplied = some aliases →
    ∃ work ∈ t.given, work.aliases = aliases ∧ .updated domain work ∈ t.log

structure Inv (t : Traced) : Prop where
  legal : History.Legal Event.Backed t.log
  given : ∀ work ∈ t.given, ∀ work' ∈ t.given, work.aliases = work'.aliases → work = work'
  journals : Journals t
  phase : ∀ pc ∈ t.state.pc, PhaseOk t pc

section Steps

variable {s s' : State} {t : Traced} {delta : Delta} {domain : Str} {answer : Answer}

theorem mem_fingerprint_updated {repo : Str} : repo ∈ delta.fingerprint.updated ↔ repo ∈ delta.updated := by
  simp [Delta.updated, Delta.fingerprint]

theorem workOf_congr (h : ∀ repo ∈ delta.updated, s'.currentCommit repo = s.currentCommit repo) :
    workOf s' delta = workOf s delta := by
  have hcommits : ∀ repo ∈ delta.fingerprint.updated, (repo, s'.currentCommit repo) = (repo, s.currentCommit repo) :=
    fun repo hrepo => by rw [h repo (mem_fingerprint_updated.mp hrepo)]
  rw [workOf, workOf, map_congr_left hcommits]

theorem workOf_of_repos (h : s'.repos = s.repos) : workOf s' delta = workOf s delta :=
  workOf_congr fun repo _ => by rw [State.currentCommit, State.currentCommit, h]

theorem lastDeltaApplied_docOf {aliases : Delta} (h : (s.docOf domain).lastDeltaApplied = some aliases) :
    ∃ doc, s.docs.get? domain = some doc ∧ doc.lastDeltaApplied = some aliases := by
  rw [State.docOf] at h
  cases hdoc : s.docs.get? domain with
  | none => rw [hdoc] at h; cases h
  | some doc => rw [hdoc] at h; exact ⟨doc, rfl, h⟩

theorem Inv.done_of_journaled (h : Inv t) (hgiven : Given t delta) (hjournal : t.state.journaled delta domain = true) :
    Done t domain := by
  obtain ⟨doc, hdoc, hlast⟩ := lastDeltaApplied_docOf (of_decide_eq_true hjournal)
  obtain ⟨work, hwork, haliases, hupdated⟩ := h.journals domain doc _ hdoc hlast
  have heq : work = t.current := h.given work hwork _ hgiven.2 (by rw [haliases, hgiven.1]; rfl)
  rw [Done, ← heq]
  exact hupdated

theorem updateDomain_cases (s : State) (given : Work) (delta : Delta) (domain : Str) (answer : Answer) :
    (s.updateDomain delta domain answer = s ∧ eventOf s given delta domain answer = [] ∧
      raises s delta domain answer = true) ∨
    (s.journaled delta domain = true ∧ s.updateDomain delta domain answer = s ∧
      eventOf s given delta domain answer = [.skipped domain given]) ∨
    (∃ doc applied, s.updateDomain delta domain answer = { s with docs := s.docs.set domain doc, applied := applied } ∧
      (doc = s.docOf domain ∨ doc.lastDeltaApplied = some delta.fingerprint) ∧
      eventOf s given delta domain answer = [.updated domain (workOf s delta)]) ∨
    s.journaled delta domain = false ∧ settled answer.attempts = none ∧
      s.updateDomain delta domain answer = { s with docs := s.docs.set domain (s.docOf domain) } ∧
      eventOf s given delta domain answer = [] := by
  rw [State.updateDomain, eventOf, raises]
  split
  · exact .inl ⟨rfl, rfl, rfl⟩
  · cases hjournal : s.journaled delta domain with
    | true => exact .inr (.inl ⟨rfl, rfl, rfl⟩)
    | false =>
      refine .inr (.inr ?_)
      cases hsettled : settled answer.attempts with
      | none => exact .inr ⟨rfl, rfl, rfl, rfl⟩
      | some attempt =>
        refine .inl ?_
        cases attempt with
        | written journaled =>
          cases journaled with
          | true => exact ⟨_, _, rfl, .inr rfl, rfl⟩
          | false => exact ⟨_, _, rfl, .inl rfl, rfl⟩
        | emptyBody | noop | failed | raised => exact ⟨_, _, rfl, .inl rfl, rfl⟩

/-! ### Steps between the updates -/

structure Quiet (s s' : State) : Prop where
  repos : s'.repos = s.repos
  docs : s'.docs = s.docs
  cancelEvent : s'.cancelEvent = s.cancelEvent

theorem Quiet.removeStaleRepos (removed : List Str) (written : Bool) :
    Quiet s (s.removeStaleRepos removed written) := by
  rw [State.removeStaleRepos]
  split
  · exact ⟨rfl, rfl, rfl⟩
  · split <;> exact ⟨rfl, rfl, rfl⟩

theorem Quiet.discoverAndAssignNewRepos : Quiet s (s.discoverAndAssignNewRepos answer).1 := by
  rw [State.discoverAndAssignNewRepos]
  split
  · exact ⟨rfl, rfl, rfl⟩
  · dsimp only
    split <;> exact ⟨rfl, rfl, rfl⟩

theorem Given.quiet (h : Given t delta) (hquiet : Quiet t.state s') : Given { t with state := s' } delta :=
  ⟨h.1.trans (workOf_of_repos hquiet.repos).symm, h.2⟩

theorem Inv.goto (h : Inv t) (hquiet : Quiet t.state s') (pc : Pc) (hphase : PhaseOk { t with state := s' } pc) :
    Inv { t with state := { s' with pc := some pc } } := by
  refine ⟨h.legal, h.given, fun domain doc aliases hdoc => h.journals domain doc aliases (hquiet.docs ▸ hdoc), ?_⟩
  rintro _ ⟨⟩
  cases pc with
  | detect => trivial
  | identify delta uncovered | update run todo => exact ⟨hphase.1.quiet ⟨rfl, rfl, rfl⟩, hphase.2⟩
  | unaffected delta | clean run | regenerate run | finalize repos => exact hphase
  | discover run | discoverUncovered run => exact hphase.quiet ⟨rfl, rfl, rfl⟩

variable {run : Run}

theorem phaseOk_afterDiscovery (hgiven : Given t run.delta) : PhaseOk t run.afterDiscovery := by
  rw [Run.afterDiscovery]
  split
  · refine ⟨hgiven, fun domain hdomain => .inl ?_⟩
    rw [mem_insertionSort, mem_dedup]
    exact hdomain
  · exact hgiven

theorem Inv.identify (h : Inv t) {uncovered : List Str} (hphase : PhaseOk t (.identify delta uncovered)) :
    Inv { t with state := t.state.advance answer (.identify delta uncovered) } := by
  have hquiet : Quiet t.state t.state := ⟨rfl, rfl, rfl⟩
  obtain ⟨hgiven, haffected⟩ := hphase
  rw [State.advance]
  split
  · exact h.goto hquiet (.discover _) hgiven
  · split
    · exact h.goto hquiet (.unaffected _) haffected
    · exact h.goto hquiet _ (phaseOk_afterDiscovery hgiven)

theorem Inv.discover (h : Inv t) (hgiven : Given t run.delta) :
    Inv { t with state := t.state.advance answer (.discover run) } := by
  rw [State.advance]
  split
  · exact h.goto ⟨rfl, rfl, rfl⟩ _ (phaseOk_afterDiscovery hgiven)
  · exact h.goto Quiet.discoverAndAssignNewRepos _
      (phaseOk_afterDiscovery (hgiven.quiet Quiet.discoverAndAssignNewRepos))

theorem Inv.detect (h : Inv t) (hsame : ResumableStep t answer .detect) :
    Inv { t.note answer .detect with state := t.state.advance answer .detect } := by
  have hgiven : ∀ work ∈ t.given ++ [workOf t.state t.state.detectChanges], ∀ work' ∈ t.given ++
      [workOf t.state t.state.detectChanges], work.aliases = work'.aliases → work = work' := by
    intro work hwork work' hwork' heq
    rcases mem_append.mp hwork with hwork | hwork <;> rcases mem_append.mp hwork' with hwork' | hwork'
    · exact h.given work hwork work' hwork' heq
    · rw [mem_singleton.mp hwork'] at heq ⊢; exact hsame work hwork heq
    · rw [mem_singleton.mp hwork] at heq ⊢; exact (hsame work' hwork' heq.symm).symm
    · rw [mem_singleton.mp hwork, mem_singleton.mp hwork']
  have hjournals : ∀ domain doc aliases, t.state.docs.get? domain = some doc → doc.lastDeltaApplied = some aliases →
      ∃ work ∈ t.given ++ [workOf t.state t.state.detectChanges], work.aliases = aliases ∧
      .updated domain work ∈ t.log :=
    fun domain doc aliases hdoc hlast => by
      obtain ⟨work, hwork, hfound⟩ := h.journals domain doc aliases hdoc hlast
      exact ⟨work, mem_append_left _ hwork, hfound⟩
  rw [State.advance]
  split
  · exact ⟨h.legal, hgiven, hjournals, fun pc hpc => by cases hpc⟩
  · refine ⟨h.legal, hgiven, hjournals, ?_⟩
    rintro _ ⟨⟩
    exact ⟨⟨rfl, mem_append_right _ (mem_singleton.mpr rfl)⟩, rfl⟩

/-! ### Updates -/

theorem Journals.setDoc (h : Journals t) {doc : DomainDoc} {log : List Event} (hlog : ∀ e ∈ t.log, e ∈ log)
    (hdoc : ∀ aliases, doc.lastDeltaApplied = some aliases → (t.state.docOf domain).lastDeltaApplied = some aliases ∨
      ∃ work ∈ t.given, work.aliases = aliases ∧ .updated domain work ∈ log) :
    ∀ domain' doc' aliases, (t.state.docs.set domain doc).get? domain' = some doc' →
      doc'.lastDeltaApplied = some aliases →
      ∃ work ∈ t.given, work.aliases = aliases ∧ .updated domain' work ∈ log := by
  intro domain' doc' aliases hget hlast
  have hold : ∀ d doc, t.state.docs.get? d = some doc → doc.lastDeltaApplied = some aliases →
      ∃ work ∈ t.given, work.aliases = aliases ∧ .updated d work ∈ log := fun d doc hget hlast => by
    obtain ⟨work, hwork, haliases, hupdated⟩ := h d doc aliases hget hlast
    exact ⟨work, hwork, haliases, hlog _ hupdated⟩
  rw [Dict.get?_set] at hget
  split at hget
  · rename_i heq
    cases hget
    rw [heq]
    rcases hdoc aliases hlast with hlast | hnew
    · obtain ⟨old, hold', hlast⟩ := lastDeltaApplied_docOf hlast
      exact hold domain old hold' hlast
    · exact hnew
  · exact hold domain' doc' hget hlast

def Traced.afterUpdate (t : Traced) (run : Run) (domain : Str) (answer : Answer) : Traced :=
  { t with
    affected := run.affectedDomains
    errors := t.errors || raises t.state run.delta domain answer
    log := t.log ++ eventOf t.state t.current run.delta domain answer
    state := t.state.updateDomain run.delta domain answer }

theorem repos_updateDomain : (s.updateDomain delta domain answer).repos = s.repos := by
  rcases updateDomain_cases s ⟨delta, []⟩ delta domain answer with
    ⟨h, -⟩ | ⟨-, h, -⟩ | ⟨doc, applied, h, -⟩ | ⟨-, -, h, -⟩ <;> rw [h]

theorem Inv.afterUpdate (h : Inv t) (hgiven : Given t run.delta)
    (hcareful : t.state.journaled run.delta domain = true ∨ (settled answer.attempts).isSome = true ∨
      raises t.state run.delta domain answer = true) :
    History.Legal Event.Backed (t.afterUpdate run domain answer).log ∧ Journals (t.afterUpdate run domain answer) ∧
      ((t.afterUpdate run domain answer).errors = true ∨ Done (t.afterUpdate run domain answer) domain) := by
  rw [Traced.afterUpdate]
  rcases updateDomain_cases t.state t.current run.delta domain answer with ⟨hstate, hevent, hraises⟩ |
    ⟨hjournal, hstate, hevent⟩ | ⟨doc, applied, hstate, hdoc, hevent⟩ | ⟨hjournal, hsettled, hstate, hevent⟩
  · rw [hstate, hevent, hraises, append_nil, Bool.or_true]
    exact ⟨h.legal, h.journals, .inl rfl⟩
  · have hdone := h.done_of_journaled hgiven hjournal
    rw [hstate, hevent]
    refine ⟨h.legal.concat hdone, fun d doc aliases hdoc hlast => ?_, .inr (mem_append_left _ hdone)⟩
    obtain ⟨work, hwork, haliases, hupdated⟩ := h.journals d doc aliases hdoc hlast
    exact ⟨work, hwork, haliases, mem_append_left _ hupdated⟩
  · rw [hstate, hevent, ← hgiven.1]
    refine ⟨h.legal.concat trivial, ?_, .inr (mem_append_right _ (mem_singleton.mpr rfl))⟩
    refine Journals.setDoc h.journals (fun e he => mem_append_left _ he) fun aliases hlast => ?_
    rcases hdoc with rfl | hdoc
    · exact .inl hlast
    · obtain rfl := Option.mem_unique hdoc hlast
      exact .inr ⟨t.current, hgiven.2, by rw [hgiven.1]; rfl, mem_append_right _ (mem_singleton.mpr rfl)⟩
  · have hraises : raises t.state run.delta domain answer = true := by
      rw [hjournal, hsettled] at hcareful
      simpa using hcareful
    rw [hstate, hevent, hraises, append_nil, Bool.or_true]
    exact ⟨h.legal, Journals.setDoc h.journals (fun e he => he) fun aliases hlast => .inl hlast, .inl rfl⟩

theorem Inv.update (h : Inv t) {todo : List Str} (hphase : PhaseOk t (.update run todo))
    (hcareful : ResumableStep t answer (.update run todo)) :
    Inv { t.note answer (.update run todo) with state := t.state.advance answer (.update run todo) } := by
  obtain ⟨hgiven, htodo⟩ := hphase
  cases todo with
  | nil =>
    have hphase : t.errors = true ∨ ∀ domain ∈ run.affectedDomains, Done t domain := by
      by_cases herrors : t.errors = true
      · exact .inl herrors
      · exact .inr fun domain hdomain => ((htodo domain hdomain).resolve_left not_mem_nil).resolve_left herrors
    refine ⟨h.legal, h.given, h.journals, ?_⟩
    rintro _ ⟨⟩
    exact .inr hphase
  | cons domain todo =>
    rw [State.advance, Traced.note]
    split
    · rename_i hcancel
      refine ⟨h.legal, h.given, h.journals, ?_⟩
      rintro _ ⟨⟩
      exact .inl hcancel
    · rename_i hcancel
      obtain ⟨hlegal, hjournals, hdone⟩ := h.afterUpdate hgiven (hcareful.resolve_left hcancel)
      refine ⟨hlegal, h.given, hjournals, ?_⟩
      rintro _ ⟨⟩
      refine ⟨⟨hgiven.1.trans (workOf_of_repos repos_updateDomain).symm, hgiven.2⟩, fun d hd => ?_⟩
      rcases htodo d hd with hmem | herrors | hupdated
      · rcases mem_cons.mp hmem with rfl | hmem
        · exact .inr hdone
        · exact .inl hmem
      · exact .inr (.inl (by rw [herrors, Bool.true_or]))
      · exact .inr (.inr (mem_append_left _ hupdated))

theorem Inv.finalize (h : Inv t) {repos : List Str} (hphase : PhaseOk t (.finalize repos)) :
    Inv { t.note answer (.finalize repos) with state := t.state.advance answer (.finalize repos) } := by
  rw [Traced.note]
  split
  · rename_i hsuccess
    obtain ⟨hcancel, herrors⟩ := Bool.and_eq_true_iff.mp hsuccess
    rw [Bool.not_eq_true'] at hcancel herrors
    have hdone : ∀ domain ∈ t.affected, Done t domain := by
      rcases hphase with hset | hset | hdone
      · rw [hcancel] at hset; cases hset
      · rw [herrors] at hset; cases hset
      · exact hdone
    refine ⟨h.legal.concat hdone, h.given, fun domain doc aliases hdoc hlast => ?_, fun pc hpc => by cases hpc⟩
    obtain ⟨work, hwork, haliases, hupdated⟩ := h.journals domain doc aliases hdoc hlast
    exact ⟨work, hwork, haliases, mem_append_left _ hupdated⟩
  · exact ⟨h.legal, h.given, h.journals, fun pc hpc => by cases hpc⟩

theorem Inv.advance (h : Inv t) {pc : Pc} (hphase : PhaseOk t pc) (hcareful : ResumableStep t answer pc) :
    Inv { t.note answer pc with state := t.state.advance answer pc } := by
  cases pc with
  | detect => exact h.detect hcareful
  | identify delta uncovered => exact h.identify hphase
  | unaffected delta =>
    refine h.goto (Quiet.removeStaleRepos _ _) (.finalize _) (.inr (.inr fun domain hdomain => ?_))
    rw [hphase] at hdomain
    cases hdomain
  | discover run => exact h.discover hphase
  | discoverUncovered run =>
    exact h.goto Quiet.discoverAndAssignNewRepos _
      (phaseOk_afterDiscovery (Given.quiet hphase Quiet.discoverAndAssignNewRepos))
  | update run todo => exact h.update hphase hcareful
  | clean run =>
    have hquiet := Quiet.removeStaleRepos (s := t.state) run.delta.removed answer.written
    refine h.goto hquiet (.regenerate _) ?_
    exact hphase.imp_left fun hcancel => hquiet.cancelEvent.trans hcancel
  | regenerate run =>
    have hquiet : Quiet t.state { t.state with
        live := if answer.written then { t.state.live with index := some t.state.matrixRows } else t.state.live } :=
      ⟨rfl, rfl, rfl⟩
    exact h.goto hquiet (.finalize run.reposToFinalize) hphase
  | finalize repos => exact h.finalize hphase

/-! ### Steps outside a run -/

theorem Given.work (h : Given t delta) (hwork : workOf s' delta = workOf t.state delta) :
    Given { t with state := s' } delta :=
  ⟨h.1.trans hwork.symm, h.2⟩

theorem PhaseOk.outside {pc : Pc} (h : PhaseOk t pc)
    (hwork : ∀ delta ∈ deltaOf pc, workOf s' delta = workOf t.state delta)
    (hcancel : t.state.cancelEvent = true → s'.cancelEvent = true) : PhaseOk { t with state := s' } pc := by
  cases pc with
  | detect => trivial
  | identify delta uncovered => exact ⟨h.1.work (hwork delta rfl), h.2⟩
  | unaffected delta => exact h
  | discover run | discoverUncovered run => exact Given.work h (hwork _ rfl)
  | update run todo => exact ⟨h.1.work (hwork _ rfl), h.2⟩
  | clean run | regenerate run | finalize repos => exact h.imp_left hcancel

theorem Inv.outside (h : Inv t) (hdocs : s'.docs = t.state.docs)
    (hwork : ∀ pc ∈ s'.pc, pc ∈ t.state.pc ∧ ∀ delta ∈ deltaOf pc, workOf s' delta = workOf t.state delta)
    (hcancel : t.state.cancelEvent = true → s'.cancelEvent = true) : Inv { t with state := s' } :=
  ⟨h.legal, h.given, fun domain doc aliases hdoc => h.journals domain doc aliases (hdocs ▸ hdoc),
    fun pc hpc => (h.phase pc (hwork pc hpc).1).outside (hwork pc hpc).2 hcancel⟩

theorem currentCommit_removeRepo (repo r : Str) :
    State.currentCommit { s with repos := s.repos.erase repo } r = if r = repo then none else s.currentCommit r := by
  rw [State.currentCommit, State.currentCommit, Dict.get?_erase]
  split <;> rfl

theorem Inv.step {t' : Traced} (h : Inv t) {a : Act} (hcareful : Resumable t a) (hs : t.step a = some t') : Inv t' := by
  obtain ⟨s', hs', rfl⟩ := Option.map_eq_some_iff.1 hs
  cases a with
  | setRepo repo golden =>
    cases hs'
    refine h.outside rfl (fun pc hpc => ⟨hpc, fun delta hdelta => workOf_congr fun r hr => ?_⟩) fun hcancel => hcancel
    by_cases heq : r = repo
    · subst heq
      rw [State.currentCommit, Dict.get?_set_self]
      exact hcareful pc hpc delta hdelta hr
    · exact currentCommit_setRepo heq
  | removeRepo repo =>
    cases hs'
    refine h.outside rfl (fun pc hpc => ⟨hpc, fun delta hdelta => workOf_congr fun r hr => ?_⟩) fun hcancel => hcancel
    rw [currentCommit_removeRepo]
    split
    · rename_i heq; subst heq; exact (hcareful pc hpc delta hdelta hr).symm
    · rfl
  | refresh =>
    cases hs'
    exact h.outside rfl (fun pc hpc => ⟨hpc, fun delta _ => workOf_of_repos rfl⟩) fun hcancel => hcancel
  | cancel =>
    obtain ⟨pc, -, rfl⟩ := Option.map_eq_some_iff.1 hs'
    exact h.outside rfl (fun pc hpc => ⟨hpc, fun delta _ => workOf_of_repos rfl⟩) fun _ => rfl
  | start =>
    rw [State.step] at hs'
    split at hs' <;> cases hs'
    refine ⟨h.legal, h.given, h.journals, ?_⟩
    rintro _ ⟨⟩
    trivial
  | crash =>
    cases hs'
    exact ⟨h.legal, h.given, h.journals, fun pc hpc => by cases hpc⟩
  | advance answer =>
    obtain ⟨pc, hpc, rfl⟩ := Option.map_eq_some_iff.1 hs'
    rw [hpc]
    exact h.advance (h.phase pc hpc) (hcareful pc hpc)

/-- If two runs that are given the same aliases are given the same commits, a domain is skipped only if it was updated
with what the run is given, and so was every affected domain of a run that reports success. -/
theorem backed_of_resumable (h : system.Reachable Resumable t) : History.Legal Event.Backed t.log := by
  have hinv : Inv t := by
    refine h.invariant ?_ fun t₁ a t₂ hinv hcareful hs => hinv.step hcareful hs
    rintro _ ⟨s, hidle, hdocs, rfl⟩
    refine ⟨History.legal_nil, nofun, fun domain doc aliases hdoc hlast => ?_, fun pc hpc => ?_⟩
    · rw [hdocs domain doc hdoc] at hlast
      cases hlast
    · have hnone : some pc = none := hpc.symm.trans hidle
      cases hnone
  exact hinv.legal

end Steps

/-! ### Runs -/

def given (hash : String) : Work := ⟨⟨["api"], [], []⟩, [("api", some hash.toList)]⟩

theorem mapped_start : system.init (.start .mapped) := by
  refine ⟨.mapped, rfl, fun domain doc hdoc => ?_, rfl⟩
  have hitem : (domain, doc) = ("web".toList, ⟨["api".toList], none⟩) := mem_singleton.1 (Dict.mem_items_iff.2 hdoc)
  rw [(Prod.mk.inj hitem).2]

/-- The run is interrupted after its update and resumed. -/
theorem backed_of_resumable_interrupted : ∃ t, system.Reachable Resumable t ∧
    t.log = [.updated "web" (given "2"), .skipped "web" (given "2"), .reported ["web"] (given "2")] ∧
    History.Legal Event.Backed t.log := by
  exact exists_of_run_and (.start .mapped)
    [commit "api" "2", .start, go, go, attempt [.failed, .written true], .crash, .start, go, go, go, go, go, go, go]
    mapped_start (by decide +kernel) fun t ht _ => backed_of_resumable ht

/-- The run is interrupted after its update, and the repository has another commit when it is resumed: the domain is
skipped, and the run reports success. So does a run whose update fails. -/
theorem skipped_unseen :
    (∃ t, system.Reachable TransitionSystem.Any t ∧
      t.log = [.updated "web" (given "2"), .skipped "web" (given "3"), .reported ["web".toList] (given "3")] ∧
      ¬History.Legal Event.Backed t.log) ∧
    ∃ t, system.Reachable TransitionSystem.Any t ∧ t.log = [.reported ["web".toList] (given "2")] ∧
      ¬History.Legal Event.Backed t.log := by
  constructor
  · refine exists_of_run_and (.start .mapped)
      [commit "api" "2", .start, go, go, attempt [.written true], .crash, commit "api" "3", .start, go, go,
      go, go, go, go,
       go] mapped_start (by decide +kernel) fun t ht hlog hlegal => ?_
    have hbacked : Event.updated "web" (given "3") ∈ [Event.updated "web" (given "2")] :=
      hlegal [.updated "web" (given "2")] (.skipped "web" (given "3")) [.reported ["web".toList] (given "3")] hlog
    exact absurd hbacked (by decide)
  · refine exists_of_run_and (.start .mapped)
      [commit "api" "2", .start, go, go, attempt [.failed, .failed, .failed], go, go, go, go] mapped_start
      (by decide +kernel) fun t ht hlog hlegal => ?_
    have hbacked : ∀ domain ∈ ["web".toList], Event.updated domain (given "2") ∈ ([] : List Event) :=
      hlegal [] (.reported ["web".toList] (given "2")) [] hlog
    exact absurd (hbacked "web" (mem_singleton.mpr rfl)) not_mem_nil

end CodeIndexer.DependencyMap.Resume
