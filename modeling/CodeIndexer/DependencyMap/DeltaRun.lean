import CodeIndexer.Lib.Dict
import CodeIndexer.Lib.PyText
import CodeIndexer.Lib.Transition

/-!
# A delta run of the dependency map (`DependencyMapService.run_delta_analysis`)

A delta run compares the recorded commit of every repository with its current one, has the domain documents that
the changed repositories affect rewritten by Claude, one after the other, and then records the current commits.
What the files say of repositories and domains is read from the latest snapshot of `cidx-meta` and written to its
live directory; the refresh of `cidx-meta` takes the next snapshot.

Repositories change, snapshots are taken and cancellations are requested between any two steps of a run, and an
exception or the end of the process ends it at any of them. `applied` is a ghost: which domain was updated with
which commit of a repository.
-/

namespace CodeIndexer.DependencyMap

open PyText List

/-- An activated golden repository. `currentCommit` is `read_current_commit` of its clone, which never returns an
empty string. -/
structure GoldenRepo where
  currentCommit : Option Str
  fileCount : ℕ
deriving DecidableEq

structure Delta where
  changed : List Str
  new : List Str
  removed : List Str
deriving DecidableEq

namespace Delta

def updated (delta : Delta) : List Str := delta.changed ++ delta.new

def fingerprint (delta : Delta) : Delta :=
  ⟨delta.changed.insertionSort (· ≤ ·), delta.new.insertionSort (· ≤ ·), delta.removed.insertionSort (· ≤ ·)⟩

end Delta

structure DomainDoc where
  participatingRepos : List Str
  lastDeltaApplied : Option Delta
deriving DecidableEq

/-- `_index.md`, as the rows of its matrix of repositories and domains, and `_domains.json`, as the participating
repositories of every domain. -/
structure MapDir where
  index : Option (List (Str × Str))
  domains : Option (Dict Str (List Str))
deriving DecidableEq

def participations (domains : Dict Str (List Str)) : List (Str × Str) :=
  domains.items.flatMap fun e => e.2.map fun repo => (repo, e.1)

variable {domains : Dict Str (List Str)} {p : Str × Str}

theorem mem_participations : p ∈ participations domains ↔ ∃ repos, domains.get? p.2 = some repos ∧ p.1 ∈ repos := by
  rw [participations, mem_flatMap]
  constructor
  · rintro ⟨e, he, hp⟩
    obtain ⟨repo, hrepo, rfl⟩ := mem_map.1 hp
    exact ⟨e.2, Dict.mem_items_iff.1 he, hrepo⟩
  · rintro ⟨repos, hget, hrepo⟩
    exact ⟨(p.2, repos), Dict.mem_items_iff.2 hget, mem_map.2 ⟨p.1, hrepo, rfl⟩⟩

/-- The domains that `_parse_repo_to_domain_mapping` has for a repository: those of its last row. -/
def domainsOf (rows : List (Str × Str)) (repo : Str) : List Str :=
  (rows.filter fun row => row.1 = repo).getLast?.elim [] fun row => (row.2.splitOn ',').map strip

/-- The set that `identify_affected_domains` returns, its marker `__NEW_REPO_DISCOVERY__` apart. -/
structure Affected where
  domains : List Str
  newRepoDiscovery : Bool

def identifyAffectedDomains (index : Option (List (Str × Str))) (delta : Delta) : Affected :=
  match index with
  | none => ⟨[], !delta.new.isEmpty⟩
  | some rows =>
    ⟨(delta.changed ++ delta.new ++ delta.removed).flatMap (domainsOf rows),
      delta.new.any fun repo => (domainsOf rows repo).isEmpty⟩

def assign (domains : Dict Str (List Str)) (assignment : Str × Str) : Dict Str (List Str) :=
  let repos := (domains.get? assignment.2).getD []
  domains.set assignment.2 (if assignment.1 ∈ repos then repos else repos ++ [assignment.1])

theorem mem_participations_assign {assignment : Str × Str}
    (h : p ∈ participations (assign domains assignment)) : p ∈ participations domains ∨ p = assignment := by
  obtain ⟨repos, hget, hrepo⟩ := mem_participations.1 h
  rw [assign, Dict.get?_set] at hget
  split at hget
  · rename_i hdomain
    cases hget
    -- The participants of the assignment's domain are the old ones and the assigned one.
    have hor : p.1 ∈ (domains.get? assignment.2).getD [] ∨ p.1 = assignment.1 := by
      split at hrepo
      · exact .inl hrepo
      · simpa using hrepo
    rcases hor with hold | heq
    · refine .inl (mem_participations.2 ?_)
      rw [hdomain]
      cases hget' : domains.get? assignment.2 with
      | none =>
        rw [hget'] at hold
        cases hold
      | some repos =>
        rw [hget'] at hold
        exact ⟨repos, rfl, hold⟩
    · exact .inr (Prod.ext heq hdomain)
  · exact .inl (mem_participations.2 ⟨repos, hget, hrepo⟩)

theorem mem_participations_foldl_assign {assignments : List (Str × Str)}
    (h : p ∈ participations (assignments.foldl assign domains)) : p ∈ participations domains ∨ p ∈ assignments := by
  induction assignments generalizing domains with
  | nil => exact .inl h
  | cons assignment assignments ih =>
    rcases ih h with h | h
    · rcases mem_participations_assign h with h | rfl
      · exact .inl h
      · exact .inr mem_cons_self
    · exact .inr (mem_cons_of_mem _ h)

def allNewReposHaveDomainAssignments (new : List Str) : Option (Dict Str (List Str)) → Bool
  | none => false
  | some domains => new.all fun repo => (participations domains).any fun p => p.1 = repo

/-- What `_update_domain_file` comes to. A written document is journaled unless that fails; one with an empty body
counts as failed. -/
inductive Attempt
  | written (journaled : Bool)
  | emptyBody
  | noop
  | failed
  | raised
deriving DecidableEq

def Attempt.settles : Attempt → Bool
  | .written _ => true
  | .noop => true
  | _ => false

def maxDomainRetries : ℕ := 3

def settled (attempts : List Attempt) : Option Attempt := (attempts.take maxDomainRetries).find? Attempt.settles

structure Run where
  delta : Delta
  uncovered : List Str
  affectedDomains : List Str
  allRepos : List Str
  discoveryWriteSuccess : Bool
deriving DecidableEq

inductive Pc
  | detect
  | identify (delta : Delta) (uncovered : List Str)
  | unaffected (delta : Delta)
  | discover (run : Run)
  | discoverUncovered (run : Run)
  | update (run : Run) (todo : List Str)
  | clean (run : Run)
  | regenerate (run : Run)
  | finalize (repos : List Str)
deriving DecidableEq

namespace Run

def afterDiscovery (run : Run) : Pc :=
  if run.uncovered = [] then .update run (run.affectedDomains.dedup.insertionSort (· ≤ ·)) else .discoverUncovered run

def reposToFinalize (run : Run) : List Str :=
  if run.discoveryWriteSuccess then run.allRepos else run.allRepos.filter fun repo => repo ∉ run.delta.new

end Run

/-- The environment's part in a step of a run; every step reads what it asks for. `assignments` is what Claude
assigns repositories to, `none` if that fails. -/
structure Answer where
  uncovered : List Str := []
  assignments : Option (List (Str × Str)) := none
  written : Bool := true
  attempts : List Attempt := []

structure State where
  repos : Dict Str GoldenRepo
  /-- `commit_hashes` of the tracking table. -/
  commitHashes : Dict Str Str
  live : MapDir
  snapshot : MapDir
  docs : Dict Str DomainDoc
  cancelEvent : Bool
  pc : Option Pc
  applied : List (Str × Str × Str)

namespace State

def currentCommit (s : State) (repo : Str) : Option Str := (s.repos.get? repo).bind GoldenRepo.currentCommit

variable (s : State)

def activatedRepos : List Str := s.repos.items.map Prod.fst

def nonEmptyRepos : List Str := (s.repos.items.filter fun e => e.2.fileCount ≠ 0).map Prod.fst

def hasChanged (repo : Str) : Bool :=
  match s.commitHashes.get? repo, s.currentCommit repo with
  | some stored, some current => decide (current ≠ stored)
  | _, _ => false

def detectChanges : Delta where
  changed := s.nonEmptyRepos.filter s.hasChanged
  new := s.nonEmptyRepos.filter fun repo => (s.commitHashes.get? repo).isNone
  removed := (s.commitHashes.items.map Prod.fst).filter fun repo => repo ∉ s.nonEmptyRepos

/-- One iteration of `_get_commit_hashes`: repositories without readable metadata are left out. -/
def addCommitHash (hashes : Dict Str Str) (repo : Str) : Dict Str Str :=
  match s.currentCommit repo with
  | none => hashes
  | some commit => hashes.set repo commit

def getCommitHashes (repos : List Str) : Dict Str Str := repos.foldl s.addCommitHash .empty

def Current (hashes : Dict Str Str) : Prop :=
  ∀ repo commit, hashes.get? repo = some commit → s.currentCommit repo = some commit

theorem Current.addCommitHash {s : State} {hashes : Dict Str Str} (h : s.Current hashes) (repo : Str) :
    s.Current (s.addCommitHash hashes repo) := by
  intro repo' commit hget
  rw [State.addCommitHash] at hget
  split at hget
  · exact h repo' commit hget
  · rename_i current hcurrent
    rw [Dict.get?_set] at hget
    split at hget
    · rename_i heq
      rw [heq, hcurrent]
      exact hget
    · exact h repo' commit hget

theorem current_getCommitHashes (repos : List Str) : s.Current (s.getCommitHashes repos) := by
  have hfold : ∀ hashes, s.Current hashes → s.Current (repos.foldl s.addCommitHash hashes) := by
    induction repos with
    | nil => exact fun hashes h => h
    | cons repo repos ih => exact fun hashes h => ih _ (h.addCommitHash repo)
  refine hfold .empty fun repo commit hget => ?_
  cases hget

/-- `_discover_and_assign_new_repos`. That `_domains.json` is not written is only logged. -/
def discoverAndAssignNewRepos (answer : Answer) : State × List Str × Bool :=
  match answer.assignments with
  | none => (s, [], true)
  | some assignments =>
    let domains := assignments.foldl assign (s.snapshot.domains.getD .empty)
    (if answer.written then { s with live := { s.live with domains := some domains } } else s,
      assignments.map Prod.snd, true)

def removeStaleRepos (removed : List Str) (written : Bool) : State :=
  match s.snapshot.domains with
  | none => s
  | some domains =>
    if ((participations domains).any fun p => p.1 ∈ removed) && written then
      { s with live := { s.live with
          domains := some (domains.updateWhere (fun _ => true) fun repos => repos.filter fun repo => repo ∉ removed) } }
    else s

def buildMatrixRows : List (Str × Str) :=
  (s.live.domains.getD .empty).items.flatMap fun e =>
    match s.docs.get? e.1 with
    | none => []
    | some doc =>
      if e.1 = [] then []
      else (if doc.participatingRepos = [] then e.2 else doc.participatingRepos).map fun repo => (repo, e.1)

/-- The rows as `_format_index_md` writes them. -/
def matrixRows : List (Str × Str) :=
  s.buildMatrixRows.insertionSort fun a b => a.1 < b.1 ∨ a.1 = b.1 ∧ a.2 ≤ b.2

def commitsRead (delta : Delta) (domain : Str) : List (Str × Str × Str) :=
  delta.updated.filterMap fun repo => (s.currentCommit repo).map fun commit => (repo, commit, domain)

def docOf (domain : Str) : DomainDoc := (s.docs.get? domain).getD ⟨[], none⟩

def journaled (delta : Delta) (domain : Str) : Bool :=
  (s.docOf domain).lastDeltaApplied = some delta.fingerprint

def updateDomain (delta : Delta) (domain : Str) (answer : Answer) : State :=
  -- The placeholder of a missing document cannot be created.
  if (s.docs.get? domain).isNone && !answer.written then s
  else if s.journaled delta domain then s
  else
    let doc := s.docOf domain
    match settled answer.attempts with
    | some (.written true) =>
      { s with
        docs := s.docs.set domain { doc with lastDeltaApplied := some delta.fingerprint }
        applied := s.applied ++ s.commitsRead delta domain }
    | some _ => { s with docs := s.docs.set domain doc, applied := s.applied ++ s.commitsRead delta domain }
    | none => { s with docs := s.docs.set domain doc }

def advance (answer : Answer) : Pc → State
  | .detect =>
    let delta := s.detectChanges
    if delta = ⟨[], [], []⟩ ∧ answer.uncovered = [] then { s with pc := none }
    else { s with pc := some (.identify delta answer.uncovered) }
  | .identify delta uncovered =>
    let affected := identifyAffectedDomains s.snapshot.index delta
    let run : Run := ⟨delta, uncovered, affected.domains, s.activatedRepos, true⟩
    if affected.newRepoDiscovery then { s with pc := some (.discover run) }
    else if affected.domains = [] then { s with pc := some (.unaffected delta) }
    else { s with pc := some run.afterDiscovery }
  | .unaffected delta =>
    { s.removeStaleRepos delta.removed answer.written with pc := some (.finalize s.activatedRepos) }
  | .discover run =>
    if allNewReposHaveDomainAssignments run.delta.new s.live.domains then { s with pc := some run.afterDiscovery }
    else
      let (s, discovered, success) := s.discoverAndAssignNewRepos answer
      let run := { run with
        affectedDomains := run.affectedDomains ++ discovered
        discoveryWriteSuccess := success }
      { s with pc := some run.afterDiscovery }
  | .discoverUncovered run =>
    let (s, discovered, _) := s.discoverAndAssignNewRepos answer
    let run := { run with uncovered := [], affectedDomains := run.affectedDomains ++ discovered }
    { s with pc := some run.afterDiscovery }
  | .update run [] => { s with pc := some (.clean run) }
  | .update run (domain :: todo) =>
    if s.cancelEvent then { s with pc := some (.clean run) }
    else { s.updateDomain run.delta domain answer with pc := some (.update run todo) }
  | .clean run =>
    { s.removeStaleRepos run.delta.removed answer.written with pc := some (.regenerate run) }
  | .regenerate run =>
    -- A failure is only logged.
    { s with
      live := if answer.written then { s.live with index := some s.matrixRows } else s.live
      pc := some (.finalize run.reposToFinalize) }
  | .finalize repos =>
    -- Whatever became of the updates.
    { s with commitHashes := s.getCommitHashes repos, pc := none }

end State

inductive Act
  | setRepo (repo : Str) (golden : GoldenRepo)
  | removeRepo (repo : Str)
  | refresh
  | cancel
  | start
  | crash
  | advance (answer : Answer)

/-- There is one run at a time, and a cancellation is refused when there is none. -/
def State.step (s : State) : Act → Option State
  | .setRepo repo golden => some { s with repos := s.repos.set repo golden }
  | .removeRepo repo => some { s with repos := s.repos.erase repo }
  | .refresh => some { s with snapshot := s.live }
  | .cancel => s.pc.map fun _ => { s with cancelEvent := true }
  | .start => if s.pc.isNone then some { s with cancelEvent := false, pc := some .detect } else none
  | .crash => some { s with pc := none }
  | .advance answer => s.pc.map (s.advance answer)

/-- The pairs of a repository and a domain that it affects, as any of the files has them. -/
def MapDir.pairs (m : MapDir) : List (Str × Str) := m.index.getD [] ++ participations (m.domains.getD .empty)

namespace State

def affects (s : State) : List (Str × Str) :=
  s.live.pairs ++ s.snapshot.pairs ++ s.docs.items.flatMap fun e => e.2.participatingRepos.map fun repo => (repo, e.1)

theorem mem_affects {s : State} {p : Str × Str} :
    p ∈ s.affects ↔ p ∈ s.live.pairs ∨ p ∈ s.snapshot.pairs ∨
      ∃ doc, s.docs.get? p.2 = some doc ∧ p.1 ∈ doc.participatingRepos := by
  rw [affects, mem_append, mem_append, or_assoc, mem_flatMap]
  refine or_congr_right (or_congr_right ?_)
  constructor
  · rintro ⟨e, he, hp⟩
    obtain ⟨repo, hrepo, rfl⟩ := mem_map.1 hp
    exact ⟨e.2, Dict.mem_items_iff.1 he, hrepo⟩
  · rintro ⟨doc, hget, hrepo⟩
    exact ⟨(p.2, doc), Dict.mem_items_iff.2 hget, mem_map.2 ⟨p.1, hrepo, rfl⟩⟩

/-- Every domain that a repository affects was updated with the repository's recorded commit. -/
def Recorded (s : State) : Prop :=
  ∀ repo commit domain, s.commitHashes.get? repo = some commit → (repo, domain) ∈ s.affects →
    (repo, commit, domain) ∈ s.applied

/-- The current commit of a repository that was not applied to a domain the repository affects is a change of the
next run. -/
def Reported (s : State) : Prop :=
  ∀ repo golden commit domain, s.repos.get? repo = some golden → golden.fileCount ≠ 0 →
    golden.currentCommit = some commit → (repo, domain) ∈ s.affects → (repo, commit, domain) ∉ s.applied →
      repo ∈ s.detectChanges.updated

end State

def system : TransitionSystem State Act where
  init s := s.pc = none ∧ s.Recorded
  step := State.step

end CodeIndexer.DependencyMap
