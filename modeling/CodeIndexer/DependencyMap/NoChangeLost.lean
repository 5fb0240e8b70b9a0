import CodeIndexer.DependencyMap.DeltaRun

/-!
# Changes that the delta loses

A run records the current commits at its end, whatever became of its updates: one that failed, was cancelled or was
left out because the domain's journal names the same repositories is recorded like the others, and so is a commit
that came after an update. In the histories without such steps (`Careful`), the recorded commit of a repository is
one that every domain it affects was updated with. Of the rows that the index has for a repository only the last is
read, so a repository of two domains is in such a history only if the others are affected through other repositories.
-/

namespace CodeIndexer.DependencyMap

open PyText TransitionSystem List

/-- The conditions on a step of a run. No empty repository has a domain; every domain of the repositories to update
is in the last row that the snapshot's index has for some repository of the delta; Claude assigns new repositories
only; no update is cancelled or fails, and one is left out for the journal's sake only if the domain was updated with
the current commits. -/
def CarefulStep (s : State) (answer : Answer) : Pc → Prop
  | .detect => ∀ p ∈ s.affects, ∀ golden ∈ s.repos.get? p.1, golden.fileCount ≠ 0
  | .identify delta _ => ∀ p ∈ s.affects, p.1 ∈ delta.updated →
    p.2 ∈ (delta.updated ++ delta.removed).flatMap (domainsOf (s.snapshot.index.getD []))
  | .discover run => ∀ p ∈ answer.assignments.getD [], p.1 ∈ run.delta.new
  | .discoverUncovered run => ∀ p ∈ answer.assignments.getD [], p.1 ∈ run.delta.new
  | .update run (domain :: _) =>
    s.cancelEvent = false ∧
    if s.journaled run.delta domain then ∀ e ∈ s.commitsRead run.delta domain, e ∈ s.applied
    else ((s.docs.get? domain).isSome ∨ answer.written = true) ∧ (settled answer.attempts).isSome = true
  | _ => True

instance (s : State) (answer : Answer) : (pc : Pc) → Decidable (CarefulStep s answer pc)
  | .detect => inferInstanceAs (Decidable (∀ p ∈ s.affects, ∀ golden ∈ s.repos.get? p.1, _ ≠ _))
  | .identify _ _ => inferInstanceAs (Decidable (∀ p ∈ s.affects, _ → _ ∈ _))
  | .discover _ => inferInstanceAs (Decidable (∀ p ∈ answer.assignments.getD [], _ ∈ _))
  | .discoverUncovered _ => inferInstanceAs (Decidable (∀ p ∈ answer.assignments.getD [], _ ∈ _))
  | .update _ (_ :: _) => inferInstanceAs (Decidable (_ ∧ ite _ _ _))
  | .unaffected _ | .update _ [] | .clean _ | .regenerate _ | .finalize _ => .isTrue trivial

/-- A commit of the repository is not too late for a run: the repository affects no domain, or it is in the delta and
none of its domains has been updated. -/
def Timely (s : State) (repo : Str) : Pc → Prop
  | .detect => True
  | .identify delta _ => ∀ p ∈ s.affects, p.1 = repo → repo ∈ delta.updated
  | .discover run => ∀ p ∈ s.affects, p.1 = repo → repo ∈ run.delta.updated
  | .discoverUncovered run => ∀ p ∈ s.affects, p.1 = repo → repo ∈ run.delta.updated
  | .update run todo => ∀ p ∈ s.affects, p.1 = repo → repo ∈ run.delta.updated ∧ p.2 ∈ todo
  | _ => ∀ p ∈ s.affects, p.1 ≠ repo

instance (s : State) (repo : Str) : (pc : Pc) → Decidable (Timely s repo pc)
  | .detect => inferInstanceAs (Decidable True)
  | .identify _ _ => inferInstanceAs (Decidable (∀ p ∈ s.affects, _ → _ ∈ _))
  | .unaffected _ => inferInstanceAs (Decidable (∀ p ∈ s.affects, _ ≠ _))
  | .discover _ => inferInstanceAs (Decidable (∀ p ∈ s.affects, _ → _ ∈ _))
  | .discoverUncovered _ => inferInstanceAs (Decidable (∀ p ∈ s.affects, _ → _ ∈ _))
  | .update _ _ => inferInstanceAs (Decidable (∀ p ∈ s.affects, _ → _ ∈ _ ∧ _ ∈ _))
  | .clean _ => inferInstanceAs (Decidable (∀ p ∈ s.affects, _ ≠ _))
  | .regenerate _ => inferInstanceAs (Decidable (∀ p ∈ s.affects, _ ≠ _))
  | .finalize _ => inferInstanceAs (Decidable (∀ p ∈ s.affects, _ ≠ _))

def Careful (s : State) : Act → Prop
  | .setRepo repo _ => ∀ pc ∈ s.pc, Timely s repo pc
  | .advance answer => ∀ pc ∈ s.pc, CarefulStep s answer pc
  | _ => True

instance (s : State) : (a : Act) → Decidable (Careful s a)
  | .setRepo repo _ => inferInstanceAs (Decidable (∀ pc ∈ s.pc, Timely s repo pc))
  | .advance answer => inferInstanceAs (Decidable (∀ pc ∈ s.pc, CarefulStep s answer pc))
  | .removeRepo _ | .refresh | .cancel | .start | .crash => .isTrue trivial

variable {s s' : State}

/-! ### What a step keeps -/

/-- The steps between the detection and the end of a run: no new commit, no new domain of a repository, no update
undone, nothing recorded. -/
structure Kept (s s' : State) : Prop where
  currentCommit : ∀ repo commit, s'.currentCommit repo = some commit → s.currentCommit repo = some commit
  affects : ∀ p ∈ s'.affects, p ∈ s.affects
  applied : ∀ e ∈ s.applied, e ∈ s'.applied
  commitHashes : s'.commitHashes = s.commitHashes

def Followed (s : State) (repo domain : Str) : Prop :=
  ∀ commit, s.currentCommit repo = some commit → (repo, commit, domain) ∈ s.applied

/-- A repository that affects a domain is in the delta unless its commit is the recorded one. -/
def Noticed (s : State) (delta : Delta) : Prop :=
  ∀ repo commit domain, s.currentCommit repo = some commit → (repo, domain) ∈ s.affects →
    s.commitHashes.get? repo = some commit ∨ repo ∈ delta.updated

def Unrecorded (s : State) (delta : Delta) : Prop := ∀ repo ∈ delta.new, s.commitHashes.get? repo = none

def Planned (s : State) (run : Run) : Prop :=
  ∀ repo domain, repo ∈ run.delta.updated → (repo, domain) ∈ s.affects → domain ∈ run.affectedDomains

def AllFollowed (s : State) : Prop := ∀ repo domain, (repo, domain) ∈ s.affects → Followed s repo domain

def PcOk (s : State) : Pc → Prop
  | .detect => True
  | .identify delta _ => Noticed s delta ∧ Unrecorded s delta
  | .unaffected _ => AllFollowed s
  | .discover run => Noticed s run.delta ∧ Unrecorded s run.delta ∧ Planned s run
  | .discoverUncovered run => Noticed s run.delta ∧ Unrecorded s run.delta ∧ Planned s run
  | .update run todo =>
    Noticed s run.delta ∧
    ∀ repo domain, repo ∈ run.delta.updated → (repo, domain) ∈ s.affects → domain ∈ todo ∨ Followed s repo domain
  | .clean _ => AllFollowed s
  | .regenerate _ => AllFollowed s
  | .finalize _ => AllFollowed s

namespace Kept

theorem followed (hkept : Kept s s') {repo domain : Str} (h : Followed s repo domain) : Followed s' repo domain :=
  fun commit hcommit => hkept.applied _ (h commit (hkept.currentCommit repo commit hcommit))

theorem allFollowed (hkept : Kept s s') (h : AllFollowed s) : AllFollowed s' :=
  fun repo domain hmem => hkept.followed (h repo domain (hkept.affects _ hmem))

variable {delta : Delta}

section

variable (hkept : Kept s s')
include hkept

theorem noticed (h : Noticed s delta) : Noticed s' delta := by
  intro repo commit domain hcommit hmem
  rw [hkept.commitHashes]
  exact h repo commit domain (hkept.currentCommit repo commit hcommit) (hkept.affects _ hmem)

theorem unrecorded (h : Unrecorded s delta) : Unrecorded s' delta := by
  intro repo hnew
  rw [hkept.commitHashes]
  exact h repo hnew

theorem planned {run : Run} (h : Planned s run) : Planned s' run :=
  fun repo domain hrepo hmem => h repo domain hrepo (hkept.affects _ hmem)

theorem recorded (h : s.Recorded) : s'.Recorded := by
  intro repo commit domain hcommit hmem
  rw [hkept.commitHashes] at hcommit
  exact hkept.applied _ (h repo commit domain hcommit (hkept.affects _ hmem))

theorem pcOk {pc : Pc} (h : PcOk s pc) : PcOk s' pc := by
  cases pc with
  | detect => trivial
  | identify delta uncovered => exact ⟨hkept.noticed h.1, hkept.unrecorded h.2⟩
  | unaffected delta | clean run | regenerate run | finalize repos => exact hkept.allFollowed h
  | discover run | discoverUncovered run => exact ⟨hkept.noticed h.1, hkept.unrecorded h.2.1, hkept.planned h.2.2⟩
  | update run todo =>
    refine ⟨hkept.noticed h.1, fun repo domain hrepo hmem => ?_⟩
    exact (h.2 repo domain hrepo (hkept.affects _ hmem)).imp_right hkept.followed

end

end Kept

variable {delta : Delta} {repo domain : Str}

theorem Noticed.allFollowed (h : Noticed s delta) (hrecorded : s.Recorded)
    (hdelta : ∀ repo domain, repo ∈ delta.updated → (repo, domain) ∈ s.affects → Followed s repo domain) :
    AllFollowed s := by
  intro repo domain hmem commit hcommit
  rcases h repo commit domain hcommit hmem with hstored | hupdated
  · exact hrecorded repo commit domain hstored hmem
  · exact hdelta repo domain hupdated hmem commit hcommit

/-! ### The steps that are kept -/

namespace Kept

theorem of_eq (hrepos : s'.repos = s.repos) (haffects : ∀ p ∈ s'.affects, p ∈ s.affects)
    (happlied : ∀ e ∈ s.applied, e ∈ s'.applied) (hhashes : s'.commitHashes = s.commitHashes) : Kept s s' where
  currentCommit repo commit h := by
    rw [State.currentCommit, hrepos] at h
    exact h
  affects := haffects
  applied := happlied
  commitHashes := hhashes

theorem control (cancelEvent : Bool) (pc : Option Pc) : Kept s { s with cancelEvent := cancelEvent, pc := pc } :=
  .of_eq rfl (fun _ hp => hp) (fun _ he => he) rfl

theorem removeRepo (repo : Str) : Kept s { s with repos := s.repos.erase repo } where
  currentCommit r commit h := by
    obtain ⟨golden, hget, hcommit⟩ := Option.bind_eq_some_iff.1 h
    exact Option.bind_eq_some_iff.2 ⟨golden, (Dict.get?_erase_eq_some.1 hget).2, hcommit⟩
  affects _ hp := hp
  applied _ he := he
  commitHashes := rfl

theorem refresh : Kept s { s with snapshot := s.live } := by
  refine .of_eq rfl (fun p hp => ?_) (fun _ he => he) rfl
  rcases State.mem_affects.1 hp with hlive | hlive | hdoc
  · exact State.mem_affects.2 (.inl hlive)
  · exact State.mem_affects.2 (.inl hlive)
  · exact State.mem_affects.2 (.inr (.inr hdoc))

theorem writeLive {live : MapDir} (hlive : ∀ p ∈ live.pairs, p ∈ s.affects) : Kept s { s with live := live } := by
  refine .of_eq rfl (fun p hp => ?_) (fun _ he => he) rfl
  rcases State.mem_affects.1 hp with hp | hp | hdoc
  · exact hlive p hp
  · exact State.mem_affects.2 (.inr (.inl hp))
  · exact State.mem_affects.2 (.inr (.inr hdoc))

theorem removeStaleRepos (removed : List Str) (written : Bool) : Kept s (s.removeStaleRepos removed written) := by
  rw [State.removeStaleRepos]
  split
  · exact .control s.cancelEvent s.pc
  · rename_i domains hdomains
    split
    · refine .writeLive fun p hp => ?_
      rcases mem_append.1 hp with hindex | hpart
      · exact State.mem_affects.2 (.inl (mem_append_left _ hindex))
      · -- The participants that are left are among those of the snapshot.
        refine State.mem_affects.2 (.inr (.inl (mem_append_right _ ?_)))
        rw [hdomains]
        obtain ⟨repos, hget, hrepo⟩ := mem_participations.1 hpart
        rw [Option.getD_some, Dict.get?_updateWhere] at hget
        obtain ⟨repos', hget', rfl⟩ := Option.map_eq_some_iff.1 hget
        exact mem_participations.2 ⟨repos', hget', (mem_filter.1 hrepo).1⟩
    · exact .control s.cancelEvent s.pc

theorem mem_matrixRows {p : Str × Str} (h : p ∈ s.matrixRows) : p ∈ s.affects := by
  obtain ⟨e, he, hp⟩ := mem_flatMap.1 ((mem_insertionSort _).1 h)
  split at hp
  · cases hp
  · rename_i doc hdoc
    split at hp
    · cases hp
    · obtain ⟨repo, hrepo, rfl⟩ := mem_map.1 hp
      split at hrepo
      · exact State.mem_affects.2 (.inl (mem_append_right _
          (mem_participations.2 ⟨e.2, Dict.mem_items_iff.1 he, hrepo⟩)))
      · exact State.mem_affects.2 (.inr (.inr ⟨doc, hdoc, hrepo⟩))

theorem regenerate (written : Bool) :
    Kept s { s with live := if written then { s.live with index := some s.matrixRows } else s.live } := by
  refine .writeLive fun p hp => ?_
  split at hp
  · rcases mem_append.1 hp with hindex | hpart
    · exact mem_matrixRows hindex
    · exact State.mem_affects.2 (.inl (mem_append_right _ hpart))
  · exact State.mem_affects.2 (.inl hp)

theorem writeDoc {domain : Str} {doc : DomainDoc} {applied : List (Str × Str × Str)}
    (hdoc : doc.participatingRepos = (s.docOf domain).participatingRepos) (happlied : ∀ e ∈ s.applied, e ∈ applied) :
    Kept s { s with docs := s.docs.set domain doc, applied := applied } := by
  refine .of_eq rfl (fun p hp => ?_) happlied rfl
  rcases State.mem_affects.1 hp with hlive | hsnapshot | ⟨doc', hget, hrepo⟩
  · exact State.mem_affects.2 (.inl hlive)
  · exact State.mem_affects.2 (.inr (.inl hsnapshot))
  · refine State.mem_affects.2 (.inr (.inr ?_))
    rw [Dict.get?_set] at hget
    split at hget
    · rename_i hdomain
      cases hget
      rw [hdoc, State.docOf, ← hdomain] at hrepo
      cases hold : s.docs.get? p.2 with
      | none =>
        rw [hold] at hrepo
        cases hrepo
      | some old =>
        rw [hold] at hrepo
        exact ⟨old, rfl, hrepo⟩
    · exact ⟨doc', hget, hrepo⟩

theorem updateDomain (delta : Delta) (domain : Str) (answer : Answer) :
    Kept s (s.updateDomain delta domain answer) := by
  rw [State.updateDomain]
  split
  · exact .control s.cancelEvent s.pc
  · split
    · exact .control s.cancelEvent s.pc
    · dsimp only
      split
      · exact .writeDoc rfl fun e he => mem_append_left _ he
      · exact .writeDoc rfl fun e he => mem_append_left _ he
      · exact .writeDoc rfl fun e he => he

theorem setPc (h : Kept s s') (pc : Option Pc) : Kept s { s' with pc := pc } where
  currentCommit := h.currentCommit
  affects := h.affects
  applied := h.applied
  commitHashes := h.commitHashes

end Kept

/-! ### The other steps of a run -/

theorem mem_nonEmptyRepos {golden : GoldenRepo} (hget : s.repos.get? repo = some golden)
    (hfiles : golden.fileCount ≠ 0) : repo ∈ s.nonEmptyRepos :=
  mem_map.2 ⟨(repo, golden), mem_filter.2 ⟨Dict.mem_items_iff.2 hget, decide_eq_true hfiles⟩, rfl⟩

theorem mem_detectChanges_updated {commit : Str} (hmem : repo ∈ s.nonEmptyRepos)
    (hcommit : s.currentCommit repo = some commit) (hstored : s.commitHashes.get? repo ≠ some commit) :
    repo ∈ s.detectChanges.updated := by
  cases hget : s.commitHashes.get? repo with
  | none => exact mem_append_right _ (mem_filter.2 ⟨hmem, by rw [hget]; rfl⟩)
  | some stored =>
    refine mem_append_left _ (mem_filter.2 ⟨hmem, ?_⟩)
    rw [State.hasChanged, hget, hcommit]
    refine decide_eq_true fun heq => hstored ?_
    rw [hget, heq]

theorem noticed_detectChanges (hfiles : ∀ p ∈ s.affects, ∀ golden ∈ s.repos.get? p.1, golden.fileCount ≠ 0) :
    Noticed s s.detectChanges := by
  intro repo commit domain hcommit hmem
  by_cases hstored : s.commitHashes.get? repo = some commit
  · exact .inl hstored
  · obtain ⟨golden, hget, -⟩ := Option.bind_eq_some_iff.1 hcommit
    exact .inr (mem_detectChanges_updated (mem_nonEmptyRepos hget (hfiles _ hmem golden hget)) hcommit hstored)

theorem unrecorded_detectChanges : Unrecorded s s.detectChanges :=
  fun _ hnew => Option.isNone_iff_eq_none.1 (mem_filter.1 hnew).2

theorem mem_identifyAffectedDomains {index : Option (List (Str × Str))}
    (h : domain ∈ (delta.updated ++ delta.removed).flatMap (domainsOf (index.getD []))) :
    domain ∈ (identifyAffectedDomains index delta).domains := by
  cases index with
  | none =>
    -- Without an index no repository has a row.
    obtain ⟨repo, -, hdomain⟩ := mem_flatMap.1 h
    cases hdomain
  | some rows => exact h

theorem Planned.pcOk_afterDiscovery {run : Run} (hplanned : Planned s run) (hnoticed : Noticed s run.delta)
    (hunrecorded : Unrecorded s run.delta) : PcOk s run.afterDiscovery := by
  rw [Run.afterDiscovery]
  split
  · refine ⟨hnoticed, fun repo domain hrepo hmem => .inl ?_⟩
    rw [mem_insertionSort, mem_dedup]
    exact hplanned repo domain hrepo hmem
  · exact ⟨hnoticed, hunrecorded, hplanned⟩

/-- New repositories of the delta are assigned to the discovered domains, and nothing else changes. -/
structure Assigned (s s' : State) (delta : Delta) (discovered : List Str) : Prop where
  repos : s'.repos = s.repos
  affects : ∀ p ∈ s'.affects, p ∈ s.affects ∨ (p.1 ∈ delta.new ∧ p.2 ∈ discovered)
  applied : s'.applied = s.applied
  commitHashes : s'.commitHashes = s.commitHashes

namespace Assigned

theorem discoverAndAssignNewRepos {delta : Delta} {answer : Answer} {discovered : List Str} {success : Bool}
    (hnew : ∀ p ∈ answer.assignments.getD [], p.1 ∈ delta.new)
    (hs : s.discoverAndAssignNewRepos answer = (s', discovered, success)) : Assigned s s' delta discovered := by
  rw [State.discoverAndAssignNewRepos] at hs
  split at hs
  · obtain ⟨rfl, -⟩ := Prod.mk.inj hs
    exact ⟨rfl, fun p hp => .inl hp, rfl, rfl⟩
  · rename_i assignments hassignments
    rw [hassignments] at hnew
    obtain ⟨rfl, hrest⟩ := Prod.mk.inj hs
    obtain ⟨rfl, -⟩ := Prod.mk.inj hrest
    split
    · refine ⟨rfl, fun p hp => ?_, rfl, rfl⟩
      rcases State.mem_affects.1 hp with hlive | hsnapshot | hdoc
      · rcases mem_append.1 hlive with hindex | hpart
        · exact .inl (State.mem_affects.2 (.inl (mem_append_left _ hindex)))
        · -- The new `_domains.json` is that of the snapshot with the assignments.
          rcases mem_participations_foldl_assign hpart with hold | hassigned
          · exact .inl (State.mem_affects.2 (.inr (.inl (mem_append_right _ hold))))
          · exact .inr ⟨hnew p hassigned, mem_map_of_mem hassigned⟩
      · exact .inl (State.mem_affects.2 (.inr (.inl hsnapshot)))
      · exact .inl (State.mem_affects.2 (.inr (.inr hdoc)))
    · exact ⟨rfl, fun p hp => .inl hp, rfl, rfl⟩

variable {run : Run} {discovered : List Str}

section

variable (h : Assigned s s' run.delta discovered)
include h

theorem recorded (hunrecorded : Unrecorded s run.delta) (hrecorded : s.Recorded) : s'.Recorded := by
  intro repo commit domain hcommit hmem
  rw [h.commitHashes] at hcommit
  rw [h.applied]
  rcases h.affects _ hmem with hold | ⟨hnew, -⟩
  · exact hrecorded repo commit domain hcommit hold
  · rw [hunrecorded repo hnew] at hcommit
    cases hcommit

theorem noticed (hnoticed : Noticed s run.delta) : Noticed s' run.delta := by
  intro repo commit domain hcommit hmem
  rw [h.commitHashes]
  rw [State.currentCommit, h.repos] at hcommit
  rcases h.affects _ hmem with hold | ⟨hnew, -⟩
  · exact hnoticed repo commit domain hcommit hold
  · exact .inr (mem_append_right _ hnew)

theorem unrecorded (hunrecorded : Unrecorded s run.delta) : Unrecorded s' run.delta := by
  intro repo hnew
  rw [h.commitHashes]
  exact hunrecorded repo hnew

theorem planned (hplanned : Planned s run) {run' : Run}
    (hdelta : run'.delta = run.delta) (hdomains : run'.affectedDomains = run.affectedDomains ++ discovered) :
    Planned s' run' := by
  intro repo domain hrepo hmem
  rw [hdelta] at hrepo
  rw [hdomains]
  rcases h.affects _ hmem with hold | ⟨-, hdiscovered⟩
  · exact mem_append_left _ (hplanned repo domain hrepo hold)
  · exact mem_append_right _ hdiscovered

end

end Assigned

theorem followed_updateDomain {answer : Answer}
    (hcareful : if s.journaled delta domain then ∀ e ∈ s.commitsRead delta domain, e ∈ s.applied
      else ((s.docs.get? domain).isSome ∨ answer.written = true) ∧ (settled answer.attempts).isSome = true)
    (hrepo : repo ∈ delta.updated) : Followed (s.updateDomain delta domain answer) repo domain := by
  intro commit hcommit
  have hread : (repo, commit, domain) ∈ s.commitsRead delta domain := by
    have hcommit' := (Kept.updateDomain delta domain answer).currentCommit repo commit hcommit
    exact mem_filterMap.2 ⟨repo, hrepo, Option.map_eq_some_iff.2 ⟨commit, hcommit', rfl⟩⟩
  cases hjournaled : s.journaled delta domain with
  | true =>
    rw [hjournaled, if_pos rfl] at hcareful
    exact (Kept.updateDomain delta domain answer).applied _ (hcareful _ hread)
  | false =>
    rw [hjournaled, if_neg Bool.false_ne_true] at hcareful
    obtain ⟨hdoc, hsettled⟩ := hcareful
    have hopen : ((s.docs.get? domain).isNone && !answer.written) = false := by
      rcases hdoc with hsome | hwritten
      · rw [Option.isNone_eq_false_iff.2 hsome, Bool.false_and]
      · rw [hwritten, Bool.not_true, Bool.and_false]
    obtain ⟨attempt, hattempt⟩ := Option.isSome_iff_exists.1 hsettled
    rw [State.updateDomain, hopen, if_neg Bool.false_ne_true, hjournaled, if_neg Bool.false_ne_true, hattempt]
    split
    · exact mem_append_right _ hread
    · exact mem_append_right _ hread
    · rename_i hnone
      cases hnone

/-! ### New commits -/

section SetRepo

variable {repo : Str} {golden : GoldenRepo}

theorem currentCommit_setRepo {r : Str} (hne : r ≠ repo) :
    State.currentCommit { s with repos := s.repos.set repo golden } r = s.currentCommit r := by
  rw [State.currentCommit, State.currentCommit, Dict.get?_set_of_ne _ _ hne]

theorem Followed.setRepo {r domain : Str} (h : Followed s r domain) (hne : r ≠ repo) :
    Followed { s with repos := s.repos.set repo golden } r domain := by
  intro commit hcommit
  rw [currentCommit_setRepo hne] at hcommit
  exact h commit hcommit

theorem AllFollowed.setRepo (h : AllFollowed s) (hnone : ∀ p ∈ s.affects, p.1 ≠ repo) :
    AllFollowed { s with repos := s.repos.set repo golden } :=
  fun r domain hmem => (h r domain hmem).setRepo (hnone _ hmem)

theorem Noticed.setRepo {delta : Delta} (h : Noticed s delta)
    (hdelta : ∀ p ∈ s.affects, p.1 = repo → repo ∈ delta.updated) :
    Noticed { s with repos := s.repos.set repo golden } delta := by
  intro r commit domain hcommit hmem
  by_cases heq : r = repo
  · exact .inr (heq ▸ hdelta _ hmem heq)
  · rw [currentCommit_setRepo heq] at hcommit
    exact h r commit domain hcommit hmem

theorem PcOk.setRepo {pc : Pc} (h : PcOk s pc) (htimely : Timely s repo pc) :
    PcOk { s with repos := s.repos.set repo golden } pc := by
  cases pc with
  | detect => trivial
  | identify delta uncovered | discover run | discoverUncovered run => exact ⟨h.1.setRepo htimely, h.2⟩
  | unaffected delta | clean run | regenerate run | finalize repos => exact AllFollowed.setRepo h htimely
  | update run todo =>
    refine ⟨h.1.setRepo fun p hp heq => (htimely p hp heq).1, fun r domain hupdated hmem => ?_⟩
    by_cases heq : r = repo
    · exact .inl (htimely _ hmem heq).2
    · exact (h.2 r domain hupdated hmem).imp_right fun hfollowed => hfollowed.setRepo heq

end SetRepo

/-! ### Histories -/

structure Inv (s : State) : Prop where
  recorded : s.Recorded
  pcOk : ∀ pc ∈ s.pc, PcOk s pc

namespace Inv

theorem of_kept (h : Inv s) (hkept : Kept s s') (hpc : ∀ pc ∈ s'.pc, PcOk s' pc) : Inv s' :=
  ⟨hkept.recorded h.recorded, hpc⟩

theorem goto (h : Inv s) (hkept : Kept s s') (pc : Pc) (hpc : PcOk s' pc) : Inv { s' with pc := some pc } := by
  refine h.of_kept (hkept.setPc (some pc)) ?_
  rintro _ ⟨⟩
  exact (Kept.control s'.cancelEvent (some pc)).pcOk hpc

theorem discovered (h : Inv s) {run run' : Run} {domains : List Str} (hassigned : Assigned s s' run.delta domains)
    (hnoticed : Noticed s run.delta) (hunrecorded : Unrecorded s run.delta) (hplanned : Planned s run)
    (hdelta : run'.delta = run.delta) (hdomains : run'.affectedDomains = run.affectedDomains ++ domains) :
    Inv { s' with pc := some run'.afterDiscovery } := by
  have hplanned' : Planned s' run' := hassigned.planned hplanned hdelta hdomains
  have hpc : PcOk s' run'.afterDiscovery := by
    refine hplanned'.pcOk_afterDiscovery ?_ ?_
    · rw [hdelta]
      exact hassigned.noticed hnoticed
    · rw [hdelta]
      exact hassigned.unrecorded hunrecorded
  have hkept : Kept s' { s' with pc := some run'.afterDiscovery } := .control s'.cancelEvent _
  refine ⟨hkept.recorded (hassigned.recorded hunrecorded h.recorded), ?_⟩
  rintro _ ⟨⟩
  exact hkept.pcOk hpc

variable {answer : Answer}

theorem identify (h : Inv s) {delta : Delta} {uncovered : List Str} (hnoticed : Noticed s delta)
    (hunrecorded : Unrecorded s delta) (hindex : CarefulStep s answer (.identify delta uncovered)) :
    Inv (s.advance answer (.identify delta uncovered)) := by
  have hidentified : ∀ repo domain, repo ∈ delta.updated → (repo, domain) ∈ s.affects →
      domain ∈ (identifyAffectedDomains s.snapshot.index delta).domains :=
    fun repo domain hrepo hmem => mem_identifyAffectedDomains (hindex _ hmem hrepo)
  have hkept : Kept s s := .control s.cancelEvent s.pc
  rw [State.advance]
  split
  · exact h.goto hkept _ ⟨hnoticed, hunrecorded, hidentified⟩
  · split
    · rename_i hnil
      -- The delta's repositories affect no domain.
      refine h.goto hkept _ (hnoticed.allFollowed h.recorded fun repo domain hrepo hmem => ?_)
      have hnone := hidentified repo domain hrepo hmem
      rw [hnil] at hnone
      cases hnone
    · exact h.goto hkept _ (Planned.pcOk_afterDiscovery hidentified hnoticed hunrecorded)

theorem update (h : Inv s) {run : Run} {todo : List Str} (hpc : PcOk s (.update run todo))
    (hcareful : CarefulStep s answer (.update run todo)) : Inv (s.advance answer (.update run todo)) := by
  obtain ⟨hnoticed, htodo⟩ := hpc
  cases todo with
  | nil =>
    refine h.goto (.control s.cancelEvent s.pc) (.clean run) (hnoticed.allFollowed h.recorded ?_)
    exact fun repo domain hrepo hmem => (htodo repo domain hrepo hmem).resolve_left not_mem_nil
  | cons domain todo =>
    obtain ⟨hcancel, hcareful⟩ := hcareful
    have hkept : Kept s (s.updateDomain run.delta domain answer) := .updateDomain run.delta domain answer
    rw [State.advance, hcancel, if_neg Bool.false_ne_true]
    refine h.goto hkept _ ⟨hkept.noticed hnoticed, fun repo domain' hrepo hmem => ?_⟩
    rcases htodo repo domain' hrepo (hkept.affects _ hmem) with hmem' | hfollowed
    · rcases mem_cons.1 hmem' with rfl | hmem'
      · exact .inr (followed_updateDomain hcareful hrepo)
      · exact .inl hmem'
    · exact .inr (hkept.followed hfollowed)

theorem advance (h : Inv s) {pc : Pc} (hpc : PcOk s pc) (hcareful : CarefulStep s answer pc) :
    Inv (s.advance answer pc) := by
  cases pc with
  | detect =>
    rw [State.advance]
    split
    · exact h.of_kept (.control s.cancelEvent none) fun pc hpc => by cases hpc
    · exact h.goto (.control s.cancelEvent s.pc) _ ⟨noticed_detectChanges hcareful, unrecorded_detectChanges⟩
  | identify delta uncovered => exact h.identify hpc.1 hpc.2 hcareful
  | unaffected delta =>
    have hkept : Kept s (s.removeStaleRepos delta.removed answer.written) := .removeStaleRepos _ _
    exact h.goto hkept (.finalize s.activatedRepos) (hkept.allFollowed hpc)
  | discover run =>
    obtain ⟨hnoticed, hunrecorded, hplanned⟩ := hpc
    rw [State.advance]
    split
    · exact h.goto (.control s.cancelEvent s.pc) _ (hplanned.pcOk_afterDiscovery hnoticed hunrecorded)
    · exact h.discovered (.discoverAndAssignNewRepos hcareful rfl) hnoticed hunrecorded hplanned rfl rfl
  | discoverUncovered run =>
    obtain ⟨hnoticed, hunrecorded, hplanned⟩ := hpc
    exact h.discovered (.discoverAndAssignNewRepos hcareful rfl) hnoticed hunrecorded hplanned rfl rfl
  | update run todo => exact h.update hpc hcareful
  | clean run =>
    have hkept : Kept s (s.removeStaleRepos run.delta.removed answer.written) := .removeStaleRepos _ _
    exact h.goto hkept (.regenerate run) (hkept.allFollowed hpc)
  | regenerate run =>
    have hkept := Kept.regenerate (s := s) answer.written
    exact h.goto hkept (.finalize run.reposToFinalize) (hkept.allFollowed hpc)
  | finalize repos =>
    -- The current commits are recorded, and all of them have been applied.
    refine ⟨fun repo commit domain hcommit hmem => ?_, fun pc hpc => by cases hpc⟩
    exact hpc repo domain hmem commit (State.current_getCommitHashes s repos repo commit hcommit)

theorem step (h : Inv s) {a : Act} (hcareful : Careful s a) (hs : s.step a = some s') : Inv s' := by
  cases a with
  | setRepo repo golden =>
    cases hs
    exact ⟨h.recorded, fun pc hpc => (h.pcOk pc hpc).setRepo (hcareful pc hpc)⟩
  | removeRepo repo =>
    cases hs
    exact h.of_kept (.removeRepo repo) fun pc hpc => (Kept.removeRepo repo).pcOk (h.pcOk pc hpc)
  | refresh =>
    cases hs
    exact h.of_kept .refresh fun pc hpc => Kept.refresh.pcOk (h.pcOk pc hpc)
  | cancel =>
    obtain ⟨pc, -, rfl⟩ := Option.map_eq_some_iff.1 hs
    exact h.of_kept (.control true s.pc) fun pc hpc => (Kept.control true s.pc).pcOk (h.pcOk pc hpc)
  | start =>
    rw [State.step] at hs
    split at hs <;> cases hs
    refine h.of_kept (.control false (some .detect)) ?_
    rintro _ ⟨⟩
    trivial
  | crash =>
    cases hs
    exact h.of_kept (.control s.cancelEvent none) fun pc hpc => by cases hpc
  | advance answer =>
    obtain ⟨pc, hpc, rfl⟩ := Option.map_eq_some_iff.1 hs
    exact h.advance (h.pcOk pc hpc) (hcareful pc hpc)

end Inv

theorem reported_of_recorded (h : s.Recorded) : s.Reported := by
  intro repo golden commit domain hget hfiles hcommit hmem hnot
  have hcurrent : s.currentCommit repo = some commit := Option.bind_eq_some_iff.2 ⟨golden, hget, hcommit⟩
  refine mem_detectChanges_updated (mem_nonEmptyRepos hget hfiles) hcurrent fun hstored => hnot ?_
  exact h repo commit domain hstored hmem

/-- In a history whose steps are all careful, the recorded commit of a repository is one that every domain it affects
was updated with, and a commit that is not applied is still reported. -/
theorem noChangeLost_of_careful (h : system.Reachable Careful s) : s.Recorded ∧ s.Reported := by
  have hinv : Inv s := by
    refine h.invariant ?_ fun s₁ a s₂ hinv hcareful hs => hinv.step hcareful hs
    rintro s₁ ⟨hidle, hrecorded⟩
    refine ⟨hrecorded, fun pc hpc => ?_⟩
    rw [hidle] at hpc
    cases hpc
  exact ⟨hinv.recorded, reported_of_recorded hinv.recorded⟩

/-! ### Runs -/

def golden (commit : String) : GoldenRepo := ⟨some commit.toList, 1⟩

/-- The repository `api` of the domains, which were updated with its commit. -/
def State.mappedTo (domains : List Str) : State :=
  let map : MapDir := ⟨some (domains.map (("api", ·))),
    some (domains.foldl (fun d domain => d.set domain ["api"]) .empty)⟩
  { repos := Dict.empty.set "api" (golden "1")
    commitHashes := Dict.empty.set "api" "1"
    live := map
    snapshot := map
    docs := domains.foldl (fun d domain => d.set domain ⟨["api"], none⟩) .empty
    cancelEvent := false
    pc := none
    applied := domains.map ("api", "1", ·) }

def State.mapped : State := .mappedTo ["web"]

theorem mappedTo_init {domains : List Str}
    (h : ∀ p ∈ (State.mappedTo domains).affects, ("api".toList, "1".toList, p.2) ∈ (State.mappedTo domains).applied) :
    system.init (.mappedTo domains) := by
  refine ⟨rfl, fun repo commit domain hcommit hmem => ?_⟩
  have hrepo : (repo, commit) = ("api".toList, "1".toList) := mem_singleton.1 (Dict.mem_items_iff.2 hcommit)
  obtain ⟨rfl, rfl⟩ := Prod.mk.inj hrepo
  exact h _ hmem

def commit (repo hash : String) : Act := .setRepo repo.toList (golden hash)

def go : Act := .advance ⟨[], none, true, []⟩

def attempt (attempts : List Attempt) : Act := .advance ⟨[], none, true, attempts⟩

/-- A run that a commit comes into, that crashes after its update and is repeated; and one with a new repository, which
is assigned to a new domain. -/
theorem noChangeLost_of_careful_assigned : ∃ s, system.Reachable Careful s ∧
    s.commitHashes.items = [("api".toList, "3".toList), ("ui".toList, "7".toList)] ∧
    ("ui".toList, "pages".toList) ∈ s.affects ∧ s.Recorded ∧ s.Reported := by
  exact exists_of_run_and_and .mapped
    [commit "api" "2", .start, go, commit "api" "3", go, attempt [.failed, .written true], .crash,
     .start, go, go, go, go, go, go, go, .refresh,
     commit "ui" "7", .start, go, go, .advance ⟨[], some [("ui", "pages")], true, []⟩,
     attempt [.written true], go, go, go, go] (mappedTo_init (by decide)) (by decide +kernel) fun s hs _ _ =>
       noChangeLost_of_careful hs

/-- The acts end in a state without a run, where a commit is recorded that was not applied to a domain and that
the next run does not report. -/
def Loses (domains : List Str) (acts : List Act) : Prop :=
  system.init (.mappedTo domains) ∧
    ∃ s, system.run Any (.mappedTo domains) acts = some s ∧ s.pc = none ∧ ¬s.Recorded ∧ ¬s.Reported

theorem loses_of_run {domains : List Str} {acts : List Act} (domain hash : Str)
    (hinit : ∀ p ∈ (State.mappedTo domains).affects, ("api".toList, "1".toList, p.2) ∈ (State.mappedTo domains).applied)
    (hrun : (system.run TransitionSystem.Any (.mappedTo domains) acts).map (fun s =>
      ((s.pc, s.repos.get? "api", s.commitHashes.get? "api"), s.detectChanges,
        decide (("api".toList, domain) ∈ s.affects), decide (("api".toList, hash, domain) ∈ s.applied))) =
      some ((none, some ⟨some hash, 1⟩, some hash), ⟨[], [], []⟩, true, false)) : Loses domains acts := by
  obtain ⟨s, hs, hresult⟩ := Option.map_eq_some_iff.1 hrun
  simp only [Prod.mk.injEq] at hresult
  obtain ⟨⟨hpc, hget, hstored⟩, hdelta, haffects, happlied⟩ := hresult
  have hmem : ("api".toList, domain) ∈ s.affects := of_decide_eq_true haffects
  have hnot : ("api".toList, hash, domain) ∉ s.applied := of_decide_eq_false happlied
  refine ⟨mappedTo_init hinit, s, hs, hpc, fun hrecorded => hnot (hrecorded _ _ _ hstored hmem), fun hreported => ?_⟩
  have hupdated := hreported _ ⟨some hash, 1⟩ _ _ hget Nat.one_ne_zero rfl hmem hnot
  rw [hdelta] at hupdated
  exact absurd hupdated not_mem_nil

def failedRun : List Act := [commit "api" "2", .start, go, go, attempt [.failed, .raised, .emptyBody], go, go, go, go]

def cancelledRun : List Act := [commit "api" "2", .start, go, go, .cancel, go, go, go, go]

def repeatedRun : List Act :=
  [commit "api" "2", .start, go, go, attempt [.written true], go, go, go, go, .refresh,
    commit "api" "3", .start, go, go, go, go, go, go, go]

def overtakenRun : List Act :=
  [commit "api" "2", .start, go, go, attempt [.written true], commit "api" "3", go, go, go, go]

def updatedRun : List Act := [commit "api" "2", .start, go, go, attempt [.written true], go, go, go, go]

/-- The last run goes through without a failure, but reads the last row of `api` only. -/
theorem change_lost : Loses ["web"] failedRun ∧ Loses ["web"] cancelledRun ∧ Loses ["web"] repeatedRun ∧
    Loses ["web"] overtakenRun ∧ Loses ["auth", "web"] updatedRun := by
  refine ⟨?_, ?_, ?_, ?_, ?_⟩
  · exact loses_of_run "web" "2" (by decide) (by decide +kernel)
  · exact loses_of_run "web" "2" (by decide) (by decide +kernel)
  · exact loses_of_run "web" "3" (by decide) (by decide +kernel)
  · exact loses_of_run "web" "3" (by decide) (by decide +kernel)
  · exact loses_of_run "auth" "2" (by decide) (by decide +kernel)

end CodeIndexer.DependencyMap
