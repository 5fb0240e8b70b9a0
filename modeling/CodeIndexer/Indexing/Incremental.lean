import CodeIndexer.Indexing.GitDelta
import CodeIndexer.Indexing.SessionMetadata
import CodeIndexer.Lib.Transition

/-!
# Incremental runs of a git project (services/smart_indexer.py)

`_do_incremental_index` and `_do_resume_interrupted` beside what happens to the project: edits of the
working tree, commits, and moves of `HEAD` (pull, merge, checkout) that also write files. A run selects
its files when it starts, handles them one by one and finishes; everything else may happen in between.

`tick` counts the steps. A file on disk and a committed path carry the step of their last change, an
indexed path the step at which the index last read or removed it, so that "reflected" can be said.
`marked branch` is a ghost: the committed tree that the branch's watermark stands for. Paths are
relative to the project, and one predicate stands for `find_files` and `_should_index_file`.
-/

namespace CodeIndexer.Incremental

open PyText Indexing TransitionSystem Function

structure Config where
  shouldIndexFile : Str → Bool
  safetyBufferSeconds : ℚ

structure Working (K : Type) where
  content : K
  changedAt : ℕ
  mtime : ℚ

/-- A path in a commit; `content` is `none` where the commit does not have it. -/
structure Committed (K : Type) where
  content : Option K
  changedAt : ℕ

/-- A path in the index; `processedAt` is `none` until the index has read or removed it. -/
structure Indexed (K : Type) where
  content : Option K
  processedAt : Option ℕ

/-- A run in progress: the branch and commit of its `git_status`, and the files still to handle. -/
structure Run (K : Type) where
  resumed : Bool
  branch : Str
  commit : Str
  tree : Str → Committed K
  pending : List Str
  processed : ℕ

structure State (K : Type) where
  now : ℚ
  tick : ℕ
  disk : Dict Str (Working K)
  branch : Str
  head : Str
  tree : Str → Committed K
  index : Str → Indexed K
  metadata : SessionMetadata
  marked : Str → Str → Committed K
  run : Option (Run K)

/-- `write`: an edit or, without content, a removal. `commit`: the working tree's state of some paths.
`moveHead`: another commit, with the files it writes. `start`: what `git diff` printed (`none` for a
failure), which deletions succeed, and what `count_points` returns (`none` for an exception).
`process`: a selected file is embedded or fails. `finish`: whether the run was cancelled, and whether the
branch isolation at its end worked. -/
inductive Act (K : Type)
  | wait (seconds : ℚ)
  | write (path : Str) (content : Option K)
  | commit (id : Str) (paths : List Str)
  | moveHead (branch id : Str) (changes : List (Str × Option K))
  | start (stdout : Option Str) (deletes : Str → Bool) (vectorPoints : Option ℕ)
  | process (path : Str) (ok : Bool)
  | finish (cancelled isolated : Bool)
  | resume

namespace State

variable {K : Type}

variable (cfg : Config) (s : State K)

def writeFile (path : Str) : Option K → State K
  | some content => { s with disk := s.disk.set path ⟨content, s.tick, s.now⟩ }
  | none => { s with disk := s.disk.erase path }

def committedOf (path : Str) : Committed K :=
  match s.disk.get? path with
  | some file => ⟨some file.content, file.changedAt⟩
  | none => ⟨none, s.tick⟩

def commitPaths (id : Str) (paths : List Str) : State K :=
  { s with head := id, tree := fun path => if path ∈ paths then s.committedOf path else s.tree path }

def writeFiles (changes : List (Str × Option K)) : State K :=
  changes.foldl (fun s change => s.writeFile change.1 change.2) s

def moveHeadTo (branch id : Str) (changes : List (Str × Option K)) : State K :=
  { (s.writeFiles changes).commitPaths id (changes.map Prod.fst) with branch := branch }

def resumeTimestamp : ℚ := s.metadata.getResumeTimestamp cfg.safetyBufferSeconds

def findFiles : List Str :=
  (s.disk.items.map Prod.fst).filter cfg.shouldIndexFile

def findModifiedFiles (since : ℚ) : List Str :=
  (s.findFiles cfg).filter fun path => (s.disk.get? path).any fun file => file.mtime > since

def clearCollection : State K :=
  { s with index := fun path => if path ∈ s.findFiles cfg then ⟨none, none⟩ else ⟨none, some s.tick⟩ }

def beginRun (metadata : SessionMetadata) (files : List Str) : State K :=
  { s with
    metadata := metadata.setFilesToIndex files
    run := some ⟨false, s.branch, s.head, s.tree, files, 0⟩ }

/-- `_do_full_index` up to its processing. Without files it completes and raises, which marks the
session as failed. -/
def startFull : State K :=
  if s.findFiles cfg = [] then
    { s.clearCollection cfg with metadata := (s.metadata.startIndexing.completeIndexing s.now).failIndexing }
  else (s.clearCollection cfg).beginRun s.metadata.startIndexing (s.findFiles cfg)

def gitDelta (stdout : Option Str) : GitDelta :=
  match s.metadata.getLastIndexedCommit s.branch with
  | some last =>
    if last ≠ [] ∧ last ≠ s.head then GitDelta.getGitDeltasSinceCommit cfg.shouldIndexFile stdout else .empty
  | none => .empty

/-- Both tracks. The strings of the first are relative and those of the second absolute, so a file that
both select is in the list twice. -/
def filesToIndex (delta : GitDelta) : List Str :=
  (delta.added ++ delta.modified).dedup ++ s.findModifiedFiles cfg (s.resumeTimestamp cfg)

def deleteFiles (deleted : List Str) (deletes : Str → Bool) : State K :=
  { s with index := fun path => if path ∈ deleted ∧ deletes path then ⟨none, some s.tick⟩ else s.index path }

/-- The return without work: an inconsistent state is cleared, and otherwise the watermark advances. -/
def nothingToDo (vectorPoints : Option ℕ) : State K :=
  if (vectorPoints.any (· > 0)) ∧ s.metadata.filesProcessed = 0 then { s with metadata := .clear }
  else
    { s with
      metadata := s.metadata.updateCommitWatermark s.branch s.head
      marked := update s.marked s.branch s.tree }

def sessionMetadata : SessionMetadata :=
  if s.metadata.status = .inProgress then s.metadata else s.metadata.startIndexing

def startIncremental (stdout : Option Str) (deletes : Str → Bool) (vectorPoints : Option ℕ) : State K :=
  let delta := s.gitDelta cfg stdout
  let files := s.filesToIndex cfg delta
  if files = [] ∧ delta.deleted = [] then s.nothingToDo vectorPoints
  else (s.deleteFiles delta.deleted deletes).beginRun s.sessionMetadata files

def processFile (r : Run K) (path : Str) (ok : Bool) : State K :=
  match ok, s.disk.get? path with
  | true, some file =>
    { s with
      index := update s.index path ⟨some file.content, some s.tick⟩
      run := some { r with pending := r.pending.erase path, processed := r.processed + 1 } }
  | _, _ => { s with run := some { r with pending := r.pending.erase path } }

def isolate : State K :=
  { s with index := fun path =>
      if s.disk.get? path = none ∧ (s.index path).content.isSome then ⟨none, some s.tick⟩ else s.index path }

/-- The end of a run. A resumed one neither isolates the branch nor moves the watermark. -/
def finishRun (r : Run K) (cancelled isolated : Bool) : State K :=
  let s := if r.resumed = false ∧ isolated then s.isolate else s
  let m := s.metadata.updateProgress s.now r.processed
  let m := if r.resumed then m else m.updateCommitWatermark r.branch r.commit
  { s with
    metadata := if cancelled then m else m.completeIndexing s.now
    marked := if r.resumed then s.marked else update s.marked r.branch r.tree
    run := none }

def existingFiles : List Str :=
  s.metadata.getRemainingFiles.filter fun path => (s.disk.get? path).isSome

def startResume : State K :=
  if s.existingFiles = [] then { s with metadata := s.metadata.completeIndexing s.now }
  else { s with run := some ⟨true, s.branch, s.head, s.tree, s.existingFiles, 0⟩ }

end State

variable {K : Type}

variable (cfg : Config) (s : State K)

def act : Act K → Option (State K)
  | .wait seconds => if 0 ≤ seconds then some { s with now := s.now + seconds } else none
  | .write path content => some (s.writeFile path content)
  | .commit id paths => some (s.commitPaths id paths)
  | .moveHead branch id changes => some (s.moveHeadTo branch id changes)
  | .start stdout deletes vectorPoints =>
    if s.run.isSome ∨ s.metadata.canResumeInterruptedOperation then none
    else if s.resumeTimestamp cfg = 0 then some (s.startFull cfg)
    else some (s.startIncremental cfg stdout deletes vectorPoints)
  | .process path ok => s.run.bind fun r => if path ∈ r.pending then some (s.processFile r path ok) else none
  | .finish cancelled isolated => s.run.bind fun r =>
    if cancelled ∨ r.pending = [] then some (s.finishRun r cancelled isolated) else none
  | .resume => if s.run.isNone ∧ s.metadata.canResumeInterruptedOperation then some s.startResume else none

def step (a : Act K) : Option (State K) :=
  (act cfg s a).map fun s' => { s' with tick := s.tick + 1 }

def project : TransitionSystem (State K) (Act K) where
  init s := s.tick = 0 ∧ 0 ≤ s.now ∧ (∀ path, ∀ file ∈ s.disk.get? path, file.changedAt = 0) ∧
    (∀ path, (s.tree path).changedAt = 0) ∧ (∀ path, s.index path = ⟨none, none⟩) ∧ s.metadata = .clear ∧ s.run = none
  step := step cfg

/-! ### What one step does -/

section Steps

variable {cfg : Config} {s s' : State K} {a : Act K}

/-- What the project does outside of the runs: the index and the metadata stay, the clock does not go
back, and a file that is not as before was written now. -/
structure Outside (s s' : State K) : Prop where
  tick : s'.tick = s.tick
  index : s'.index = s.index
  metadata : s'.metadata = s.metadata
  marked : s'.marked = s.marked
  run : s'.run = s.run
  now : s.now ≤ s'.now
  disk : ∀ path file, s'.disk.get? path = some file →
    s.disk.get? path = some file ∨ file.mtime = s.now ∧ file.changedAt = s.tick
  tree : ∀ path, s'.tree path = s.tree path ∨ (s'.tree path).changedAt = s.tick ∨
    ∃ file, s.disk.get? path = some file ∧ (s'.tree path).changedAt = file.changedAt

theorem writeFile_disk (path : Str) (content : Option K) {path' : Str} {file : Working K}
    (h : (s.writeFile path content).disk.get? path' = some file) :
    s.disk.get? path' = some file ∨ file.mtime = s.now ∧ file.changedAt = s.tick := by
  cases content with
  | none =>
    exact .inl (Dict.get?_erase_eq_some.1 h).2
  | some k =>
    have h : (s.disk.set path ⟨k, s.tick, s.now⟩).get? path' = some file := h
    rw [Dict.get?_set] at h
    split at h
    · cases h
      exact .inr ⟨rfl, rfl⟩
    · exact .inl h

structure Wrote (s s' : State K) : Prop where
  rest : ∃ disk, s' = { s with disk := disk }
  disk : ∀ path file, s'.disk.get? path = some file →
    s.disk.get? path = some file ∨ file.mtime = s.now ∧ file.changedAt = s.tick

theorem wrote_writeFile (s : State K) (path : Str) (content : Option K) : Wrote s (s.writeFile path content) :=
  ⟨by cases content <;> exact ⟨_, rfl⟩, fun _ _ h => writeFile_disk path content h⟩

theorem wrote_writeFiles (s : State K) (changes : List (Str × Option K)) : Wrote s (s.writeFiles changes) := by
  induction changes generalizing s with
  | nil => exact ⟨⟨s.disk, rfl⟩, fun _ _ h => .inl h⟩
  | cons change changes ih =>
    obtain ⟨⟨disk₁, h₁⟩, hd₁⟩ := wrote_writeFile s change.1 change.2
    have ih := ih (s.writeFile change.1 change.2)
    rw [h₁] at ih hd₁
    obtain ⟨⟨disk₂, h₂⟩, hd₂⟩ := ih
    have heq : s.writeFiles (change :: changes) = State.writeFiles { s with disk := disk₁ } changes := by
      rw [State.writeFiles, List.foldl_cons, h₁]
      rfl
    rw [heq]
    refine ⟨⟨disk₂, h₂⟩, fun path file hf => ?_⟩
    rcases hd₂ path file hf with hf | hf
    · exact hd₁ path file hf
    · exact .inr hf

theorem committedOf_changedAt (s : State K) (path : Str) : (s.committedOf path).changedAt = s.tick ∨
    ∃ file, s.disk.get? path = some file ∧ (s.committedOf path).changedAt = file.changedAt := by
  unfold State.committedOf
  cases h : s.disk.get? path with
  | none => exact .inl rfl
  | some file => exact .inr ⟨file, rfl, rfl⟩

theorem outside_of_wrote (h : Wrote s s') : Outside s s' := by
  obtain ⟨⟨disk, rfl⟩, hdisk⟩ := h
  exact ⟨rfl, rfl, rfl, rfl, rfl, le_rfl, hdisk, fun _ => .inl rfl⟩

theorem outside_commitPaths (s : State K) (id : Str) (paths : List Str) : Outside s (s.commitPaths id paths) := by
  refine ⟨rfl, rfl, rfl, rfl, rfl, le_rfl, fun _ _ h => .inl h, fun path => ?_⟩
  by_cases hp : path ∈ paths
  · have htree : (s.commitPaths id paths).tree path = s.committedOf path := if_pos hp
    rw [htree]
    exact .inr (committedOf_changedAt s path)
  · exact .inl (if_neg hp)

theorem outside_moveHeadTo (s : State K) (branch id : Str) (changes : List (Str × Option K)) :
    Outside s (s.moveHeadTo branch id changes) := by
  obtain ⟨⟨disk, hw⟩, hdisk⟩ := wrote_writeFiles s changes
  have hcommit := outside_commitPaths (s.writeFiles changes) id (changes.map Prod.fst)
  have hmove : s.moveHeadTo branch id changes =
      { (s.writeFiles changes).commitPaths id (changes.map Prod.fst) with branch := branch } := rfl
  rw [hmove]
  rw [hw] at hcommit hdisk ⊢
  refine ⟨rfl, rfl, rfl, rfl, rfl, le_rfl, hdisk, fun path => ?_⟩
  rcases hcommit.tree path with h | h | ⟨file, hf, h⟩
  · exact .inl h
  · exact .inr (.inl h)
  · rcases hdisk path file hf with hf | ⟨-, hat⟩
    · exact .inr (.inr ⟨file, hf, h⟩)
    · exact .inr (.inl (h.trans hat))

theorem act_cases (h : act cfg s a = some s') :
    Outside s s' ∨
    (∃ stdout deletes n, a = .start stdout deletes n ∧ s.run = none ∧
      s.metadata.canResumeInterruptedOperation = false ∧
      (s.resumeTimestamp cfg = 0 ∧ s' = s.startFull cfg ∨
        s.resumeTimestamp cfg ≠ 0 ∧ s' = s.startIncremental cfg stdout deletes n)) ∨
    (∃ r path ok, a = .process path ok ∧ s.run = some r ∧ path ∈ r.pending ∧ s' = s.processFile r path ok) ∨
    (∃ r cancelled isolated, a = .finish cancelled isolated ∧ s.run = some r ∧
      (cancelled = true ∨ r.pending = []) ∧ s' = s.finishRun r cancelled isolated) ∨
    (a = .resume ∧ s.run = none ∧ s.metadata.canResumeInterruptedOperation = true ∧ s' = s.startResume) := by
  cases a with
  | wait d =>
    simp only [act, Option.ite_none_right_eq_some, Option.some.injEq] at h
    obtain ⟨hd, rfl⟩ := h
    exact .inl ⟨rfl, rfl, rfl, rfl, rfl, by simpa using hd, fun _ _ h => .inl h, fun _ => .inl rfl⟩
  | write path content =>
    simp only [act, Option.some.injEq] at h
    exact .inl (h ▸ outside_of_wrote (wrote_writeFile s path content))
  | commit id paths =>
    simp only [act, Option.some.injEq] at h
    exact .inl (h ▸ outside_commitPaths s id paths)
  | moveHead branch id changes =>
    simp only [act, Option.some.injEq] at h
    exact .inl (h ▸ outside_moveHeadTo s branch id changes)
  | start stdout deletes n =>
    simp only [act] at h
    split at h
    · cases h
    · rename_i hidle
      rw [not_or, Option.not_isSome_iff_eq_none, Bool.not_eq_true] at hidle
      refine .inr (.inl ⟨stdout, deletes, n, rfl, hidle.1, hidle.2, ?_⟩)
      split at h
      · rename_i hzero
        exact .inl ⟨hzero, (Option.some.inj h).symm⟩
      · rename_i hzero
        exact .inr ⟨hzero, (Option.some.inj h).symm⟩
  | process path ok =>
    obtain ⟨r, hr, h⟩ := Option.bind_eq_some_iff.1 h
    simp only [Option.ite_none_right_eq_some, Option.some.injEq] at h
    exact .inr (.inr (.inl ⟨r, path, ok, rfl, hr, h.1, h.2.symm⟩))
  | finish cancelled isolated =>
    obtain ⟨r, hr, h⟩ := Option.bind_eq_some_iff.1 h
    simp only [Option.ite_none_right_eq_some, Option.some.injEq] at h
    exact .inr (.inr (.inr (.inl ⟨r, cancelled, isolated, rfl, hr, h.1, h.2.symm⟩)))
  | resume =>
    simp only [act, Option.ite_none_right_eq_some, Option.some.injEq, Option.isNone_iff_eq_none] at h
    exact .inr (.inr (.inr (.inr ⟨rfl, h.1.1, h.1.2, h.2.symm⟩)))

end Steps

section Starts

variable {cfg : Config} {s : State K}

theorem nothingToDo_cases (s : State K) (n : Option ℕ) :
    s.nothingToDo n = { s with metadata := .clear } ∨
      s.nothingToDo n = { s with
        metadata := s.metadata.updateCommitWatermark s.branch s.head
        marked := update s.marked s.branch s.tree } := by
  unfold State.nothingToDo
  split
  · exact .inl rfl
  · exact .inr rfl

theorem startIncremental_cases (cfg : Config) (s : State K) (stdout : Option Str) (deletes : Str → Bool)
    (n : Option ℕ) :
    (s.filesToIndex cfg (s.gitDelta cfg stdout) = [] ∧ (s.gitDelta cfg stdout).deleted = [] ∧
      s.startIncremental cfg stdout deletes n = s.nothingToDo n) ∨
    s.startIncremental cfg stdout deletes n = (s.deleteFiles (s.gitDelta cfg stdout).deleted deletes).beginRun
      s.sessionMetadata (s.filesToIndex cfg (s.gitDelta cfg stdout)) := by
  by_cases h : s.filesToIndex cfg (s.gitDelta cfg stdout) = [] ∧ (s.gitDelta cfg stdout).deleted = []
  · exact .inl ⟨h.1, h.2, if_pos h⟩
  · exact .inr (if_neg h)

theorem sessionMetadata_eq (s : State K) : s.sessionMetadata = s.metadata ∧ s.metadata.status = .inProgress ∨
    s.sessionMetadata = s.metadata.startIndexing := by
  unfold State.sessionMetadata
  split
  · rename_i h
    exact .inl ⟨rfl, h⟩
  · exact .inr rfl

end Starts

/-! ### Edits during a run -/

def Stale (path : Str) (file : Working K) : Prop :=
  s.disk.get? path = some file ∧ cfg.shouldIndexFile path ∧ (s.index path).content ≠ some file.content

/-- Between runs, a file that is older in the index than on disk is selected by the next run. -/
def EditsCaught : Prop :=
  s.run = none → ∀ path file, Stale cfg s path file →
    s.resumeTimestamp cfg = 0 ∨ s.resumeTimestamp cfg < file.mtime

/-- The changes that the index has not read are less than the buffer old (or the clock is). -/
def Recent : Prop :=
  ∀ path file, Stale cfg s path file →
    s.now ≤ cfg.safetyBufferSeconds ∨ s.now - cfg.safetyBufferSeconds < file.mtime

/-- Every run completes, and when it does, what it has not read is `Recent`. -/
def Timely : Act K → Prop
  | .finish cancelled _ => cancelled = false ∧ Recent cfg s
  | .resume => Recent cfg s
  | _ => True

section Caught

variable {cfg : Config} {s s' : State K} {a : Act K} {r : Run K}

def Clocked (s : State K) : Prop := 0 ≤ s.now ∧ s.metadata.lastIndexTimestamp ≤ s.now

variable {path : Str} {file : Working K}

theorem mem_findFiles (hfile : s.disk.get? path = some file)
    (hidx : cfg.shouldIndexFile path) : path ∈ s.findFiles cfg :=
  List.mem_filter.2 ⟨List.mem_map.2 ⟨(path, file), Dict.mem_items_iff.2 hfile, rfl⟩, hidx⟩

theorem isolate_index (hfile : s.disk.get? path = some file) : s.isolate.index path = s.index path := by
  simp [State.isolate, hfile]

theorem finishRun_disk (cancelled isolated : Bool) : (s.finishRun r cancelled isolated).disk = s.disk := by
  unfold State.finishRun
  by_cases h : r.resumed = false ∧ isolated <;> simp [h, State.isolate]

theorem finishRun_index (hfile : s.disk.get? path = some file)
    (cancelled isolated : Bool) : (s.finishRun r cancelled isolated).index path = s.index path := by
  unfold State.finishRun
  by_cases h : r.resumed = false ∧ isolated
  · simpa [h] using isolate_index hfile
  · simp [h]

theorem finishRun_now (cancelled isolated : Bool) : (s.finishRun r cancelled isolated).now = s.now := by
  unfold State.finishRun
  by_cases h : r.resumed = false ∧ isolated <;> simp [h, State.isolate]

theorem finishRun_last (cancelled isolated : Bool) :
    (s.finishRun r cancelled isolated).metadata.lastIndexTimestamp = s.now := by
  unfold State.finishRun
  cases cancelled <;> cases hr : r.resumed <;> cases isolated <;>
    simp [State.isolate, SessionMetadata.completeIndexing, SessionMetadata.updateCommitWatermark,
      SessionMetadata.updateProgress]

theorem finishRun_completed (isolated : Bool) : (s.finishRun r false isolated).metadata.status = .completed := by
  simp [State.finishRun, SessionMetadata.completeIndexing]

theorem stale_finishRun (cancelled isolated : Bool) :
    Stale cfg (s.finishRun r cancelled isolated) path file ↔ Stale cfg s path file := by
  rw [Stale, Stale, finishRun_disk]
  constructor
  · rintro ⟨hf, hidx, hne⟩
    rw [finishRun_index hf] at hne
    exact ⟨hf, hidx, hne⟩
  · rintro ⟨hf, hidx, hne⟩
    rw [finishRun_index hf]
    exact ⟨hf, hidx, hne⟩

/-- Completing a run leaves every change to the next one exactly when what it has not read is recent. -/
theorem editsCaught_finishRun (hbuffer : 0 < cfg.safetyBufferSeconds) (isolated : Bool) :
    EditsCaught cfg (s.finishRun r false isolated) ↔ Recent cfg s := by
  have hresume : ∀ mtime : ℚ, ((s.finishRun r false isolated).resumeTimestamp cfg = 0 ∨
      (s.finishRun r false isolated).resumeTimestamp cfg < mtime) ↔
      s.now ≤ cfg.safetyBufferSeconds ∨ s.now - cfg.safetyBufferSeconds < mtime := by
    intro mtime
    rw [State.resumeTimestamp, SessionMetadata.getResumeTimestamp_completed hbuffer (finishRun_completed isolated),
      finishRun_last]
  constructor
  · intro h path file hst
    exact (hresume file.mtime).1 (h rfl path file ((stale_finishRun false isolated).2 hst))
  · intro h _ path file hst
    exact (hresume file.mtime).2 (h path file ((stale_finishRun false isolated).1 hst))

theorem clocked_act (h : Clocked s) (hs : act cfg s a = some s') : Clocked s' := by
  rcases act_cases hs with ho | ⟨stdout, deletes, n, rfl, -, -, hst⟩ | ⟨r, path, ok, rfl, -, -, rfl⟩ |
    ⟨r, cancelled, isolated, rfl, -, -, rfl⟩ | ⟨rfl, -, -, rfl⟩
  · exact ⟨h.1.trans ho.now, by rw [ho.metadata]; exact h.2.trans ho.now⟩
  · rcases hst with ⟨-, rfl⟩ | ⟨-, rfl⟩
    · unfold State.startFull
      split
      · exact ⟨h.1, le_rfl⟩
      · exact h
    · rcases startIncremental_cases cfg s stdout deletes n with ⟨-, -, heq⟩ | heq
      · rw [heq]
        rcases nothingToDo_cases s n with heq | heq
        · rw [heq]
          exact ⟨h.1, h.1⟩
        · rw [heq]
          exact h
      · rw [heq]
        refine ⟨h.1, ?_⟩
        rcases sessionMetadata_eq s with ⟨heq, -⟩ | heq
        · rw [heq]
          exact h.2
        · rw [heq]
          exact h.2
  · unfold State.processFile
    split <;> exact h
  · exact ⟨by rw [finishRun_now]; exact h.1, by rw [finishRun_last, finishRun_now]⟩
  · unfold State.startResume
    split
    · exact ⟨h.1, le_rfl⟩
    · exact h

theorem editsCaught_act (hbuffer : 0 < cfg.safetyBufferSeconds) (hclock : Clocked s) (h : EditsCaught cfg s)
    (htimely : Timely cfg s a) (hs : act cfg s a = some s') : EditsCaught cfg s' := by
  rcases act_cases hs with ho | ⟨stdout, deletes, n, rfl, hrun, -, hst⟩ | ⟨r, path, ok, rfl, -, -, rfl⟩ |
    ⟨r, cancelled, isolated, rfl, hrun, -, rfl⟩ | ⟨rfl, hrun, -, rfl⟩
  · intro hrun path file hst
    have hresume : s'.resumeTimestamp cfg = s.resumeTimestamp cfg := by
      rw [State.resumeTimestamp, ho.metadata]
      rfl
    rw [hresume]
    rcases ho.disk path file hst.1 with hf | ⟨hmtime, -⟩
    · exact h (ho.run ▸ hrun) path file ⟨hf, hst.2.1, by rw [← ho.index]; exact hst.2.2⟩
    · rw [hmtime]
      exact SessionMetadata.getResumeTimestamp_lt hbuffer hclock.2
  · rcases hst with ⟨-, rfl⟩ | ⟨-, rfl⟩
    · by_cases hfiles : s.findFiles cfg = []
      · intro _ path file hst
        rw [State.startFull, if_pos hfiles] at hst
        have hmem := mem_findFiles (s := s) hst.1 hst.2.1
        rw [hfiles] at hmem
        cases hmem
      · rw [State.startFull, if_neg hfiles]
        intro hnone
        cases hnone
    · rcases startIncremental_cases cfg s stdout deletes n with ⟨-, -, heq⟩ | heq
      · rw [heq]
        rcases nothingToDo_cases s n with heq | heq
        · rw [heq]
          exact fun _ _ _ _ => .inl SessionMetadata.getResumeTimestamp_clear
        · rw [heq]
          exact fun _ => h hrun
      · rw [heq]
        intro hnone
        cases hnone
  · intro hnone
    unfold State.processFile at hnone
    split at hnone <;> cases hnone
  · obtain ⟨rfl, hrecent⟩ := htimely
    exact (editsCaught_finishRun hbuffer isolated).2 hrecent
  · by_cases hex : s.existingFiles = []
    · rw [State.startResume, if_pos hex]
      intro _ path file hst
      exact (SessionMetadata.getResumeTimestamp_completed hbuffer rfl).2 (htimely path file hst)
    · rw [State.startResume, if_neg hex]
      intro hnone
      cases hnone

theorem step_eq_some (h : step cfg s a = some s') :
    ∃ s₁, act cfg s a = some s₁ ∧ s' = { s₁ with tick := s.tick + 1 } := by
  obtain ⟨s₁, hs₁, rfl⟩ := Option.map_eq_some_iff.1 h
  exact ⟨s₁, hs₁, rfl⟩

theorem init_run (h : (project cfg).init s) : s.metadata = .clear ∧ s.run = none := ⟨h.2.2.2.2.2.1, h.2.2.2.2.2.2⟩

end Caught

/-! ### A file edited during a run -/

theorem recent_iff : Recent cfg s ↔ ∀ e ∈ s.disk.items, cfg.shouldIndexFile e.1 →
    (s.index e.1).content ≠ some e.2.content →
      s.now ≤ cfg.safetyBufferSeconds ∨ s.now - cfg.safetyBufferSeconds < e.2.mtime := by
  constructor
  · intro h e he hidx hne
    exact h e.1 e.2 ⟨Dict.mem_items_iff.1 he, hidx, hne⟩
  · rintro h path file ⟨hf, hidx, hne⟩
    exact h (path, file) (Dict.mem_items_iff.2 hf) hidx hne

instance [DecidableEq K] (cfg : Config) (s : State K) : Decidable (Recent cfg s) :=
  decidable_of_iff _ (recent_iff cfg s).symm

instance [DecidableEq K] (cfg : Config) (s : State K) : (a : Act K) → Decidable (Timely cfg s a)
  | .finish cancelled _ => inferInstanceAs (Decidable (cancelled = false ∧ Recent cfg s))
  | .resume => inferInstanceAs (Decidable (Recent cfg s))
  | .wait _ | .write .. | .commit .. | .moveHead .. | .start .. | .process .. => .isTrue trivial

def config60 : Config := ⟨fun _ => true, 60⟩

def freshProject : State ℕ where
  now := 1000
  tick := 0
  disk := Dict.empty.set ['a'] ⟨1, 0, 500⟩
  branch := ['m']
  head := ['1']
  tree path := if path = ['a'] then ⟨some 1, 0⟩ else ⟨none, 0⟩
  index _ := ⟨none, none⟩
  metadata := .clear
  marked _ _ := ⟨none, 0⟩
  run := none

theorem freshProject_init : (project config60).init freshProject := by
  refine ⟨rfl, by norm_num [freshProject], ?_, ?_, fun _ => rfl, rfl, rfl⟩
  · intro path file hfile
    have hget : (Dict.empty.set ['a'] (⟨1, 0, 500⟩ : Working ℕ)).get? path = some file := hfile
    rw [Dict.get?_set] at hget
    split at hget <;> cases hget
    rfl
  · intro path
    by_cases hp : path = ['a'] <;> simp [freshProject, hp]

/-- The file is edited ten seconds after the run has read it, and the run goes on for `d` seconds. -/
def editDuringRun (d : ℚ) : List (Act ℕ) :=
  [.start none (fun _ => true) none, .process ['a'] true, .wait 10, .write ['a'] (some 2), .wait d, .finish false true]

/-- What decides whether the edit is seen: the resume point, the time of the edit, and the indexed content. -/
def editOutcome (s : State ℕ) : Bool × ℚ × Option (ℕ × ℚ) × Option ℕ :=
  (s.run.isNone, s.resumeTimestamp config60, (s.disk.get? ['a']).map fun f => (f.content, f.mtime),
    (s.index ['a']).content)

end CodeIndexer.Incremental
