import CodeIndexer.Indexing.Incremental

/-!
# The commit watermark and the index

When no interrupted run is pending, a path that changed up to the watermark's commit should be reflected
in the index or be selected by the next run. A failed `git diff` counts as an empty one and a file that
could not be embedded is only counted, yet the watermark advances in both cases. `Smooth` rules those
out, and with them changes that neither the diff nor a modification time shows; branches may come and go,
and runs may be cancelled and resumed.
-/

namespace CodeIndexer.Incremental

open PyText Indexing TransitionSystem Function List

variable {K : Type}

/-- The index has the committed content, or has read or removed the path since its last change. -/
def Reflected (c : Committed K) (i : Indexed K) : Prop :=
  i.content = c.content ∨ ∃ at' ∈ i.processedAt, c.changedAt ≤ at'

/-- The next run selects the path: by its modification time, or because git reports it. -/
def SelectedNext (cfg : Config) (s : State K) (path : Str) : Prop :=
  (∃ file ∈ s.disk.get? path, s.resumeTimestamp cfg = 0 ∨ s.resumeTimestamp cfg < file.mtime) ∨
  ∃ last ∈ s.metadata.getLastIndexedCommit s.branch,
    last ≠ s.head ∧ (s.marked s.branch path).content ≠ (s.tree path).content

def WatermarkBehind (cfg : Config) (s : State K) : Prop :=
  s.run = none → s.metadata.canResumeInterruptedOperation = false →
    ∀ branch, (s.metadata.getLastIndexedCommit branch).isSome → ∀ path, cfg.shouldIndexFile path →
      Reflected (s.marked branch path) (s.index path) ∨ SelectedNext cfg s path

/-- What `git diff` prints between the watermark's commit and `HEAD` is translated without loss. -/
def DiffTranslated (cfg : Config) (s : State K) (stdout : Option Str) : Prop :=
  ∃ entries, stdout = some (printListing entries) ∧
    Listing (fun path => (s.marked s.branch path).content) (fun path => (s.tree path).content) entries ∧
    ∀ e ∈ entries, e.Clean ∧ ¬ e.Dropped cfg.shouldIndexFile

/-- The path is as in the tree that some branch's watermark stands for, or its modification time is after the resume
point. -/
def Seen (cfg : Config) (s : State K) (path : Str) : Prop :=
  (∃ branch, (s.metadata.getLastIndexedCommit branch).isSome ∧ s.marked branch path = s.tree path) ∨
  ∃ file ∈ s.disk.get? path, s.resumeTimestamp cfg < file.mtime

/-- A step without the failures. An incremental run, of a branch with or without a watermark, has every path `Seen` or
has its change from `git diff`. -/
def Smooth (cfg : Config) (s : State K) : Act K → Prop
  | .start stdout deletes _ => s.resumeTimestamp cfg ≠ 0 → ∀ path, cfg.shouldIndexFile path → Seen cfg s path ∨
      (s.marked s.branch path).content ≠ (s.tree path).content ∧ deletes path ∧ DiffTranslated cfg s stdout ∧
        ∃ last, s.metadata.getLastIndexedCommit s.branch = some last ∧ last ≠ s.head ∧ last ≠ []
  | .process path ok => ok = true ∧ (s.disk.get? path).isSome
  | .resume => ∀ path ∈ s.metadata.getRemainingFiles, (s.disk.get? path).isSome
  | _ => True

/-! ### The invariant -/

structure Past (s : State K) : Prop where
  disk : ∀ path, ∀ file ∈ s.disk.get? path, file.changedAt ≤ s.tick
  tree : ∀ path, (s.tree path).changedAt ≤ s.tick
  marked : ∀ branch, (s.metadata.getLastIndexedCommit branch).isSome →
    ∀ path, (s.marked branch path).changedAt ≤ s.tick
  run : ∀ r, s.run = some r → ∀ path, (r.tree path).changedAt ≤ s.tick

/-- The files that a run, in progress or interrupted, has still to handle. -/
def unfinished (s : State K) : List Str :=
  match s.run with
  | none => if s.metadata.canResumeInterruptedOperation then s.metadata.getRemainingFiles else []
  | some r => r.pending

/-- What holds while a run that moves the watermark is on its way: what it is to mark is reflected or
still to do, and an interruption leaves the rest in the file list. -/
structure Underway (cfg : Config) (s : State K) (r : Run K) : Prop where
  todo : ∀ path, cfg.shouldIndexFile path → Reflected (r.tree path) (s.index path) ∨ path ∈ r.pending
  listed : ∀ path ∈ r.pending, path ∈ s.metadata.filesToIndex
  first : s.metadata.currentFileIndex = 0
  status : s.metadata.status = .inProgress

structure Inv (cfg : Config) (s : State K) : Prop where
  past : Past s
  marked : ∀ branch, (s.metadata.getLastIndexedCommit branch).isSome → ∀ path, cfg.shouldIndexFile path →
    Reflected (s.marked branch path) (s.index path) ∨ path ∈ unfinished s
  underway : ∀ r, s.run = some r → r.resumed = false → Underway cfg s r
  resumed : ∀ r, s.run = some r → r.resumed = true → s.metadata.canResumeInterruptedOperation = true ∧
    ∀ path ∈ r.pending, path ∈ s.metadata.getRemainingFiles

section Preserved

variable {cfg : Config} {s s' : State K} {a : Act K}

variable {c : Committed K} {path : Str} {r : Run K} {delta : GitDelta} {file : Working K} {stdout : Option Str}
  {n : Option ℕ} {deletes : Str → Bool} {cancelled isolated : Bool}

theorem reflected_of_le {content : Option K} {n : ℕ} (h : c.changedAt ≤ n) :
    Reflected c ⟨content, some n⟩ := .inr ⟨n, rfl, h⟩

def Refreshed (s s' : State K) : Prop :=
  ∀ path, s'.index path = s.index path ∨ (s'.index path).processedAt = some s.tick

theorem Refreshed.reflected (h : Refreshed s s') (hc : c.changedAt ≤ s.tick)
    (hr : Reflected c (s.index path)) : Reflected c (s'.index path) := by
  rcases h path with heq | hat
  · rw [heq]
    exact hr
  · exact .inr ⟨s.tick, hat, hc⟩

/-! #### What is unfinished -/

theorem unfinished_idle (hrun : s.run = none) (hres : s.metadata.canResumeInterruptedOperation = false) :
    unfinished s = [] := by
  rw [unfinished, hrun]
  simp [hres]

theorem unfinished_interrupted (hrun : s.run = none) (hres : s.metadata.canResumeInterruptedOperation = true) :
    unfinished s = s.metadata.getRemainingFiles := by
  rw [unfinished, hrun]
  exact if_pos hres

theorem unfinished_run (hrun : s.run = some r) : unfinished s = r.pending := by rw [unfinished, hrun]

theorem Inv.reflected (h : Inv cfg s) (hrun : s.run = none)
    (hres : s.metadata.canResumeInterruptedOperation = false) {branch : Str}
    (hmark : (s.metadata.getLastIndexedCommit branch).isSome) (hidx : cfg.shouldIndexFile path) :
    Reflected (s.marked branch path) (s.index path) := by
  rcases h.marked branch hmark path hidx with hr | hmem
  · exact hr
  · rw [unfinished_idle hrun hres] at hmem
    cases hmem

/-! #### The project -/

theorem inv_outside (h : Inv cfg s) (ho : Outside s s') : Inv cfg s' := by
  have hunfinished : unfinished s' = unfinished s := by rw [unfinished, unfinished, ho.run, ho.metadata]
  refine ⟨⟨?_, ?_, ?_, ?_⟩, ?_, ?_, ?_⟩
  · intro path file hf
    rw [ho.tick]
    rcases ho.disk path file hf with hf | ⟨-, hat⟩
    · exact h.past.disk path file hf
    · exact hat.le
  · intro path
    rw [ho.tick]
    rcases ho.tree path with heq | hat | ⟨file, hf, hat⟩
    · rw [heq]
      exact h.past.tree path
    · exact hat.le
    · rw [hat]
      exact h.past.disk path file hf
  · rw [ho.metadata, ho.marked, ho.tick]
    exact h.past.marked
  · rw [ho.run, ho.tick]
    exact h.past.run
  · rw [ho.metadata, ho.marked, ho.index, hunfinished]
    exact h.marked
  · intro r hr hres
    have hu := h.underway r (ho.run ▸ hr) hres
    exact ⟨by rw [ho.index]; exact hu.todo, by rw [ho.metadata]; exact hu.listed, by rw [ho.metadata]; exact hu.first,
      by rw [ho.metadata]; exact hu.status⟩
  · rw [ho.run, ho.metadata]
    exact h.resumed

/-! #### The start of a run -/

theorem reflected_clearCollection (hc : c.changedAt ≤ s.tick) :
    Reflected c ((s.clearCollection cfg).index path) ∨ path ∈ s.findFiles cfg := by
  by_cases hp : path ∈ s.findFiles cfg
  · exact .inr hp
  · left
    have hindex : (s.clearCollection cfg).index path = ⟨none, some s.tick⟩ := if_neg hp
    rw [hindex]
    exact reflected_of_le hc

theorem inv_startFull (h : Inv cfg s) (hrun : s.run = none) : Inv cfg (s.startFull cfg) := by
  by_cases hfiles : s.findFiles cfg = []
  · rw [State.startFull, if_pos hfiles]
    have hno : ∀ r, s.run ≠ some r := by simp [hrun]
    refine ⟨⟨h.past.disk, h.past.tree, h.past.marked, h.past.run⟩, fun branch hb path hidx => .inl ?_,
      fun r hr => absurd hr (hno r), fun r hr => absurd hr (hno r)⟩
    refine (reflected_clearCollection (h.past.marked branch hb path)).resolve_right fun hmem => ?_
    rw [hfiles] at hmem
    cases hmem
  · rw [State.startFull, if_neg hfiles]
    refine ⟨⟨h.past.disk, h.past.tree, h.past.marked, ?_⟩, fun branch hb path hidx => ?_, ?_, ?_⟩
    · rintro r ⟨⟩
      exact h.past.tree
    · exact reflected_clearCollection (h.past.marked branch hb path)
    · rintro r ⟨⟩ -
      exact ⟨fun path hidx => reflected_clearCollection (h.past.tree path), fun _ hp => hp, rfl, rfl⟩
    · rintro r ⟨⟩ hres
      cases hres

theorem refreshed_deleteFiles (s : State K) (deleted : List Str) (deletes : Str → Bool) :
    Refreshed s (s.deleteFiles deleted deletes) := by
  intro path
  by_cases hp : path ∈ deleted ∧ deletes path
  · exact .inr (by simp [State.deleteFiles, hp])
  · exact .inl (if_neg hp)

theorem mem_filesToIndex_of_delta (h : path ∈ delta.added ∨ path ∈ delta.modified) : path ∈ s.filesToIndex cfg delta :=
  mem_append_left _ (mem_dedup.2 (mem_append.2 h))

theorem mem_filesToIndex_of_mtime
    (hfile : s.disk.get? path = some file) (hidx : cfg.shouldIndexFile path)
    (hmtime : s.resumeTimestamp cfg < file.mtime) : path ∈ s.filesToIndex cfg delta :=
  mem_append_right _ (mem_filter.2 ⟨mem_findFiles hfile hidx, by simpa [hfile] using hmtime⟩)

theorem reflected_or_selected (h : Inv cfg s)
    (hrun : s.run = none) (hres : s.metadata.canResumeInterruptedOperation = false)
    (hzero : s.resumeTimestamp cfg ≠ 0) (hsmooth : Smooth cfg s (.start stdout deletes n))
    (hidx : cfg.shouldIndexFile path) :
    Reflected (s.tree path) ((s.deleteFiles (s.gitDelta cfg stdout).deleted deletes).index path) ∨
      path ∈ s.filesToIndex cfg (s.gitDelta cfg stdout) := by
  rcases hsmooth hzero path hidx with (⟨branch, hmark, heq⟩ | ⟨file, hfile, hmtime⟩) |
    ⟨hcontent, hdel, ⟨entries, rfl, hlist, hclean⟩, last, hlast, hne, hnil⟩
  · -- the path did not change since the watermark
    rw [← heq]
    exact .inl ((refreshed_deleteFiles s _ deletes).reflected (h.past.marked branch hmark path)
      (h.reflected hrun hres hmark hidx))
  · exact .inr (mem_filesToIndex_of_mtime hfile hidx hmtime)
  · have hdelta : s.gitDelta cfg (some (printListing entries)) = deltaOf cfg.shouldIndexFile entries := by
      simp only [State.gitDelta, hlast, hne, hnil, ne_eq, not_false_eq_true, and_self, ↓reduceIte]
      exact getGitDeltas_printListing hlist.unquoted fun e he => (hclean e he).1
    obtain ⟨hadd, hmod, hdeleted⟩ := mem_deltaOf cfg.shouldIndexFile entries path
    obtain ⟨e, he, hch⟩ := hlist.complete path hcontent
    rw [hdelta]
    rcases DiffEntry.reaches (hlist.holds e he) hch hidx (hclean e he).2 with ⟨-, hr | hr⟩ | ⟨hnone, hr⟩
    · exact .inr (mem_filesToIndex_of_delta (.inl (hadd.2 ⟨e, he, hr⟩)))
    · exact .inr (mem_filesToIndex_of_delta (.inr (hmod.2 ⟨e, he, hr⟩)))
    · left
      left
      have hmem := hdeleted.2 ⟨e, he, hr⟩
      simp [State.deleteFiles, hmem, hdel, hnone]

theorem inv_nothingToDo (h : Inv cfg s) (hrun : s.run = none)
    (hres : s.metadata.canResumeInterruptedOperation = false)
    (htree : ∀ path, cfg.shouldIndexFile path → Reflected (s.tree path) (s.index path)) (n : Option ℕ) :
    Inv cfg (s.nothingToDo n) := by
  have hno : ∀ r, s.run ≠ some r := by simp [hrun]
  rcases nothingToDo_cases s n with heq | heq
  · rw [heq]
    have hclear : ∀ branch, SessionMetadata.clear.getLastIndexedCommit branch = none := fun _ => rfl
    exact ⟨⟨h.past.disk, h.past.tree, by simp [hclear], h.past.run⟩, by simp [hclear],
      fun r hr => absurd hr (hno r), fun r hr => absurd hr (hno r)⟩
  · rw [heq]
    refine ⟨⟨h.past.disk, h.past.tree, ?_, h.past.run⟩, ?_, fun r hr => absurd hr (hno r),
    fun r hr => absurd hr (hno r)⟩
    · intro branch hb path
      rw [SessionMetadata.getLastIndexedCommit_update] at hb
      by_cases hbr : branch = s.branch
      · simp only [hbr, update_self]
        exact h.past.tree path
      · simp only [update_of_ne hbr]
        rw [if_neg hbr] at hb
        exact h.past.marked branch hb path
    · intro branch hb path hidx
      rw [SessionMetadata.getLastIndexedCommit_update] at hb
      left
      by_cases hbr : branch = s.branch
      · simp only [hbr, update_self]
        exact htree path hidx
      · simp only [update_of_ne hbr]
        rw [if_neg hbr] at hb
        exact h.reflected hrun hres hb hidx

theorem inv_startIncremental (h : Inv cfg s)
    (hrun : s.run = none) (hres : s.metadata.canResumeInterruptedOperation = false)
    (hzero : s.resumeTimestamp cfg ≠ 0) (hsmooth : Smooth cfg s (.start stdout deletes n)) :
    Inv cfg (s.startIncremental cfg stdout deletes n) := by
  have hselect : ∀ path, cfg.shouldIndexFile path →
      Reflected (s.tree path) ((s.deleteFiles (s.gitDelta cfg stdout).deleted deletes).index path) ∨
        path ∈ s.filesToIndex cfg (s.gitDelta cfg stdout) :=
    fun path hidx => reflected_or_selected h hrun hres hzero hsmooth hidx
  rcases startIncremental_cases cfg s stdout deletes n with ⟨hfiles, hdel, heq⟩ | heq
  · rw [heq]
    refine inv_nothingToDo h hrun hres (fun path hidx => ?_) n
    rcases hselect path hidx with hr | hmem
    · rw [hdel] at hr
      simpa [State.deleteFiles] using hr
    · rw [hfiles] at hmem
      cases hmem
  · rw [heq]
    have hwater : ∀ branch, s.sessionMetadata.getLastIndexedCommit branch = s.metadata.getLastIndexedCommit branch := by
      intro branch
      rcases sessionMetadata_eq s with ⟨heq, -⟩ | heq
      · rw [heq]
      · rw [heq]
        rfl
    have hstatus : s.sessionMetadata.status = .inProgress := by
      rcases sessionMetadata_eq s with ⟨heq, hst⟩ | heq
      · rw [heq]
        exact hst
      · rw [heq]
        rfl
    refine ⟨⟨h.past.disk, h.past.tree, ?_, ?_⟩, ?_, ?_, ?_⟩
    · intro branch hb
      exact h.past.marked branch ((congrArg Option.isSome (hwater branch)).symm.trans hb)
    · rintro r ⟨⟩
      exact h.past.tree
    · intro branch hb path hidx
      have hb : (s.metadata.getLastIndexedCommit branch).isSome :=
      (congrArg Option.isSome (hwater branch)).symm.trans hb
      exact .inl ((refreshed_deleteFiles s _ deletes).reflected (h.past.marked branch hb path)
        (h.reflected hrun hres hb hidx))
    · rintro r ⟨⟩ -
      exact ⟨hselect, fun _ hp => hp, rfl, hstatus⟩
    · rintro r ⟨⟩ hr
      cases hr

/-! #### The files of a run -/

theorem mem_erase_or_eq (path : Str) {path' : Str} {pending : List Str} (h : path' ∈ pending) :
    path' ∈ pending.erase path ∨ path' = path := by
  by_cases heq : path' = path
  · exact .inr heq
  · exact .inl ((mem_erase_of_ne heq).2 h)

theorem inv_processFile (h : Inv cfg s) (hrun : s.run = some r)
    (hfile : s.disk.get? path = some file) : Inv cfg (s.processFile r path true) := by
  have heq : s.processFile r path true = { s with
      index := update s.index path ⟨some file.content, some s.tick⟩
      run := some { r with pending := r.pending.erase path, processed := r.processed + 1 } } := by
    simp only [State.processFile, hfile]
  rw [heq]
  have hrefl : ∀ {c : Committed K} {path' : Str}, c.changedAt ≤ s.tick → Reflected c (s.index path') ∨ path' = path →
      Reflected c (update s.index path ⟨some file.content, some s.tick⟩ path') := by
    intro c path' hc hr
    by_cases hp : path' = path
    · rw [hp, update_self]
      exact reflected_of_le hc
    · rw [update_of_ne hp]
      exact hr.resolve_right hp
  have hpending : ∀ {c : Committed K} {path' : Str}, c.changedAt ≤ s.tick →
      Reflected c (s.index path') ∨ path' ∈ r.pending →
      Reflected c (update s.index path ⟨some file.content, some s.tick⟩ path') ∨
        path' ∈ r.pending.erase path := by
    intro c path' hc hr
    rcases hr with hr | hmem
    · exact .inl (hrefl hc (.inl hr))
    · rcases mem_erase_or_eq path hmem with hmem | heq
      · exact .inr hmem
      · exact .inl (hrefl hc (.inr heq))
  refine ⟨⟨h.past.disk, h.past.tree, h.past.marked, ?_⟩, ?_, ?_, ?_⟩
  · rintro r' ⟨⟩
    exact h.past.run r hrun
  · intro branch hb path' hidx
    have hm := h.marked branch hb path' hidx
    rw [unfinished_run hrun] at hm
    exact hpending (h.past.marked branch hb path') hm
  · rintro r' ⟨⟩ hres
    have hu := h.underway r hrun hres
    refine ⟨fun path' hidx => hpending (h.past.run r hrun path') (hu.todo path' hidx), fun path' hmem => ?_, hu.first,
      hu.status⟩
    exact hu.listed path' (mem_of_mem_erase hmem)
  · rintro r' ⟨⟩ hres
    obtain ⟨hcan, hmem⟩ := h.resumed r hrun hres
    exact ⟨hcan, fun path' hp => hmem path' (mem_of_mem_erase hp)⟩

/-! #### The end of a run -/

theorem refreshed_isolate (s : State K) : Refreshed s s.isolate := by
  intro path
  by_cases hp : s.disk.get? path = none ∧ (s.index path).content.isSome
  · exact .inr (by simp [State.isolate, hp])
  · exact .inl (if_neg hp)

theorem finishRun_eq (r : Run K) (cancelled isolated : Bool) :
    ∃ index, Refreshed s { s with index := index } ∧ s.finishRun r cancelled isolated = { s with
      index := index
      metadata :=
        let m := s.metadata.updateProgress s.now r.processed
        let m := if r.resumed then m else m.updateCommitWatermark r.branch r.commit
        if cancelled then m else m.completeIndexing s.now
      marked := if r.resumed then s.marked else update s.marked r.branch r.tree
      run := none } := by
  by_cases h : r.resumed = false ∧ isolated
  · exact ⟨s.isolate.index, refreshed_isolate s, by simp only [State.finishRun, if_pos h]; rfl⟩
  · exact ⟨s.index, fun _ => .inl rfl, by simp only [State.finishRun, if_neg h]⟩

/-- The pending files of a run that is cancelled are among those that a resume will handle. -/
theorem Underway.remaining (h : Underway cfg s r) (hp : path ∈ r.pending) :
    let m := (s.metadata.updateProgress s.now r.processed).updateCommitWatermark r.branch r.commit
    m.canResumeInterruptedOperation = true ∧ path ∈ m.getRemainingFiles := by
  have hlisted := h.listed path hp
  have hpos : 0 < s.metadata.filesToIndex.length := length_pos_of_mem hlisted
  constructor
  · simp [SessionMetadata.canResumeInterruptedOperation, SessionMetadata.updateProgress,
      SessionMetadata.updateCommitWatermark, h.status, h.first, hpos]
  · simpa [SessionMetadata.getRemainingFiles, SessionMetadata.updateProgress, SessionMetadata.updateCommitWatermark,
      h.first] using hlisted

theorem inv_finishRun_marked (h : Inv cfg s) (hrun : s.run = some r)
    (hres : r.resumed = false) (hend : cancelled = true ∨ r.pending = []) :
    Inv cfg (s.finishRun r cancelled isolated) := by
  obtain ⟨index, hindex, heq⟩ := finishRun_eq (s := s) r cancelled isolated
  rw [heq]
  simp only [hres, Bool.false_eq_true, ↓reduceIte]
  have hu := h.underway r hrun hres
  set m := (s.metadata.updateProgress s.now r.processed).updateCommitWatermark r.branch r.commit
  have hwater : ∀ branch, (if cancelled then m else m.completeIndexing s.now).getLastIndexedCommit branch =
      if branch = r.branch then some r.commit else s.metadata.getLastIndexedCommit branch := by
    intro branch
    cases cancelled <;> exact SessionMetadata.getLastIndexedCommit_update _ _ _
  refine ⟨⟨h.past.disk, h.past.tree, ?_, by simp⟩, ?_, by simp, by simp⟩
  · intro branch hb path
    rw [hwater] at hb
    by_cases hbr : branch = r.branch
    · simp only [hbr, update_self]
      exact h.past.run r hrun path
    · simp only [update_of_ne hbr]
      rw [if_neg hbr] at hb
      exact h.past.marked branch hb path
  · intro branch hb path hidx
    rw [hwater] at hb
    have htodo : (update s.marked r.branch r.tree branch path).changedAt ≤ s.tick ∧
        (Reflected (update s.marked r.branch r.tree branch path) (s.index path) ∨ path ∈ r.pending) := by
      by_cases hbr : branch = r.branch
      · simp only [hbr, update_self]
        exact ⟨h.past.run r hrun path, hu.todo path hidx⟩
      · simp only [update_of_ne hbr]
        rw [if_neg hbr] at hb
        exact ⟨h.past.marked branch hb path, unfinished_run hrun ▸ h.marked branch hb path hidx⟩
    rcases htodo with ⟨hc, hr | hp⟩
    · exact .inl (hindex.reflected hc hr)
    · obtain rfl : cancelled = true := hend.resolve_right fun hnil => absurd hp (hnil ▸ not_mem_nil)
      obtain ⟨hcan, hrem⟩ : m.canResumeInterruptedOperation = true ∧ path ∈ m.getRemainingFiles := hu.remaining hp
      right
      simpa only [unfinished, ↓reduceIte, hcan] using hrem

theorem inv_finishRun_resumed (h : Inv cfg s) (hrun : s.run = some r)
    (hres : r.resumed = true) (hend : cancelled = true ∨ r.pending = []) :
    Inv cfg (s.finishRun r cancelled isolated) := by
  obtain ⟨index, hindex, heq⟩ := finishRun_eq (s := s) r cancelled isolated
  rw [heq]
  simp only [hres, ↓reduceIte]
  obtain ⟨hcan, hrem⟩ := h.resumed r hrun hres
  have hwater : ∀ branch, (if cancelled then s.metadata.updateProgress s.now r.processed else
      (s.metadata.updateProgress s.now r.processed).completeIndexing s.now).getLastIndexedCommit branch =
      s.metadata.getLastIndexedCommit branch := by
    intro branch
    cases cancelled <;> rfl
  refine ⟨⟨h.past.disk, h.past.tree, ?_, by simp⟩, ?_, by simp, by simp⟩
  · intro branch hb
    rw [hwater] at hb
    exact h.past.marked branch hb
  · intro branch hb path hidx
    rw [hwater] at hb
    have hr := h.marked branch hb path hidx
    rw [unfinished_run hrun] at hr
    rcases hr with hr | hp
    · exact .inl (hindex.reflected (h.past.marked branch hb path) hr)
    · right
      rcases hend with rfl | hnil
      · have hcan' : (s.metadata.updateProgress s.now r.processed).canResumeInterruptedOperation = true := hcan
        have hrem' : path ∈ (s.metadata.updateProgress s.now r.processed).getRemainingFiles := hrem path hp
        simpa only [unfinished, ↓reduceIte, hcan'] using hrem'
      · rw [hnil] at hp
        cases hp

theorem inv_startResume (h : Inv cfg s) (hrun : s.run = none)
    (hcan : s.metadata.canResumeInterruptedOperation = true)
    (hexist : ∀ path ∈ s.metadata.getRemainingFiles, (s.disk.get? path).isSome) : Inv cfg s.startResume := by
  have hall : s.existingFiles = s.metadata.getRemainingFiles := filter_eq_self.2 hexist
  have hne : s.existingFiles ≠ [] := by
    rw [hall, SessionMetadata.getRemainingFiles, Ne, drop_eq_nil_iff]
    have hlt := (of_decide_eq_true hcan).2
    omega
  rw [State.startResume, if_neg hne]
  refine ⟨⟨h.past.disk, h.past.tree, h.past.marked, ?_⟩, ?_, ?_, ?_⟩
  · rintro r ⟨⟩
    exact h.past.tree
  · intro branch hb path hidx
    have hr := h.marked branch hb path hidx
    rw [unfinished_interrupted hrun hcan, ← hall] at hr
    exact hr
  · rintro r ⟨⟩ hres
    cases hres
  · rintro r ⟨⟩ -
    exact ⟨hcan, fun path hp => hall ▸ hp⟩

/-! #### Every step -/

theorem Inv.nextTick (h : Inv cfg s) : Inv cfg { s with tick := s.tick + 1 } where
  past :=
    { disk := fun path file hf => (h.past.disk path file hf).trans (Nat.le_succ _)
      tree := fun path => (h.past.tree path).trans (Nat.le_succ _)
      marked := fun branch hb path => (h.past.marked branch hb path).trans (Nat.le_succ _)
      run := fun r hr path => (h.past.run r hr path).trans (Nat.le_succ _) }
  marked := h.marked
  underway r hr hres := ⟨(h.underway r hr hres).todo, (h.underway r hr hres).listed, (h.underway r hr hres).first,
    (h.underway r hr hres).status⟩
  resumed := h.resumed

theorem inv_act (h : Inv cfg s) (hsmooth : Smooth cfg s a) (hs : act cfg s a = some s') : Inv cfg s' := by
  rcases act_cases hs with ho | ⟨stdout, deletes, n, rfl, hrun, hres, hst⟩ | ⟨r, path, ok, rfl, hrun, -, rfl⟩ |
    ⟨r, cancelled, isolated, rfl, hrun, hend, rfl⟩ | ⟨rfl, hrun, hcan, rfl⟩
  · exact inv_outside h ho
  · rcases hst with ⟨hzero, rfl⟩ | ⟨hzero, rfl⟩
    · exact inv_startFull h hrun
    · exact inv_startIncremental h hrun hres hzero hsmooth
  · obtain ⟨rfl, hfile⟩ := hsmooth
    obtain ⟨file, hfile⟩ := Option.isSome_iff_exists.1 hfile
    exact inv_processFile h hrun hfile
  · cases hres : r.resumed with
    | false => exact inv_finishRun_marked h hrun hres hend
    | true => exact inv_finishRun_resumed h hrun hres hend
  · exact inv_startResume h hrun hcan hsmooth

theorem act_tick (hs : act cfg s a = some s') : s'.tick = s.tick := by
  rcases act_cases hs with ho | ⟨stdout, deletes, n, rfl, -, -, hst⟩ | ⟨r, path, ok, rfl, -, -, rfl⟩ |
    ⟨r, cancelled, isolated, rfl, -, -, rfl⟩ | ⟨rfl, -, -, rfl⟩
  · exact ho.tick
  · rcases hst with ⟨-, rfl⟩ | ⟨-, rfl⟩
    · unfold State.startFull
      split <;> rfl
    · rcases startIncremental_cases cfg s stdout deletes n with ⟨-, -, heq⟩ | heq
      · rw [heq]
        rcases nothingToDo_cases s n with heq | heq <;> rw [heq]
      · rw [heq]
        rfl
  · unfold State.processFile
    split <;> rfl
  · obtain ⟨index, -, heq⟩ := finishRun_eq (s := s) r cancelled isolated
    rw [heq]
  · unfold State.startResume
    split <;> rfl

theorem inv_init (h : (project cfg).init s) : Inv cfg s := by
  obtain ⟨htick, -, hdisk, htree, -, hmeta, hrun⟩ := h
  have hno : ∀ branch, s.metadata.getLastIndexedCommit branch = none := by
    rw [hmeta]
    exact fun _ => rfl
  refine ⟨⟨?_, ?_, by simp [hno], by simp [hrun]⟩, by simp [hno], by simp [hrun], by simp [hrun]⟩
  · intro path file hf
    exact (hdisk path file hf).trans_le (Nat.zero_le _)
  · intro path
    exact (htree path).trans_le (Nat.zero_le _)

end Preserved

/-- In every history whose steps are all `Smooth` (a change since a watermark shows in the git diff or by its
modification time, files and deletions do not fail, while runs may be cancelled and resumed), every path that changed up
to a watermark is reflected in the index when no run is in progress or pending. -/
theorem watermark_behind (cfg : Config) (s : State K) (h : (project cfg).Reachable (Smooth cfg) s) :
    WatermarkBehind cfg s := by
  have hinv : Inv cfg s := h.invariant (fun _ hi => inv_init hi) (fun s a s' hI hc hs => by
    obtain ⟨s₁, hs₁, rfl⟩ := step_eq_some hs
    have hI₁ : Inv cfg s₁ := inv_act hI hc hs₁
    have htick : s₁.tick = s.tick := act_tick hs₁
    rw [← htick]
    exact hI₁.nextTick)
  intro hrun hres branch hb path hidx
  exact .inl (hinv.reflected hrun hres hb hidx)

/-! ### Histories of one file -/

def configA : Config := ⟨fun path => path = ['a'], 60⟩

/-- The steps of a history in which git reports nothing: `a` is as in the tree of the watermark of `m`, or its
modification time is after the resume point. -/
def ByMtime (s : State ℕ) : Act ℕ → Prop
  | .start .. => s.resumeTimestamp configA = 0 ∨
      (s.metadata.getLastIndexedCommit ['m']).isSome ∧ (s.marked ['m'] ['a']).content = (s.tree ['a']).content ∧
        (s.marked ['m'] ['a']).changedAt = (s.tree ['a']).changedAt ∨
      (s.disk.get? ['a']).any fun file => s.resumeTimestamp configA < file.mtime
  | .process path ok => ok = true ∧ (s.disk.get? path).isSome
  | .resume => ∀ path ∈ s.metadata.getRemainingFiles, (s.disk.get? path).isSome
  | _ => True

instance (s : State ℕ) : (a : Act ℕ) → Decidable (ByMtime s a)
  | .start .. => inferInstanceAs (Decidable (_ ∨ _ ∨ _))
  | .process path ok => inferInstanceAs (Decidable (ok = true ∧ (s.disk.get? path).isSome))
  | .resume => inferInstanceAs (Decidable (∀ path ∈ s.metadata.getRemainingFiles, (s.disk.get? path).isSome))
  | .wait _ | .write .. | .commit .. | .moveHead .. | .finish .. => .isTrue trivial

theorem ByMtime.smooth {s : State ℕ} {a : Act ℕ} (h : ByMtime s a) : Smooth configA s a := by
  cases a with
  | start stdout deletes n =>
    intro hzero path hidx
    obtain rfl : path = ['a'] := of_decide_eq_true hidx
    rcases h with hfull | ⟨hmark, hcontent, hat⟩ | hmtime
    · exact absurd hfull hzero
    · exact .inl (.inl ⟨['m'], hmark, by rw [Committed.mk.injEq]; exact ⟨hcontent, hat⟩⟩)
    · exact .inl (.inr (by simpa using (Option.any_eq_true _ _).1 hmtime))
  | process path ok | resume => exact h
  | wait | write | commit | moveHead | finish => trivial

/-- A new branch `f` changes the file; its first run is cancelled and resumed. Back on `m` the file is indexed again,
and the run of a new branch `g` at the same commit has nothing to do. -/
def newBranches : List (Act ℕ) :=
  [.start none (fun _ => true) none, .process ['a'] true, .finish false true, .wait 1000,
    .moveHead ['f'] ['2'] [(['a'], some 2)], .start none (fun _ => true) (some 1), .finish true true, .wait 5, .resume,
    .process ['a'] true, .finish false true, .wait 1000, .moveHead ['m'] ['1'] [(['a'], some 1)], .wait 1000,
    .start none (fun _ => true) (some 1), .process ['a'] true, .finish false true,
    .moveHead ['g'] ['1'] [], .start none (fun _ => true) (some 1)]

theorem watermark_behind_branches : ∃ s, (project configA).Reachable (Smooth configA) s ∧
    (s.run.isNone ∧ s.metadata.canResumeInterruptedOperation = false ∧
      s.metadata.getLastIndexedCommit ['m'] = some ['1'] ∧ s.metadata.getLastIndexedCommit ['f'] = some ['2'] ∧
      s.metadata.getLastIndexedCommit ['g'] = some ['1'] ∧ (s.index ['a']).content = some 1) ∧
    WatermarkBehind configA s := by
  obtain ⟨s, hs, hout⟩ := exists_of_run_mem (M := project configA) (C := ByMtime)
    (P := fun s => s.run.isNone ∧ s.metadata.canResumeInterruptedOperation = false ∧
      s.metadata.getLastIndexedCommit ['m'] = some ['1'] ∧ s.metadata.getLastIndexedCommit ['f'] = some ['2'] ∧
      s.metadata.getLastIndexedCommit ['g'] = some ['1'] ∧ (s.index ['a']).content = some 1) freshProject newBranches
    freshProject_init (by decide +kernel)
  have hsmooth := hs.mono fun _ _ h => h.smooth
  exact ⟨s, hsmooth, hout, watermark_behind configA s hsmooth⟩

instance [DecidableEq K] (c : Committed K) (i : Indexed K) : Decidable (Reflected c i) :=
  inferInstanceAs (Decidable (_ ∨ _))

instance [DecidableEq K] (cfg : Config) (s : State K) (path : Str) : Decidable (SelectedNext cfg s path) :=
  inferInstanceAs (Decidable (_ ∨ _))

def indexedThenPulled (content : Option ℕ) : List (Act ℕ) :=
  [.start none (fun _ => true) none, .process ['a'] true, .finish false true, .wait 1000,
    .moveHead ['m'] ['2'] [(['a'], content)], .wait 1000]

def failedDiff : List (Act ℕ) := indexedThenPulled none ++ [.start none (fun _ => true) (some 1)]

def failedFile : List (Act ℕ) :=
  indexedThenPulled (some 2) ++ [.start (some (printListing [.modified ['a']])) (fun _ => true) (some 1),
    .process ['a'] false, .process ['a'] false, .finish false true]

/-- Between two runs, neither does the index reflect the path nor will the next run select it. -/
def Lost (s : State ℕ) : Prop :=
  s.run.isNone ∧ s.metadata.canResumeInterruptedOperation = false ∧
    ¬ (Reflected (s.marked ['m'] ['a']) (s.index ['a']) ∨ SelectedNext config60 s ['a'])

instance (s : State ℕ) : Decidable (Lost s) := inferInstanceAs (Decidable (_ ∧ _))

def lostOutcome (s : State ℕ) : Bool × Option Str × Option ℕ × Option ℕ :=
  (decide (Lost s), s.metadata.getLastIndexedCommit ['m'], (s.index ['a']).content,
    (s.disk.get? ['a']).map Working.content)

theorem not_watermarkBehind_of_lost {s : State ℕ} {i d : Option ℕ}
    (h : lostOutcome s = (true, some ['2'], i, d)) : ¬ WatermarkBehind config60 s := by
  simp only [lostOutcome, Prod.mk.injEq, decide_eq_true_eq] at h
  obtain ⟨⟨hrun, hres, hlost⟩, hmark, -, -⟩ := h
  intro hw
  exact hlost (hw (Option.isNone_iff_eq_none.1 hrun) hres ['m'] (by rw [hmark]; rfl) ['a'] rfl)

/-- After a failed diff the index keeps a deleted file, and after a failed file it keeps the old
content; the watermark has passed both changes. -/
theorem watermark_ahead :
    (∃ s, (project config60).Reachable Any s ∧
      lostOutcome s = (true, some ['2'], some 1, none) ∧ ¬ WatermarkBehind config60 s) ∧
    ∃ s, (project config60).Reachable Any s ∧
      lostOutcome s = (true, some ['2'], some 1, some 2) ∧ ¬ WatermarkBehind config60 s := by
  constructor
  · exact exists_of_run_and freshProject failedDiff freshProject_init (by decide +kernel) fun s _ hout =>
      not_watermarkBehind_of_lost hout
  · exact exists_of_run_and freshProject failedFile freshProject_init (by decide +kernel) fun s _ hout =>
      not_watermarkBehind_of_lost hout

end CodeIndexer.Incremental
