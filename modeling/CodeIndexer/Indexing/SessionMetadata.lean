import CodeIndexer.Lib.Dict
import CodeIndexer.Lib.PyText

/-!
# Session metadata (services/progressive_metadata.py)

The part of `ProgressiveMetadata` that decides what the next run does: the status, the time stamp that
`find_modified_files` starts from, the file list of an interrupted run and the commit watermark of each
branch. Methods that read the clock take the reading as an argument.
-/

namespace CodeIndexer.Incremental

open PyText

inductive Status
  | notStarted
  | inProgress
  | completed
  | failed
deriving DecidableEq

structure SessionMetadata where
  status : Status
  lastIndexTimestamp : ℚ
  filesProcessed : ℕ
  filesToIndex : List Str
  currentFileIndex : ℕ
  branchCommitWatermarks : Dict Str Str

namespace SessionMetadata

def clear : SessionMetadata := ⟨.notStarted, 0, 0, [], 0, Dict.empty⟩

variable (m : SessionMetadata)

def startIndexing : SessionMetadata := { m with status := .inProgress, filesProcessed := 0 }

def updateProgress (now : ℚ) (filesProcessed : ℕ) : SessionMetadata :=
  { m with lastIndexTimestamp := now, filesProcessed := m.filesProcessed + filesProcessed }

def completeIndexing (now : ℚ) : SessionMetadata := { m with status := .completed, lastIndexTimestamp := now }

def failIndexing : SessionMetadata := { m with status := .failed }

def getResumeTimestamp (safetyBuffer : ℚ) : ℚ :=
  if m.status = .notStarted then 0
  else if m.lastIndexTimestamp = 0 then 0
  else max 0 (m.lastIndexTimestamp - safetyBuffer)

def setFilesToIndex (files : List Str) : SessionMetadata := { m with filesToIndex := files, currentFileIndex := 0 }

def getRemainingFiles : List Str := m.filesToIndex.drop m.currentFileIndex

def canResumeInterruptedOperation : Bool :=
  (m.status = .inProgress ∨ m.status = .failed) ∧ m.currentFileIndex < m.filesToIndex.length

def getLastIndexedCommit (branch : Str) : Option Str := m.branchCommitWatermarks.get? branch

def updateCommitWatermark (branch commit : Str) : SessionMetadata :=
  { m with branchCommitWatermarks := m.branchCommitWatermarks.set branch commit }

/-! ### Facts about the methods -/

variable {m} {buffer now : ℚ}

theorem getResumeTimestamp_clear : clear.getResumeTimestamp buffer = 0 := by
  simp [getResumeTimestamp, clear]

theorem getResumeTimestamp_lt (hbuffer : 0 < buffer) (hnow : m.lastIndexTimestamp ≤ now) :
    m.getResumeTimestamp buffer = 0 ∨ m.getResumeTimestamp buffer < now := by
  unfold getResumeTimestamp
  split
  · exact .inl rfl
  · split
    · exact .inl rfl
    · rcases max_cases 0 (m.lastIndexTimestamp - buffer) with ⟨h, -⟩ | ⟨h, -⟩
      · exact .inl h
      · right
        linarith

theorem getResumeTimestamp_completed (hbuffer : 0 < buffer) (hstatus : m.status = .completed) {mtime : ℚ} :
    (m.getResumeTimestamp buffer = 0 ∨ m.getResumeTimestamp buffer < mtime) ↔
      m.lastIndexTimestamp ≤ buffer ∨ m.lastIndexTimestamp - buffer < mtime := by
  unfold getResumeTimestamp
  rw [if_neg (by simp [hstatus])]
  split
  · rename_i hzero
    simp [hzero, hbuffer.le]
  · rcases max_cases 0 (m.lastIndexTimestamp - buffer) with ⟨h, hle⟩ | ⟨h, hlt⟩
    · simp only [h, true_or, true_iff]
      left
      linarith
    · rw [h]
      constructor
      · rintro (heq | hm)
        · exact absurd heq hlt.ne'
        · exact .inr hm
      · rintro (hle | hm)
        · linarith
        · exact .inr hm

theorem getLastIndexedCommit_update (branch commit branch' : Str) :
    (m.updateCommitWatermark branch commit).getLastIndexedCommit branch' =
      if branch' = branch then some commit else m.getLastIndexedCommit branch' :=
  Dict.get?_set _ _ _ _

end SessionMetadata

end CodeIndexer.Incremental
