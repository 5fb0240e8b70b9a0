import CodeIndexer.Lib.PyText

/-!
# Path filters of a temporal query

The payload of a commit's chunk (`temporal_point_builder.py`), the filter that `query_temporal` builds from its path
patterns and time range, and `evaluate_condition` of the vector store over them. Language, author and nested
conditions are left out, `matchesPattern` is `PathPatternMatcher`, and `strftime` the date of a timestamp.
-/

namespace CodeIndexer.Temporal.PathFilters

open PyText

inductive Value
  | bool (b : Bool)
  | int (n : ℤ)
  | str (s : Str)
  | strs (l : List Str)
deriving DecidableEq

/-- A payload, `none` being Python's `None`; it has no nested keys. -/
abbrev Payload := List (Str × Option Value)

structure CommitInfo where
  hash : Str
  timestamp : ℤ
  authorName : Str
  authorEmail : Str
  message : Str

structure AggregatedChunk where
  chunkIndex : ℕ
  charStart : ℕ
  charEnd : ℕ
  isHead : Bool
  paths : List Str
  primaryPath : Option Str

def buildChunkPayload (strftime : ℤ → Str) (commit : CommitInfo) (chunk : AggregatedChunk) (projectId : Str) :
    Payload :=
  [("type", some (.str "commit_chunk")), ("is_head", some (.bool chunk.isHead)),
    ("commit_hash", some (.str commit.hash)),
    ("commit_timestamp", some (.int commit.timestamp)), ("commit_date", some (.str (strftime commit.timestamp))),
    ("author_name", some (.str commit.authorName)), ("author_email", some (.str commit.authorEmail)),
    ("paths", some (.strs chunk.paths)), ("primary_path", chunk.primaryPath.map .str),
    ("chunk_index", some (.int chunk.chunkIndex)), ("char_start", some (.int chunk.charStart)),
    ("char_end", some (.int chunk.charEnd)), ("project_id", some (.str projectId)),
    ("commit_message", some (.str (if chunk.chunkIndex = 0 then commit.message.take 200 else [])))]

/-- A condition on one key: a range of numbers, or a glob pattern. -/
inductive Condition
  | range (key : Str) (gte lte : ℤ)
  | text (key pattern : Str)

structure Filter where
  must : List Condition
  mustNot : List Condition

/-- `build_exclusion_filter`: a blank pattern is skipped, and backslashes become slashes. -/
def buildExclusionFilter (patterns : List Str) : List Condition :=
  (patterns.filter fun p => strip p ≠ []).map fun p =>
    .text "path" ((strip p).map fun c => if c = '\\' then '/' else c)

/-- The filter that `query_temporal` builds; `at_commit_ts` can only lower the end of the time range. -/
def queryFilter (pathFilter excludePath : List Str) (startTs endTs : ℤ) (atCommitTs : Option ℤ) : Filter where
  must := pathFilter.map (.text "path") ++ [.range "commit_timestamp" startTs (atCommitTs.elim endTs (min endTs))]
  mustNot := buildExclusionFilter excludePath

/-- The value that a condition looks at, a missing `path` being read from `file_path`. -/
def Payload.current (payload : Payload) (key : Str) : Option Value :=
  let get (key : Str) : Option Value := (payload.lookup key).join
  if '.' ∈ key then none
  else if get key = none ∧ key = "path" then get "file_path"
  else get key

variable (matchesPattern : Str → Str → Bool)

def evaluateCondition (payload : Payload) : Condition → Bool
  | .range key gte lte =>
    match payload.current key with
    | some (.int n) => gte ≤ n ∧ n ≤ lte
    | some (.bool b) => gte ≤ b.toInt ∧ b.toInt ≤ lte
    | _ => false
  | .text key pattern =>
    match payload.current key with
    | some (.str s) => matchesPattern s pattern
    | _ => false

def evaluateFilter (payload : Payload) (f : Filter) : Bool :=
  f.must.all (evaluateCondition matchesPattern payload) && !f.mustNot.any (evaluateCondition matchesPattern payload)

variable {matchesPattern} {strftime : ℤ → Str} {commit : CommitInfo} {chunk : AggregatedChunk} {projectId : Str}

theorem current_timestamp : (buildChunkPayload strftime commit chunk projectId).current "commit_timestamp" =
    some (.int commit.timestamp) := by
  simp [Payload.current, buildChunkPayload, List.lookup]

theorem evaluate_exclusion (patterns : List Str) : (buildExclusionFilter patterns).any
    (evaluateCondition matchesPattern (buildChunkPayload strftime commit chunk projectId)) = false := by
  rw [List.any_eq_false]
  intro c hc
  obtain ⟨pattern, -, rfl⟩ := List.mem_map.mp hc
  exact Bool.false_ne_true

/-- The filters for one pattern go by the paths of a payload just if it is in the time range and none of them
matches. -/
theorem path_filters_see_paths_iff (matchesPattern : Str → Str → Bool) (strftime : ℤ → Str) (commit : CommitInfo)
    (chunk : AggregatedChunk) (projectId pattern : Str) (startTs endTs : ℤ) (atCommitTs : Option ℤ) :
    let payload := buildChunkPayload strftime commit chunk projectId
    ((evaluateFilter matchesPattern payload (queryFilter [pattern] [] startTs endTs atCommitTs) = true ↔
        ∃ path ∈ chunk.paths, matchesPattern path pattern) ∧
      (evaluateFilter matchesPattern payload (queryFilter [] [pattern] startTs endTs atCommitTs) = false ↔
        ∃ path ∈ chunk.paths, matchesPattern path pattern)) ↔
    (startTs ≤ commit.timestamp ∧ commit.timestamp ≤ atCommitTs.elim endTs (min endTs)) ∧
      ¬ ∃ path ∈ chunk.paths, matchesPattern path pattern := by
  intro payload
  have hinclude : evaluateFilter matchesPattern payload
    (queryFilter [pattern] [] startTs endTs atCommitTs) = false := by
    rfl
  have hexclude : evaluateFilter matchesPattern payload (queryFilter [] [pattern] startTs endTs atCommitTs) =
      decide (startTs ≤ commit.timestamp ∧ commit.timestamp ≤ atCommitTs.elim endTs (min endTs)) := by
    rw [evaluateFilter, queryFilter, evaluate_exclusion, List.map_nil, List.nil_append, List.all_cons,
      evaluateCondition,
      current_timestamp, List.all_nil, Bool.and_true, Bool.not_false, Bool.and_true]
  rw [hinclude, hexclude, decide_eq_false_iff_not, Bool.false_eq_true]
  by_cases hmatch : ∃ path ∈ chunk.paths, matchesPattern path pattern = true
  · simp only [hmatch, iff_true, false_and, not_true_eq_false, and_false]
  · simp only [hmatch, iff_false, not_false_eq_true, true_and, not_not, and_true]

/-- A commit that touches `a.py` does not pass the filter for `a.py`, and passes the one that excludes it. -/
theorem path_filters_blind :
    evaluateFilter (· = ·) (buildChunkPayload (fun _ => []) ⟨"c0", 5, "a", "a@x", "m"⟩
    ⟨0, 0, 9, true, ["a.py"], none⟩ "p")
        (queryFilter ["a.py"] [] 0 9 none) = false ∧
      evaluateFilter (· = ·) (buildChunkPayload (fun _ => []) ⟨"c0", 5, "a", "a@x", "m"⟩
        ⟨0, 0, 9, true, ["a.py"], none⟩ "p")
        (queryFilter [] ["a.py"] 0 9 none) = true := by
  decide +kernel

end CodeIndexer.Temporal.PathFilters
