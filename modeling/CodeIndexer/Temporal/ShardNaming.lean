import CodeIndexer.Lib.Calendar
import CodeIndexer.Lib.PyText

/-!
# Quarterly temporal shards (`services/temporal/temporal_collection_naming.py`)

Commits are stored in one collection per model and calendar quarter. This file has the naming of a
shard, the quarter's range, the directory scan of `get_overlapping_shards`, the bounds
`temporal_fusion_dispatch` derives from a `time_range`, and the timestamp filter of
`TemporalSearchService.query_temporal`. The host runs in UTC; an aware `datetime` is its Unix
timestamp in seconds, and a call that raises `ValueError` is `none`.
-/

namespace CodeIndexer.Temporal

open Calendar PyText

structure Date where
  year : ℕ
  month : ℕ
  day : ℕ
  isDate : IsDate year month day
  year_le : year ≤ 9999
deriving DecidableEq

abbrev TimeRange := Date × Date

def allTimeRange : TimeRange :=
  (⟨1970, 1, 1, by decide, by decide⟩, ⟨2100, 12, 31, by decide, by decide⟩)

/-! ### Instants -/

def epochOrdinal : ℕ := 719163

def midnight (y m d : ℕ) : ℤ := ((ymd2ord y m d : ℤ) - epochOrdinal) * 86400

def Date.timestamp (d : Date) : ℤ := midnight d.year d.month d.day

def utcDatetime (y m d : ℕ) : Option ℤ := if 1 ≤ y ∧ y ≤ 9999 then some (midnight y m d) else none

variable (t : ℤ) (U : Unicode) (modelName : Str)

def ordinalOf : ℕ := (t / 86400 + epochOrdinal).toNat

/-- The `year`, and below the `month`, of `datetime.fromtimestamp(t, tz=timezone.utc)`. -/
def utcYear : ℕ := (ord2ymd (ordinalOf t)).1

def utcMonth : ℕ := (ord2ymd (ordinalOf t)).2.1

/-! ### Names -/

def temporalCollectionPrefix : Str := "code-indexer-temporal-"

def sanitizeModelName : Str :=
  (U.lower modelName).map fun c => if c.isAlphanum || c == '_' then c else '_'

def resolveTemporalCollectionName : Str :=
  temporalCollectionPrefix ++ sanitizeModelName U modelName

def monthToQuarter : ℕ → ℕ
  | 1 | 2 | 3 => 1
  | 4 | 5 | 6 => 2
  | 7 | 8 | 9 => 3
  | _ => 4

def quarterSuffix : Str := natStr (utcYear t) ++ 'Q' :: natStr (monthToQuarter (utcMonth t))

def getShardCollectionName (t : ℤ) : Str :=
  resolveTemporalCollectionName U modelName ++ '-' :: quarterSuffix t

def getQuarterRange (year quarter : ℕ) : Option (ℤ × ℤ) := do
  let startMonth := (quarter - 1) * 3 + 1
  let start ← utcDatetime year startMonth 1
  let stop ← (if quarter = 4 then utcDatetime (year + 1) 1 1 else utcDatetime year (startMonth + 3) 1)
  return (start, stop)

/-- The rest of a name matched by `(\d{4})Q([1-4])$`, where `$` also stands before a final newline. -/
def matchQuarter : Str → Option (ℕ × ℕ)
  | a :: b :: c :: d :: 'Q' :: q :: rest => do
    let a ← U.digitValue a
    let b ← U.digitValue b
    let c ← U.digitValue c
    let d ← U.digitValue d
    if '1' ≤ q ∧ q ≤ '4' ∧ (rest = [] ∨ rest = ['\n']) then
      some (a * 1000 + b * 100 + c * 10 + d, q.toNat - '0'.toNat)
    else none
  | _ => none

/-- `re.match(rf"^{re.escape(base_name)}-(\d{4})Q([1-4])$", name)` as year and quarter. -/
def matchShard (baseName name : Str) : Option (ℕ × ℕ) :=
  if (baseName ++ ['-']).isPrefixOf name then matchQuarter U (name.drop (baseName.length + 1)) else none

/-! ### The directory scan -/

structure DirEntry where
  name : Str
  isDir : Bool
  hnswIndex : Bool
  migrationMarker : Bool

def hasRealMonolith (e : DirEntry) : Bool := e.isDir && !e.migrationMarker && e.hnswIndex

/-- The overlap test of `get_overlapping_shards`; `none` is an open end. -/
def overlaps (normStart normEnd : Option ℤ) (shardStart shardEnd : ℤ) : Bool :=
  !(normEnd.any fun e => decide (e ≤ shardStart)) && !(normStart.any fun s => decide (s ≥ shardEnd))

structure Found where
  shards : List Str
  hasLegacy : Bool
deriving DecidableEq

def scanEntry (baseName : Str) (normStart normEnd : Option ℤ) (acc : Found) (e : DirEntry) : Option Found :=
  if e.isDir then
    match matchShard U baseName e.name with
    | some (year, quarter) => do
      let (shardStart, shardEnd) ← getQuarterRange year quarter
      if overlaps normStart normEnd shardStart shardEnd then
        some { acc with shards := acc.shards ++ [e.name] }
      else some acc
    | none =>
      if e.name = baseName ∧ hasRealMonolith e then some { acc with hasLegacy := true } else some acc
  else some acc

def getOverlappingShards (index : Option (List DirEntry)) (start stop : Option ℤ) : Option (List Str) :=
  let baseName := resolveTemporalCollectionName U modelName
  match index with
  | none => some []
  | some entries => do
    let found ← entries.foldlM (scanEntry U baseName start stop) ⟨[], false⟩
    return found.shards.mergeSort (fun a b => decide (a ≤ b)) ++ if found.hasLegacy then [baseName] else []

/-! ### Pruning and filtering by a time range -/

def pruningBounds : Option TimeRange → Option ℤ × Option ℤ
  | none => (none, none)
  | some (s, e) =>
    (if s = allTimeRange.1 then none else some s.timestamp,
     if e = allTimeRange.2 then none else some e.timestamp)

def startTs (r : TimeRange) : ℤ := r.1.timestamp

/-- `end_ts` of `query_temporal`: the last second of the end date, tightened by `at_commit_ts`. -/
def endTs (r : TimeRange) (atCommitTs : Option ℤ) : ℤ :=
  let endTs := r.2.timestamp + (23 * 3600 + 59 * 60 + 59)
  match atCommitTs with
  | some a => min endTs a
  | none => endTs

def acceptsTimestamp (r : TimeRange) (atCommitTs : Option ℤ) (t : ℤ) : Prop :=
  startTs r ≤ t ∧ t ≤ endTs r atCommitTs

end CodeIndexer.Temporal
