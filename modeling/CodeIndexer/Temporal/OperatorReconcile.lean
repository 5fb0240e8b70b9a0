import CodeIndexer.Temporal.StrayVectors

/-!
# The operator's reconcile over all shards (`_reconcile_full_scan_with_barrier`)

The operator's reconcile marks every shard of its commits stale, scans the shards and returns those to be indexed. It
clears the mark of a shard only if the scan misses nothing there and the shard was not stale before.
-/

namespace CodeIndexer.Temporal.OperatorReconcile

open PyText Strays List Function

/-- A shard is a collection if its metadata are valid. -/
structure Shard where
  dir : ShardDir
  isCollection : Bool
  completed : List Str

/-- The `hnsw_index` of a shard's metadata. -/
structure HnswInfo where
  staleFlag : Option Bool
  filtered : Bool
  vectorCount : ℕ
  visibleCount : ℕ

/-- Nothing if no index has been built. -/
abbrev Flag := Option HnswInfo

namespace Flag

def isStale : Flag → Bool
  | none => true
  | some info => info.staleFlag.getD true || info.filtered && info.vectorCount ≠ info.visibleCount

def write (flag : Flag) (stale : Bool) : Flag := flag.map ({ · with staleFlag := some stale })

theorem isStale_mark (flag : Flag) : (flag.write true).isStale = true := by
  cases flag <;> rfl

theorem isStale_clear {flag : Flag} (h : flag.isStale = false) (stale : Bool) :
    ((flag.write stale).write false).isStale = false := by
  cases flag with
  | none => cases h
  | some info => exact (Bool.or_eq_false_iff.1 h).2

end Flag

variable {N : Type} [DecidableEq N] (shardOf : CommitInfo → N) (env : Env) (shards : N → Shard)

def bucketCommitsByShard (commits : List CommitInfo) : Dict N (List CommitInfo) :=
  commits.foldl (fun buckets c => buckets.set (shardOf c) ((buckets.get? (shardOf c)).getD [] ++ [c])) .empty

def scanShard (missing : List CommitInfo) (bucket : N × List CommitInfo) : Option (List CommitInfo) :=
  let s := shards bucket.1
  (reconcileShard env s.dir s.isCollection s.completed bucket.2).map fun r => missing ++ r.1

/-- `none` is an error of a scan or a deletion. -/
def reconcileTemporalIndex (commits : List CommitInfo) : Option (List CommitInfo) :=
  ((bucketCommitsByShard shardOf commits).items.foldlM (scanShard env shards) []).map fun missing =>
    commits.filter (·.hash ∈ missing.map CommitInfo.hash)

def markShard (r : (N → Flag) × (N → Bool)) (name : N) : (N → Flag) × (N → Bool) :=
  if (shards name).isCollection then
    (update r.1 name ((r.1 name).write true), update r.2 name (r.1 name).isStale)
  else r

def clearShard (wasAlreadyStale : N → Bool) (r : (N → Flag) × Dict N (List CommitInfo)) (name : N) :
    (N → Flag) × Dict N (List CommitInfo) :=
  if (r.2.get? name).isSome then r
  else if wasAlreadyStale name then (r.1, r.2.set name [])
  else if (shards name).isCollection then (update r.1 name ((r.1 name).write false), r.2)
  else r

/-- The flags afterwards and the shards to be indexed; an error leaves the shards marked. -/
def reconcileFullScanWithBarrier (commits : List CommitInfo) (flags : N → Flag) :
    (N → Flag) × Option (Dict N (List CommitInfo)) :=
  let names := (bucketCommitsByShard shardOf commits).items.map Prod.fst
  let (marked, wasAlreadyStale) := names.foldl (markShard shards) (flags, fun _ => false)
  match reconcileTemporalIndex shardOf env shards commits with
  | none => (marked, none)
  | some missing =>
    let r := names.foldl (clearShard shards wasAlreadyStale) (marked, bucketCommitsByShard shardOf missing)
    (r.1, some r.2)

def Shard.Misses (s : Shard) (c : CommitInfo) : Prop :=
  s.isCollection = true → ¬(Strays.Found s.dir c.hash ∧ c.hash ∈ s.completed)

variable {shardOf env} {commits missing : List CommitInfo} {c : CommitInfo}

theorem get?_bucketCommitsByShard (commits : List CommitInfo) (name : N) :
    (bucketCommitsByShard shardOf commits).get? name =
      if commits.filter (shardOf · = name) = [] then none else some (commits.filter (shardOf · = name)) := by
  refine (Dict.get?_foldl_append (g := fun c => some (shardOf c)) (v := id) (fun _ _ => rfl) commits name).trans ?_
  simp

theorem misses_of_mem {s : Shard} {files : List IdIndex.VectorFile}
    (h : reconcileShard env s.dir s.isCollection s.completed commits = some (missing, files)) (hc : c ∈ missing) :
    c ∈ commits ∧ s.Misses c := by
  by_cases hne : commits = []
  · subst hne
    cases h
    cases hc
  · cases hcollection : s.isCollection with
    | true =>
      rw [hcollection] at h
      obtain ⟨hmem, hagain⟩ := ((reconcileShard_collection hne h).1 c).1 hc
      exact ⟨hmem, fun _ => hagain⟩
    | false =>
      rw [reconcileShard, if_neg (by simpa using hne), hcollection] at h
      cases h
      exact ⟨hc, by simp [Shard.Misses, hcollection]⟩

variable {shards}

omit [DecidableEq N] in
theorem misses_of_foldlM {buckets : List (N × List CommitInfo)} {missing' : List CommitInfo}
    (h : buckets.foldlM (scanShard env shards) missing = some missing') (hc : c ∈ missing') :
    c ∈ missing ∨ ∃ b ∈ buckets, c ∈ b.2 ∧ (shards b.1).Misses c := by
  induction buckets generalizing missing with
  | nil => cases h; exact .inl hc
  | cons b buckets ih =>
    obtain ⟨next, hscan, h⟩ := Option.bind_eq_some_iff.1 h
    obtain ⟨r, hr, rfl⟩ := Option.map_eq_some_iff.1 hscan
    rcases ih h with hmem | ⟨b', hb', hmiss⟩
    · rcases mem_append.1 hmem with hold | hnew
      · exact .inl hold
      · exact .inr ⟨b, mem_cons_self, misses_of_mem hr hnew⟩
    · exact .inr ⟨b', mem_cons_of_mem b hb', hmiss⟩

/-- A commit that the scan returns is one that its own shard misses. -/
theorem misses_of_reconcile (h : reconcileTemporalIndex shardOf env shards commits = some missing) (hc : c ∈ missing) :
    c ∈ commits ∧ (shards (shardOf c)).Misses c := by
  obtain ⟨found, hfound, rfl⟩ := Option.map_eq_some_iff.1 h
  obtain ⟨hcommits, hhash⟩ := mem_filter.1 hc
  obtain ⟨⟨hash, hex⟩, hmem, rfl⟩ := mem_map.1 (of_decide_eq_true hhash)
  rcases misses_of_foldlM hfound hmem with hnil | ⟨⟨name, bucket⟩, hb, hcb, hmiss⟩
  · cases hnil
  · rw [Dict.mem_items_iff, get?_bucketCommitsByShard] at hb
    split at hb
    · cases hb
    · cases hb
      rw [of_decide_eq_true (mem_filter.1 hcb).2]
      exact ⟨hcommits, hmiss⟩

section Loops

variable (shards) {names : List N} (hnodup : names.Nodup) (name : N)
include hnodup

theorem foldl_markShard (r : (N → Flag) × (N → Bool)) :
    ((names.foldl (markShard shards) r).1 name, (names.foldl (markShard shards) r).2 name) =
      if name ∈ names ∧ (shards name).isCollection = true then ((r.1 name).write true, (r.1 name).isStale)
      else (r.1 name, r.2 name) := by
  induction names generalizing r with
  | nil => simp
  | cons m names ih =>
    obtain ⟨hm, hnodup⟩ := nodup_cons.1 hnodup
    rw [foldl_cons, ih hnodup, markShard]
    by_cases hname : name = m
    · subst hname
      split_ifs <;> simp_all
    · split_ifs <;> simp_all

theorem foldl_clearShard (was : N → Bool) (r : (N → Flag) × Dict N (List CommitInfo)) :
    (names.foldl (clearShard shards was) r).1 name =
      if name ∈ names ∧ r.2.get? name = none ∧ was name = false ∧ (shards name).isCollection = true
      then (r.1 name).write false else r.1 name := by
  induction names generalizing r with
  | nil => simp
  | cons m names ih =>
    obtain ⟨hm, hnodup⟩ := nodup_cons.1 hnodup
    rw [foldl_cons, ih hnodup, clearShard]
    by_cases hname : name = m
    · subst hname
      split_ifs <;> simp_all
    · split_ifs <;> simp_all [Dict.get?_set]

omit hnodup in
theorem of_get?_foldl_clearShard {was : N → Bool} {r : (N → Flag) × Dict N (List CommitInfo)}
    (h : (names.foldl (clearShard shards was) r).2.get? name = none) :
    r.2.get? name = none ∧ (name ∈ names → was name = false) := by
  induction names generalizing r with
  | nil => exact ⟨h, by simp⟩
  | cons m names ih =>
    have hrest := ih h
    unfold clearShard at hrest
    grind [Dict.get?_set]

end Loops

/-- A shard that was stale stays stale, also if it is in the returned map or the reconcile fails, and one that was not
stale and misses nothing is not stale afterwards. -/
theorem reconcile_keeps_staleness (commits : List CommitInfo) (flags : N → Flag) (name : N) :
    let (flags', shardMap) := reconcileFullScanWithBarrier shardOf env shards commits flags
    ((flags name).isStale = true → (flags' name).isStale = true) ∧
    (shardMap.isSome = true → (flags name).isStale = false →
      (∀ c ∈ commits, shardOf c = name → ¬(shards name).Misses c) → (flags' name).isStale = false) := by
  have hnodup := (bucketCommitsByShard shardOf commits).nodup
  have hmark := foldl_markShard shards hnodup name (flags, fun _ => false)
  rw [reconcileFullScanWithBarrier]
  generalize (bucketCommitsByShard shardOf commits).items.map Prod.fst = names at hnodup hmark ⊢
  generalize names.foldl (markShard shards) (flags, fun _ => false) = r at hmark ⊢
  cases hscan : reconcileTemporalIndex shardOf env shards commits with
  | none =>
    refine ⟨fun hstale => ?_, nofun⟩
    grind [Flag.isStale_mark]
  | some missing =>
    simp only [foldl_clearShard shards hnodup]
    refine ⟨fun hstale => ?_, fun _ hfresh hcomplete => ?_⟩
    · grind [Flag.isStale_mark]
    · have hget : (bucketCommitsByShard shardOf missing).get? name = none := by
        rw [get?_bucketCommitsByShard, if_pos (filter_eq_nil_iff.2 fun c hc hname => ?_)]
        obtain rfl := of_decide_eq_true hname
        obtain ⟨hmem, hmiss⟩ := misses_of_reconcile hscan hc
        exact hcomplete c hmem rfl hmiss
      grind [Flag.isStale_clear]

def isAb (c : CommitInfo) : Bool := c.hash = "ab".toList

def completeShard : Shard := ⟨twoCommits, true, ["ab", "cd"]⟩

/-- Both commits are completed and have their points. The shard of `ab`, which is `true`, was stale. -/
def reconcileTwo : (Bool → Flag) × Option (Dict Bool (List CommitInfo)) :=
  reconcileFullScanWithBarrier isAb working (fun _ => completeShard) [commitAb, commitCd]
    fun name => some ⟨some name, false, 3, 3⟩

theorem reconcile_keeps_staleness_two :
    reconcileTwo.2.isSome = true ∧ (reconcileTwo.1 true).isStale = true ∧ (reconcileTwo.1 false).isStale = false := by
  have hsome : reconcileTwo.2.isSome = true := by decide +kernel
  have hkeeps := @reconcile_keeps_staleness Bool _ isAb working (fun _ => completeShard) [commitAb, commitCd]
    fun name => some ⟨some name, false, 3, 3⟩
  refine ⟨hsome, (hkeeps true).1 rfl, (hkeeps false).2 hsome rfl fun c hc hname hmiss => hmiss rfl ?_⟩
  rcases mem_cons.1 hc with rfl | hc
  · cases hname
  · rw [mem_singleton.1 hc]
    refine ⟨⟨vectorFile 'w' (by decide) "p:commit:cd:0", ?_, "p:commit:cd:0", rfl, "p", "0", ?_⟩, by decide⟩
    · exact mem_cons_of_mem _ (mem_cons_of_mem _ mem_cons_self)
    · exact ⟨by decide, by decide, rfl⟩

/-- A collection among the shards is in the returned map or not stale afterwards. -/
theorem fresh_of_not_returned (commits : List CommitInfo) (flags : N → Flag) (b : N × List CommitInfo) :
    let (flags', shardMap) := reconcileFullScanWithBarrier shardOf env shards commits flags
    b ∈ (bucketCommitsByShard shardOf commits).items → (shards b.1).isCollection = true →
      ∀ m ∈ shardMap, m.get? b.1 = none → (flags' b.1).isStale = false := by
  have hnodup := (bucketCommitsByShard shardOf commits).nodup
  have hmark := foldl_markShard shards hnodup b.1 (flags, fun _ => false)
  rw [reconcileFullScanWithBarrier]
  cases hscan : reconcileTemporalIndex shardOf env shards commits with
  | none => rintro - - m ⟨⟩
  | some missing =>
    rintro hb hvalid m ⟨⟩ hget
    have hname := mem_map_of_mem (f := Prod.fst) hb
    obtain ⟨hnone, hwas⟩ := of_get?_foldl_clearShard shards _ hget
    rw [if_pos ⟨hname, hvalid⟩] at hmark
    obtain ⟨hflag, hstale⟩ := Prod.mk.inj hmark
    rw [foldl_clearShard shards hnodup, if_pos ⟨hname, hnone, hwas hname, hvalid⟩, hflag]
    exact Flag.isStale_clear (hstale.symm.trans (hwas hname)) true

theorem fresh_of_not_returned_two : ∃ m, reconcileTwo.2 = some m ∧ (m.get? true).isSome = true ∧ m.get? false = none ∧
    (reconcileTwo.1 false).isStale = false := by
  have hmap : reconcileTwo.2.map (fun m => ((m.get? true).isSome, (m.get? false).isNone)) = some (true, true) := by
    decide +kernel
  obtain ⟨m, hm, hget⟩ := Option.map_eq_some_iff.1 hmap
  obtain ⟨htrue, hfalse⟩ := Prod.mk.inj hget
  have hnone := Option.isNone_iff_eq_none.1 hfalse
  refine ⟨m, hm, htrue, hnone, ?_⟩
  exact @fresh_of_not_returned Bool _ isAb working (fun _ => completeShard) [commitAb, commitCd]
    (fun name => some ⟨some name, false, 3, 3⟩) (false, [commitCd]) (Dict.mem_items_iff.2 rfl) rfl m hm hnone

end CodeIndexer.Temporal.OperatorReconcile
