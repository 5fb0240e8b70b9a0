import CodeIndexer.Lib.Dict
import CodeIndexer.Lib.Ranking
import CodeIndexer.Temporal.ShardNaming

/-!
# Merging the shards of a temporal query

The shards are searched one after the other (`_query_shards_raw`), `search` being `none` where the search of one
raises; what they found is merged by score and then put in the order of time. Eviction, health records, the
checkpoints and cancellation are left out.
-/

namespace CodeIndexer.Temporal

open List PyText Ranking

variable {S : Type*}

structure TemporalSearchResult (S : Type*) where
  filePath : Str
  chunkIndex : ℕ
  commitHash : Str
  commitTimestamp : ℤ
  score : S
deriving DecidableEq

namespace TemporalSearchResult

def makeTemporalDedupKey (r : TemporalSearchResult S) : Str :=
  r.commitHash ++ ':' :: (r.filePath ++ ':' :: natStr r.chunkIndex)

def identity (r : TemporalSearchResult S) : Str × Str × ℕ := (r.commitHash, r.filePath, r.chunkIndex)

theorem splitOn_makeTemporalDedupKey {r : TemporalSearchResult S} (h : ':' ∉ r.commitHash) :
    r.makeTemporalDedupKey.splitOn ':' = r.commitHash :: (r.filePath.splitOn ':' ++ [natStr r.chunkIndex]) := by
  rw [makeTemporalDedupKey, splitOn_append_cons_self, splitOn_append_cons_self, splitOn_eq_singleton h,
    splitOn_eq_singleton (notMem_natStr rfl _), singleton_append]

theorem identity_of_dedupKey {r r' : TemporalSearchResult S} (h : ':' ∉ r.commitHash) (h' : ':' ∉ r'.commitHash)
    (heq : r.makeTemporalDedupKey = r'.makeTemporalDedupKey) : r.identity = r'.identity := by
  have hsplit := congrArg (splitOn ':') heq
  rw [splitOn_makeTemporalDedupKey h, splitOn_makeTemporalDedupKey h', cons.injEq] at hsplit
  obtain ⟨hpath, hindex⟩ := append_inj' hsplit.2 rfl
  have hfile := congrArg (intercalate [':']) hpath
  rw [intercalate_splitOn, intercalate_splitOn] at hfile
  exact Prod.ext hsplit.1 (Prod.ext hfile (natStr_injective (singleton_inj.mp hindex)))

end TemporalSearchResult

open TemporalSearchResult

structure Merged (S : Type*) where
  result : TemporalSearchResult S
  fusionScore : S
  sourceProvider : Str
  contributingProviders : List Str
  temporalChunkId : Str

section

variable [LinearOrder S]

def keepBest (merged : Dict Str (TemporalSearchResult S × Str)) (found : Str × TemporalSearchResult S) :
    Dict Str (TemporalSearchResult S × Str) :=
  match merged.get? found.2.makeTemporalDedupKey with
  | none => merged.set found.2.makeTemporalDedupKey (found.2, found.1)
  | some existing =>
    if existing.1.score < found.2.score then merged.set found.2.makeTemporalDedupKey (found.2, found.1) else merged

def mergeShardsByScore (resultsByProvider : Dict Str (List (TemporalSearchResult S))) (limit : ℕ) : List (Merged S) :=
  let merged := (resultsByProvider.items.flatMap fun (provider, results) => results.map (provider, ·)).foldl
    keepBest .empty
  let output := merged.items.map fun (key, result, provider) => ⟨result, result.score, provider, [provider], key⟩
  (ranked Merged.fusionScore output).take limit

def fuseAndOrder (resultsByShard : Dict Str (List (TemporalSearchResult S))) (limit : ℕ) : List (Merged S) :=
  ranked (fun m => m.result.commitTimestamp) (mergeShardsByScore resultsByShard limit)

end

def collectionDisplayName (collectionName : Str) : Str :=
  if temporalCollectionPrefix <+: collectionName then collectionName.drop temporalCollectionPrefix.length
  else if collectionName = "code-indexer-temporal" then "temporal" else collectionName

/-- A shard that finds nothing, or raises, is not stored. -/
def queryShardsRaw (search : Str → Option (List (TemporalSearchResult S))) (shardNames : List Str) :
    Dict Str (List (TemporalSearchResult S)) :=
  (shardNames.filter fun shardName => ((search shardName).getD []) ≠ []).foldl
    (fun resultsByShard shardName => resultsByShard.set (collectionDisplayName shardName) ((search shardName).getD []))
    .empty

theorem collectionDisplayName_injective {s t : Str} (hs : temporalCollectionPrefix <+: s)
    (ht : temporalCollectionPrefix <+: t) (h : collectionDisplayName s = collectionDisplayName t) : s = t := by
  rw [collectionDisplayName, collectionDisplayName, if_pos hs, if_pos ht] at h
  rw [← prefix_iff_eq_append.mp hs, ← prefix_iff_eq_append.mp ht, h]

variable {search : Str → Option (List (TemporalSearchResult S))} {shardNames : List Str}

/-- Under different display names nothing found is lost. -/
theorem queryShardsRaw_items (search : Str → Option (List (TemporalSearchResult S)))
    (h : (shardNames.map collectionDisplayName).Nodup) :
    (queryShardsRaw search shardNames).items.flatMap Prod.snd = shardNames.flatMap fun s => (search s).getD [] := by
  rw [queryShardsRaw, Dict.foldl_set_items (fun _ _ _ => rfl) (h.sublist (filter_sublist.map _)), flatMap_map]
  clear h
  induction shardNames with
  | nil => rfl
  | cons s names ih =>
    rw [filter_cons, flatMap_cons, ← ih]
    split
    · rfl
    · next hs => rw [not_not.mp (mt decide_eq_true hs), nil_append]

variable [LinearOrder S] {limit : ℕ}

theorem keepBest_of_new (merged : Dict Str (TemporalSearchResult S × Str)) (found : Str × TemporalSearchResult S)
    (h : merged.get? found.2.makeTemporalDedupKey = none) :
    keepBest merged found = merged.set found.2.makeTemporalDedupKey (found.2, found.1) := by
  rw [keepBest, h]

theorem mergeShardsByScore_results {d : Dict Str (List (TemporalSearchResult S))}
    (h : ((d.items.flatMap Prod.snd).map makeTemporalDedupKey).Nodup) :
    (mergeShardsByScore d limit).map Merged.result = (ranked score (d.items.flatMap Prod.snd)).take limit := by
  have hfound : (d.items.flatMap fun e => e.2.map (e.1, ·)).map Prod.snd = d.items.flatMap Prod.snd := by
    simp [map_flatMap]
  rw [← hfound, map_map] at h
  rw [mergeShardsByScore, map_take, Dict.foldl_set_items keepBest_of_new h, map_map, map_ranked score Merged.result ?_,
    map_map, ← hfound]
  · rfl
  · intro m hm
    obtain ⟨_, _, rfl⟩ := mem_map.mp hm
    rfl

end CodeIndexer.Temporal
