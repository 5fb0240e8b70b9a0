import CodeIndexer.Storage.IdIndex

/-!
# The vector files that reconciliation deletes (`reconcile_shard`)

The vector files of a temporal shard carry point ids `{project}:commit:{hash}:{j}`. `reconcile_shard` scans them with
`rebuild_from_vectors`, which keeps one path per point id, finds the commit of an id by splitting it at the colons, and
deletes the files of the commits that are to be indexed again.
-/

namespace CodeIndexer.Temporal.Strays

open PyText PurePath IdIndex List

structure CommitInfo where
  hash : Str
  hex : ':' ∉ hash
deriving DecidableEq

def buildPointId (projectId commitHash : Str) (chunkIndex : ℕ) : Str :=
  projectId ++ ':' :: ("commit" ++ ':' :: (commitHash ++ ':' :: natStr chunkIndex))

structure ShardDir where
  path : Path
  files : List VectorFile
  nodup : (files.map VectorFile.relPath).Nodup

def pointIdOf (file : VectorFile) : Option Str :=
  if isJson file && !isSkipped file.relPath.name then
    match file.doc with
    | .object (some (.text pointId)) => if pointId = [] then none else some pointId
    | _ => none
  else none

def commitOf (pointId : Str) : Option Str :=
  match pointId.splitOn ':' with
  | [_, kind, hash, _] => if kind = "commit" then some hash else none
  | _ => none

def addPoint (found : Dict Str (List Path)) (e : Str × Path) : Dict Str (List Path) :=
  match commitOf e.1 with
  | none => found
  | some hash => found.set hash ((found.get? hash).getD [] ++ [e.2])

def hashesWithPoints (pointIdToPath : Dict Str Path) : Dict Str (List Path) := pointIdToPath.items.foldl addPoint .empty

structure Plan where
  missing : List CommitInfo
  partialPaths : List Path

def planCommit (hashes : Dict Str (List Path)) (completed : List Str) (plan : Plan) (commit : CommitInfo) : Plan :=
  match hashes.get? commit.hash with
  | none => { plan with missing := plan.missing ++ [commit] }
  | some paths =>
    if commit.hash ∈ completed then plan else ⟨plan.missing ++ [commit], plan.partialPaths ++ paths⟩

/-- Which files can be unlinked, and whether the directories can be synced. -/
structure Env where
  unlinks : Path → Bool
  fsyncs : Bool

/-- `none` is the `StrayDeleteFailedError`; a path that is not there any more raises it too. -/
def unlinkAll (env : Env) (root : Path) : List Path → List VectorFile → Option (List VectorFile)
  | [], files => some files
  | path :: paths, files =>
    if env.unlinks path && files.any fun file => root.join file.relPath = path then
      unlinkAll env root paths (files.filter fun file => root.join file.relPath ≠ path)
    else none

def reconcileShard (env : Env) (dir : ShardDir) (collectionExists : Bool) (completed : List Str)
    (shardCommits : List CommitInfo) : Option (List CommitInfo × List VectorFile) :=
  if shardCommits.isEmpty then some ([], dir.files)
  else if !collectionExists then some (shardCommits, dir.files)
  else
    (rebuildFromVectors dir.path dir.files).bind fun (pointIdToPath, _) =>
      let plan := shardCommits.foldl (planCommit (hashesWithPoints pointIdToPath) completed) ⟨[], []⟩
      (unlinkAll env dir.path plan.partialPaths dir.files).bind fun files =>
        if plan.partialPaths.isEmpty || env.fsyncs then some (plan.missing, files) else none

/-! ### Point ids -/

def Belongs (pointId hash : Str) : Prop := ∃ projectId chunkIndex, pointId = buildPointId projectId hash chunkIndex

def Plain (pointId hash : Str) : Prop :=
  ∃ projectId last, ':' ∉ projectId ∧ ':' ∉ last ∧
    pointId = projectId ++ ':' :: ("commit" ++ ':' :: (hash ++ ':' :: last))

variable {hash pointId : Str} {dir : ShardDir}

theorem splitOn_tail {last : Str} (hhash : ':' ∉ hash) (hlast : ':' ∉ last) :
    ("commit".toList ++ ':' :: (hash ++ ':' :: last)).splitOn ':' = ["commit".toList, hash, last] := by
  rw [splitOn_append_cons_self, splitOn_append_cons_self, splitOn_eq_singleton hhash,
    splitOn_eq_singleton hlast, splitOn_eq_singleton (by decide)]
  rfl

theorem commitOf_eq_some_iff (hhash : ':' ∉ hash) : commitOf pointId = some hash ↔ Plain pointId hash := by
  constructor
  · intro h
    rw [commitOf] at h
    split at h
    · rename_i projectId kind hash' last hsplit
      split at h
      · rename_i hkind
        obtain rfl := Option.some.inj h
        have hparts : ∀ part ∈ [projectId, kind, hash', last], ':' ∉ part := fun part hpart =>
          not_mem_of_mem_splitOn (hsplit ▸ hpart)
        refine ⟨projectId, last, hparts _ (by simp), hparts _ (by simp), ?_⟩
        have hjoin : [':'].intercalate (pointId.splitOn ':') = pointId := intercalate_splitOn ':'
        rw [← hjoin, hsplit, hkind]
        simp [List.intercalate]
      · cases h
    · cases h
  · rintro ⟨projectId, last, hproject, hlast, rfl⟩
    rw [commitOf, splitOn_append_cons_self, splitOn_eq_singleton hproject, splitOn_tail hhash hlast]
    rfl

theorem commitOf_of_length (h : (pointId.splitOn ':').length ≠ 4) : commitOf pointId = none := by
  rw [commitOf]
  split
  · rename_i hsplit
    rw [hsplit] at h
    exact absurd rfl h
  · rfl

theorem commitOf_buildPointId (hhash : ':' ∉ hash) (projectId : Str) (chunkIndex : ℕ) :
    commitOf (buildPointId projectId hash chunkIndex) = if ':' ∈ projectId then none else some hash := by
  split
  · rename_i hcolon
    refine commitOf_of_length ?_
    rw [buildPointId, splitOn_append_cons_self, splitOn_tail hhash (notMem_natStr rfl _)]
    rcases hsplit : projectId.splitOn ':' with _ | ⟨first, _ | ⟨second, rest⟩⟩
    · exact absurd hsplit (splitOn_ne_nil _ _)
    · have hjoin : [':'].intercalate (projectId.splitOn ':') = projectId := intercalate_splitOn ':'
      rw [hsplit] at hjoin
      have hfirst : first = projectId := by simpa [List.intercalate] using hjoin
      exact absurd hcolon (hfirst ▸ not_mem_of_mem_splitOn (hsplit ▸ mem_singleton.mpr rfl))
    · simp
  · rename_i hcolon
    exact (commitOf_eq_some_iff hhash).mpr ⟨projectId, _, hcolon, notMem_natStr rfl _, rfl⟩

theorem Belongs.eq_of_commitOf {hash' : Str} (h : Belongs pointId hash) (hhash : ':' ∉ hash)
    (hcommit : commitOf pointId = some hash') : hash = hash' := by
  obtain ⟨projectId, chunkIndex, rfl⟩ := h
  rw [commitOf_buildPointId hhash] at hcommit
  split at hcommit
  · cases hcommit
  · exact Option.some.inj hcommit

/-! ### The scan -/

def lastWith (files : List VectorFile) (pointId : Str) : Option VectorFile :=
  files.reverse.find? fun file => pointIdOf file = some pointId

section Scan

variable {root : Path} {index index' : Dict Str Path} {files : List VectorFile} {pointId : Str}

variable {file : VectorFile}

theorem get?_scanFile (hjson : isJson file = true) (h : scanFile root index file = some index') :
    index'.get? pointId = if pointIdOf file = some pointId then
      some (root.join file.relPath) else index.get? pointId := by
  rw [scanFile] at h
  rw [pointIdOf, hjson]
  split at h
  · rename_i hskipped
    cases h
    simp [hskipped]
  · rename_i hskipped
    rw [Bool.not_eq_true] at hskipped
    rw [hskipped]
    split at h
    · cases h
    · rename_i id hdoc
      cases h
      rw [hdoc]
      by_cases hid : id = []
      · simp [hid]
      · simp only [hid, if_false, Bool.not_false, Bool.and_true, if_true, Option.some.injEq]
        rw [Dict.get?_set]
        simp only [eq_comm]
    · rename_i hdoc
      cases h
      cases hd : file.doc with
      | unreadable | malformed | notObject => simp
      | object id =>
        cases id with
        | none => simp
        | some id =>
          cases id with
          | text id => exact absurd hd (hdoc id)
          | other => simp

theorem pointIdOf_of_not_isJson (h : isJson file = false) : pointIdOf file = none := by
  rw [pointIdOf, h]
  rfl

theorem get?_foldlM_scanFile (h : (files.filter isJson).foldlM (scanFile root) index = some index') :
    index'.get? pointId = ((lastWith files pointId).map fun file => root.join file.relPath).or
    (index.get? pointId) := by
  induction files generalizing index with
  | nil =>
    cases h
    rfl
  | cons file files ih =>
    have hlast : lastWith (file :: files) pointId =
        (lastWith files pointId).or (if pointIdOf file = some pointId then some file else none) := by
      rw [lastWith, reverse_cons, List.find?_append]
      congr 1
      by_cases hid : pointIdOf file = some pointId <;> simp [hid]
    cases hjson : isJson file with
    | false =>
      rw [filter_cons_of_neg (by rw [hjson]; decide)] at h
      rw [ih h, hlast, pointIdOf_of_not_isJson hjson]
      simp
    | true =>
      rw [filter_cons_of_pos hjson, foldlM_cons] at h
      obtain ⟨index₁, hfile, h⟩ := Option.bind_eq_some_iff.1 h
      rw [ih h, hlast, get?_scanFile hjson hfile]
      cases hrest : lastWith files pointId with
      | some last => rfl
      | none =>
        by_cases hid : pointIdOf file = some pointId <;> simp [hid]

end Scan

/-! ### What is planned and deleted -/

section Plan

variable {hashes : Dict Str (List Path)} {completed : List Str} {root : Path}

def pathsOf (items : List (Str × Path)) (hash : Str) : List Path :=
  (items.filter fun e => commitOf e.1 = some hash).map Prod.snd

theorem get?_hashesWithPoints (index : Dict Str Path) (hash : Str) :
    (hashesWithPoints index).get? hash = if pathsOf index.items hash = [] then none else
      some (pathsOf index.items hash) := by
  have hf (found : Dict Str (List Path)) (e : Str × Path) : addPoint found e =
      (commitOf e.1).elim found fun hash => found.set hash ((found.get? hash).getD [] ++ [e.2]) := by
    rw [addPoint]
    cases commitOf e.1 <;> rfl
  rw [hashesWithPoints, Dict.get?_foldl_append hf, pathsOf]
  simp only [map_eq_nil_iff]

theorem mem_pathsOf {index : Dict Str Path} {hash : Str} {path : Path} :
    path ∈ pathsOf index.items hash ↔ ∃ pointId, index.get? pointId = some path ∧ commitOf pointId = some hash := by
  simp only [pathsOf, mem_map, mem_filter, Prod.exists, ← Dict.mem_items_iff, decide_eq_true_eq]
  constructor
  · rintro ⟨pointId, path', ⟨hmem, hcommit⟩, rfl⟩
    exact ⟨pointId, hmem, hcommit⟩
  · rintro ⟨pointId, hmem, hcommit⟩
    exact ⟨pointId, path, ⟨hmem, hcommit⟩, rfl⟩

def again (hashes : Dict Str (List Path)) (completed : List Str) (commit : CommitInfo) : Bool :=
  hashes.get? commit.hash = none ∨ commit.hash ∉ completed

def strays (hashes : Dict Str (List Path)) (completed : List Str) (commit : CommitInfo) : List Path :=
  if commit.hash ∈ completed then [] else (hashes.get? commit.hash).getD []

theorem planCommit_eq (plan : Plan) (commit : CommitInfo) : planCommit hashes completed plan commit =
    ⟨plan.missing ++ [commit].filter (again hashes completed),
    plan.partialPaths ++ strays hashes completed commit⟩ := by
  rw [planCommit, strays]
  cases hget : hashes.get? commit.hash with
  | none => simp [again, hget]
  | some paths => by_cases hdone : commit.hash ∈ completed <;> simp [again, hget, hdone]

theorem foldl_planCommit (commits : List CommitInfo) (plan : Plan) : commits.foldl (planCommit hashes completed) plan =
    ⟨plan.missing ++ commits.filter (again hashes completed),
      plan.partialPaths ++ commits.flatMap (strays hashes completed)⟩ := by
  induction commits generalizing plan with
  | nil => simp
  | cons commit commits ih =>
    have hfilter : (commit :: commits).filter (again hashes completed) =
        [commit].filter (again hashes completed) ++ commits.filter (again hashes completed) := by
      rw [← filter_append]
      rfl
    rw [foldl_cons, ih, planCommit_eq, hfilter, flatMap_cons, append_assoc, append_assoc]

theorem unlinkAll_eq {env : Env} {paths : List Path} {files left : List VectorFile}
    (h : unlinkAll env root paths files = some left) :
    left = files.filter fun file => root.join file.relPath ∉ paths := by
  induction paths generalizing files with
  | nil => cases h; simp
  | cons path paths ih =>
    rw [unlinkAll] at h
    split at h
    · rw [ih h, filter_filter]
      simp only [mem_cons, not_or, Bool.decide_and, Bool.and_comm]
    · cases h

end Plan

/-! ### Which directories are cleaned -/

section Clean

variable {env : Env} {dir : ShardDir} {collectionExists : Bool} {completed : List Str}
  {shardCommits returned : List CommitInfo}
  {left : List VectorFile}

/-- No vector file of a returned commit is left, and none of another commit was removed. -/
structure Exact (dir : ShardDir) (returned : List CommitInfo) (left : List VectorFile) : Prop where
  removed : ∀ file ∈ left, ∀ pointId ∈ pointIdOf file, ∀ c ∈ returned, ¬Belongs pointId c.hash
  kept : ∀ file ∈ dir.files, file ∉ left → ∀ pointId ∈ pointIdOf file, ∀ c : CommitInfo, Belongs pointId c.hash →
    ∃ c' ∈ returned, c'.hash = c.hash

def Found (dir : ShardDir) (hash : Str) : Prop := ∃ file ∈ dir.files, ∃ pointId ∈ pointIdOf file, Plain pointId hash

/-- The vector files of a commit can all be found: the shard is a collection, the project id has no colon, and no other
file has the point id. -/
def Findable (dir : ShardDir) (collectionExists : Bool) (hash : Str) : Prop :=
  ∀ file ∈ dir.files, ∀ projectId chunkIndex, pointIdOf file = some (buildPointId projectId hash chunkIndex) →
    collectionExists = true ∧ ':' ∉ projectId ∧ ∀ other ∈ dir.files, pointIdOf other = pointIdOf file → other = file

theorem join_injective {root p q : Path} (hp : p.root = .relative) (hq : q.root = .relative)
    (h : root.join p = root.join q) :
    p = q := by
  have hp' : (root.join p).relativeTo root = some p := Path.relativeTo_eq_some_iff.2 ⟨hp, rfl⟩
  have hq' : (root.join p).relativeTo root = some q := Path.relativeTo_eq_some_iff.2 ⟨hq, h.symm⟩
  exact Option.mem_unique hp' hq'

variable {file : VectorFile} {files : List VectorFile} {pointId : Str}

theorem eq_of_join {other : VectorFile} (hfile : file ∈ dir.files) (hother : other ∈ dir.files)
    (h : dir.path.join other.relPath = dir.path.join file.relPath) : other = file :=
  inj_on_of_nodup_map dir.nodup hother hfile (join_injective other.relative file.relative h)

theorem lastWith_spec (h : lastWith files pointId = some file) : file ∈ files ∧ pointIdOf file = some pointId := by
  have hid := List.find?_some h
  exact ⟨mem_reverse.mp (mem_of_find?_eq_some h), of_decide_eq_true hid⟩

theorem exists_lastWith (hfile : file ∈ files)
    (hid : pointIdOf file = some pointId) : ∃ last, lastWith files pointId = some last := by
  refine Option.isSome_iff_exists.mp (List.find?_isSome.mpr ⟨file, mem_reverse.mpr hfile, ?_⟩)
  exact decide_eq_true hid

/-- The file is deleted for the sake of a commit without a completion mark. -/
def Stray (dir : ShardDir) (completed : List Str) (shardCommits : List CommitInfo) (file : VectorFile) : Prop :=
  ∃ c ∈ shardCommits, c.hash ∉ completed ∧ ∃ pointId, commitOf pointId = some c.hash ∧
  lastWith dir.files pointId = some file

section Index

variable {index : Dict Str Path}

section

variable (hindex : ∀ pointId, index.get? pointId = (lastWith dir.files pointId).map
  fun file => dir.path.join file.relPath)
include hindex

theorem mem_pathsOf_index {hash : Str} {path : Path} :
    path ∈ pathsOf index.items hash ↔ ∃ pointId file, commitOf pointId = some hash ∧
    lastWith dir.files pointId = some file ∧
      dir.path.join file.relPath = path := by
  rw [mem_pathsOf]
  constructor
  · rintro ⟨pointId, hget, hcommit⟩
    rw [hindex] at hget
    obtain ⟨file, hlast, hpath⟩ := Option.map_eq_some_iff.1 hget
    exact ⟨pointId, file, hcommit, hlast, hpath⟩
  · rintro ⟨pointId, file, hcommit, hlast, rfl⟩
    exact ⟨pointId, by rw [hindex, hlast]; rfl, hcommit⟩

theorem pathsOf_ne_nil_iff (c : CommitInfo) : pathsOf index.items c.hash ≠ [] ↔ Found dir c.hash := by
  constructor
  · intro hne
    obtain ⟨path, hpath⟩ := exists_mem_of_ne_nil _ hne
    obtain ⟨pointId, file, hcommit, hlast, -⟩ := (mem_pathsOf_index hindex).mp hpath
    obtain ⟨hfile, hid⟩ := lastWith_spec hlast
    exact ⟨file, hfile, pointId, hid, (commitOf_eq_some_iff c.hex).mp hcommit⟩
  · rintro ⟨file, hfile, pointId, hid, hplain⟩
    obtain ⟨last, hlast⟩ := exists_lastWith hfile hid
    exact ne_nil_of_mem ((mem_pathsOf_index hindex).mpr
      ⟨pointId, last, (commitOf_eq_some_iff c.hex).mpr hplain, hlast, rfl⟩)

theorem again_iff (c : CommitInfo) :
    again (hashesWithPoints index) completed c = true ↔ ¬(Found dir c.hash ∧ c.hash ∈ completed) := by
  rw [again, get?_hashesWithPoints, decide_eq_true_eq, ← pathsOf_ne_nil_iff hindex, not_and_or, not_not]
  split <;> simp_all

theorem mem_strays_iff {file : VectorFile} (hfile : file ∈ dir.files) :
    dir.path.join file.relPath ∈ shardCommits.flatMap (strays (hashesWithPoints index) completed) ↔
      Stray dir completed shardCommits file := by
  rw [mem_flatMap]
  refine exists_congr fun c => and_congr_right fun _ => ?_
  have hpaths : ((hashesWithPoints index).get? c.hash).getD [] = pathsOf index.items c.hash := by
    rw [get?_hashesWithPoints]
    split
    · rename_i hnil; rw [hnil]; rfl
    · rfl
  rw [strays, hpaths]
  split
  · rename_i hdone
    exact ⟨nofun, fun h => absurd hdone h.1⟩
  · rename_i hdone
    rw [mem_pathsOf_index hindex, and_iff_right hdone]
    refine exists_congr fun pointId => ?_
    constructor
    · rintro ⟨other, hcommit, hlast, hjoin⟩
      rw [eq_of_join hfile (lastWith_spec hlast).1 hjoin] at hlast
      exact ⟨hcommit, hlast⟩
    · rintro ⟨hcommit, hlast⟩
      exact ⟨file, hcommit, hlast, rfl⟩

end

end Index

open Classical in
theorem reconcileShard_eq (hne : shardCommits ≠ [])
    (h : reconcileShard env dir true completed shardCommits = some (returned, left)) :
    returned = shardCommits.filter (fun c => ¬(Found dir c.hash ∧ c.hash ∈ completed)) ∧
      left = dir.files.filter fun file => ¬Stray dir completed shardCommits file := by
  rw [reconcileShard, if_neg (by simpa using hne), if_neg (by decide)] at h
  obtain ⟨⟨index, bytes⟩, hrebuild, h⟩ := Option.bind_eq_some_iff.1 h
  obtain ⟨files, hunlink, h⟩ := Option.bind_eq_some_iff.1 h
  split at h
  · obtain ⟨rfl, rfl⟩ := Prod.mk.inj (Option.some.inj h)
    obtain ⟨index', hscan, -, -, hindex'⟩ : ∃ index', (dir.files.filter isJson).foldlM (scanFile dir.path) Dict.empty =
        some index' ∧ ∃ file, buildIdIndexToTemp dir.path index' = some file ∧ index' = index := by
      obtain ⟨index', hscan, h⟩ := Option.bind_eq_some_iff.1 hrebuild
      obtain ⟨file, hfile, h⟩ := Option.bind_eq_some_iff.1 h
      exact ⟨index', hscan, file, hfile, (Prod.mk.inj (Option.some.inj h)).1⟩
    subst hindex'
    have hindex : ∀ pointId, index'.get? pointId =
        (lastWith dir.files pointId).map fun file => dir.path.join file.relPath := fun pointId => by
      rw [get?_foldlM_scanFile hscan, Dict.get?_empty, Option.or_none]
    rw [foldl_planCommit] at hunlink ⊢
    constructor
    · rw [nil_append]
      refine filter_congr fun c _ => ?_
      rw [Bool.eq_iff_iff, again_iff hindex, decide_eq_true_iff]
    · rw [unlinkAll_eq hunlink]
      exact filter_congr fun file hfile => decide_eq_decide.2 (not_congr (mem_strays_iff hindex hfile))
  · cases h

theorem reconcileShard_collection (hne : shardCommits ≠ [])
    (h : reconcileShard env dir true completed shardCommits = some (returned, left)) :
    (∀ c, c ∈ returned ↔ c ∈ shardCommits ∧ ¬(Found dir c.hash ∧ c.hash ∈ completed)) ∧
      ∀ file, file ∈ left ↔ file ∈ dir.files ∧ ¬Stray dir completed shardCommits file := by
  obtain ⟨rfl, rfl⟩ := reconcileShard_eq hne h
  simp only [mem_filter, decide_eq_true_iff, implies_true, and_self]

/-- What a commit of the shard needs for its vector files to be removed exactly when it is returned. -/
def Clearable (dir : ShardDir) (collectionExists : Bool) (completed : List Str) (c : CommitInfo) : Prop :=
  collectionExists = true ∧ c.hash ∈ completed ∧ Found dir c.hash ∨ Findable dir collectionExists c.hash

theorem exact_collection_iff (hne : shardCommits ≠ [])
    (h : reconcileShard env dir true completed shardCommits = some (returned, left)) :
    Exact dir returned left ↔ ∀ c ∈ shardCommits, Clearable dir true completed c := by
  obtain ⟨hreturned, hleft⟩ := reconcileShard_collection hne h
  constructor
  · intro hexact c hc
    by_cases hdone : Found dir c.hash ∧ c.hash ∈ completed
    · exact .inl ⟨rfl, hdone.2, hdone.1⟩
    · refine .inr fun file hfile projectId chunkIndex hid => ⟨rfl, ?_⟩
      -- every file with this id is deleted, as the one that the scan has kept
      have hstray : ∀ other ∈ dir.files, pointIdOf other = pointIdOf file →
          ':' ∉ projectId ∧ lastWith dir.files (buildPointId projectId c.hash chunkIndex) = some other := by
        intro other hother heq
        rw [hid] at heq
        have hnot : other ∉ left := fun hmem =>
          hexact.removed other hmem _ heq c ((hreturned c).mpr ⟨hc, hdone⟩) ⟨projectId, chunkIndex, rfl⟩
        obtain ⟨c', -, -, pointId, hcommit, hlast⟩ : Stray dir completed shardCommits other := by
          by_contra hstray
          exact hnot ((hleft other).mpr ⟨hother, hstray⟩)
        obtain rfl := Option.mem_unique (lastWith_spec hlast).2 heq
        refine ⟨fun hcolon => ?_, hlast⟩
        rw [commitOf_buildPointId c.hex, if_pos hcolon] at hcommit
        cases hcommit
      obtain ⟨hcolon, hlast⟩ := hstray file hfile rfl
      exact ⟨hcolon, fun other hother heq => Option.mem_unique (hstray other hother heq).2 hlast⟩
  · intro hclear
    refine ⟨fun file hmem pointId hid c hc hbelongs => ?_, fun file hfile hnot pointId hid c hbelongs => ?_⟩
    · obtain ⟨hc, hagain⟩ := (hreturned c).mp hc
      obtain ⟨hfile, hstray⟩ := (hleft file).mp hmem
      obtain ⟨projectId, chunkIndex, rfl⟩ := hbelongs
      rcases hclear c hc with ⟨-, hdone, hfound⟩ | hfindable
      · exact hagain ⟨hfound, hdone⟩
      · obtain ⟨-, hcolon, hunique⟩ := hfindable file hfile projectId chunkIndex hid
        have hcommit : commitOf (buildPointId projectId c.hash chunkIndex) = some c.hash := by
          rw [commitOf_buildPointId c.hex, if_neg hcolon]
        have hfound : Found dir c.hash := ⟨file, hfile, _, hid, (commitOf_eq_some_iff c.hex).mp hcommit⟩
        obtain ⟨last, hlast⟩ := exists_lastWith hfile hid
        obtain ⟨hlastMem, hlastId⟩ := lastWith_spec hlast
        rw [hunique last hlastMem (hlastId.trans hid.symm)] at hlast
        exact hstray ⟨c, hc, fun hdone => hagain ⟨hfound, hdone⟩, _, hcommit, hlast⟩
    · obtain ⟨c', hc', hdone, pointId', hcommit, hlast⟩ : Stray dir completed shardCommits file := by
        by_contra hstray
        exact hnot ((hleft file).mpr ⟨hfile, hstray⟩)
      obtain rfl := Option.mem_unique (lastWith_spec hlast).2 hid
      exact ⟨c', (hreturned c').mpr ⟨hc', fun hfound => hdone hfound.2⟩, (hbelongs.eq_of_commitOf c.hex hcommit).symm⟩

theorem exact_absent_iff : Exact dir shardCommits dir.files ↔ ∀ c ∈ shardCommits, Clearable dir false completed c := by
  constructor
  · intro hexact c hc
    refine .inr fun file hfile projectId chunkIndex hid => ?_
    exact absurd ⟨projectId, chunkIndex, rfl⟩ (hexact.removed file hfile _ hid c hc)
  · intro hclear
    refine ⟨fun file hfile pointId hid c hc hbelongs => ?_, fun file hfile hnot => absurd hfile hnot⟩
    obtain ⟨projectId, chunkIndex, rfl⟩ := hbelongs
    rcases hclear c hc with ⟨hexists, -⟩ | hfindable
    · cases hexists
    · exact Bool.false_ne_true (hfindable file hfile projectId chunkIndex hid).1

/-- Reconciliation removes exactly the vector files of the commits that it returns if and only if every commit of the
shard is marked as completed and has a vector file that the scan finds, or has only vector files in a collection, with
a project id without colon and a point id of their own. -/
theorem reconcileShard_exact_iff (h : reconcileShard env dir collectionExists completed shardCommits =
    some (returned, left)) :
    Exact dir returned left ↔ ∀ c ∈ shardCommits, Clearable dir collectionExists completed c := by
  cases hcommits : shardCommits with
  | nil =>
    rw [hcommits] at h
    obtain ⟨rfl, rfl⟩ := Prod.mk.inj (Option.some.inj h)
    refine iff_of_true ⟨nofun, fun file hfile hnot => absurd hfile hnot⟩ ?_
    exact nofun
  | cons c commits =>
    rw [← hcommits]
    have hne : shardCommits ≠ [] := by rw [hcommits]; exact cons_ne_nil _ _
    cases collectionExists with
    | true => exact exact_collection_iff hne h
    | false =>
      rw [reconcileShard, if_neg (by simpa using hne), if_pos (by decide)] at h
      obtain ⟨rfl, rfl⟩ := Prod.mk.inj (Option.some.inj h)
      exact exact_absent_iff

end Clean

/-! ### Shards -/

/-- The vector files of a collection whose point ids are distinct and have four parts can all be found. -/
theorem findable_of_distinct (hids : ∀ file ∈ dir.files, ∀ pointId ∈ pointIdOf file, (commitOf pointId).isSome = true)
    (hdistinct : (dir.files.map pointIdOf).Nodup) (c : CommitInfo) : Findable dir true c.hash := by
  intro file hfile projectId chunkIndex hid
  refine ⟨rfl, fun hcolon => ?_, fun other hother heq => inj_on_of_nodup_map hdistinct hother hfile heq⟩
  have hsome := hids file hfile _ hid
  rw [commitOf_buildPointId c.hex, if_pos hcolon] at hsome
  cases hsome

def vectorFile (name : Char) (hname : '/' ≠ name) (pointId : String) : VectorFile where
  relPath := ⟨.relative, [name :: ".json"], by simp [IsPart, hname]⟩
  doc := .object (some (.text pointId.toList))
  relative := rfl
  inside := by simp [dotdot]

def shardPath : Path := parse "/index/shard"

def commitAb : CommitInfo := ⟨"ab", by decide⟩

def commitCd : CommitInfo := ⟨"cd", by decide⟩

def working : Env := ⟨fun _ => true, true⟩

def names (r : List CommitInfo × List VectorFile) : List Str × List Str :=
  (r.1.map CommitInfo.hash, r.2.map fun file => file.relPath.name)

def twoCommits : ShardDir where
  path := shardPath
  files := [vectorFile 'u' (by decide) "p:commit:ab:0", vectorFile 'v' (by decide) "p:commit:ab:1",
    vectorFile 'w' (by decide) "p:commit:cd:0"]
  nodup := by decide

theorem reconcileShard_exact_two : ∃ returned left,
    reconcileShard working twoCommits true ["cd".toList] [commitAb, commitCd] = some (returned, left) ∧
    names (returned, left) = (["ab".toList], ["w.json".toList]) ∧ Exact twoCommits returned left := by
  have hrun : (reconcileShard working twoCommits true ["cd".toList] [commitAb, commitCd]).map names =
      some (["ab".toList], ["w.json".toList]) := by
    decide +kernel
  obtain ⟨⟨returned, left⟩, hreturn, hnames⟩ := Option.map_eq_some_iff.1 hrun
  refine ⟨returned, left, hreturn, hnames, (reconcileShard_exact_iff hreturn).mpr fun c _ => .inr ?_⟩
  exact findable_of_distinct (by decide +kernel) (by decide +kernel) c

/-- The project id is what `get_project_id` makes of the remote `git@host:repo.git`. -/
def colonProject : ShardDir where
  path := shardPath
  files := [vectorFile 'u' (by decide) "git@host:repo:commit:ab:0"]
  nodup := by decide

def sameId : ShardDir where
  path := shardPath
  files := [vectorFile 'u' (by decide) "p:commit:ab:0", vectorFile 'v' (by decide) "p:commit:ab:0"]
  nodup := by decide

/-- The directory has a vector file and no valid `collection_meta.json`. -/
def noMetadata : ShardDir where
  path := shardPath
  files := [vectorFile 'u' (by decide) "p:commit:ab:0"]
  nodup := by decide

def LeavesStray (dir : ShardDir) (collectionExists : Bool) (name : Str) : Prop :=
  ∃ returned left, reconcileShard working dir collectionExists [] [commitAb] = some (returned, left) ∧
    names (returned, left) = (["ab".toList], [name]) ∧ ¬Exact dir returned left

theorem leavesStray_of_run {collectionExists : Bool} {name : Str} (projectId : Str) (chunkIndex : ℕ)
    (hrun : (reconcileShard working dir collectionExists [] [commitAb]).map (fun r =>
      (names r, r.2.map fun file => pointIdOf file)) =
      some ((["ab".toList], [name]), [some (buildPointId projectId "ab".toList chunkIndex)])) :
    LeavesStray dir collectionExists name := by
  obtain ⟨⟨returned, left⟩, hreturn, hresult⟩ := Option.map_eq_some_iff.1 hrun
  obtain ⟨hnames, hids⟩ := Prod.mk.inj hresult
  refine ⟨returned, left, hreturn, hnames, fun hexact => ?_⟩
  obtain ⟨file, rfl, hid⟩ := map_eq_singleton_iff.mp hids
  obtain ⟨c, rfl, hhash⟩ := map_eq_singleton_iff.mp (Prod.mk.inj hnames).1
  refine hexact.removed file (by simp) _ hid c (by simp) ⟨projectId, chunkIndex, ?_⟩
  rw [hhash]

theorem stray_left : LeavesStray colonProject true "u.json" ∧ LeavesStray sameId true "u.json" ∧
    LeavesStray noMetadata false "u.json" := by
  refine ⟨?_, ?_, ?_⟩
  · exact leavesStray_of_run "git@host:repo" 0 (by decide +kernel)
  · exact leavesStray_of_run "p" 0 (by decide +kernel)
  · exact leavesStray_of_run "p" 0 (by decide +kernel)

end CodeIndexer.Temporal.Strays
