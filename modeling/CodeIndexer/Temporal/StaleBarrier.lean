import CodeIndexer.Lib.Dict
import CodeIndexer.Lib.Transition

/-!
# Indexing runs on one temporal shard

A shard has the vector files of its commits' points, the durable set of completed commits, its HNSW index and
the staleness flag. A run marks the shard stale, removes the points of unfinished commits if the shard was
stale before, writes the points of its commits, marks them completed, publishes the index and clears the flag;
it may crash before any of these steps. The automatic run takes its commits from
`compute_embedder_indexing_plan`, which may leave commits for later; the operator's reconcile looks at all
commits.

The directory of a vector file comes from the embedding, so a point that is embedded again can get a second
file. The index is modelled by the points under its labels, and the two writes that publish it leave it torn
in between. Deletion errors and embedding errors end a run like a crash.
-/

namespace CodeIndexer.Temporal.Barrier

variable {C D : Type}

abbrev Point (C : Type) := C × ℕ

abbrev File (C D : Type) := D × Point C

inductive Content (C : Type)
  | absent
  | torn
  | points (ps : List (Point C))
deriving DecidableEq

def Content.Has (content : Content C) (p : Point C) : Prop := ∃ ps, content = .points ps ∧ p ∈ ps

def OnDisk (files : List (File C D)) (p : Point C) : Prop := ∃ d, (d, p) ∈ files

/-- Where a run stands. `marking` has read the flag; `deleting` has the files to unlink and what comes after
them, nothing if the flag is to be cleared at once; `writing` has the commits not yet begun, those begun
with the number of points written, those completed and not flushed, and the points written so far. -/
inductive Phase (C D : Type)
  | idle
  | marking (operator : Bool) (commits : List C) (wasStale : Bool)
  | deleting (left : List (File C D)) (next : Option (List C))
  | writing (force : Bool) (queue : List C) (active : Dict C ℕ) (pending : List C) (session : List (Point C))
  | publishing (force : Bool) (session : List (Point C))
  | describing (content : Content C)
  | clearing

/-- `flag` is `is_stale` of the HNSW metadata, nothing if there are none yet. -/
structure Shard (C D : Type) where
  files : List (File C D)
  completed : List C
  content : Content C
  flag : Option Bool
  phase : Phase C D

/-- The commits git lists, each once, oldest first. -/
abbrev Universe (C : Type) := { commits : List C // commits.Nodup }

/-- What a run is called with: the commits git lists, those that other shards have completed, and the
scheduling limits. -/
structure Request (C : Type) where
  commits : Universe C
  elsewhere : List C
  sinceDate : Option ℕ
  maxCommits : Option ℕ

/-- The repository: when a commit was made, whether its quarter is the shard's, and how many chunks it has. -/
structure Repo (C : Type) where
  timestamp : C → ℕ
  inShard : C → Bool
  chunks : C → ℕ

variable [DecidableEq C]

def computePlan (R : Repo C) (completed : List C) (r : Request C) : List C :=
  let newCommits := r.commits.1.filter fun c => c ∉ completed ∧ c ∉ r.elsewhere
  let newCommits := match r.sinceDate with
    | some cutoff => newCommits.filter (cutoff ≤ R.timestamp ·)
    | none => newCommits
  let newCommits := match r.maxCommits with
    | some n => if 0 < n then newCommits.drop (newCommits.length - n) else newCommits
    | none => newCommits
  newCommits.filter R.inShard

def scan (files : List (File C D)) : Dict (Point C) D := files.foldl (fun found f => found.set f.2 f.1) .empty

def pointsOf (files : List (File C D)) (c : C) : List (File C D) :=
  ((scan files).items.filter (·.1.1 = c)).map fun e => (e.2, e.1)

/-- The files that `reconcile_shard` deletes: of its commits with points and without a completion mark. -/
def strays (s : Shard C D) (commits : List C) : List (File C D) :=
  commits.flatMap fun c => if c ∈ s.completed then [] else pointsOf s.files c

/-- The commits that `reconcile_shard` returns: without points, or without a completion mark. -/
def missing (s : Shard C D) (commits : List C) : List C :=
  commits.filter fun c => pointsOf s.files c = [] ∨ c ∉ s.completed

namespace Shard

def isStale (s : Shard C D) : Bool := s.flag.getD true

def rebuilt (s : Shard C D) : Content C := if s.files = [] then .absent else .points (s.files.map Prod.snd)

def finalized (s : Shard C D) (force : Bool) (session : List (Point C)) : Content C :=
  if force || session = [] then s.rebuilt
  else match s.content with
    | .absent => s.rebuilt
    | .torn => .torn
    | .points ps => .points (ps ++ session.filter (· ∉ ps))

def afterMark (s : Shard C D) (operator : Bool) (commits : List C) (wasStale : Bool) : Phase C D :=
  if operator then
    let missing := missing s commits
    .deleting (strays s commits) (if missing = [] ∧ wasStale = false then none else some missing)
  else if wasStale then .deleting (strays s commits) (some commits)
  else .writing false commits .empty [] []

end Shard

/-- The steps of a run; `write` writes the next point of a commit into a directory. -/
inductive Act (C D : Type)
  | run (r : Request C)
  | reconcile (u : Universe C)
  | mark
  | unlink
  | begin
  | start (c : C)
  | write (c : C) (dir : D)
  | complete (c : C)
  | flush
  | finish
  | publish
  | describe
  | clear
  | crash

variable [DecidableEq D]

def Shard.step (R : Repo C) (s : Shard C D) : Act C D → Option (Shard C D)
  | .run r =>
    match s.phase with
    | .idle =>
      let plan := computePlan R s.completed r
      if plan ≠ [] ∨ s.isStale = true then some { s with phase := .marking false plan s.isStale } else none
    | _ => none
  | .reconcile u =>
    match s.phase with
    | .idle =>
      let commits := u.1.filter R.inShard
      if commits ≠ [] then some { s with phase := .marking true commits s.isStale } else none
    | _ => none
  | .mark =>
    match s.phase with
    | .marking operator commits wasStale =>
      some { s with flag := s.flag.map fun _ => true, phase := s.afterMark operator commits wasStale }
    | _ => none
  | .unlink =>
    match s.phase with
    | .deleting (f :: left) next => some { s with files := s.files.filter (· ≠ f), phase := .deleting left next }
    | _ => none
  | .begin =>
    match s.phase with
    | .deleting [] (some commits) => some { s with phase := .writing true commits .empty [] [] }
    | .deleting [] none => some { s with phase := .clearing }
    | _ => none
  | .start c =>
    match s.phase with
    | .writing force queue active pending session =>
      if c ∈ queue then
        some { s with phase := .writing force (queue.erase c) (active.set c 0) pending session } else none
    | _ => none
  | .write c dir =>
    match s.phase with
    | .writing force queue active pending session =>
      match active.get? c with
      | some j =>
        if j < R.chunks c then
          some { s with
            files := s.files.insert (dir, c, j)
            phase := .writing force queue (active.set c (j + 1)) pending ((c, j) :: session) }
        else none
      | none => none
    | _ => none
  | .complete c =>
    match s.phase with
    | .writing force queue active pending session =>
      if active.get? c = some (R.chunks c) then
        some { s with phase := .writing force queue (active.erase c) (c :: pending) session } else none
    | _ => none
  | .flush =>
    match s.phase with
    | .writing force queue active pending session =>
      some { s with completed := s.completed ++ pending, phase := .writing force queue active [] session }
    | _ => none
  | .finish =>
    -- A cancelled run ends its loop between two commits, with commits left in the queue.
    match s.phase with
    | .writing force _ active pending session =>
      if active.items = [] then
        some { s with completed := s.completed ++ pending, phase := .publishing force session } else none
    | _ => none
  | .publish =>
    match s.phase with
    | .publishing force session => some { s with content := .torn, phase := .describing (s.finalized force session) }
    | _ => none
  | .describe =>
    match s.phase with
    | .describing content => some { s with content := content, flag := some s.isStale, phase := .clearing }
    | _ => none
  | .clear =>
    match s.phase with
    | .clearing => some { s with flag := s.flag.map fun _ => false, phase := .idle }
    | _ => none
  | .crash => some { s with phase := .idle }

/-- The index has exactly the points on disk, every commit with a point on disk is completed, and every
completed commit has all its points on disk. -/
structure Consistent (R : Repo C) (s : Shard C D) : Prop where
  index : ∀ p, s.content.Has p ↔ OnDisk s.files p
  marked : ∀ c j, OnDisk s.files (c, j) → c ∈ s.completed
  whole : ∀ c ∈ s.completed, ∀ j < R.chunks c, OnDisk s.files (c, j)

def shard (R : Repo C) : TransitionSystem (Shard C D) (Act C D) where
  init s := s = ⟨[], [], .absent, none, .idle⟩
  step := Shard.step R

def Request.Eligible (R : Repo C) (completed : List C) (r : Request C) (c : C) : Prop :=
  c ∉ completed ∧ c ∉ r.elsewhere ∧ ∀ cutoff ∈ r.sinceDate, cutoff ≤ R.timestamp c

instance (R : Repo C) (completed : List C) (r : Request C) (c : C) : Decidable (r.Eligible R completed c) :=
  inferInstanceAs (Decidable (_ ∧ _ ∧ _))

/-- The request reaches `c`: git lists it in this shard, it is eligible, and fewer than `max_commits` newer
commits are. -/
def Request.Admits (R : Repo C) (completed : List C) (r : Request C) (c : C) : Prop :=
  c ∈ r.commits.1 ∧ R.inShard c = true ∧ r.Eligible R completed c ∧ ∀ n ∈ r.maxCommits, 0 < n →
    ((r.commits.1.reverse.takeWhile (· ≠ c)).filter fun c' => r.Eligible R completed c').length < n

instance (R : Repo C) (completed : List C) (r : Request C) (c : C) : Decidable (r.Admits R completed c) :=
  inferInstanceAs (Decidable (_ ∧ _ ∧ _ ∧ _))

/-- A run that finds the shard stale reaches every commit with points and without a completion mark; a
reconcile has it among its commits. -/
def Covered (R : Repo C) (s : Shard C D) : Act C D → Prop
  | .run r => s.isStale = true → ∀ f ∈ s.files, f.2.1 ∈ s.completed ∨ r.Admits R s.completed f.2.1
  | .reconcile u => ∀ f ∈ s.files, f.2.1 ∈ s.completed ∨ f.2.1 ∈ u.1 ∧ R.inShard f.2.1 = true
  | _ => True

instance (R : Repo C) (s : Shard C D) : (a : Act C D) → Decidable (Covered R s a)
  | .run _ => inferInstanceAs (Decidable (_ → ∀ _ ∈ _, _))
  | .reconcile _ => inferInstanceAs (Decidable (∀ _ ∈ _, _))
  | .mark | .unlink | .begin | .start _ | .write .. | .complete _ | .flush | .finish | .publish | .describe | .clear
  | .crash => .isTrue trivial

end CodeIndexer.Temporal.Barrier
