import CodeIndexer.Lib.PyText
import CodeIndexer.Lib.Transition

/-!
# Progressive metadata of a shard

`TemporalProgressiveMetadata`: the hashes of the indexed commits of a shard are staged in the set
`_pending` of an instance and flushed to `temporal_progress.json`. Threads of any number of processes
work on one shard directory, each thread on an instance it may share with others. A step is what runs
without another thread in between: one operation on `_pending`, taking or dropping a lock, opening,
writing or renaming the temporary file, or reading the progress file.

Files are inodes behind two directory entries, since all writers share one temporary path: a writer
truncates and fills whatever inode that path names and renames whatever it names later. What is left
when two writers fill one inode depends on the lengths of their texts, and a step's `clean` says
whether it is the last writer's document. `last_updated` decides nothing and is left out, `clear` is
not called, and no I/O call fails but the rename of a missing temporary file.
-/

namespace CodeIndexer.Temporal.Progress

open PyText Function

/-! ### Documents -/

structure Data where
  completedCommits : List Str
  state : Str
deriving DecidableEq

inductive Doc
  | legacy (completedCommits : List Str) (status : Str)
  | v2 (data : Data)
deriving DecidableEq

inductive Content
  | empty
  | broken
  | doc (d : Doc)
deriving DecidableEq

def Content.commits : Content → List Str
  | .doc (.legacy commits _) => commits
  | .doc (.v2 data) => data.completedCommits
  | .empty | .broken => []

/-- `sorted(set(xs))`. -/
def sortedSet (xs : List Str) : List Str := xs.dedup.insertionSort (· ≤ ·)

@[simp] theorem mem_sortedSet {h : Str} {xs : List Str} : h ∈ sortedSet xs ↔ h ∈ xs := by
  simp [sortedSet]

def defaultData : Data := ⟨[], "idle"⟩

def migrateLegacy (completedCommits : List Str) (status : Str) : Data :=
  ⟨sortedSet completedCommits, if status = "failed" then "failed" else "idle"⟩

inductive Modifier
  | extend (hashes : List Str)
  | setState (state : Str)
deriving DecidableEq

def Modifier.hashes : Modifier → List Str
  | .extend hashes => hashes
  | .setState _ => []

def Modifier.apply (m : Modifier) (data : Data) : Data :=
  match m with
  | .extend hashes => ⟨sortedSet (data.completedCommits ++ hashes), data.state⟩
  | .setState state => ⟨sortedSet data.completedCommits, state⟩

@[simp] theorem Modifier.mem_apply {m : Modifier} {data : Data} {h : Str} :
    h ∈ (m.apply data).completedCommits ↔ h ∈ data.completedCommits ∨ h ∈ m.hashes := by
  cases m <;> simp [apply, hashes]

def validStates : List Str := ["idle", "building", "failed"]

/-! ### Threads -/

structure Update (I : Type) where
  inst : I
  isFlush : Bool
  modifier : Modifier
deriving DecidableEq

/-- What `_write_atomic` returns to: the migration of a `load_completed`, the migration inside
`_atomic_update`, or the end of `_atomic_update`. -/
inductive Writer (I : Type)
  | migrateLoad (i : I) (required : List Str)
  | migrateUpdate (u : Update I)
  | update (u : Update I)
deriving DecidableEq

inductive Phase
  | opening
  | opened (inode : ℕ)
  | closed
deriving DecidableEq

/-- Where a thread stands. `required` are the hashes marked on the instance when `load_completed` was
called; `flushing` holds `_pending_lock`. -/
inductive Pc (I : Type)
  | idle
  | saving (i : I)
  | flushing (i : I) (toFlush : List Str)
  | waiting (u : Update I)
  | locked (u : Update I)
  | writing (k : Writer I) (data : Data) (phase : Phase)
  | releasing (u : Update I) (ok : Bool)
  | loading (i : I) (required : List Str)
  | snapshotting (i : I) (required onDisk : List Str)
  | loaded (i : I) (required result : List Str)
deriving DecidableEq

def Pc.ready {I : Type} : Pc I → Bool
  | .idle | .loaded .. => true
  | _ => false

inductive Op (I : Type)
  | markCommitIndexed (i : I) (hash : Str)
  | saveCompleted (i : I) (hash : Str)
  | flushPending (i : I)
  | markCompleted (i : I) (hashes : List Str)
  | setState (i : I) (state : Str)
  | loadCompleted (i : I)

inductive Act (T I : Type)
  | call (t : T) (op : Op I)
  | go (t : T) (clean : Bool)

/-- The shard directory, the instances and the threads. `lock` is the owner of the file lock. `marked i`
are the hashes whose `mark_commit_indexed`, `mark_completed` or flush on `i` has returned, `flushed` those
whose write has returned. -/
structure Shard (T I P : Type) where
  files : ℕ → Content
  nextInode : ℕ
  progress : Option ℕ
  tmp : Option ℕ
  lock : Option P
  pending : I → List Str
  pendingLock : I → Option T
  pc : T → Pc I
  marked : I → List Str
  flushed : List Str

variable {T I P : Type} [DecidableEq T] [DecidableEq I] [DecidableEq P]

namespace Shard

variable (s : Shard T I P) (t : T)

def content : Content :=
  match s.progress with
  | none => .empty
  | some n => s.files n

/-- The commits on disk, as `load_completed` would find them. -/
def onDisk : List Str := s.content.commits

def setPc (pc : Pc I) : Shard T I P := { s with pc := update s.pc t pc }

def addPending (i : I) (hash : Str) : Shard T I P :=
  { s with pending := update s.pending i ((s.pending i).insert hash) }

def addMarked (i : I) (hashes : List Str) : Shard T I P :=
  { s with marked := update s.marked i (s.marked i ++ hashes) }

def startFlush (i : I) : Option (Shard T I P) :=
  match s.pendingLock i with
  | some _ => none
  | none =>
    if s.pending i = [] then some (s.setPc t .idle)
    else some ({ s with pendingLock := update s.pendingLock i (some t) }.setPc t
      (.flushing i (s.pending i)))

def call : Op I → Option (Shard T I P)
  | .markCommitIndexed i hash =>
    match s.pendingLock i with
    | some _ => none
    | none => some (((s.addPending i hash).addMarked i [hash]).setPc t .idle)
  | .saveCompleted i hash => some ((s.addPending i hash).setPc t (.saving i)) -- without `_pending_lock`
  | .flushPending i => s.startFlush t i
  | .markCompleted i hashes => some (s.setPc t (.waiting ⟨i, false, .extend hashes⟩))
  | .setState i state =>
    if state ∈ validStates then some (s.setPc t (.waiting ⟨i, false, .setState state⟩))
    else some (s.setPc t .idle)
  | .loadCompleted i => some (s.setPc t (.loading i (s.marked i)))

/-- Where `_load` leads: on with the data, or into the migration's write. -/
def afterLoad (c : Content) (migrate : Writer I) (proceed : Data → Pc I) : Pc I :=
  match c with
  | .empty | .broken => proceed defaultData
  | .doc (.v2 data) => proceed data
  | .doc (.legacy commits status) => .writing migrate (migrateLegacy commits status) .opening

def updateTo (u : Update I) (data : Data) : Pc I := .writing (.update u) (u.modifier.apply data) .opening

def openTmp : Shard T I P × ℕ :=
  match s.tmp with
  | some n => ({ s with files := update s.files n .empty }, n)
  | none => ({ s with
      files := update s.files s.nextInode .empty
      tmp := some s.nextInode
      nextInode := s.nextInode + 1 }, s.nextInode)

def written (old : Content) (data : Data) (clean : Bool) : Content :=
  if old = .empty || clean then .doc (.v2 data) else .broken

def afterWrite (data : Data) : Writer I → Pc I
  | .migrateLoad i required => .snapshotting i required data.completedCommits
  | .migrateUpdate u => updateTo u data
  | .update u => .releasing u true

/-- `os.replace` of a missing file raises. -/
def afterFailure : Writer I → Pc I
  | .migrateLoad .. => .idle
  | .migrateUpdate u | .update u => .releasing u false

def replaceTmp (k : Writer I) (data : Data) : Shard T I P :=
  match s.tmp with
  | none => s.setPc t (afterFailure k)
  | some n => { s with progress := some n, tmp := none }.setPc t (afterWrite data k)

/-- The owner's lock is dropped, and a call that did not raise has returned. -/
def release (owner : T → P) (s : Shard T I P) (t : T) (u : Update I) (ok : Bool) : Shard T I P :=
  let s := { s with lock := if s.lock = some (owner t) then none else s.lock }
  let s := if ok then { s.addMarked u.inst u.modifier.hashes with flushed := s.flushed ++ u.modifier.hashes }
    else s
  s.setPc t .idle

def go (owner : T → P) (s : Shard T I P) (t : T) (clean : Bool) : Option (Shard T I P) :=
  match s.pc t with
  | .idle | .loaded .. => none
  | .saving i => s.startFlush t i
  | .flushing i toFlush =>
    some ({ s with
      pending := update s.pending i []
      pendingLock := update s.pendingLock i none }.setPc t (.waiting ⟨i, true, .extend toFlush⟩))
  | .waiting u =>
    if s.lock = none ∨ s.lock = some (owner t) then some ({ s with lock := some (owner t) }.setPc t (.locked u))
    else none
  | .locked u => some (s.setPc t (afterLoad s.content (.migrateUpdate u) (updateTo u)))
  | .writing k data .opening => some (s.openTmp.1.setPc t (.writing k data (.opened s.openTmp.2)))
  | .writing k data (.opened n) =>
    some ({ s with files := update s.files n (written (s.files n) data clean) }.setPc t
      (.writing k data .closed))
  | .writing k data .closed => some (s.replaceTmp t k data)
  | .releasing u ok => some (s.release owner t u ok)
  | .loading i required =>
    some (s.setPc t (afterLoad s.content (.migrateLoad i required)
      fun data => .snapshotting i required data.completedCommits))
  | .snapshotting i required onDisk =>
    match s.pendingLock i with
    | some _ => none
    | none => some (s.setPc t (.loaded i required (onDisk ++ s.pending i)))

def step (owner : T → P) (s : Shard T I P) : Act T I → Option (Shard T I P)
  | .call t op => if (s.pc t).ready then s.call t op else none
  | .go t clean => s.go owner t clean

end Shard

/-- No thread is in a call, nothing is staged, and the directory holds any progress file and any temporary
file a dead process left. -/
structure Fresh (s : Shard T I P) : Prop where
  pc : ∀ t, s.pc t = .idle
  pending : ∀ i, s.pending i = []
  pendingLock : ∀ i, s.pendingLock i = none
  marked : ∀ i, s.marked i = []
  flushed : s.flushed = []
  lock : s.lock = none
  progress : ∀ n, s.progress = some n → n < s.nextInode
  tmp : ∀ n, s.tmp = some n → n < s.nextInode ∧ s.progress ≠ some n

/-- Threads on a shard. `owner t` owns the file lock a thread takes: its open file under `flock`, so that
no two threads share it, its process under the `lockf` fallback. -/
def shard (owner : T → P) : TransitionSystem (Shard T I P) (Act T I) where
  init := Fresh
  step := Shard.step owner

/-- A `load_completed` that returned has every hash marked before its call, and what was flushed is on
disk. -/
structure Kept (s : Shard T I P) : Prop where
  loaded : ∀ t i required result, s.pc t = .loaded i required result → required ⊆ result
  flushed : s.flushed ⊆ s.onDisk

end CodeIndexer.Temporal.Progress
