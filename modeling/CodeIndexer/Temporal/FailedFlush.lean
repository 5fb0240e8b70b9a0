import CodeIndexer.Temporal.ProgressiveMetadata

/-!
# A flush that raises

`flush_pending` of one instance with nobody else at work, and an `_atomic_update` that may raise at any of its steps.
The staged set is empty from before the first of them, so that staged commits are lost unless the new document had
been published or the old one has them.
-/

namespace CodeIndexer.Temporal.Progress

open PyText

/-- Where `_atomic_update` raises; `migrate` is in the write of the migration of a legacy document, before or after its
rename. -/
inductive Fault
  | makeDirs
  | lock
  | read
  | migrate (renamed : Bool)
  | openTmp
  | writeTmp
  | rename
  | syncDir
deriving DecidableEq

/-- What `_load` returns, and the file it leaves. An `IOError` is caught (`unreadable`). -/
def Content.load (unreadable : Bool) : Content → Data × Content
  | .doc (.v2 data) => (if unreadable then defaultData else data, .doc (.v2 data))
  | .doc (.legacy commits status) =>
    if unreadable then (defaultData, .doc (.legacy commits status))
    else (migrateLegacy commits status, .doc (.v2 (migrateLegacy commits status)))
  | c => (defaultData, c)

def atomicUpdate (modifier : Modifier) (unreadable : Bool) (file : Content) : Option Fault → Content
  | some .makeDirs | some .lock | some .read | some (.migrate false) => file
  | some (.migrate true) | some .openTmp | some .writeTmp | some .rename => (file.load unreadable).2
  | some .syncDir | none => .doc (.v2 (modifier.apply (file.load unreadable).1))

structure Instance where
  pending : List Str
  file : Content

namespace Instance

variable (m : Instance)

def onDisk : List Str := (m.file.load false).1.completedCommits

def loadCompleted : List Str := m.onDisk ++ m.pending

def flushPending (unreadable : Bool) (fault : Option Fault) : Instance × Bool :=
  if m.pending = [] then (m, false)
  else (⟨[], atomicUpdate (.extend m.pending) unreadable m.file fault⟩, fault.isSome)

/-- Nothing is lost from `m` to `m'`, and the next flush has everything that was staged on disk. -/
structure Keeps (m m' : Instance) : Prop where
  loaded : ∀ commit, commit ∈ m'.loadCompleted ↔ commit ∈ m.loadCompleted
  flushed : m.pending ⊆ (m'.flushPending false none).1.onDisk

/-- Before the rename, all that is staged is on disk; after it, all that is on disk and was not read is staged. -/
def Spared (unreadable : Bool) (fault : Fault) : Prop :=
  if fault = .syncDir then unreadable = true → m.onDisk ⊆ m.pending else m.pending ⊆ m.onDisk

end Instance

theorem Content.load_load (unreadable : Bool) (file : Content) :
    ((file.load unreadable).2.load false).1 = (file.load false).1 := by
  cases unreadable <;> rcases file with _ | _ | _ | _ <;> rfl

theorem Content.load_unreadable (file : Content) : (file.load true).1 = defaultData := by
  rcases file with _ | _ | _ | _ <;> rfl

namespace Instance
variable {m : Instance} {unreadable : Bool} {fault : Fault}

theorem mem_onDisk_flushPending (hstaged : m.pending ≠ []) {commit : Str} :
    commit ∈ (m.flushPending unreadable (some fault)).1.onDisk ↔
      if fault = .syncDir then commit ∈ (m.file.load unreadable).1.completedCommits ∨ commit ∈ m.pending
      else commit ∈ m.onDisk := by
  rw [flushPending, if_neg hstaged, onDisk, onDisk]
  cases fault with
  | syncDir => simp [atomicUpdate, Content.load, Modifier.hashes]
  | migrate renamed => cases renamed <;> simp [atomicUpdate, Content.load_load]
  | makeDirs | lock | read | openTmp | writeTmp | rename => simp [atomicUpdate, Content.load_load]

theorem keeps_iff_spared (m : Instance) (unreadable : Bool) (fault : Fault)
    (hraises : (m.flushPending unreadable (some fault)).2 = true) :
    m.Keeps (m.flushPending unreadable (some fault)).1 ↔ m.Spared unreadable fault := by
  have hstaged : m.pending ≠ [] := by
    intro hnil
    simp [flushPending, hnil] at hraises
  have hempty : (m.flushPending unreadable (some fault)).1.pending = [] := by rw [flushPending, if_neg hstaged]
  have hloaded : (m.flushPending unreadable (some fault)).1.loadCompleted =
      (m.flushPending unreadable (some fault)).1.onDisk := by rw [loadCompleted, hempty, List.append_nil]
  have hagain : ((m.flushPending unreadable (some fault)).1.flushPending false none).1 =
      (m.flushPending unreadable (some fault)).1 := by
    conv_lhs => rw [flushPending, if_pos hempty]
  have hkeeps : m.Keeps (m.flushPending unreadable (some fault)).1 ↔
      ∀ commit, commit ∈ (m.flushPending unreadable (some fault)).1.onDisk ↔ commit ∈ m.onDisk ∨
      commit ∈ m.pending := by
    constructor
    · rintro ⟨hsame, -⟩ commit
      rw [← hloaded, hsame, loadCompleted, List.mem_append]
    · intro hsame
      refine ⟨fun commit => ?_, fun commit hcommit => ?_⟩
      · rw [hloaded, hsame, loadCompleted, List.mem_append]
      · rw [hagain, hsame]
        exact .inr hcommit
  rw [hkeeps, Spared]
  simp only [mem_onDisk_flushPending hstaged]
  split_ifs with hsync
  · cases unreadable with
    | false => simp [onDisk]
    | true =>
      simp only [Content.load_unreadable, defaultData, List.not_mem_nil, false_or, forall_const]
      exact ⟨fun h commit hc => (h commit).mpr (.inl hc), fun h commit => ⟨.inr, fun hc => hc.elim (@h commit) id⟩⟩
  · exact ⟨fun h commit hc => (h commit).mpr (.inr hc), fun h commit => ⟨.inl, fun hc => hc.elim id (@h commit)⟩⟩

/-- The staged commit is on disk already. -/
theorem keeps_iff_spared_again : (Instance.mk ["c".toList] (.doc (.v2 ⟨["c".toList], "idle".toList⟩))).Keeps
    ((Instance.mk ["c".toList] (.doc (.v2 ⟨["c".toList], "idle".toList⟩))).flushPending false (some .lock)).1 :=
  (keeps_iff_spared _ false .lock (by decide)).mpr fun _ hc => hc

/-- The lock cannot be taken, and the staged commit is gone. -/
theorem staged_lost : ((Instance.mk ["c".toList] .empty).flushPending false (some .lock)).2 = true ∧
    (Instance.mk ["c".toList] .empty).loadCompleted = ["c".toList] ∧
    ((Instance.mk ["c".toList] .empty).flushPending false (some .lock)).1.loadCompleted = [] := by
  decide

end Instance

end CodeIndexer.Temporal.Progress
