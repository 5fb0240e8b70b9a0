import CodeIndexer.Lib.Dict
import CodeIndexer.Lib.PyText
import CodeIndexer.Lib.Transition

/-!
# The lock of an indexing run (`IndexingLock`)

The lock of a project is a heartbeat file. The calls of any number of lock objects take one file operation at a time:
`exists`, the read, `unlink`, the `open` that truncates or creates the file and the write of the JSON text. A lock
object has one caller, and a heartbeat thread whose updates may still be under way when the lock was released.

Ghosts: a file has an inode (a write to a file that was unlinked is lost), the lock object whose `acquire` opened it
and whether it is open for writing; `version` counts the changes of the file, and `unlinked` says whose lock was
removed by whom.
-/

namespace CodeIndexer.IndexingLock

open PyText TransitionSystem Function

structure Config (P : Type) where
  pid : P → ℤ
  timeout : P → ℚ

/-- What the system answers at a step: whether the operation raises nothing, which processes `os.kill(pid, 0)` finds,
the time, and whether a text that is written over another one covers it. -/
structure Env where
  ok : Bool
  alive : ℤ → Bool
  now : ℚ
  whole : Bool

/-- `pid` is `none` if it is missing or not an integer, `lastHeartbeat` if it is not a number; missing, it is 0. -/
structure Heartbeat where
  pid : Option ℤ
  lastHeartbeat : Option ℚ
deriving DecidableEq

def Heartbeat.isActive (h : Heartbeat) (timeout : ℚ) (env : Env) : Option Bool :=
  match h.pid with
  | none => h.lastHeartbeat.map fun t => env.now - t ≤ timeout
  | some pid =>
    if pid = 0 ∨ env.alive pid then h.lastHeartbeat.map fun t => env.now - t ≤ timeout else some false

/-- `garbled` is any text that `_read_heartbeat` gives `None` or no entry for. -/
inductive Content
  | blank
  | garbled
  | heartbeat (h : Heartbeat)
deriving DecidableEq

def Content.overwrite (h : Heartbeat) (whole : Bool) : Content → Content
  | .blank => .heartbeat h
  | _ => if whole then .heartbeat h else .garbled

def Content.heartbeat? : Content → Option Heartbeat
  | .heartbeat h => some h
  | _ => none

structure File (P : Type) where
  inode : ℕ
  owner : Option P
  content : Content
  writing : Bool

inductive Answer
  | acquired
  | inProgress (pid : Option ℤ)
  | failed
deriving DecidableEq

/-- The text of the `IndexingLockError`; `duration` and `error` are the formatted running time and exception. -/
def Answer.message (showPid : ℤ → Str) (duration error : Str) : Answer → Option Str
  | .acquired => none
  | .inProgress pid =>
    some ("Indexing already in progress (PID: " ++ (pid.map showPid).getD "unknown" ++ ", running for " ++
      duration ++ "s). Please wait for the current operation to complete or use 'cidx status' to check progress.")
  | .failed => some ("Failed to acquire indexing lock: " ++ error)

/-- What the caller of a lock object does next. `seen` is the version at the read, or at the look that found no
file. -/
inductive Pc
  | idle
  | look
  | readLook
  | read
  | judge (seen : ℕ) (h : Heartbeat)
  | cleanLook (seen : ℕ)
  | cleanUnlink (seen : ℕ)
  | create (seen : ℕ)
  | write (seen inode : ℕ) (h : Heartbeat)
  | releaseLook
  | releaseUnlink
deriving DecidableEq

inductive UpdatePc
  | look
  | readLook
  | read
  | create (seen : ℕ) (h : Heartbeat)
  | write (seen inode : ℕ) (h : Heartbeat)
deriving DecidableEq

structure Lock where
  pc : Pc
  lockAcquired : Bool
  beating : Bool

structure State (P : Type) where
  file : Option (File P)
  nextInode : ℕ
  version : ℕ
  locks : P → Lock
  updates : Dict ℕ (P × UpdatePc)
  answers : List (P × Answer)
  unlinked : List (P × P)

variable {P : Type}

section Model

variable [DecidableEq P]

namespace State

def holds (s : State P) (p : P) : Bool := (s.locks p).lockAcquired

def setLock (s : State P) (p : P) (l : Lock) : State P := { s with locks := update s.locks p l }

def goto (s : State P) (p : P) (pc : Pc) : State P := s.setLock p { s.locks p with pc := pc }

def answer (s : State P) (p : P) (a : Answer) : State P := { s.goto p .idle with answers := s.answers ++ [(p, a)] }

def acquired (s : State P) (p : P) : State P :=
  { s.setLock p ⟨.idle, true, true⟩ with answers := s.answers ++ [(p, .acquired)] }

def released (s : State P) (p : P) : State P := s.setLock p { s.locks p with pc := .idle, lockAcquired := false }

def truncate (s : State P) (p : Option P) : State P :=
  match s.file with
  | some f =>
    { s with
      file := some { f with owner := p.or f.owner, content := .blank, writing := true }
      version := s.version + 1 }
  | none =>
    { s with
      file := some ⟨s.nextInode, p, .blank, true⟩, nextInode := s.nextInode + 1, version := s.version + 1 }

def openedInode (s : State P) : ℕ := (s.file.map File.inode).getD s.nextInode

/-- The write (or, where it raises, the end of the handle) reaches the file only if it is still there. -/
def close (s : State P) (inode : ℕ) (change : Content → Content) : State P :=
  match s.file with
  | some f =>
    if f.inode = inode then
      { s with file := some { f with content := change f.content, writing := false }, version := s.version + 1 }
    else s
  | none => s

def lost (s : State P) (p : P) (f : File P) : List (P × P) :=
  match f.owner with
  | some q => if s.holds q then [(p, q)] else []
  | none => []

def unlink (s : State P) (p : P) : State P :=
  match s.file with
  | some f => { s with file := none, version := s.version + 1, unlinked := s.unlinked ++ s.lost p f }
  | none => s

def readHeartbeat (s : State P) (ok : Bool) : Option Heartbeat :=
  if ok then s.file.bind fun f => f.content.heartbeat? else none

def advance (c : Config P) (s : State P) (p : P) (env : Env) : Pc → Option (State P)
  | .idle => none
  | .look => some (s.goto p (if s.file.isSome then .readLook else .create s.version))
  | .readLook => some (s.goto p (if s.file.isSome then .read else .cleanLook s.version))
  | .read =>
    match s.readHeartbeat env.ok with
    | some h => some (s.goto p (.judge s.version h))
    | none => some (s.goto p (.cleanLook s.version))
  | .judge seen h =>
    match h.isActive (c.timeout p) env with
    | none => some (s.answer p .failed)
    | some true => some (s.answer p (.inProgress h.pid))
    | some false => some (s.goto p (.cleanLook seen))
  | .cleanLook seen => some (s.goto p (if s.file.isSome then .cleanUnlink seen else .create s.version))
  | .cleanUnlink seen =>
    -- an exception of `unlink` is only logged
    if env.ok then some ((s.unlink p).goto p (.create (s.unlink p).version)) else some (s.goto p (.create seen))
  | .create _ =>
    if env.ok then
      some ((s.truncate (some p)).goto p (.write (s.version + 1) s.openedInode ⟨some (c.pid p), some env.now⟩))
    else some (s.answer p .failed)
  | .write _ inode h =>
    if env.ok then some ((s.close inode (Content.overwrite h env.whole)).acquired p)
    else some ((s.close inode id).answer p .failed)
  | .releaseLook => some (if s.file.isSome then s.goto p .releaseUnlink else s.released p)
  | .releaseUnlink => some (if env.ok then (s.unlink p).released p else s.released p)

def gotoUpdate (s : State P) (i : ℕ) (p : P) (pc : UpdatePc) : State P := { s with updates := s.updates.set i (p, pc) }

def endUpdate (s : State P) (i : ℕ) : State P := { s with updates := s.updates.erase i }

/-- One file operation of `_update_heartbeat`, whose exceptions are only logged. -/
def advanceUpdate (s : State P) (i : ℕ) (p : P) (env : Env) : UpdatePc → State P
  | .look => if s.file.isSome then s.gotoUpdate i p .readLook else s.endUpdate i
  | .readLook => if s.file.isSome then s.gotoUpdate i p .read else s.endUpdate i
  | .read =>
    match s.readHeartbeat env.ok with
    | some h => s.gotoUpdate i p (.create s.version { h with lastHeartbeat := some env.now })
    | none => s.endUpdate i
  | .create _ h =>
    if env.ok then (s.truncate none).gotoUpdate i p (.write (s.version + 1) s.openedInode h) else s.endUpdate i
  | .write _ inode h =>
    (s.close inode (if env.ok then Content.overwrite h env.whole else id)).endUpdate i

end State

inductive Act (P : Type)
  | acquire (p : P)
  | release (p : P)
  | update (i : ℕ) (p : P)
  | step (p : P) (env : Env)
  | stepUpdate (i : ℕ) (env : Env)

def State.step (c : Config P) (s : State P) : Act P → Option (State P)
  | .acquire p => if (s.locks p).pc = .idle then some (s.goto p .look) else none
  | .release p =>
    if (s.locks p).pc = .idle then
      if s.holds p then some (s.setLock p { s.locks p with pc := .releaseLook, beating := false }) else some s
    else none
  | .update i p => if (s.locks p).beating ∧ (s.updates.get? i).isNone then some (s.gotoUpdate i p .look) else none
  | .step p env => s.advance c p env (s.locks p).pc
  | .stepUpdate i env => (s.updates.get? i).map fun u => s.advanceUpdate i u.1 env u.2

def State.fresh (left : Option Content) : State P where
  file := left.map fun content => ⟨0, none, content, false⟩
  nextInode := 1
  version := 0
  locks := fun _ => ⟨.idle, false, false⟩
  updates := Dict.empty
  answers := []
  unlinked := []

def system (c : Config P) : TransitionSystem (State P) (Act P) where
  init s := ∃ left, s = .fresh left
  step := State.step c

structure State.Laws (s : State P) : Prop where
  exclusive : ∀ p q, s.holds p = true → s.holds q = true → p = q
  own : ∀ e ∈ s.unlinked, e.1 = e.2

end Model

/-! ### Careful steps -/

/-- The process of a holder is alive and its heartbeat in the file is not older than the timeout. -/
def State.FreshHolder (c : Config P) (s : State P) (p : P) (env : Env) : Prop :=
  ∀ f ∈ s.file, ∀ q ∈ f.owner, s.holds q = true →
    env.alive (c.pid q) = true ∧ ∀ h ∈ f.content.heartbeat?, ∀ t ∈ h.lastHeartbeat, env.now - t ≤ c.timeout p

/-- No file operation raises an exception and the heartbeats of the holders are fresh. -/
def Timely (c : Config P) (s : State P) : Act P → Prop
  | .step p env => env.ok = true ∧ s.FreshHolder c p env
  | .stepUpdate _ env => env.ok = true
  | _ => True

/-- The read raises nothing and nobody has the file open for writing; the file is changed only if it is as it was
read, or missing as it was found. -/
def State.Careful (c : Config P) (s : State P) (p : P) (env : Env) : Pc → Prop
  | .read => env.ok = true ∧ ∀ f ∈ s.file, f.writing = false
  | .judge _ _ => s.FreshHolder c p env
  | .cleanUnlink seen => seen = s.version
  | .create seen => seen = s.version
  | .write seen _ _ => seen = s.version
  | _ => True

def State.CarefulUpdate (s : State P) (env : Env) : UpdatePc → Prop
  | .create seen _ => seen = s.version
  | .write seen _ _ => seen = s.version ∧ env.ok = true
  | _ => True

def Undisturbed (c : Config P) (s : State P) : Act P → Prop
  | .step p env => s.Careful c p env (s.locks p).pc
  | .stepUpdate i env => ∀ u ∈ s.updates.get? i, s.CarefulUpdate env u.2
  | _ => True

instance (c : Config P) (s : State P) (p : P) (env : Env) : Decidable (s.FreshHolder c p env) :=
  inferInstanceAs (Decidable (∀ f ∈ s.file, ∀ q ∈ f.owner, s.holds q = true →
    env.alive (c.pid q) = true ∧ ∀ h ∈ f.content.heartbeat?, ∀ t ∈ h.lastHeartbeat, env.now - t ≤ c.timeout p))

instance (c : Config P) (s : State P) : (a : Act P) → Decidable (Timely c s a)
  | .step p env => inferInstanceAs (Decidable (env.ok = true ∧ s.FreshHolder c p env))
  | .stepUpdate _ env => inferInstanceAs (Decidable (env.ok = true))
  | .acquire _ | .release _ | .update .. => .isTrue trivial

instance (c : Config P) (s : State P) (p : P) (env : Env) : (pc : Pc) → Decidable (s.Careful c p env pc)
  | .read => inferInstanceAs (Decidable (env.ok = true ∧ ∀ f ∈ s.file, f.writing = false))
  | .judge _ _ => inferInstanceAs (Decidable (s.FreshHolder c p env))
  | .cleanUnlink seen => inferInstanceAs (Decidable (seen = s.version))
  | .create seen => inferInstanceAs (Decidable (seen = s.version))
  | .write seen _ _ => inferInstanceAs (Decidable (seen = s.version))
  | .idle | .look | .readLook | .cleanLook _ | .releaseLook | .releaseUnlink => .isTrue trivial

instance (s : State P) (env : Env) : (pc : UpdatePc) → Decidable (s.CarefulUpdate env pc)
  | .create seen _ => inferInstanceAs (Decidable (seen = s.version))
  | .write seen _ _ => inferInstanceAs (Decidable (seen = s.version ∧ env.ok = true))
  | .look | .readLook | .read => .isTrue trivial

instance (c : Config P) (s : State P) : (a : Act P) → Decidable (Undisturbed c s a)
  | .step p env => inferInstanceAs (Decidable (s.Careful c p env (s.locks p).pc))
  | .stepUpdate i env => inferInstanceAs (Decidable (∀ u ∈ s.updates.get? i, s.CarefulUpdate env u.2))
  | .acquire _ | .release _ | .update .. => .isTrue trivial

/-! ### The invariant -/

def State.NoHolder (s : State P) : Prop := ∀ q, ¬s.holds q = true

def Heartbeat.Of (c : Config P) (p : P) (h : Heartbeat) : Prop := h.pid = some (c.pid p) ∧ h.lastHeartbeat.isSome = true

/-- The file is the one of `p`, with a heartbeat of it or just opened for one. -/
def Owned (c : Config P) (s : State P) (p : P) : Prop :=
  ∃ f, s.file = some f ∧ f.owner = some p ∧
    (f.writing = true ∧ f.content = .blank ∨ ∃ h, f.content = .heartbeat h ∧ h.Of c p)

def State.Since (s : State P) (seen : ℕ) (φ : Prop) : Prop := seen ≤ s.version ∧ (seen = s.version → φ)

def PcOk (c : Config P) (s : State P) (p : P) : Pc → Prop
  | .judge seen h => s.Since seen (∃ f, s.file = some f ∧ f.content = .heartbeat h)
  | .cleanLook seen => s.Since seen s.NoHolder
  | .cleanUnlink seen => s.Since seen s.NoHolder
  | .create seen => s.Since seen s.NoHolder
  | .write seen inode h =>
    s.Since seen (s.NoHolder ∧ ∃ f, s.file = some f ∧ f.inode = inode ∧ f.owner = some p ∧
      f.content = .blank) ∧ h.Of c p
  | .releaseLook => s.holds p = true
  | .releaseUnlink => s.holds p = true
  | _ => True

def UpdateOk (c : Config P) (s : State P) : UpdatePc → Prop
  | .create seen h => s.Since seen (∀ q, s.holds q = true → h.Of c q)
  | .write seen inode h =>
    s.Since seen ((∀ q, s.holds q = true → h.Of c q) ∧ ∃ f, s.file = some f ∧ f.inode = inode ∧ f.content = .blank)
  | _ => True

structure Inv (c : Config P) (s : State P) : Prop where
  owned : ∀ q, s.holds q = true → Owned c s q
  own : ∀ e ∈ s.unlinked, e.1 = e.2
  callers : ∀ q, PcOk c s q (s.locks q).pc
  updates : ∀ i u, s.updates.get? i = some u → UpdateOk c s u.2

def Moves (s s' : State P) : Prop :=
  s.version ≤ s'.version ∧ (s'.version = s.version → s'.file = s.file ∧ ∀ q, s'.holds q = true → s.holds q = true)

section Frame

variable {c : Config P} {s s' : State P} {p : P}

theorem Inv.laws (h : Inv c s) : s.Laws := by
  refine ⟨fun p q hp hq => ?_, h.own⟩
  obtain ⟨f, hf, howner, -⟩ := h.owned p hp
  obtain ⟨g, hg, howner', -⟩ := h.owned q hq
  obtain rfl := Option.mem_unique hf hg
  exact Option.mem_unique howner howner'

theorem Moves.since (hm : Moves s s') {seen : ℕ} {φ φ' : Prop} (h : s.Since seen φ)
    (hφ : s'.file = s.file → (∀ q, s'.holds q = true → s.holds q = true) → φ → φ') : s'.Since seen φ' := by
  obtain ⟨hle, hsame⟩ := hm
  have hseen := h.1
  refine ⟨by omega, fun heq => ?_⟩
  obtain ⟨hfile, hholds⟩ := hsame (by omega)
  exact hφ hfile hholds (h.2 (by omega))

theorem State.NoHolder.mono (h : s.NoHolder) (hholds : ∀ q, s'.holds q = true → s.holds q = true) : s'.NoHolder :=
  fun q hq => h q (hholds q hq)

theorem Moves.pcOk (hm : Moves s s') {pc : Pc} (h : PcOk c s p pc) (hp : s.holds p = true → s'.holds p = true) :
    PcOk c s' p pc := by
  cases pc with
  | idle | look | readLook | read => trivial
  | judge seen hb => exact hm.since h fun hfile _ ⟨f, hf, hcontent⟩ => ⟨f, hfile.trans hf, hcontent⟩
  | cleanLook seen | cleanUnlink seen | create seen => exact hm.since h fun _ hholds hno => hno.mono hholds
  | write seen inode hb =>
    exact ⟨hm.since h.1 fun hfile hholds ⟨hno, f, hf, hmine⟩ => ⟨hno.mono hholds, f, hfile.trans hf, hmine⟩, h.2⟩
  | releaseLook | releaseUnlink => exact hp h

theorem Moves.updateOk (hm : Moves s s') {pc : UpdatePc} (h : UpdateOk c s pc) : UpdateOk c s' pc := by
  cases pc with
  | look | readLook | read => trivial
  | create seen hb => exact hm.since h fun _ hholds hof q hq => hof q (hholds q hq)
  | write seen inode hb =>
    exact hm.since h fun hfile hholds ⟨hof, f, hf, hmine⟩ => ⟨fun q hq => hof q (hholds q hq), f, hfile.trans hf, hmine⟩

theorem Inv.caller (h : Inv c s) (hm : Moves s s') (howned : ∀ q, s'.holds q = true → Owned c s' q)
    (hown : ∀ e ∈ s'.unlinked, e.1 = e.2) (hothers : ∀ q, q ≠ p → s'.locks q = s.locks q)
    (hpc : PcOk c s' p (s'.locks p).pc) (hupdates : s'.updates = s.updates) : Inv c s' := by
  refine ⟨howned, hown, fun q => ?_, fun i u hu => hm.updateOk (h.updates i u (hupdates ▸ hu))⟩
  by_cases hq : q = p
  · rw [hq]; exact hpc
  · have hlock := hothers q hq
    rw [hlock]
    exact hm.pcOk (h.callers q) fun hheld => by rw [State.holds, hlock]; exact hheld

theorem Inv.change (h : Inv c s) (hm : Moves s s') (hlocks : s'.locks = s.locks) (hupdates : s'.updates = s.updates)
    (howned : ∀ q, s'.holds q = true → Owned c s' q) (hown : ∀ e ∈ s'.unlinked, e.1 = e.2) : Inv c s' := by
  refine ⟨howned, hown, fun q => ?_, fun i u hu => hm.updateOk (h.updates i u (hupdates ▸ hu))⟩
  rw [hlocks]
  exact hm.pcOk (h.callers q) fun hheld => by rw [State.holds, hlocks]; exact hheld

end Frame

/-! ### Changes of the file -/

section Files

variable {c : Config P} {s : State P} {p : P} {env : Env}

theorem State.unlink_of_none (hf : s.file = none) : s.unlink p = s := by rw [State.unlink, hf]

variable {f : File P} {hb : Heartbeat} {pc : UpdatePc} {i : ℕ}

theorem State.unlink_of_some (hf : s.file = some f) :
    s.unlink p = { s with file := none, version := s.version + 1, unlinked := s.unlinked ++ s.lost p f } := by
  rw [State.unlink, hf]

theorem lost_of_noHolder (hno : s.NoHolder) (f : File P) : s.lost p f = [] := by
  rw [State.lost]
  cases f.owner with
  | none => rfl
  | some q => exact if_neg (hno q)

theorem Inv.unlink_of_noHolder (h : Inv c s) (hno : s.NoHolder) : Inv c (s.unlink p) := by
  cases hf : s.file with
  | none => rw [State.unlink_of_none hf]; exact h
  | some f =>
    rw [State.unlink_of_some hf, lost_of_noHolder hno, List.append_nil]
    exact h.change ⟨Nat.le_succ _, fun heq => absurd heq (Nat.succ_ne_self _)⟩ rfl rfl
      (fun q hq => absurd hq (hno q)) h.own

theorem holds_unlink (q : P) : (s.unlink p).holds q = s.holds q := by
  rw [State.unlink]
  split <;> rfl

theorem truncate_spec (q : Option P) : ∃ f, (s.truncate q).file = some f ∧ f.inode = s.openedInode ∧
    f.content = .blank ∧
    f.writing = true ∧ f.owner = q.or (s.file.bind File.owner) := by
  rw [State.truncate, State.openedInode]
  cases s.file with
  | none => exact ⟨_, rfl, rfl, rfl, rfl, by cases q <;> rfl⟩
  | some f => exact ⟨_, rfl, rfl, rfl, rfl, rfl⟩

theorem version_truncate (q : Option P) : (s.truncate q).version = s.version + 1 := by
  rw [State.truncate]
  split <;> rfl

theorem locks_truncate (q : Option P) : (s.truncate q).locks = s.locks := by
  rw [State.truncate]
  split <;> rfl

theorem Inv.truncate (h : Inv c s) {q : Option P}
    (howned : ∀ q', (s.truncate q).holds q' = true → Owned c (s.truncate q) q') :
    Inv c (s.truncate q) := by
  have hversion := version_truncate (s := s) q
  refine h.change ⟨by omega, fun heq => by omega⟩ (locks_truncate q) ?_ howned fun e he => h.own e ?_
  · rw [State.truncate]; split <;> rfl
  · rw [State.truncate] at he; split at he <;> exact he

theorem Inv.truncate_none (h : Inv c s) : Inv c (s.truncate none) := by
  refine h.truncate fun q hq => ?_
  rw [State.holds, locks_truncate] at hq
  obtain ⟨f, hf, howner, -⟩ := h.owned q hq
  obtain ⟨g, hg, -, hblank, hwriting, howner'⟩ := truncate_spec (s := s) none
  refine ⟨g, hg, ?_, .inl ⟨hwriting, hblank⟩⟩
  rw [howner', hf]
  exact howner

theorem State.close_of_eq (hf : s.file = some f) (change : Content → Content) :
    s.close f.inode change =
      { s with file := some { f with content := change f.content, writing := false }, version := s.version + 1 } := by
  rw [State.close, hf]
  exact if_pos rfl

theorem Inv.close_update (h : Inv c s) (hf : s.file = some f) (hblank : f.content = .blank)
    (hof : ∀ q, s.holds q = true → hb.Of c q) (whole : Bool) :
    Inv c (s.close f.inode (Content.overwrite hb whole)) := by
  rw [State.close_of_eq hf]
  refine h.change ⟨Nat.le_succ _, fun heq => absurd heq (Nat.succ_ne_self _)⟩ rfl rfl (fun q hq => ?_) h.own
  obtain ⟨g, hg, howner, -⟩ := h.owned q hq
  obtain rfl := Option.mem_unique hf hg
  refine ⟨_, rfl, howner, .inr ⟨hb, ?_, hof q hq⟩⟩
  rw [hblank]
  rfl

theorem Inv.close_of_noHolder (h : Inv c s) (hno : s.NoHolder) (hf : s.file = some f)
    (change : Content → Content) : Inv c (s.close f.inode change) := by
  rw [State.close_of_eq hf]
  exact h.change ⟨Nat.le_succ _, fun heq => absurd heq (Nat.succ_ne_self _)⟩ rfl rfl
    (fun q hq => absurd hq (hno q)) h.own

theorem Inv.noHolder_of_file_none (h : Inv c s) (hf : s.file.isSome = false) : s.NoHolder := fun q hq => by
  obtain ⟨f, hfile, -⟩ := h.owned q hq
  rw [hfile] at hf
  cases hf

/-- A file that nobody is writing and that has no heartbeat is not a holder's. -/
theorem Inv.noHolder_of_read_none (h : Inv c s) (hread : s.readHeartbeat true = none)
    (hwriting : ∀ f ∈ s.file, f.writing = false) : s.NoHolder := fun q hq => by
  obtain ⟨f, hf, -, ⟨hopen, -⟩ | ⟨hb, hcontent, -⟩⟩ := h.owned q hq
  · rw [hwriting f hf] at hopen
    cases hopen
  · rw [State.readHeartbeat, if_pos rfl, hf] at hread
    simp [hcontent, Content.heartbeat?] at hread

theorem read_some {ok : Bool} (hread : s.readHeartbeat ok = some hb) :
    ∃ f, s.file = some f ∧ f.content = .heartbeat hb := by
  rw [State.readHeartbeat] at hread
  split at hread
  · obtain ⟨f, hf, hcontent⟩ := Option.bind_eq_some_iff.1 hread
    refine ⟨f, hf, ?_⟩
    cases hc : f.content with
    | blank | garbled => rw [hc] at hcontent; cases hcontent
    | heartbeat hb' => rw [hc] at hcontent; rw [Option.some.inj hcontent]
  · cases hread

theorem Inv.of_holder (h : Inv c s) (hf : s.file = some f) (hcontent : f.content = .heartbeat hb)
    {q : P} (hq : s.holds q = true) : f.owner = some q ∧ hb.Of c q := by
  obtain ⟨g, hg, howner, hcases⟩ := h.owned q hq
  obtain rfl := Option.mem_unique hf hg
  rcases hcases with ⟨-, hblank⟩ | ⟨hb', hcontent', hof⟩
  · rw [hblank] at hcontent; cases hcontent
  · rw [hcontent] at hcontent'
    obtain rfl := Content.heartbeat.inj hcontent'
    exact ⟨howner, hof⟩

theorem isActive_of_fresh {h : Heartbeat} {timeout : ℚ} {pid : ℤ} {t : ℚ} (hpid : h.pid = some pid)
    (ht : h.lastHeartbeat = some t) (halive : env.alive pid = true) (hage : env.now - t ≤ timeout) :
    h.isActive timeout env = some true := by
  simpa [Heartbeat.isActive, hpid, ht, halive] using hage

theorem Inv.noHolder_of_stale (h : Inv c s) (hf : s.file = some f)
    (hcontent : f.content = .heartbeat hb) (hfresh : s.FreshHolder c p env)
    (hstale : hb.isActive (c.timeout p) env = some false) : s.NoHolder := fun q hq => by
  obtain ⟨howner, hpid, hlast⟩ := h.of_holder hf hcontent hq
  obtain ⟨t, ht⟩ := Option.isSome_iff_exists.mp hlast
  obtain ⟨halive, hage⟩ := hfresh f hf q howner hq
  have hactive := isActive_of_fresh hpid ht halive (hage hb (by rw [hcontent]; rfl) t ht)
  rw [hstale] at hactive
  cases hactive

theorem Inv.gotoUpdate (h : Inv c s) (hpc : UpdateOk c s pc) : Inv c (s.gotoUpdate i p pc) := by
  have hm : Moves s (s.gotoUpdate i p pc) := ⟨le_rfl, fun _ => ⟨rfl, fun _ hq => hq⟩⟩
  refine ⟨h.owned, h.own, fun q => hm.pcOk (h.callers q) fun hq => hq, fun j u hu => ?_⟩
  rw [State.gotoUpdate, Dict.get?_set] at hu
  split at hu
  · cases hu
    exact hm.updateOk hpc
  · exact hm.updateOk (h.updates j u hu)

theorem Inv.endUpdate (h : Inv c s) : Inv c (s.endUpdate i) := by
  have hm : Moves s (s.endUpdate i) := ⟨le_rfl, fun _ => ⟨rfl, fun _ hq => hq⟩⟩
  exact ⟨h.owned, h.own, fun q => hm.pcOk (h.callers q) fun hq => hq,
    fun j u hu => hm.updateOk (h.updates j u (Dict.get?_erase_eq_some.1 hu).2)⟩

theorem Inv.advanceUpdate (h : Inv c s) (hpc : UpdateOk c s pc)
    (hcareful : s.CarefulUpdate env pc) : Inv c (s.advanceUpdate i p env pc) := by
  cases pc <;> rw [State.advanceUpdate]
  case look | readLook =>
    split
    · exact h.gotoUpdate trivial
    · exact h.endUpdate
  case read =>
    split
    · rename_i hb hread
      obtain ⟨f, hf, hcontent⟩ := read_some hread
      exact h.gotoUpdate ⟨le_rfl, fun _ q hq => ⟨(h.of_holder hf hcontent hq).2.1, rfl⟩⟩
    · exact h.endUpdate
  case create seen hb =>
    split
    · obtain ⟨f, hf, hinode, hblank, -, -⟩ := truncate_spec (s := s) none
      refine h.truncate_none.gotoUpdate ⟨(version_truncate _).ge, fun _ => ⟨fun q hq => ?_, f, hf, hinode, hblank⟩⟩
      rw [State.holds, locks_truncate] at hq
      exact hpc.2 hcareful q hq
    · exact h.endUpdate
  case write seen inode hb =>
    obtain ⟨hof, f, hf, rfl, hblank⟩ := hpc.2 hcareful.1
    rw [if_pos hcareful.2]
    exact (h.close_update hf hblank hof _).endUpdate

end Files

/-! ### Steps of a caller -/

section Callers

variable [DecidableEq P] {c : Config P} {s s' : State P} {p : P} {env : Env}

theorem locks_setLock_self (l : Lock) : (s.setLock p l).locks p = l := update_self _ _ _

variable {q : P} {l : Lock}

theorem locks_setLock_of_ne (hq : q ≠ p) (l : Lock) : (s.setLock p l).locks q = s.locks q :=
  update_of_ne hq _ _

theorem holds_of_holds_setLock (hl : l.lockAcquired = true → s.holds p = true)
    (hq : (s.setLock p l).holds q = true) : s.holds q = true := by
  by_cases hqp : q = p
  · subst hqp; rw [State.holds, locks_setLock_self] at hq; exact hl hq
  · rwa [State.holds, locks_setLock_of_ne hqp] at hq

theorem moves_setLock (hl : l.lockAcquired = true → s.holds p = true) : Moves s (s.setLock p l) :=
  ⟨le_rfl, fun _ => ⟨rfl, fun _ hq => holds_of_holds_setLock hl hq⟩⟩

theorem Inv.setLock (h : Inv c s) (hl : l.lockAcquired = true → s.holds p = true)
    (hpc : PcOk c (s.setLock p l) p l.pc) : Inv c (s.setLock p l) := by
  refine h.caller (moves_setLock hl) (fun q hq => h.owned q (holds_of_holds_setLock hl hq)) h.own
    (fun q hq => locks_setLock_of_ne hq l) ?_ rfl
  rw [locks_setLock_self]
  exact hpc

theorem Inv.goto (h : Inv c s) {pc : Pc} (hpc : PcOk c s p pc) : Inv c (s.goto p pc) := by
  have hm : Moves s (s.goto p pc) := moves_setLock fun hheld => hheld
  refine h.setLock (fun hheld => hheld) (hm.pcOk hpc fun hheld => ?_)
  rw [State.holds, State.goto, locks_setLock_self]
  exact hheld

theorem Inv.answer (h : Inv c s) (a : Answer) : Inv c (s.answer p a) := by
  have hgoto : Inv c (s.goto p .idle) := h.goto trivial
  exact hgoto.change ⟨le_rfl, fun _ => ⟨rfl, fun _ hq => hq⟩⟩ rfl rfl hgoto.owned hgoto.own

theorem Inv.released (h : Inv c s) : Inv c (s.released p) := h.setLock Bool.noConfusion trivial

theorem holds_of_holds_released (hq : (s.released p).holds q = true) : q ≠ p ∧ s.holds q = true := by
  refine ⟨?_, holds_of_holds_setLock Bool.noConfusion hq⟩
  rintro rfl
  rw [State.holds, State.released, locks_setLock_self] at hq
  cases hq

theorem Inv.unlink_released (h : Inv c s) (hheld : s.holds p = true) : Inv c ((s.unlink p).released p) := by
  obtain ⟨f, hf, howner, -⟩ := h.owned p hheld
  have hno : ((s.unlink p).released p).NoHolder := fun q hq => by
    obtain ⟨hne, hq⟩ := holds_of_holds_released hq
    rw [holds_unlink] at hq
    exact hne (h.laws.exclusive q p hq hheld)
  have hlost : s.lost p f = [(p, p)] := by rw [State.lost, howner]; exact if_pos hheld
  refine h.caller (p := p) ?_ (fun q hq => absurd hq (hno q)) (fun e he => ?_) (fun q hq => ?_) ?_ ?_
  · rw [State.unlink_of_some hf]
    exact ⟨Nat.le_succ _, fun heq => absurd heq (Nat.succ_ne_self _)⟩
  · rw [State.unlink_of_some hf, hlost] at he
    rcases List.mem_append.mp he with he | he
    · exact h.own e he
    · rw [List.mem_singleton.mp he]
  · rw [State.released, locks_setLock_of_ne hq, State.unlink_of_some hf]
  · rw [State.released, locks_setLock_self]; trivial
  · rw [State.unlink_of_some hf]; rfl

theorem locks_acquired_self : (s.acquired p).locks p = ⟨.idle, true, true⟩ := update_self _ _ _

theorem locks_acquired_of_ne (hq : q ≠ p) : (s.acquired p).locks q = s.locks q := update_of_ne hq _ _

theorem Inv.acquired (h : Inv c s) {f : File P} {hb : Heartbeat} (hno : s.NoHolder) (hf : s.file = some f)
    (howner : f.owner = some p) (hblank : f.content = .blank) (hof : hb.Of c p) (whole : Bool) :
    Inv c ((s.close f.inode (Content.overwrite hb whole)).acquired p) := by
  rw [State.close_of_eq hf]
  refine h.caller (p := p) ⟨Nat.le_succ _, fun heq => absurd heq (Nat.succ_ne_self _)⟩ (fun q hq => ?_) h.own
    (fun q hq => locks_acquired_of_ne hq) ?_ rfl
  · by_cases hqp : q = p
    · subst hqp
      refine ⟨_, rfl, howner, .inr ⟨hb, ?_, hof⟩⟩
      rw [hblank]
      rfl
    · rw [State.holds, locks_acquired_of_ne hqp] at hq
      exact absurd hq (hno q)
  · rw [locks_acquired_self]
    trivial

theorem Inv.advance (h : Inv c s) {pc : Pc} (hpc : PcOk c s p pc) (hcareful : s.Careful c p env pc)
    (hs : s.advance c p env pc = some s') : Inv c s' := by
  cases pc with
  | idle => cases hs
  | look | readLook =>
    cases hs
    cases hf : s.file.isSome with
    | true => exact h.goto trivial
    | false => exact h.goto ⟨le_rfl, fun _ => h.noHolder_of_file_none hf⟩
  | read =>
    obtain ⟨hok, hwriting⟩ := hcareful
    rw [State.advance, hok] at hs
    cases hread : s.readHeartbeat true with
    | none =>
      rw [hread] at hs
      cases hs
      exact h.goto ⟨le_rfl, fun _ => h.noHolder_of_read_none hread hwriting⟩
    | some hb =>
      rw [hread] at hs
      cases hs
      exact h.goto ⟨le_rfl, fun _ => read_some hread⟩
  | judge seen hb =>
    rw [State.advance] at hs
    split at hs
    · cases hs; exact h.answer _
    · cases hs; exact h.answer _
    · rename_i hstale
      cases hs
      refine h.goto ⟨hpc.1, fun heq => ?_⟩
      obtain ⟨f, hf, hcontent⟩ := hpc.2 heq
      exact h.noHolder_of_stale hf hcontent hcareful hstale
  | cleanLook seen =>
    cases hs
    cases hf : s.file.isSome with
    | true => exact h.goto hpc
    | false => exact h.goto ⟨le_rfl, fun _ => h.noHolder_of_file_none hf⟩
  | cleanUnlink seen =>
    have hno : s.NoHolder := hpc.2 hcareful
    rw [State.advance] at hs
    split at hs
    · cases hs
      refine (h.unlink_of_noHolder hno).goto ⟨le_rfl, fun _ q hq => ?_⟩
      rw [holds_unlink] at hq
      exact hno q hq
    · cases hs; exact h.goto hpc
  | create seen =>
    have hno : s.NoHolder := hpc.2 hcareful
    rw [State.advance] at hs
    split at hs
    · cases hs
      have hno' : (s.truncate (some p)).NoHolder := fun q hq => hno q (by rwa [State.holds, locks_truncate] at hq)
      have htrunc : Inv c (s.truncate (some p)) := h.truncate fun q hq => absurd hq (hno' q)
      obtain ⟨f, hf, hinode, hblank, -, howner⟩ := truncate_spec (s := s) (some p)
      exact htrunc.goto ⟨⟨(version_truncate _).ge, fun _ => ⟨hno', f, hf, hinode, howner, hblank⟩⟩, rfl, rfl⟩
    · cases hs; exact h.answer _
  | write seen inode hb =>
    obtain ⟨hno, f, hf, rfl, howner, hblank⟩ := hpc.1.2 hcareful
    rw [State.advance] at hs
    split at hs <;> cases hs
    · exact h.acquired hno hf howner hblank hpc.2 _
    · exact (h.close_of_noHolder hno hf id).answer _
  | releaseLook =>
    cases hs
    split
    · exact h.goto hpc
    · exact h.released
  | releaseUnlink =>
    cases hs
    split
    · exact h.unlink_released hpc
    · exact h.released

theorem Inv.step (h : Inv c s) {a : Act P} (hcareful : Undisturbed c s a) (hs : s.step c a = some s') : Inv c s' := by
  cases a <;> rw [State.step] at hs
  case acquire p =>
    split at hs
    · cases hs; exact h.goto trivial
    · cases hs
  case release p =>
    split at hs
    · split at hs
      · rename_i hheld
        cases hs
        refine h.setLock (fun _ => hheld) ?_
        show ((s.setLock p _).locks p).lockAcquired = true
        rw [locks_setLock_self]
        exact hheld
      · cases hs; exact h
    · cases hs
  case update i p =>
    split at hs
    · cases hs; exact h.gotoUpdate trivial
    · cases hs
  case step p env => exact h.advance (h.callers p) hcareful hs
  case stepUpdate i env =>
    obtain ⟨u, hu, rfl⟩ := Option.map_eq_some_iff.1 hs
    exact h.advanceUpdate (h.updates i u hu) (hcareful u hu)

/-- If the file is changed only as it was read, a half-written file is not read and the heartbeats of the holders are
fresh, at most one holds the lock and nobody removes the lock of another. -/
theorem exclusive_of_undisturbed (h : (system c).Reachable (Undisturbed c) s) : s.Laws := by
  have hinv : Inv c s := by
    refine h.invariant ?_ fun s₁ a s₂ hinv hcareful hs => hinv.step hcareful hs
    rintro _ ⟨left, rfl⟩
    refine ⟨fun q hq => ?_, fun e he => ?_, fun q => trivial, fun i u hu => ?_⟩
    · cases hq
    · cases he
    · cases hu
  exact hinv.laws

end Callers

/-! ### Runs -/

def perProcess : Config ℕ := ⟨fun p => p + 1, fun _ => 300⟩

def Env.good (now : ℚ) : Env := ⟨true, fun _ => true, now, true⟩

def go (p : ℕ) (now : ℚ) (n : ℕ) : List (Act ℕ) := List.replicate n (.step p (.good now))

def beat (i : ℕ) (now : ℚ) (n : ℕ) : List (Act ℕ) := List.replicate n (.stepUpdate i (.good now))

/-- One process acquires the lock, its heartbeat goes on, a second process is turned away, and gets the lock after the
release. -/
def turnsRun : List (Act ℕ) :=
  .acquire 0 :: go 0 0 3 ++ .update 0 0 :: beat 0 100 5 ++ .acquire 1 :: go 1 350 4 ++ .release 0 :: go 0 360 2 ++
    .acquire 1 :: go 1 400 3

/-- Two processes look before either creates the file; the first one to release removes the file of the other. -/
def bothLookRun : List (Act ℕ) :=
  [.acquire 0, .acquire 1] ++ go 0 0 1 ++ go 1 0 1 ++ go 0 0 2 ++ go 1 0 2

/-- A process reads the file that the heartbeat thread of the holder has truncated. -/
def halfWrittenRun : List (Act ℕ) :=
  .acquire 0 :: go 0 0 3 ++ .update 0 0 :: beat 0 30 4 ++ .acquire 1 :: go 1 30 7

theorem exclusive_of_undisturbed_turns : ∃ s, (system perProcess).Reachable (Undisturbed perProcess) s ∧
    s.answers = [(0, .acquired), (1, .inProgress (some 1)), (1, .acquired)] ∧ s.holds 1 = true ∧ s.Laws := by
  exact exists_of_run_and_and (.fresh none) turnsRun ⟨none, rfl⟩ (by decide +kernel) fun s hs _ _ =>
    exclusive_of_undisturbed hs

/-- Both processes hold the lock, and a release or a clean-up removes the lock of the other. -/
theorem held_twice :
    (∃ s, (system perProcess).Reachable (Timely perProcess) s ∧ s.holds 0 = true ∧ s.holds 1 = true) ∧
    (∃ s, (system perProcess).Reachable (Timely perProcess) s ∧ s.holds 1 = true ∧ s.unlinked = [(0, 1)]) ∧
    ∃ s, (system perProcess).Reachable (Timely perProcess) s ∧ s.holds 0 = true ∧ s.holds 1 = true ∧
      s.unlinked = [(1, 0)] := by
  refine ⟨?_, ?_, ?_⟩
  · exact exists_of_run_mem (.fresh none) bothLookRun ⟨none, rfl⟩ (by decide +kernel)
  · exact exists_of_run_mem (.fresh none) (bothLookRun ++ .release 0 :: go 0 1 2) ⟨none, rfl⟩ (by decide +kernel)
  · exact exists_of_run_mem (.fresh none) halfWrittenRun ⟨none, rfl⟩ (by decide +kernel)

end CodeIndexer.IndexingLock
