import CodeIndexer.Lib.PyText
import CodeIndexer.Lib.Transition

/-!
# File-based write locks

The calls of `WriteLockManager` on one alias as parties that take one file-system step at a time:
`exists`, `read_text`, `unlink`, the `O_CREAT | O_EXCL` open and the write of the metadata are separate
steps, and so is the evaluation of `_is_stale` on what was read. A lock file has an incarnation number,
new at each creation, so that a call's view of the file can be compared with the file that is there.
`writer` is the party whose `acquire` has created the file and not yet written to it, and `holders`
are the `acquire` calls that returned `True` and were not released since; the code sees neither.
-/

namespace CodeIndexer.WriteLock

open PyText Function

/-! ### Lock metadata -/

inductive Field (α : Type)
  | missing
  | value (a : α)
  | malformed
deriving DecidableEq

/-- The metadata as `_is_stale` and `release` read it. `acquiredAt` is the instant `fromisoformat` gives
(the empty string counts as missing) and `ttlSeconds` what `int` gives. -/
structure Metadata where
  owner : Field Str
  pid : Field ℤ
  hostname : Field Str
  acquiredAt : Field ℚ
  ttlSeconds : Field ℤ
deriving DecidableEq

/-- `unparsable` is what `json.loads` rejects, the empty file among it. `nonObject` is any other JSON
value, on which `content.get` raises; a file that is not UTF-8 makes the call raise as well. -/
inductive Content
  | unparsable
  | nonObject
  | metadata (m : Metadata)
deriving DecidableEq

def defaultLockTtlSeconds : ℤ := 3600

inductive KillResult
  | success
  | noSuchProcess
  | otherError
deriving DecidableEq

structure Env where
  kill : ℤ → KillResult
  now : ℚ

namespace Metadata

variable (m : Metadata)

def isLocal (localHostname : Str) : Bool :=
  m.hostname = .missing ∨ m.hostname = .value localHostname

def pidDead (env : Env) : Bool :=
  match m.pid with
  | .value pid => env.kill pid = .noSuchProcess
  | _ => false

def ttl : ℤ :=
  match m.ttlSeconds with
  | .value n => n
  | _ => defaultLockTtlSeconds

def expired (env : Env) : Bool :=
  match m.acquiredAt with
  | .value t => (m.ttl : ℚ) < env.now - t
  | _ => false

def isStale (localHostname : Str) (env : Env) : Bool :=
  if m.isLocal localHostname && m.pidDead env then true
  else if m.expired env then true
  else m.pid = .missing ∧ m.acquiredAt = .missing

def ownedBy (ownerName : Str) : Bool :=
  match m.owner with
  | .missing => ownerName = []
  | .value owner => owner = ownerName
  | .malformed => false

end Metadata

/-! ### State -/

structure Parties (T M : Type) where
  manager : T → M
  pid : T → ℤ
  hostname : T → Str

structure LockFile (T : Type) where
  inc : ℕ
  content : Content
  writer : Option T
deriving DecidableEq

inductive Caller
  | acquire (ownerName : Str) (ttlSeconds : ℤ)
  | isLocked
  | getLockInfo
deriving DecidableEq

inductive Pc (T : Type)
  | idle
  | checking (c : Caller)
  | reading (c : Caller)
  | judging (c : Caller) (seen : LockFile T)
  | unlinking (c : Caller) (inc : ℕ)
  | creating (ownerName : Str) (ttlSeconds : ℤ)
  | writing (ownerName : Str) (ttlSeconds : ℤ) (inc : ℕ)
  | releaseChecking (ownerName : Str)
  | releaseReading (ownerName : Str)
  | releaseComparing (ownerName : Str) (seen : LockFile T)
  | releaseUnlinking (inc : ℕ)
deriving DecidableEq

structure Holder (T : Type) where
  party : T
  inc : ℕ
  ownerName : Str
  acquiredAt : ℚ
  ttlSeconds : ℤ

structure State (T M : Type) where
  file : Option (LockFile T)
  nextInc : ℕ
  guard : M → Bool
  pc : T → Pc T
  holders : List (Holder T)

/-- A label names the party and the answer of the system: an `OSError` other than `FileNotFoundError`
or `FileExistsError`, what a staleness check sees, the clock at the write. -/
inductive Act (T : Type)
  | acquire (t : T) (ownerName : Str) (ttlSeconds : ℤ)
  | isLocked (t : T)
  | getLockInfo (t : T)
  | release (t : T) (ownerName : Str)
  | exists (t : T)
  | read (t : T) (osError : Bool)
  | judge (t : T) (env : Env)
  | compare (t : T)
  | unlink (t : T) (osError : Bool)
  | create (t : T) (osError : Bool)
  | write (t : T) (now : ℚ) (osError : Bool)

/-! ### Steps -/

variable {T M : Type} [DecidableEq T] [DecidableEq M] (Q : Parties T M)

namespace State

variable (s : State T M) (t : T)

def goto (pc : Pc T) : State T M := { s with pc := update s.pc t pc }

def endAcquire : State T M :=
  { s with guard := update s.guard (Q.manager t) false }.goto t .idle

/-- Nothing (any more) stands in the way: `acquire` goes on to create the file, the others return. -/
def afterEviction : Caller → State T M
  | .acquire ownerName ttlSeconds => s.goto t (.creating ownerName ttlSeconds)
  | .isLocked | .getLockInfo => s.goto t .idle

def endCall : Caller → State T M
  | .acquire _ _ => s.endAcquire Q t
  | .isLocked | .getLockInfo => s.goto t .idle

def released : State T M :=
  { s with holders := s.holders.filter fun h => h.party ≠ t }.goto t .idle

end State

def Parties.metadata (h : Holder T) : Metadata where
  owner := .value h.ownerName
  pid := .value (Q.pid h.party)
  hostname := .value (Q.hostname h.party)
  acquiredAt := .value h.acquiredAt
  ttlSeconds := .value h.ttlSeconds

variable (s : State T M)

/-- What `_evict_if_stale`, and `get_lock_info` in its place, do with the text they read. -/
def judge (t : T) (env : Env) (c : Caller) (seen : LockFile T) : State T M :=
  match seen.content, c with
  | .unparsable, .getLockInfo => s.goto t .idle
  | .unparsable, _ => s.goto t (.unlinking c seen.inc)
  | .nonObject, _ => s.endCall Q t c
  | .metadata m, _ =>
    if m.isStale (Q.hostname t) env then s.goto t (.unlinking c seen.inc) else s.endCall Q t c

/-- The metadata goes to the file that was opened, which may have been unlinked since. -/
def writeMetadata (h : Holder T) : State T M :=
  { s with
    file := s.file.map fun f =>
      if f.inc = h.inc then { f with content := .metadata (Q.metadata h), writer := none } else f
    holders := h :: s.holders }

def abandonWrite (inc : ℕ) : State T M :=
  { s with file := s.file.map fun f => if f.inc = inc then { f with writer := none } else f }

def step : Act T → Option (State T M)
  | .acquire t ownerName ttlSeconds =>
    match s.pc t with
    | .idle =>
      if s.guard (Q.manager t) then some s
      else some ({ s with guard := update s.guard (Q.manager t) true }.goto t
        (.checking (.acquire ownerName ttlSeconds)))
    | _ => none
  | .isLocked t =>
    match s.pc t with
    | .idle => some (s.goto t (.checking .isLocked))
    | _ => none
  | .getLockInfo t =>
    match s.pc t with
    | .idle => some (s.goto t (.checking .getLockInfo))
    | _ => none
  | .release t ownerName =>
    match s.pc t with
    | .idle => some (s.goto t (.releaseChecking ownerName))
    | _ => none
  | .exists t =>
    match s.pc t, s.file with
    | .checking c, some _ => some (s.goto t (.reading c))
    | .checking c, none => some (s.afterEviction t c)
    | .releaseChecking ownerName, some _ => some (s.goto t (.releaseReading ownerName))
    | .releaseChecking _, none => some (s.released t)
    | _, _ => none
  | .read t osError =>
    match s.pc t, s.file with
    | .reading c, none => some (s.afterEviction t c)
    | .reading c, some f =>
      if osError then some (match c with
        | .getLockInfo => s.goto t .idle
        | _ => s.goto t (.unlinking c f.inc))
      else some (s.goto t (.judging c f))
    | .releaseReading _, none => some (s.released t)
    | .releaseReading ownerName, some f =>
      if osError then some (s.released t) else some (s.goto t (.releaseComparing ownerName f))
    | _, _ => none
  | .judge t env =>
    match s.pc t with
    | .judging c seen => some (judge Q s t env c seen)
    | _ => none
  | .compare t =>
    match s.pc t with
    | .releaseComparing ownerName seen =>
      match seen.content with
      | .unparsable => some (s.released t)
      | .nonObject => some (s.goto t .idle)
      | .metadata m =>
        if m.ownedBy ownerName then some (s.goto t (.releaseUnlinking seen.inc)) else some (s.goto t .idle)
    | _ => none
  | .unlink t osError =>
    match s.pc t with
    | .unlinking c _ => some ((if osError then s else { s with file := none }).afterEviction t c)
    | .releaseUnlinking _ =>
      if osError then some (s.goto t .idle) else some ({ s with file := none }.released t)
    | _ => none
  | .create t osError =>
    match s.pc t with
    | .creating ownerName ttlSeconds =>
      if osError || s.file.isSome then some (s.endAcquire Q t)
      else some ({ s with
        file := some ⟨s.nextInc, .unparsable, some t⟩
        nextInc := s.nextInc + 1 }.goto t (.writing ownerName ttlSeconds s.nextInc))
    | _ => none
  | .write t now osError =>
    match s.pc t with
    | .writing ownerName ttlSeconds inc =>
      if osError then some ((abandonWrite s inc).endAcquire Q t)
      else some ((writeMetadata Q s ⟨t, inc, ownerName, now, ttlSeconds⟩).endAcquire Q t)
    | _ => none

/-- At the start nobody holds the lock; a file may be left over from an earlier run. -/
structure IsInit (s : State T M) : Prop where
  leftover : ∀ f ∈ s.file, f.inc < s.nextInc ∧ f.writer = none
  idle : ∀ t, s.pc t = .idle
  unguarded : ∀ m, s.guard m = false
  unheld : s.holders = []

def locking : TransitionSystem (State T M) (Act T) where
  init := IsInit
  step := step Q

end CodeIndexer.WriteLock
