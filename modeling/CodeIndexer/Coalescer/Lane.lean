import CodeIndexer.Lib.Dict
import CodeIndexer.Lib.PyText
import CodeIndexer.Lib.Transition

/-!
# A lane of the embedding coalescer

`_enqueue` puts an entry into the open batch or opens a new one, whose submitter becomes its
dispatcher. The dispatcher calls the provider through the governor and `execute_with_backoff`; the
first attempt that gets a slot takes the membership snapshot, under the lane's lock, and later attempts
reuse it. Every entry has a future, completed by the fan-out of its batch. A step is one critical
section of the lock, one answer of the governor or the provider, or one completion of a future. An
`_enqueue` whose ceiling raises changes nothing and is no step.

The metadata delivered with a vector, the latency, the audit draws and the cache writes after the
fan-out decide nothing here; what may raise among them is a step `prepareRaises`, and the rest is
caught where it is called.
-/

namespace CodeIndexer.Coalescer

open PyText Function

/-! ### Dedup keys -/

def normalizedQueryCap : ℕ := 256

def normalised (anchorTokens : ℤ) (text : Str) : Str :=
  let n := anchorTokens.toNat
  let tokens := split text
  if tokens.length ≤ n then [' '].intercalate tokens
  else [' '].intercalate (tokens.take n ++ (tokens.drop n).mergeSort fun a b => a ≤ b)

def buildKey (text : Str) (anchorTokens : ℤ) (configDigest : Str) : Option Str :=
  if normalizedQueryCap < (normalised anchorTokens text).length then none
  else some ("s:" ++ configDigest ++ ":" ++ normalised anchorTokens text)

def noneKeyPrefix : Str := Char.ofNat 0 :: "text:"

variable (configDigest : Str)

def dedupKey (anchorTokens : ℤ) (text : Str) : Str :=
  match buildKey text anchorTokens configDigest with
  | some k => k
  | none => noneKeyPrefix ++ text

/-! ### Batches -/

structure Entry where
  text : Str
  embeddingPurpose : Str

/-- What a batch fails with; `raised` is what the governor, the provider or a configured callable
raised. -/
inductive Failure (E : Type)
  | raised (e : E)
  | rateLimited (attempts : ℕ)
  | vectorCount (got expected : ℕ)
  | snapshotMissing
  | lookupError
  | invalidState
deriving DecidableEq

inductive Outcome (V E : Type)
  | result (vec : V)
  | exception (ex : Failure E)
deriving DecidableEq

structure Snapshot where
  anchor : ℤ
  purpose : Str
  uniqueTexts : List Str
  keyToFirstIdx : Dict Str ℕ
  entryKeys : List Str

def Snapshot.add (snap : Snapshot) (text : Str) : Snapshot :=
  let k := dedupKey configDigest snap.anchor text
  match snap.keyToFirstIdx.get? k with
  | some _ => { snap with entryKeys := snap.entryKeys ++ [k] }
  | none => { snap with
      entryKeys := snap.entryKeys ++ [k]
      keyToFirstIdx := snap.keyToFirstIdx.set k snap.uniqueTexts.length
      uniqueTexts := snap.uniqueTexts ++ [text] }

def Snapshot.build (anchor : ℤ) (batch : List Entry) : Snapshot :=
  (batch.map Entry.text).foldl (Snapshot.add configDigest)
    ⟨anchor, match batch with | e :: _ => e.embeddingPurpose | [] => "query", [], .empty, []⟩

structure Answer (V : Type) where
  texts : List Str
  purpose : Str
  vectors : List V

/-- Where `_dispatch` stands. `left` are the entries the fan-out has not reached. -/
inductive Dispatch (V E : Type)
  | attempting (attempt : ℕ)
  | calling (attempt : ℕ)
  | returned (answer : Answer V)
  | delivering (answer : Answer V) (left : List (ℕ × Str))
  | failing (ex : Failure E)
  | spreading (ex : Failure E) (left : List ℕ)
  | finished

structure Batch (V E : Type) where
  members : List ℕ
  sealed : Bool
  snapshot : Option Snapshot
  answers : List (Answer V)
  dispatch : Dispatch V E

/-- The lane. Entries and batches are numbered as they come; `home` and `leads` are what `_enqueue`
returned for an entry: its batch and whether its submitter dispatches it. -/
structure Lane (V E : Type) where
  numEntries : ℕ
  entry : ℕ → Entry
  home : ℕ → ℕ
  leads : ℕ → Bool
  future : ℕ → Option (Outcome V E)
  numBatches : ℕ
  batch : ℕ → Batch V E
  openBatch : Option ℕ
  openTokens : ℤ

structure Config where
  tokenLimit : ℤ
  configDigest : Str

def totalAttempts : ℕ := 3

/-! ### Accretion -/

variable {V E : Type}

namespace Lane

def init : Lane V E where
  numEntries := 0
  entry _ := ⟨[], []⟩
  home _ := 0
  leads _ := false
  future _ := none
  numBatches := 0
  batch _ := ⟨[], true, none, [], .finished⟩
  openBatch := none
  openTokens := 0

def sealIfFull (cfg : Config) (cap : ℤ) (L : Lane V E) : Lane V E :=
  match L.openBatch with
  | none => L
  | some b =>
    if cap ≤ (L.batch b).members.length ∨ cfg.tokenLimit ≤ L.openTokens then
      { L with openBatch := none, openTokens := 0 }
    else L

variable (L : Lane V E) (b : ℕ)

def openWith (e : Entry) (n : ℤ) : Lane V E :=
  { L with
    numEntries := L.numEntries + 1
    entry := update L.entry L.numEntries e
    home := update L.home L.numEntries L.numBatches
    leads := update L.leads L.numEntries true
    numBatches := L.numBatches + 1
    batch := update L.batch L.numBatches ⟨[L.numEntries], false, none, [], .attempting 0⟩
    openBatch := some L.numBatches
    openTokens := n }

def joinOpen (e : Entry) (n : ℤ) : Lane V E :=
  { L with
    numEntries := L.numEntries + 1
    entry := update L.entry L.numEntries e
    home := update L.home L.numEntries b
    leads := update L.leads L.numEntries false
    batch := update L.batch b
      { L.batch b with members := (L.batch b).members ++ [L.numEntries] }
    openTokens := L.openTokens + n }

def enqueue (cfg : Config) (L : Lane V E) (e : Entry) (n cap : ℤ) : Lane V E :=
  match L.openBatch with
  | none => (L.openWith e n).sealIfFull cfg cap
  | some b =>
    if (L.batch b).members.length < cap ∧ L.openTokens + n ≤ cfg.tokenLimit then
      (L.joinOpen b e n).sealIfFull cfg cap
    else (L.openWith e n).sealIfFull cfg cap

/-! ### Dispatch -/

def setBatch (B : Batch V E) : Lane V E := { L with batch := update L.batch b B }

def goto (d : Dispatch V E) : Lane V E := L.setBatch b { L.batch b with dispatch := d }

def sealBatch : Lane V E :=
  { L.setBatch b { L.batch b with sealed := true } with
    openBatch := if L.openBatch = some b then none else L.openBatch
    openTokens := if L.openBatch = some b then 0 else L.openTokens }

def complete (e : ℕ) (o : Outcome V E) : Lane V E :=
  { L with future := update L.future e (some o) }

end Lane

/-- An exception out of an attempt: whether `is_rate_limited` holds of it, and whether the sleep before
another attempt is within the cumulative budget. -/
structure Raise (E : Type) where
  ex : E
  rateLimited : Bool
  budgetLeft : Bool

/-- What `execute_with_backoff` does with an exception out of the attempt `attempt`. -/
def afterRaise (attempt : ℕ) (r : Raise E) : Dispatch V E :=
  if !r.rateLimited then .failing (.raised r.ex)
  else if totalAttempts ≤ attempt + 1 then .failing (.rateLimited totalAttempts)
  else if !r.budgetLeft then .failing (.rateLimited (attempt + 1))
  else .attempting (attempt + 1)

/-- `b` is the batch whose dispatcher moves. `noSlot`: the governor raises without calling `do_call`;
`snapshot`: it grants a slot, and the live anchor depth is `anchor`; `prepareRaises`: the provider's
name is asked for and raises. -/
inductive Act (V E : Type)
  | enqueue (e : Entry) (n cap : ℤ)
  | noSlot (b : ℕ) (r : Raise E)
  | snapshot (b : ℕ) (anchor : ℤ)
  | snapshotRaises (b : ℕ) (r : Raise E)
  | providerReturns (b : ℕ) (vectors : List V)
  | providerRaises (b : ℕ) (r : Raise E)
  | prepare (b : ℕ)
  | prepareRaises (b : ℕ) (ex : E)
  | deliver (b : ℕ)
  | sealFailed (b : ℕ)
  | spread (b : ℕ)

namespace Lane

def takeSnapshot (cfg : Config) (L : Lane V E) (b attempt : ℕ) (anchor : ℤ) : Lane V E :=
  if (L.batch b).sealed then
    match (L.batch b).snapshot with
    | some _ => L.goto b (.calling attempt)
    | none => L.goto b (.failing .snapshotMissing)
  else
    let S := Snapshot.build cfg.configDigest anchor ((L.batch b).members.map L.entry)
    let L := L.sealBatch b
    L.setBatch b { L.batch b with snapshot := some S, dispatch := .calling attempt }

variable (L : Lane V E) (b : ℕ)

def prepare (ans : Answer V) : Lane V E :=
  match (L.batch b).snapshot with
  | none => L.goto b (.failing .snapshotMissing)
  | some S =>
    if ans.vectors.length ≠ S.uniqueTexts.length then
      L.goto b (.failing (.vectorCount ans.vectors.length S.uniqueTexts.length))
    else L.goto b (.delivering ans ((L.batch b).members.zip S.entryKeys))

def deliverTo (ans : Answer V) (e : ℕ) (k : Str) (left : List (ℕ × Str)) : Lane V E :=
  match (L.batch b).snapshot.bind fun S => (S.keyToFirstIdx.get? k).bind fun i => ans.vectors[i]? with
  | none => L.goto b (.failing .lookupError)
  | some vec =>
    match L.future e with
    | some _ => L.goto b (.failing .invalidState)
    | none => (L.complete e (.result vec)).goto b (.delivering ans left)

def spreadTo (ex : Failure E) (e : ℕ) (left : List ℕ) : Lane V E :=
  match L.future e with
  | some _ => L.goto b (.spreading ex left)
  | none => (L.complete e (.exception ex)).goto b (.spreading ex left)

def step (cfg : Config) (L : Lane V E) : Act V E → Option (Lane V E)
  | .enqueue e n cap => some (L.enqueue cfg e n cap)
  | .noSlot b r =>
    match (L.batch b).dispatch with
    | .attempting k => some (L.goto b (afterRaise k r))
    | _ => none
  | .snapshot b anchor =>
    match (L.batch b).dispatch with
    | .attempting k => some (L.takeSnapshot cfg b k anchor)
    | _ => none
  | .snapshotRaises b r =>
    match (L.batch b).dispatch with
    | .attempting k => if (L.batch b).sealed then none else some ((L.sealBatch b).goto b (afterRaise k r))
    | _ => none
  | .providerReturns b vectors =>
    match (L.batch b).dispatch, (L.batch b).snapshot with
    | .calling _, some S =>
      let ans : Answer V := ⟨S.uniqueTexts, S.purpose, vectors⟩
      some (L.setBatch b { L.batch b with
        answers := (L.batch b).answers ++ [ans], dispatch := .returned ans })
    | _, _ => none
  | .providerRaises b r =>
    match (L.batch b).dispatch with
    | .calling k => some (L.goto b (afterRaise k r))
    | _ => none
  | .prepare b =>
    match (L.batch b).dispatch with
    | .returned ans => some (L.prepare b ans)
    | _ => none
  | .prepareRaises b ex =>
    match (L.batch b).dispatch with
    | .returned ans =>
      if (L.batch b).snapshot.any fun S => ans.vectors.length = S.uniqueTexts.length then
        some (L.goto b (.failing (.raised ex)))
      else none
    | _ => none
  | .deliver b =>
    match (L.batch b).dispatch with
    | .delivering ans ((e, k) :: left) => some (L.deliverTo b ans e k left)
    | .delivering _ [] => some (L.goto b .finished)
    | _ => none
  | .sealFailed b =>
    match (L.batch b).dispatch with
    | .failing ex => some ((L.sealBatch b).goto b (.spreading ex (L.batch b).members))
    | _ => none
  | .spread b =>
    match (L.batch b).dispatch with
    | .spreading ex (e :: left) => some (L.spreadTo b ex e left)
    | .spreading _ [] => some (L.goto b .finished)
    | _ => none

end Lane

def lane (V E : Type) (cfg : Config) : TransitionSystem (Lane V E) (Act V E) where
  init L := L = Lane.init
  step := Lane.step cfg

end CodeIndexer.Coalescer
