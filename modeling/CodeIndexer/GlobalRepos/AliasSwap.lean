import CodeIndexer.Lib.Dict
import CodeIndexer.Lib.History
import CodeIndexer.Lib.PyText
import CodeIndexer.Lib.Transition

/-!
# Swapping an alias (`AliasManager.swap_alias`, `update_refresh_timestamp`)

The alias is a JSON file. A call looks whether the file is there, reads it, writes what it has made of it to a
temporary file of its own and moves that over the alias; nothing keeps another call from doing the same in between.
`version` and `swaps` are ghosts: how often the file was replaced, and the swaps that succeeded with the target
that each of them replaced.
-/

namespace CodeIndexer.GlobalRepos.AliasSwap

open PyText TransitionSystem

inductive Op
  | swapAlias (newTarget oldTarget : Str)
  | updateRefreshTimestamp
deriving DecidableEq

/-- What a file operation raises: a `ValueError`, as text that cannot be decoded as JSON does, or something else. -/
inductive Raised
  | valueError
  | other
deriving DecidableEq

inductive Answer
  | done
  | notFound
  | mismatch (currentTarget : Option Str) (oldTarget : Str)
  | valueError
  | failed (op : Op)
deriving DecidableEq

/-- `swap_alias` raises a `ValueError` again as it is. -/
def Op.failure : Op → Raised → Answer
  | .swapAlias _ _, .valueError => .valueError
  | op, _ => .failed op

def Answer.message (aliasName error : Str) : Answer → Option Str
  | .done => none
  | .notFound => some ("Alias " ++ aliasName ++ " does not exist")
  | .mismatch current old =>
    some ("Current target '" ++ current.getD "None" ++ "' does not match expected old target '" ++ old ++
      "'")
  | .valueError => some error
  | .failed (.swapAlias _ _) => some ("Failed to swap alias " ++ aliasName ++ ": " ++ error)
  | .failed .updateRefreshTimestamp => some ("Failed to update alias " ++ aliasName ++ ": " ++ error)

def targetPath : Str := "target_path"
def previousPath : Str := "previous_path"
def swappedAt : Str := "swapped_at"
def lastRefresh : Str := "last_refresh"

abbrev AliasData := Dict Str Str

/-- The clock is read twice. -/
def Op.apply (now later : Str) (data : AliasData) : Op → Except Answer AliasData
  | .swapAlias newTarget oldTarget =>
    if data.get? targetPath = some oldTarget then
      .ok ((((data.set targetPath newTarget).set previousPath oldTarget).set swappedAt now).set lastRefresh later)
    else .error (.mismatch (data.get? targetPath) oldTarget)
  | .updateRefreshTimestamp => .ok (data.set lastRefresh now)

/-- What a call does next. `version` is the ghost at its read. -/
inductive Pc
  | look
  | read
  | write (version : ℕ) (data : AliasData)
  | replace (version : ℕ) (data : AliasData)
deriving DecidableEq

structure Swapped where
  newTarget : Str
  oldTarget : Str
  found : Option Str
deriving DecidableEq

structure State where
  file : Option AliasData
  version : ℕ
  calls : Dict ℕ (Op × Pc)
  answers : List (ℕ × Answer)
  swaps : List Swapped

namespace State

variable (s : State)

def target : Option Str := s.file.bind fun data => data.get? targetPath

def finish (i : ℕ) (answer : Answer) : State :=
  { s with calls := s.calls.erase i, answers := s.answers ++ [(i, answer)] }

def goto (i : ℕ) (op : Op) (pc : Pc) : State := { s with calls := s.calls.set i (op, pc) }

def logged : Op → List Swapped
  | .swapAlias newTarget oldTarget => s.swaps ++ [⟨newTarget, oldTarget, s.target⟩]
  | .updateRefreshTimestamp => s.swaps

def replace (op : Op) (data : AliasData) : State :=
  { s with file := some data, version := s.version + 1, swaps := s.logged op }

/-- One file operation of a call and what it raises. -/
def fileOp (i : ℕ) (op : Op) (raised : Option Raised) (now later : Str) : Pc → State
  | .look => if s.file.isSome then s.goto i op .read else s.finish i .notFound
  | .read =>
    match s.file with
    | none => s.finish i (.failed op)
    | some data =>
      match raised with
      | some raised => s.finish i (op.failure raised)
      | none =>
        match op.apply now later data with
        | .ok data => s.goto i op (.write s.version data)
        | .error answer => s.finish i answer
  | .write version data => raised.elim (s.goto i op (.replace version data)) fun raised =>
      s.finish i (op.failure raised)
  | .replace _ data => raised.elim ((s.replace op data).finish i .done) fun raised => s.finish i (op.failure raised)

end State

inductive Act
  | call (i : ℕ) (op : Op)
  | fileOp (i : ℕ) (raised : Option Raised) (now later : Str)

variable (s : State)

def State.step : Act → Option State
  | .call i op => if (s.calls.get? i).isNone then some (s.goto i op .look) else none
  | .fileOp i raised now later => (s.calls.get? i).map fun c => s.fileOp i c.1 raised now later c.2

def State.fresh (file : Option AliasData) : State := ⟨file, 0, Dict.empty, [], []⟩

def system : TransitionSystem State Act where
  init s := ∃ file, s = .fresh file
  step := State.step

/-- After an earlier swap from the same target somebody swapped back to it. -/
def SwappedBack (before : List Swapped) (e : Swapped) : Prop :=
  ∀ earlier first between, before = earlier ++ first :: between → first.oldTarget = e.oldTarget →
    ∃ back ∈ first :: between, back.newTarget = e.oldTarget

/-- Every swap that succeeded replaced its expected target, between two swaps from one target somebody swapped back to
it, and the alias points to the target of the last swap. -/
structure State.Laws (s : State) : Prop where
  seen : ∀ e ∈ s.swaps, e.found = some e.oldTarget
  once : History.Legal SwappedBack s.swaps
  kept : ∀ e, s.swaps.getLast? = some e → s.target = some e.newTarget

/-- The call does not replace a file, or replaces the one that it has read. -/
def State.current : Pc → Bool
  | .replace version _ => version = s.version
  | _ => true

def Undisturbed : Act → Prop
  | .fileOp i none _ _ => ∀ c ∈ s.calls.get? i, s.current c.2 = true
  | _ => True

instance (s : State) : (a : Act) → Decidable (Undisturbed s a)
  | .fileOp i none _ _ => inferInstanceAs (Decidable (∀ c ∈ s.calls.get? i, s.current c.2 = true))
  | .call .. | .fileOp _ (some _) .. => .isTrue trivial

def Op.Fits (base data : AliasData) : Op → Prop
  | .swapAlias newTarget oldTarget => base.get? targetPath = some oldTarget ∧ data.get? targetPath = some newTarget
  | .updateRefreshTimestamp => data.get? targetPath = base.get? targetPath

theorem Op.fits_apply {op : Op} {now later : Str} {base data : AliasData} (h : op.apply now later base = .ok data) :
    op.Fits base data := by
  cases op with
  | swapAlias newTarget oldTarget =>
    rw [Op.apply] at h
    split_ifs at h with htarget
    obtain rfl := Except.ok.inj h
    refine ⟨htarget, ?_⟩
    simp only [Dict.get?_set]
    rw [if_neg (by decide), if_neg (by decide), if_neg (by decide), if_pos trivial]
  | updateRefreshTimestamp =>
    obtain rfl := Except.ok.inj h
    exact Dict.get?_set_of_ne _ _ (by decide)

def Ready (op : Op) (version : ℕ) (data : AliasData) : Prop :=
  version ≤ s.version ∧ (version = s.version → ∃ base, s.file = some base ∧ op.Fits base data)

def PcOk (op : Op) : Pc → Prop
  | .look => True
  | .read => True
  | .write version data => Ready s op version data
  | .replace version data => Ready s op version data

structure Inv (s : State) : Prop where
  laws : s.Laws
  calls : ∀ i op pc, s.calls.get? i = some (op, pc) → PcOk s op pc

section Steps

variable {s s' : State} {i : ℕ} {op : Op} {pc : Pc}

theorem PcOk.congr (h : PcOk s op pc) (hfile : s'.file = s.file) (hversion : s'.version = s.version) :
    PcOk s' op pc := by
  cases pc with
  | look | read => trivial
  | write version data | replace version data => unfold PcOk Ready at h ⊢; rwa [hfile, hversion]

theorem PcOk.stale (h : PcOk s op pc) (hversion : s'.version = s.version + 1) : PcOk s' op pc := by
  cases pc with
  | look | read => trivial
  | write version data | replace version data => have hle := h.1; exact ⟨by omega, fun heq => by omega⟩

theorem Inv.goto (h : Inv s) (hpc : PcOk s op pc) : Inv (s.goto i op pc) := by
  refine ⟨⟨h.laws.seen, h.laws.once, h.laws.kept⟩, fun j op' pc' hj => ?_⟩
  rw [State.goto, Dict.get?_set] at hj
  split at hj
  · obtain ⟨rfl, rfl⟩ := Prod.mk.inj (Option.some.inj hj)
    exact hpc.congr rfl rfl
  · exact (h.calls j op' pc' hj).congr rfl rfl

theorem Inv.finish (h : Inv s) (answer : Answer) : Inv (s.finish i answer) := by
  refine ⟨⟨h.laws.seen, h.laws.once, h.laws.kept⟩, fun j op' pc' hj => ?_⟩
  exact (h.calls j op' pc' (Dict.get?_erase_eq_some.1 hj).2).congr rfl rfl

theorem State.Laws.swap (h : s.Laws) {newTarget oldTarget : Str} {data : AliasData} (hold : s.target = some oldTarget)
    (hnew : data.get? targetPath = some newTarget) : (s.replace (.swapAlias newTarget oldTarget) data).Laws := by
  refine ⟨fun e he => ?_, h.once.concat fun earlier first between hsplit _ => ?_, fun e he => ?_⟩
  · rcases List.mem_append.mp he with he | he
    · exact h.seen e he
    · rw [List.mem_singleton.mp he]; exact hold
  · obtain ⟨e, he⟩ : ∃ e, (first :: between).getLast? = some e :=
      ⟨_, List.getLast?_eq_some_getLast (List.cons_ne_nil _ _)⟩
    have hkept := h.kept e (by rw [hsplit, List.getLast?_append, he]; rfl)
    exact ⟨e, List.mem_of_getLast? he, (Option.mem_unique hold hkept).symm⟩
  · obtain rfl : _ = e := Option.some.inj ((List.getLast?_concat ..).symm.trans he)
    exact hnew

theorem State.Laws.refresh (h : s.Laws) {base data : AliasData} (hfile : s.file = some base)
    (hsame : data.get? targetPath = base.get? targetPath) : (s.replace .updateRefreshTimestamp data).Laws := by
  refine ⟨h.seen, h.once, fun e he => ?_⟩
  have hkept := h.kept e he
  rw [State.target, hfile] at hkept
  exact hsame.trans hkept

theorem Inv.replace (h : Inv s) {version : ℕ} {data : AliasData} (hready : Ready s op version data)
    (hcurrent : version = s.version) : Inv (s.replace op data) := by
  obtain ⟨base, hfile, hfits⟩ := hready.2 hcurrent
  have htarget : s.target = base.get? targetPath := by rw [State.target, hfile]; rfl
  refine ⟨?_, fun j op' pc' hj => (h.calls j op' pc' hj).stale rfl⟩
  cases op with
  | swapAlias newTarget oldTarget => exact h.laws.swap (htarget.trans hfits.1) hfits.2
  | updateRefreshTimestamp => exact h.laws.refresh hfile hfits

theorem Inv.fileOp (h : Inv s) {raised : Option Raised} {now later : Str} (hpc : PcOk s op pc)
    (hcurrent : raised = none → s.current pc = true) : Inv (s.fileOp i op raised now later pc) := by
  cases pc <;> rw [State.fileOp]
  case look =>
    split
    · exact h.goto trivial
    · exact h.finish _
  case read =>
    split
    · exact h.finish _
    · rename_i base hfile
      split
      · exact h.finish _
      · split
        · rename_i data hdata
          exact h.goto ⟨le_rfl, fun _ => ⟨base, hfile, Op.fits_apply hdata⟩⟩
        · exact h.finish _
  case write version data =>
    cases raised with
    | none => exact h.goto hpc
    | some raised => exact h.finish _
  case replace version data =>
    cases raised with
    | none => exact (h.replace hpc (of_decide_eq_true (hcurrent rfl))).finish _
    | some raised => exact h.finish _

theorem Inv.step (h : Inv s) {a : Act} (hcareful : Undisturbed s a) (hs : s.step a = some s') : Inv s' := by
  cases a with
  | call i op =>
    rw [State.step] at hs
    split at hs <;> cases hs
    exact h.goto trivial
  | fileOp i raised now later =>
    obtain ⟨⟨op, pc⟩, hc, rfl⟩ := Option.map_eq_some_iff.1 hs
    refine h.fileOp (h.calls i op pc hc) fun hnone => ?_
    rw [hnone] at hcareful
    exact hcareful _ hc

end Steps

/-- If every call that replaces the file replaces the one that it has read, no swap overwrites a change it did not
see. -/
theorem laws_of_undisturbed {s : State} (h : system.Reachable Undisturbed s) : s.Laws := by
  have hinv : Inv s := by
    refine h.invariant ?_ fun s₁ a s₂ hinv hcareful hs => hinv.step hcareful hs
    rintro _ ⟨file, rfl⟩
    refine ⟨⟨fun e he => ?_, History.legal_nil, fun e he => ?_⟩, fun i op pc hi => ?_⟩
    · cases he
    · cases he
    · cases hi
  exact hinv.laws

/-! ### Runs -/

def State.v1 : State := .fresh (some (Dict.empty.set targetPath "v1"))

def swap (i : ℕ) (newTarget oldTarget : String) : Act := .call i (.swapAlias newTarget.toList oldTarget.toList)

def go (i : ℕ) : Act := .fileOp i none "t" "t"

/-- Three calls one after the other; the second swap from `v1` fails. -/
theorem laws_of_undisturbed_three : ∃ s, system.Reachable Undisturbed s ∧ s.target = some "v2".toList ∧
    s.answers.map Prod.snd = [.done, .done, .mismatch (some "v2".toList) "v1".toList] ∧ s.Laws := by
  exact exists_of_run_and_and .v1
    [swap 0 "v2" "v1", swap 1 "v3" "v1", go 0, go 1, go 0, go 0, go 0, .call 2 .updateRefreshTimestamp,
    go 2, go 2, go 2,
     go 2, go 1] ⟨_, rfl⟩ (by decide +kernel) fun s hs _ _ => laws_of_undisturbed hs

/-- Two swaps from `v1` read the file before either replaces it, and both succeed; and a timestamp is written with the
target that was read before a swap. -/
theorem overwritten :
    (∃ s, system.Reachable TransitionSystem.Any s ∧ s.swaps.map Swapped.oldTarget = ["v1".toList, "v1".toList] ∧
      s.swaps.map Swapped.found = [some "v1".toList, some "v2".toList] ∧ s.target = some "v3".toList ∧ ¬s.Laws) ∧
    ∃ s, system.Reachable TransitionSystem.Any s ∧ s.swaps.map Swapped.newTarget = ["v2".toList] ∧
      s.target = some "v1".toList ∧ ¬s.Laws := by
  constructor
  · refine exists_of_run_imp (fun s => s.swaps = [⟨"v2", "v1", some "v1".toList⟩, ⟨"v3", "v1", some "v2".toList⟩] ∧
        s.target = some "v3".toList) .v1
      [swap 0 "v2" "v1", swap 1 "v3" "v1", go 0, go 1, go 0, go 1, go 0, go 0, go 1, go 1] ⟨_, rfl⟩ (by decide +kernel)
      fun s _ ⟨hswaps, htarget⟩ => ⟨by rw [hswaps]; rfl, by rw [hswaps]; rfl, htarget, fun hlaws => ?_⟩
    have hseen := hlaws.seen ⟨"v3", "v1", some "v2".toList⟩ (by rw [hswaps]; simp)
    exact absurd hseen (by decide)
  · refine exists_of_run_imp (fun s => s.swaps = [⟨"v2", "v1", some "v1".toList⟩] ∧ s.target = some "v1".toList) .v1
      [.call 0 .updateRefreshTimestamp, swap 1 "v2" "v1", go 0, go 0, go 1, go 1, go 1, go 1, go 0, go 0] ⟨_, rfl⟩
      (by decide +kernel) fun s _ ⟨hswaps, htarget⟩ => ⟨by rw [hswaps]; rfl, htarget, fun hlaws => ?_⟩
    have hkept := hlaws.kept ⟨"v2", "v1", some "v1".toList⟩ (by rw [hswaps]; rfl)
    rw [htarget] at hkept
    exact absurd hkept (by decide)

end CodeIndexer.GlobalRepos.AliasSwap
