import CodeIndexer.Lib.Dict
import CodeIndexer.Lib.Transition

/-!
# The concurrency governor of the providers (`ProviderConcurrencyGovernor.execute`)

Each lane has an `AimdController` and a `ResizableLimiter`, which share one lock; a step is one critical section of
it. The calls are numbered as they come. `acquired` and `released` are ghosts: how often a call got a slot and gave
it back. A lane that does not exist raises at once and is left out, and so are the messages.
-/

namespace CodeIndexer.Embedding.Lanes

open Function TransitionSystem

structure Bounds where
  kMin : ℤ
  kMax : ℤ
  pos : 0 < kMin
  le : kMin ≤ kMax

def successThreshold : ℕ := 8

def cooldownSeconds : ℚ := 3

structure Lane where
  k : ℤ
  successRun : ℕ
  cooldownUntil : ℚ
  limit : ℤ
  inFlight : ℤ
  highWater : ℤ
  waitCount : ℕ

def clampLimit (b : Bounds) (value : ℤ) : ℤ :=
  if value < b.kMin then b.kMin else if b.kMax < value then b.kMax else value

namespace Lane

def new (b : Bounds) (initial : ℤ) : Lane := ⟨clampLimit b initial, 0, 0, clampLimit b initial, 0, 0, 0⟩

def setLimit (b : Bounds) (l : Lane) (newLimit : ℤ) : Lane := { l with limit := clampLimit b newLimit }

def record (b : Bounds) (l : Lane) (success : Bool) (now : ℚ) : Lane :=
  if success then
    if now < l.cooldownUntil then l
    else if successThreshold ≤ l.successRun + 1 ∧ l.k < b.kMax then
      setLimit b { l with k := l.k + 1, successRun := 0 } (l.k + 1)
    else { l with successRun := l.successRun + 1 }
  else
    setLimit b { l with k := max b.kMin (l.k / 2), successRun := 0, cooldownUntil := now + cooldownSeconds }
      (max b.kMin (l.k / 2))

end Lane

inductive Pc
  | probing
  | acquiring
  | running
  | releasing
deriving DecidableEq

def Pc.holds : Pc → Bool
  | .running | .releasing => true
  | _ => false

/-- `probed`: whether the lane looked full; `woken`: whether the deadline has passed; the others are how `fn` ends. -/
inductive Answer
  | probed (waited : Bool)
  | woken (late : Bool)
  | returned (now : ℚ)
  | rateLimited (now : ℚ)
  | raised
  | leave

def advance (b : Bounds) (l : Lane) : Pc → Answer → Option (Lane × Option Pc)
  | .probing, .probed waited => some ({ l with waitCount := l.waitCount + waited.toNat }, some .acquiring)
  | .acquiring, .woken late =>
    if l.inFlight < l.limit then
      some ({ l with inFlight := l.inFlight + 1, highWater := max l.highWater (l.inFlight + 1) }, some .running)
    else if late then some (l, none)
    else some (l, some .acquiring)
  | .running, .returned now => some (l.record b true now, some .releasing)
  | .running, .rateLimited now => some (l.record b false now, some .releasing)
  | .running, .raised => some (l, some .releasing)
  | .releasing, .leave => some ({ l with inFlight := l.inFlight - 1 }, none)
  | _, _ => none

structure State (B : Type) where
  lanes : B → Lane
  calls : Dict ℕ (B × Pc)
  started : ℕ
  acquired : ℕ → ℕ
  released : ℕ → ℕ

inductive Act (B : Type)
  | execute (budget : B) (sinbinned : Bool)
  | go (i : ℕ) (answer : Answer)

variable {B : Type} [DecidableEq B]

namespace State

def put (s : State B) (i : ℕ) (budget : B) (pc : Pc) (l : Lane) (next : Option Pc) : State B where
  lanes := update s.lanes budget l
  calls := s.calls.update i (next.map (budget, ·))
  started := s.started
  acquired := update s.acquired i (s.acquired i + (!pc.holds && next.any Pc.holds).toNat)
  released := update s.released i (s.released i + (pc.holds && !next.any Pc.holds).toNat)

def step (b : Bounds) (s : State B) : Act B → Option (State B)
  | .execute budget sinbinned =>
    some (if sinbinned then s
      else { s with calls := s.calls.set s.started (budget, .probing), started := s.started + 1 })
  | .go i answer => do
    let (budget, pc) ← s.calls.get? i
    let (l, next) ← advance b (s.lanes budget) pc answer
    some (s.put i budget pc l next)

def laneOf (s : State B) : Act B → Option B
  | .execute .. => none
  | .go i _ => (s.calls.get? i).map Prod.fst

def executing (s : State B) (budget : B) : ℕ := s.calls.items.countP fun e => e.2.1 = budget && e.2.2.holds

end State

def governor (b : Bounds) (seed : ℤ) : TransitionSystem (State B) (Act B) where
  init s := s = ⟨fun _ => .new b seed, .empty, 0, 0, 0⟩
  step := State.step b

structure Lane.Ok (b : Bounds) (l : Lane) : Prop where
  agree : l.k = l.limit
  within : b.kMin ≤ l.limit ∧ l.limit ≤ b.kMax

/-- A call under way has not given its slot back; one that is over has given back what it got, one slot at most. -/
def State.SlotOk (s : State B) (i : ℕ) : Prop :=
  match s.calls.get? i with
  | some (_, pc) => s.acquired i = pc.holds.toNat ∧ s.released i = 0 ∧ i < s.started
  | none => s.released i = s.acquired i ∧ s.acquired i ≤ 1 ∧ (s.started ≤ i → s.acquired i = 0)

structure Inv (b : Bounds) (s : State B) : Prop where
  ok : ∀ budget, (s.lanes budget).Ok b
  inFlight : ∀ budget, (s.lanes budget).inFlight = s.executing budget
  slot : ∀ i, s.SlotOk i

/-- A slot is granted below the limit, and a step leaves the other lanes alone. -/
structure Laws (b : Bounds) (s : State B) : Prop extends Inv b s where
  granted : ∀ a s', s.step b a = some s' → ∀ i, s'.acquired i ≠ s.acquired i →
    ∃ budget, s.laneOf a = some budget ∧ (s.lanes budget).inFlight < (s.lanes budget).limit
  isolated : ∀ a s', s.step b a = some s' → ∀ budget, s.laneOf a ≠ some budget → s'.lanes budget = s.lanes budget

variable {b : Bounds} {s s' : State B} {l l' : Lane}

theorem setLimit_ok (hk : b.kMin ≤ l.k ∧ l.k ≤ b.kMax) : (l.setLimit b l.k).Ok b := by
  have hclamp : clampLimit b l.k = l.k := by rw [clampLimit, if_neg (by omega), if_neg (by omega)]
  rw [Lane.setLimit, hclamp]
  exact ⟨rfl, hk⟩

theorem record_ok (h : l.Ok b) (success : Bool) (now : ℚ) : (l.record b success now).Ok b := by
  have hk := h.agree
  have hb := h.within
  have hpos := b.pos
  unfold Lane.record
  split_ifs with hs hcool hgrow
  · exact h
  · exact setLimit_ok (l := { l with k := l.k + 1, successRun := 0 }) ⟨by dsimp only; omega, by dsimp only; omega⟩
  · exact ⟨hk, hb⟩
  · exact setLimit_ok
      (l := { l with k := max b.kMin (l.k / 2), successRun := 0, cooldownUntil := now + cooldownSeconds })
      ⟨le_max_left .., max_le b.le (by omega)⟩

theorem record_inFlight (l : Lane) (success : Bool) (now : ℚ) : (l.record b success now).inFlight = l.inFlight := by
  unfold Lane.record
  split_ifs <;> rfl

variable {pc : Pc} {answer : Answer} {next : Option Pc}

theorem advance_ok (h : advance b l pc answer = some (l', next)) (hl : l.Ok b) : l'.Ok b := by
  revert h
  fun_cases advance b l pc answer <;> rintro ⟨⟩
  all_goals first | exact hl | exact ⟨hl.agree, hl.within⟩ | exact record_ok hl _ _

/-- What a step does with the slot of its call. -/
theorem advance_slot (h : advance b l pc answer = some (l', next)) :
    l'.inFlight + pc.holds.toNat = l.inFlight + (next.any Pc.holds).toNat ∧
      (pc.holds = false → next.any Pc.holds = true → l.inFlight < l.limit) ∧
      (pc.holds = true → ∀ pc' ∈ next, pc'.holds = true) := by
  revert h
  fun_cases advance b l pc answer <;> rintro ⟨⟩ <;> simp_all [Pc.holds, record_inFlight]

theorem Inv.go (h : Inv b s) {i : ℕ} {budget : B} (hcall : s.calls.get? i = some (budget, pc))
    (hadvance : advance b (s.lanes budget) pc answer = some (l', next)) : Inv b (s.put i budget pc l' next) := by
  obtain ⟨hslot, -, hkept⟩ := advance_slot hadvance
  constructor
  case ok =>
    intro budget'
    by_cases hb : budget' = budget
    · subst hb
      simpa [State.put] using advance_ok hadvance (h.ok budget')
    · simpa [State.put, hb] using h.ok budget'
  case inFlight =>
    intro budget'
    have hcount := Dict.countP_items_update hcall (next.map (budget, ·)) fun c => c.1 = budget' && c.2.holds
    have hold := h.inFlight budget'
    rw [State.executing] at hold ⊢
    by_cases hb : budget' = budget
    · subst hb
      cases hp : pc.holds <;> cases hn : next.any Pc.holds <;> simp_all [State.put, Option.any_map]; omega
    · simp_all [State.put, Option.any_map, Ne.symm hb]
  case slot =>
    intro j
    have hold := h.slot j
    rw [State.SlotOk] at hold
    by_cases hj : j = i
    · subst hj
      rw [hcall] at hold
      cases next with
      | none | some pc' => cases hp : pc.holds <;> simp_all [State.SlotOk, State.put, Dict.get?_update]
    · simpa [State.SlotOk, State.put, Dict.get?_update, hj] using hold

theorem step_go {i : ℕ} (hs : s.step b (.go i answer) = some s') : ∃ budget pc l' next,
    s.calls.get? i = some (budget, pc) ∧ advance b (s.lanes budget) pc answer = some (l', next) ∧
      s' = s.put i budget pc l' next := by
  obtain ⟨⟨budget, pc⟩, hcall, hs⟩ := Option.bind_eq_some_iff.mp hs
  obtain ⟨⟨l', next⟩, hadvance, hs⟩ := Option.bind_eq_some_iff.mp hs
  exact ⟨budget, pc, l', next, hcall, hadvance, (Option.some.inj hs).symm⟩

theorem Inv.step (h : Inv b s) {a : Act B} (hs : s.step b a = some s') : Inv b s' := by
  cases a with
  | go i answer =>
    obtain ⟨budget, pc, l', next, hcall, hadvance, rfl⟩ := step_go hs
    exact h.go hcall hadvance
  | execute budget sinbinned =>
    cases hs
    split_ifs
    · exact h
    have hnone : s.calls.get? s.started = none := by
      have hnew := h.slot s.started
      cases hcall : s.calls.get? s.started <;> simp_all [State.SlotOk]
    refine ⟨h.ok, fun budget' => ?_, fun j => ?_⟩
    · have hcount := Dict.countP_items_set_of_none hnone (budget, .probing) fun e => e.2.1 = budget' && e.2.2.holds
      rw [h.inFlight budget', State.executing, State.executing, hcount, if_neg (by simp [Pc.holds]), add_zero]
    · have hold := h.slot j
      rw [State.SlotOk] at hold ⊢
      by_cases hj : j = s.started
      · subst hj
        simp_all [Dict.get?_set, Pc.holds]
      · rw [Dict.get?_set, if_neg hj]
        split at hold <;> simp_all <;> omega

/-- In every state of every run, whatever the calls and the provider do. -/
theorem governor_laws (b : Bounds) (seed : ℤ) (h : (governor b seed).Reachable Any s) : Laws b s where
  toInv := by
    refine h.invariant ?_ fun s a s' hinv _ hs => hinv.step hs
    rintro s rfl
    have hclamp : b.kMin ≤ clampLimit b seed ∧ clampLimit b seed ≤ b.kMax := by
      have hle := b.le
      unfold clampLimit
      split_ifs <;> omega
    exact ⟨fun _ => ⟨rfl, hclamp⟩, fun _ => rfl, fun _ => ⟨rfl, zero_le_one, fun _ => rfl⟩⟩
  granted a s' hs i hi := by
    cases a with
    | execute budget sinbinned =>
      cases hs
      split_ifs at hi <;> exact absurd rfl hi
    | go j answer =>
      obtain ⟨budget, pc, l', next, hcall, hadvance, rfl⟩ := step_go hs
      have hgot : (!pc.holds && next.any Pc.holds) = true := by
        by_contra hno
        exact hi (by simp [State.put, Bool.eq_false_of_not_eq_true hno])
      rw [Bool.and_eq_true, Bool.not_eq_true'] at hgot
      exact ⟨budget, by rw [State.laneOf, hcall]; rfl, (advance_slot hadvance).2.1 hgot.1 hgot.2⟩
  isolated a s' hs budget' hne := by
    cases a with
    | execute budget sinbinned =>
      cases hs
      split_ifs <;> rfl
    | go i answer =>
      obtain ⟨budget, pc, l', next, hcall, hadvance, rfl⟩ := step_go hs
      rw [State.laneOf, hcall] at hne
      exact update_of_ne (fun heq => hne (congrArg some heq.symm)) ..

/-- One slot: a call waits until another one, which is rate limited, has released it. -/
theorem governor_laws_one_slot : ∃ s : State Bool, (governor ⟨1, 1, by decide, by decide⟩ 1).Reachable Any s ∧
    ((s.lanes true).inFlight, s.executing true, s.acquired 0, s.released 0) = (1, 1, 1, 1) ∧
    Laws ⟨1, 1, by decide, by decide⟩ s :=
  exists_of_run_and _ [.execute true false, .execute true false, .go 0 (.probed false), .go 0 (.woken false),
    .go 1 (.probed true), .go 1 (.woken false), .go 0 (.rateLimited 0), .go 0 .leave, .go 1 (.woken true)] rfl
    (by decide +kernel) fun _ h _ => governor_laws _ _ h

end CodeIndexer.Embedding.Lanes
