import CodeIndexer.Lib.Refill

/-!
# Token buckets (`server/auth/token_bucket.py`)

`TokenBucket` keeps its level in memory; in cluster mode `TokenBucketManager` keeps it in one
PostgreSQL row instead. Floats are exact rationals, a call carries the clock reading it makes, and
`retry_after` is `⊤` where the source returns `float("inf")`.

The two paths keep different states: the row is not written by a denied consume and not refilled by
a refund. `Sim` relates them through the level either would have at any later reading, and
`run_eq_of_sim` carries it along a whole history of calls on one key.
-/

namespace CodeIndexer.TokenBucket

open Refill

structure Config where
  capacity : ℤ
  refillRate : ℚ
deriving DecidableEq

def tokenCost : ℚ := 1

structure Bucket where
  tokens : ℚ
  lastRefill : ℚ
deriving DecidableEq

structure Row where
  tokens : ℚ
  lastRefill : ℚ
  lastAccess : ℚ
deriving DecidableEq

structure Decision where
  allowed : Bool
  retryAfter : WithTop ℚ
deriving DecidableEq

variable (cfg : Config)

def Bucket.init (now : ℚ) : Bucket := ⟨cfg.capacity, now⟩

def Bucket.refill (b : Bucket) (now : ℚ) : Bucket :=
  let elapsed := max 0 (now - b.lastRefill)
  if elapsed > 0 then ⟨min cfg.capacity (b.tokens + elapsed * cfg.refillRate), now⟩ else b

def retryAfter (tokens : ℚ) : WithTop ℚ :=
  let needed := max 0 (1 - tokens)
  if cfg.refillRate > 0 then ((needed / cfg.refillRate : ℚ) : WithTop ℚ) else ⊤

def Bucket.consume (b : Bucket) (now : ℚ) : Bucket × Decision :=
  let b := b.refill cfg now
  if b.tokens ≥ 1 then ({ b with tokens := b.tokens - 1 }, ⟨true, 0⟩)
  else (b, ⟨false, retryAfter cfg b.tokens⟩)

def Bucket.refund (b : Bucket) (now : ℚ) : Bucket :=
  let b := b.refill cfg now
  { b with tokens := min cfg.capacity (b.tokens + 1) }

def getBucket (b : Option Bucket) (now : ℚ) : Bucket := b.getD (Bucket.init cfg now)

def pgEnsureRow (r : Option Row) (now : ℚ) : Row := r.getD ⟨cfg.capacity, now, now⟩

def Row.refilled (r : Row) (now : ℚ) : ℚ :=
  min cfg.capacity (r.tokens + max 0 (now - r.lastRefill) * cfg.refillRate)

/-- `TokenBucketManager._pg_consume`: the conditional `UPDATE`, and the advisory read that follows
a denial. -/
def pgConsume (r : Option Row) (now : ℚ) : Row × Decision :=
  let row := pgEnsureRow cfg r now
  if row.refilled cfg now ≥ tokenCost then
    (⟨row.refilled cfg now - tokenCost, now, now⟩, ⟨true, 0⟩)
  else
    let elapsed := max 0 (now - row.lastRefill)
    let tokensNow := min (cfg.capacity : ℚ) (row.tokens + elapsed * cfg.refillRate)
    (row, ⟨false, retryAfter cfg tokensNow⟩)

def pgRefund (r : Option Row) (now : ℚ) : Row :=
  let row := pgEnsureRow cfg r now
  { row with tokens := min cfg.capacity (row.tokens + tokenCost), lastAccess := now }

/-! ### Histories of calls on one key -/

inductive Op
  | consume
  | refund
deriving DecidableEq

structure Call where
  op : Op
  now : ℚ
deriving DecidableEq

def memStep (b : Option Bucket) (c : Call) : Bucket × Option Decision :=
  match c.op with
  | .consume => let p := (getBucket cfg b c.now).consume cfg c.now; (p.1, some p.2)
  | .refund => ((getBucket cfg b c.now).refund cfg c.now, none)

def pgStep (r : Option Row) (c : Call) : Row × Option Decision :=
  match c.op with
  | .consume => let p := pgConsume cfg r c.now; (p.1, some p.2)
  | .refund => (pgRefund cfg r c.now, none)

def memRun (b : Option Bucket) : List Call → List (Option Decision)
  | [] => []
  | c :: cs => (memStep cfg b c).2 :: memRun (memStep cfg b c).1 cs

def pgRun (r : Option Row) : List Call → List (Option Decision)
  | [] => []
  | c :: cs => (pgStep cfg r c).2 :: pgRun (pgStep cfg r c).1 cs

/-! ### The level at a later reading -/

variable {cfg} {b : Bucket} {r : Row} {now later : ℚ}

def Bucket.level (cfg : Config) (b : Bucket) (now : ℚ) : ℚ :=
  refillTo (cfg.capacity : ℚ) cfg.refillRate b.tokens (max 0 (now - b.lastRefill))

theorem Row.refilled_eq : r.refilled cfg now =
    refillTo (cfg.capacity : ℚ) cfg.refillRate r.tokens (max 0 (now - r.lastRefill)) := rfl

theorem Bucket.refill_tokens (hb : b.tokens ≤ cfg.capacity) : (b.refill cfg now).tokens = b.level cfg now := by
  unfold Bucket.refill Bucket.level
  by_cases h : max 0 (now - b.lastRefill) > 0
  · simp [h, refillTo]
  · have h0 : max 0 (now - b.lastRefill) = 0 := le_antisymm (not_lt.1 h) (le_max_left _ _)
    simp [h0, refillTo_zero hb]

theorem Bucket.refill_lastRefill : (b.refill cfg now).lastRefill = max b.lastRefill now := by
  unfold Bucket.refill
  by_cases h : max 0 (now - b.lastRefill) > 0
  · have : b.lastRefill ≤ now := by
      rcases lt_max_iff.1 h with h | h
      · exact absurd h (lt_irrefl _)
      · linarith
    simp [h, max_eq_right this]
  · have : now ≤ b.lastRefill := by
      have := not_lt.1 h
      have := (max_le_iff.1 this).2
      linarith
    simp [h, max_eq_left this]

theorem level_split {cap rate x last : ℚ} (hr : 0 ≤ rate) (h₁ : last ≤ now) (h₂ : now ≤ later) :
    refillTo cap rate (refillTo cap rate x (max 0 (now - last))) (max 0 (later - now)) =
      refillTo cap rate x (max 0 (later - last)) := by
  rw [refillTo_add hr (le_max_left _ _), max_eq_right (by linarith), max_eq_right (by linarith),
    max_eq_right (by linarith)]
  congr 1
  ring

/-! ### The simulation -/

/-- The in-memory bucket and the row agree on the level at every reading from `t` on. -/
structure Sim (cfg : Config) (t : ℚ) (b : Bucket) (r : Row) : Prop where
  mem_le : b.tokens ≤ cfg.capacity
  mem_last : b.lastRefill ≤ t
  pg_last : r.lastRefill ≤ t
  level : ∀ now, t ≤ now → b.level cfg now = r.refilled cfg now

namespace Sim
variable {t : ℚ}

theorem fresh : Sim cfg t (Bucket.init cfg t) ⟨cfg.capacity, t, t⟩ :=
  ⟨le_refl _, le_refl _, le_refl _, fun _ _ => rfl⟩

theorem refill (hr : 0 ≤ cfg.refillRate) (h : Sim cfg t b r) (ht : t ≤ now) : Sim cfg now (b.refill cfg now) r := by
  have hlast : b.lastRefill ≤ now := h.mem_last.trans ht
  have htok : (b.refill cfg now).tokens = b.level cfg now := Bucket.refill_tokens h.mem_le
  refine ⟨?_, ?_, h.pg_last.trans ht, fun later hl => ?_⟩
  · rw [htok]; exact refillTo_le_cap
  · rw [Bucket.refill_lastRefill, max_eq_right hlast]
  · rw [Bucket.level, htok, Bucket.refill_lastRefill, max_eq_right hlast, Bucket.level,
      level_split hr hlast hl]
    exact h.level later (ht.trans hl)

theorem spend (h : Sim cfg t b r) (ht : t ≤ now) (c : ℚ)
    (hc : (b.refill cfg now).tokens - c ≤ cfg.capacity) :
    Sim cfg now { b.refill cfg now with tokens := (b.refill cfg now).tokens - c }
      ⟨r.refilled cfg now - c, now, now⟩ := by
  have hlast : b.lastRefill ≤ now := h.mem_last.trans ht
  refine ⟨hc, ?_, le_refl _, fun later hl => ?_⟩
  · show (b.refill cfg now).lastRefill ≤ now
    rw [Bucket.refill_lastRefill, max_eq_right hlast]
  · simp only [Bucket.level, Row.refilled_eq]
    rw [Bucket.refill_lastRefill, max_eq_right hlast, Bucket.refill_tokens h.mem_le, h.level now ht]
    rfl

theorem credit (hr : 0 ≤ cfg.refillRate) (h : Sim cfg t b r) (ht : t ≤ now) :
    Sim cfg now (b.refund cfg now)
      { r with tokens := min cfg.capacity (r.tokens + tokenCost), lastAccess := now } := by
  have hs := h.refill hr ht
  refine ⟨min_le_left _ _, hs.mem_last, hs.pg_last, fun later hl => ?_⟩
  have hl' := hs.level later hl
  simp only [Bucket.level, Row.refilled_eq] at hl' ⊢
  simp only [Bucket.refund, tokenCost]
  rw [refillTo_credit hr (le_max_left _ _) zero_le_one, hl',
    refillTo_credit hr (le_max_left _ _) zero_le_one]

theorem consume (hr : 0 ≤ cfg.refillRate) (h : Sim cfg t b r) (ht : t ≤ now) :
    Sim cfg now (b.consume cfg now).1 (pgConsume cfg (some r) now).1 ∧
      (b.consume cfg now).2 = (pgConsume cfg (some r) now).2 := by
  have htok : (b.refill cfg now).tokens = r.refilled cfg now := by
    rw [Bucket.refill_tokens h.mem_le, h.level now ht]
  by_cases hallow : r.refilled cfg now ≥ 1
  · have hc : (b.refill cfg now).tokens - 1 ≤ cfg.capacity := by
      have := (h.refill hr ht).mem_le
      linarith
    have hm : b.consume cfg now =
        ({ b.refill cfg now with tokens := (b.refill cfg now).tokens - 1 }, ⟨true, 0⟩) := by
      simp only [Bucket.consume, htok, hallow, ↓reduceIte]
    have hp : pgConsume cfg (some r) now = (⟨r.refilled cfg now - 1, now, now⟩, ⟨true, 0⟩) := by
      simp only [pgConsume, pgEnsureRow, Option.getD_some, tokenCost, hallow, ↓reduceIte]
    rw [hm, hp]
    exact ⟨h.spend ht 1 hc, rfl⟩
  · have hm : b.consume cfg now = (b.refill cfg now, ⟨false, retryAfter cfg (r.refilled cfg now)⟩) := by
      simp only [Bucket.consume, htok, hallow, ↓reduceIte]
    have hp : pgConsume cfg (some r) now = (r, ⟨false, retryAfter cfg (r.refilled cfg now)⟩) := by
      simp only [pgConsume, pgEnsureRow, Option.getD_some, tokenCost, hallow, ↓reduceIte]
      rfl
    rw [hm, hp]
    exact ⟨h.refill hr ht, rfl⟩

theorem step (hr : 0 ≤ cfg.refillRate) (h : Sim cfg t b r) (c : Call) (ht : t ≤ c.now) :
    Sim cfg c.now (memStep cfg (some b) c).1 (pgStep cfg (some r) c).1 ∧
      (memStep cfg (some b) c).2 = (pgStep cfg (some r) c).2 := by
  match c with
  | ⟨.consume, now⟩ =>
    obtain ⟨hs, hd⟩ := h.consume hr ht
    exact ⟨hs, congrArg some hd⟩
  | ⟨.refund, now⟩ => exact ⟨h.credit hr ht, rfl⟩

end Sim

/-- On first access both paths start from a full bucket at the reading of the call. -/
theorem memStep_none (c : Call) : memStep cfg none c = memStep cfg (some (Bucket.init cfg c.now)) c := rfl

theorem pgStep_none (c : Call) : pgStep cfg none c = pgStep cfg (some ⟨cfg.capacity, c.now, c.now⟩) c := rfl

theorem run_eq_of_sim (hr : 0 ≤ cfg.refillRate) {t : ℚ} {b : Bucket} {r : Row} (cs : List Call)
    (h : Sim cfg t b r) (hcs : (t :: cs.map Call.now).IsChain (· ≤ ·)) :
    pgRun cfg (some r) cs = memRun cfg (some b) cs := by
  induction cs generalizing t b r with
  | nil => rfl
  | cons c cs ih =>
    simp only [List.map_cons, List.isChain_cons_cons] at hcs
    obtain ⟨hs, hd⟩ := h.step hr c hcs.1
    simp only [pgRun, memRun, hd]
    rw [ih hs hcs.2]

/-- The PostgreSQL bucket answers every history of calls at non-decreasing readings, starting from
an absent key, as the in-memory one does. -/
theorem pgRun_eq_memRun (cfg : Config) (hr : 0 ≤ cfg.refillRate) (cs : List Call)
    (hcs : (cs.map Call.now).IsChain (· ≤ ·)) : pgRun cfg none cs = memRun cfg none cs := by
  cases cs with
  | nil => rfl
  | cons c cs =>
    have hfresh : Sim cfg c.now (Bucket.init cfg c.now) ⟨cfg.capacity, c.now, c.now⟩ := Sim.fresh
    obtain ⟨hs, hd⟩ := hfresh.step hr c (le_refl _)
    simp only [pgRun, memRun, memStep_none, pgStep_none, hd]
    rw [run_eq_of_sim hr cs hs hcs]

/-- One token every six seconds: a consume, a denied one, a refund, and a consume it pays for. -/
theorem pgRun_eq_memRun_burst :
    pgRun ⟨1, 1 / 6⟩ none [⟨.consume, 0⟩, ⟨.consume, 3⟩, ⟨.refund, 4⟩, ⟨.consume, 5⟩] =
      memRun ⟨1, 1 / 6⟩ none [⟨.consume, 0⟩, ⟨.consume, 3⟩, ⟨.refund, 4⟩, ⟨.consume, 5⟩] :=
  pgRun_eq_memRun ⟨1, 1 / 6⟩ (by norm_num) _ (by norm_num)

/-- A negative `refill_rate`, which the constructor does not refuse: the in-memory refund drains
before it credits, the PostgreSQL refund credits a full bucket first. -/
theorem pgRun_ne_memRun_of_draining :
    ((([⟨.refund, 0⟩, ⟨.refund, 1⟩, ⟨.consume, 1⟩, ⟨.consume, 1⟩] : List Call).map Call.now).IsChain
      (· ≤ ·)) ∧
    pgRun ⟨2, -1⟩ none [⟨.refund, 0⟩, ⟨.refund, 1⟩, ⟨.consume, 1⟩, ⟨.consume, 1⟩] ≠
      memRun ⟨2, -1⟩ none [⟨.refund, 0⟩, ⟨.refund, 1⟩, ⟨.consume, 1⟩, ⟨.consume, 1⟩] := by
  decide +kernel

end CodeIndexer.TokenBucket
