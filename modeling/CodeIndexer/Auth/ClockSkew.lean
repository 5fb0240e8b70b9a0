import CodeIndexer.Auth.TokenBucket

/-!
# The rate bound under clock skew

The number of consumes a key is granted, for readings of any order (cluster nodes do not share a
clock). Both paths are bounded through the potential `tokens - refill_rate * last_refill`: a call
that spends a token lowers it by one, and refilling never raises it, as long as `last_refill` does
not move backwards. `TokenBucket._refill` writes `last_refill` only when time has passed; the
`UPDATE` of `_pg_consume` writes it on every granted consume, so the bound for the row needs
`PgForward`.
-/

namespace CodeIndexer.TokenBucket

open Refill

def consumes (ts : List ℚ) : List Call := ts.map (Call.mk .consume)

def granted (ds : List (Option Decision)) : ℕ := ds.countP fun d => d.any Decision.allowed

def memAllowed (cfg : Config) (ts : List ℚ) : ℕ := granted (memRun cfg none (consumes ts))

def pgAllowed (cfg : Config) (ts : List ℚ) : ℕ := granted (pgRun cfg none (consumes ts))

variable (t : ℚ)

def largest (ts : List ℚ) : ℚ := ts.foldr max t

def smallest (ts : List ℚ) : ℚ := ts.foldr min t

def Decision.spent (d : Decision) : ℚ := if d.allowed then 1 else 0

/-- A consume that grants no credit now (`tokens`) and none to later readings (`last_refill`). -/
def Bucket.NoCredit (cfg : Config) (b : Bucket) (now : ℚ) : Prop :=
  (b.consume cfg now).1.tokens + (b.consume cfg now).2.spent ≤ b.tokens ∧
    b.lastRefill ≤ (b.consume cfg now).1.lastRefill

def Row.NoCredit (cfg : Config) (r : Row) (now : ℚ) : Prop :=
  (pgConsume cfg (some r) now).1.tokens + (pgConsume cfg (some r) now).2.spent ≤ r.tokens ∧
    r.lastRefill ≤ (pgConsume cfg (some r) now).1.lastRefill

/-- The `UPDATE` does not write an earlier `last_refill`: the reading is not behind the row, or the
row holds less than one token. -/
def Row.Forward (r : Row) (now : ℚ) : Prop := r.lastRefill ≤ now ∨ r.tokens < tokenCost

def PgForward (cfg : Config) : Option Row → List ℚ → Prop
  | _, [] => True
  | r, t :: ts =>
    (pgEnsureRow cfg r t).Forward t ∧ PgForward cfg (some (pgConsume cfg r t).1) ts

variable {cfg : Config} {b : Bucket} {r : Row} {now : ℚ}

theorem smallest_le (ts : List ℚ) : smallest t ts ≤ t := by
  induction ts with
  | nil => exact le_refl _
  | cons u ts ih => exact (min_le_right _ _).trans ih

theorem le_largest (ts : List ℚ) : ∀ u ∈ t :: ts, u ≤ largest t ts := by
  induction ts with
  | nil => simp [largest]
  | cons v ts ih =>
    intro u hu
    have hmax : largest t ts ≤ largest t (v :: ts) := le_max_right _ _
    simp only [List.mem_cons] at hu ih
    rcases hu with rfl | rfl | hu
    · exact (ih u (.inl rfl)).trans hmax
    · exact le_max_left _ _
    · exact (ih u (.inr hu)).trans hmax

/-! ### The in-memory bucket -/

theorem Bucket.consume_tokens : (b.consume cfg now).1.tokens =
    (b.refill cfg now).tokens - (b.consume cfg now).2.spent := by
  unfold Bucket.consume
  by_cases h : (b.refill cfg now).tokens ≥ 1 <;> simp [h, Decision.spent]

theorem Bucket.consume_lastRefill : (b.consume cfg now).1.lastRefill = (b.refill cfg now).lastRefill := by
  unfold Bucket.consume
  by_cases h : (b.refill cfg now).tokens ≥ 1 <;> simp [h]

theorem Bucket.spent_le (hb : 0 ≤ (b.refill cfg now).tokens) :
    (b.consume cfg now).2.spent ≤ (b.refill cfg now).tokens := by
  unfold Bucket.consume
  by_cases h : (b.refill cfg now).tokens ≥ 1
  · simp only [h, ↓reduceIte, Decision.spent]
  · simp [h, Decision.spent, hb]

theorem Bucket.refill_potential (now : ℚ) (hb : b.tokens ≤ cfg.capacity) :
    (b.refill cfg now).tokens - cfg.refillRate * (b.refill cfg now).lastRefill ≤
      b.tokens - cfg.refillRate * b.lastRefill := by
  rw [Bucket.refill_tokens hb, Bucket.refill_lastRefill]
  have hle : b.level cfg now ≤ b.tokens + max 0 (now - b.lastRefill) * cfg.refillRate := refillTo_le
  have hmax : max b.lastRefill now = b.lastRefill + max 0 (now - b.lastRefill) := by
    rw [← max_add_add_left]; simp
  rw [hmax]
  linarith [mul_comm cfg.refillRate (max 0 (now - b.lastRefill))]

theorem granted_cons (d : Option Decision) (ds : List (Option Decision)) :
    (granted (d :: ds) : ℚ) = (d.map Decision.spent).getD 0 + granted ds := by
  rcases d with _ | ⟨_ | _, _⟩ <;> simp [granted, Decision.spent, add_comm]

theorem memRun_granted_le (hr : 0 ≤ cfg.refillRate) {hi : ℚ} (ts : List ℚ)
    (hts : ∀ t ∈ ts, t ≤ hi) (hlast : b.lastRefill ≤ hi) (h0 : 0 ≤ b.tokens)
    (hb : b.tokens ≤ cfg.capacity) :
    (granted (memRun cfg (some b) (consumes ts)) : ℚ) ≤
      b.tokens + cfg.refillRate * (hi - b.lastRefill) := by
  induction ts generalizing b with
  | nil =>
    have := mul_nonneg hr (sub_nonneg.2 hlast)
    simp only [consumes, List.map_nil, memRun, granted, List.countP_nil, Nat.cast_zero]
    linarith
  | cons t ts ih =>
    have hpot := Bucket.refill_potential t hb
    have hrefl : (b.refill cfg t).lastRefill ≤ hi := by
      rw [Bucket.refill_lastRefill]; exact max_le hlast (hts t (by simp))
    have hge : 0 ≤ (b.refill cfg t).tokens := by
      rw [Bucket.refill_tokens hb]; exact h0.trans (le_refillTo hr (le_max_left _ _) hb)
    have hle : (b.refill cfg t).tokens ≤ cfg.capacity := by
      rw [Bucket.refill_tokens hb]; exact refillTo_le_cap
    have hspent : (b.consume cfg t).2.spent ≤ (b.refill cfg t).tokens := Bucket.spent_le hge
    have hspent0 : 0 ≤ (b.consume cfg t).2.spent := by unfold Decision.spent; split <;> norm_num
    have htail := ih (b := (b.consume cfg t).1) (fun u hu => hts u (by simp [hu]))
      (by rw [Bucket.consume_lastRefill]; exact hrefl) (by rw [Bucket.consume_tokens]; linarith)
      (by rw [Bucket.consume_tokens]; linarith)
    have hrun : memRun cfg (some b) (consumes (t :: ts)) =
        some (b.consume cfg t).2 :: memRun cfg (some (b.consume cfg t).1) (consumes ts) := rfl
    rw [Bucket.consume_tokens, Bucket.consume_lastRefill] at htail
    rw [hrun, granted_cons]
    simp only [Option.map_some, Option.getD_some]
    linarith

theorem Bucket.noCredit_of_lt (h : now < b.lastRefill) : b.NoCredit cfg now := by
  have helapsed : max 0 (now - b.lastRefill) = 0 := max_eq_left (by linarith)
  have hrefill : b.refill cfg now = b := by simp [Bucket.refill, helapsed]
  refine ⟨?_, ?_⟩
  · rw [Bucket.consume_tokens, hrefill, sub_add_cancel]
  · rw [Bucket.consume_lastRefill, hrefill]

/-! ### The PostgreSQL row -/

theorem pgConsume_some : pgConsume cfg (some r) now =
    if r.refilled cfg now ≥ 1 then (⟨r.refilled cfg now - 1, now, now⟩, ⟨true, 0⟩)
    else (r, ⟨false, retryAfter cfg (r.refilled cfg now)⟩) := rfl

theorem Row.refilled_of_lt (hb : r.tokens ≤ cfg.capacity) (h : now < r.lastRefill) : r.refilled cfg now = r.tokens := by
  rw [Row.refilled_eq, max_eq_left (by linarith), refillTo_zero hb]

theorem Row.noCredit_iff_of_lt (hb : r.tokens ≤ cfg.capacity) (h : now < r.lastRefill) :
    r.NoCredit cfg now ↔ r.Forward now := by
  have hfwd : r.Forward now ↔ r.tokens < 1 := by
    simp only [Row.Forward, tokenCost, not_le.2 h, false_or]
  rw [hfwd, Row.NoCredit, pgConsume_some, Row.refilled_of_lt hb h]
  by_cases h1 : r.tokens ≥ 1
  · simp only [h1, ↓reduceIte, not_lt.2 h1, iff_false, not_and, not_le]
    exact fun _ => h
  · simp [h1, Decision.spent, not_le.1 h1]

theorem Row.consume_potential (hb : r.tokens ≤ cfg.capacity)
    (h0 : 0 ≤ r.tokens) (hf : r.Forward now) :
    let p := pgConsume cfg (some r) now
    p.1.tokens - cfg.refillRate * p.1.lastRefill + p.2.spent ≤ r.tokens - cfg.refillRate * r.lastRefill ∧
      0 ≤ p.1.tokens ∧ p.1.tokens ≤ cfg.capacity ∧
      (p.1.lastRefill = now ∨ p.1.lastRefill = r.lastRefill) := by
  have hcap : r.refilled cfg now ≤ cfg.capacity := refillTo_le_cap
  rw [pgConsume_some]
  by_cases h1 : r.refilled cfg now ≥ 1
  · have hlast : r.lastRefill ≤ now := by
      rcases hf with hf | hf
      · exact hf
      · by_contra hlt
        rw [Row.refilled_of_lt hb (not_le.1 hlt)] at h1
        exact absurd h1 (not_le.2 hf)
    have hle : r.refilled cfg now ≤ r.tokens + (now - r.lastRefill) * cfg.refillRate := by
      rw [Row.refilled_eq, max_eq_right (sub_nonneg.2 hlast)]
      exact refillTo_le
    simp only [h1, ↓reduceIte, Decision.spent, true_or, and_true]
    refine ⟨?_, by linarith, by linarith⟩
    linarith [mul_sub cfg.refillRate now r.lastRefill, mul_comm (now - r.lastRefill) cfg.refillRate]
  · simp [h1, Decision.spent, h0, hb]

theorem pgRun_granted_le (hr : 0 ≤ cfg.refillRate) {hi : ℚ} (ts : List ℚ)
    (hts : ∀ t ∈ ts, t ≤ hi) (hlast : r.lastRefill ≤ hi) (h0 : 0 ≤ r.tokens)
    (hb : r.tokens ≤ cfg.capacity) (hf : PgForward cfg (some r) ts) :
    (granted (pgRun cfg (some r) (consumes ts)) : ℚ) ≤
      r.tokens + cfg.refillRate * (hi - r.lastRefill) := by
  induction ts generalizing r with
  | nil =>
    have := mul_nonneg hr (sub_nonneg.2 hlast)
    simp only [consumes, List.map_nil, pgRun, granted, List.countP_nil, Nat.cast_zero]
    linarith
  | cons t ts ih =>
    obtain ⟨hpot, hp0, hpb, hpl⟩ := Row.consume_potential hb h0 hf.1
    have hlast' : (pgConsume cfg (some r) t).1.lastRefill ≤ hi := by
      rcases hpl with h | h
      · rw [h]; exact hts t (by simp)
      · rw [h]; exact hlast
    have htail := ih (fun u hu => hts u (by simp [hu])) hlast' hp0 hpb hf.2
    have hrun : pgRun cfg (some r) (consumes (t :: ts)) =
        some (pgConsume cfg (some r) t).2 :: pgRun cfg (some (pgConsume cfg (some r) t).1) (consumes ts) :=
      rfl
    rw [hrun, granted_cons]
    simp only [Option.map_some, Option.getD_some]
    linarith

/-! ### The bound -/

/-- In memory, every history of consumes keeps the rate bound and no backward reading creates
credit. On the PostgreSQL path the bound holds for every history whose consumes are all `Forward`,
and a backward reading creates no credit exactly when its consume is `Forward`. -/
theorem allowed_le_of_forward (cfg : Config) (hcap : 0 ≤ cfg.capacity) (hr : 0 ≤ cfg.refillRate)
    (t : ℚ) (ts : List ℚ) :
    ((memAllowed cfg (t :: ts) : ℚ) ≤
        cfg.capacity + cfg.refillRate * (largest t ts - smallest t ts) ∧
      ∀ (b : Bucket) (now : ℚ), now < b.lastRefill → b.NoCredit cfg now) ∧
    (PgForward cfg none (t :: ts) → (pgAllowed cfg (t :: ts) : ℚ) ≤
        cfg.capacity + cfg.refillRate * (largest t ts - smallest t ts)) ∧
    ∀ (r : Row) (now : ℚ), r.tokens ≤ cfg.capacity → now < r.lastRefill →
      (r.NoCredit cfg now ↔ r.Forward now) := by
  have hlo : cfg.refillRate * (largest t ts - t) ≤
      cfg.refillRate * (largest t ts - smallest t ts) :=
    mul_le_mul_of_nonneg_left (by linarith [smallest_le t ts]) hr
  have hcap' : (0 : ℚ) ≤ cfg.capacity := by exact_mod_cast hcap
  have hhi := le_largest t ts
  refine ⟨⟨?_, fun b now h => Bucket.noCredit_of_lt h⟩, fun hf => ?_, fun r now => Row.noCredit_iff_of_lt⟩
  · have := memRun_granted_le (b := Bucket.init cfg t) hr (t :: ts) hhi
      (hhi t (by simp)) hcap' (le_refl _)
    exact this.trans (add_le_add_right hlo _)
  · have := pgRun_granted_le (r := ⟨cfg.capacity, t, t⟩) hr (t :: ts) hhi
      (hhi t (by simp)) hcap' (le_refl _) hf
    exact this.trans (add_le_add_right hlo _)

/-- Two nodes two seconds apart, the slow one only ever asking once the bucket is empty. -/
theorem allowed_le_of_forward_skewed :
    PgForward ⟨1, 1⟩ none [2, 0, 3] ∧ (pgAllowed ⟨1, 1⟩ [2, 0, 3] : ℚ) ≤ 1 + 1 * (3 - 0) := by
  have hf : PgForward ⟨1, 1⟩ none [2, 0, 3] := by
    refine ⟨?_, ?_, ?_, trivial⟩
    · exact .inl (by decide +kernel)
    · exact .inr (by decide +kernel)
    · exact .inl (by decide +kernel)
  refine ⟨hf, ?_⟩
  have h := (allowed_le_of_forward ⟨1, 1⟩ (by norm_num) (by norm_num) 2 [0, 3]).2.1 hf
  exact h

/-- Two nodes two seconds apart, asking in turn: the row grants all six consumes where the rate
bound is four, since every consume of the slow node moves `last_refill` back. -/
theorem pgAllowed_exceeds_bound :
    ¬ (pgAllowed ⟨2, 1⟩ [2, 0, 2, 0, 2, 0] : ℚ) ≤
      2 + 1 * (largest 2 [0, 2, 0, 2, 0] - smallest 2 [0, 2, 0, 2, 0]) := by
  have h : pgAllowed ⟨2, 1⟩ [2, 0, 2, 0, 2, 0] = 6 := by decide +kernel
  rw [h]
  norm_num [largest, smallest]

end CodeIndexer.TokenBucket
