import CodeIndexer.Auth.TokenBucket

/-!
# Idle buckets (`TokenBucketManager` in memory)

`consume` first drops the buckets that were idle for longer than `cleanup_seconds`. A call is made at one time, and
`_buckets` and `_last_access`, which have the same keys, are one table. A bucket that is dropped is full by then
(`level_of_idle`), and what a call does depends only on the refilled bucket (`call_congr`).
-/

namespace CodeIndexer.TokenBucket

open Function Refill

inductive Method
  | consume
  | refund
  | getTokens

inductive Answer
  | decision (d : Decision)
  | nothing
  | tokens (x : ℚ)
deriving DecidableEq

structure Request (K : Type) where
  method : Method
  key : K
  now : ℚ

section Calls

variable {K : Type} [DecidableEq K] (cfg : Config)

def Bucket.getTokens (b : Bucket) (now : ℚ) : Bucket :=
  if (b.consume cfg now).2.allowed then (b.consume cfg now).1.refund cfg now else (b.consume cfg now).1

def Bucket.call (b : Bucket) (now : ℚ) : Method → Bucket × Answer
  | .consume => ((b.consume cfg now).1, .decision (b.consume cfg now).2)
  | .refund => (b.refund cfg now, .nothing)
  | .getTokens => (b.getTokens cfg now, .tokens (b.getTokens cfg now).tokens)

/-- The buckets, each with the time of its last access. -/
abbrev Buckets (K : Type) := K → Option (Bucket × ℚ)

def cleanup (cleanupSeconds now : ℚ) (m : Buckets K) : Buckets K :=
  fun k => (m k).filter fun e => ¬ now - e.2 > cleanupSeconds

def use (m : Buckets K) (r : Request K) : Buckets K × Answer :=
  let p := (getBucket cfg ((m r.key).map Prod.fst) r.now).call cfg r.now r.method
  (update m r.key (some (p.1, r.now)), p.2)

/-- Without `cleanupSeconds` nothing is ever dropped. -/
def manage (cleanupSeconds : Option ℚ) (m : Buckets K) (r : Request K) : Buckets K × Answer :=
  match r.method, cleanupSeconds with
  | .consume, some seconds => use cfg (cleanup seconds r.now m) r
  | _, _ => use cfg m r

def answers (cleanupSeconds : Option ℚ) (m : Buckets K) : List (Request K) → List Answer
  | [] => []
  | r :: rs => (manage cfg cleanupSeconds m r).2 :: answers cleanupSeconds (manage cfg cleanupSeconds m r).1 rs

end Calls

variable {K : Type} {cfg : Config} {b b' : Bucket} {e : Bucket × ℚ} {t now seconds x : ℚ}

theorem call_congr (h : b.refill cfg now = b'.refill cfg now) (f : Method) : b.call cfg now f = b'.call cfg now f := by
  have hconsume : b.consume cfg now = b'.consume cfg now := by simp only [Bucket.consume, h]
  cases f with
  | consume => simp only [Bucket.call, hconsume]
  | refund => simp only [Bucket.call, Bucket.refund, h]
  | getTokens => simp only [Bucket.call, Bucket.getTokens, hconsume]

/-- What holds of a bucket and its last access at `t`. -/
structure Kept (cfg : Config) (t : ℚ) (e : Bucket × ℚ) : Prop where
  nonneg : min 0 (cfg.capacity : ℚ) ≤ e.1.tokens
  le : e.1.tokens ≤ cfg.capacity
  access : e.1.lastRefill = e.2
  past : e.2 ≤ t

theorem Kept.init : Kept cfg now (.init cfg now, now) := ⟨min_le_right _ _, le_rfl, rfl, le_rfl⟩

theorem Kept.refill (h : Kept cfg t e) (ht : t ≤ now) : e.1.refill cfg now = ⟨e.1.level cfg now, now⟩ := by
  have htokens : (e.1.refill cfg now).tokens = e.1.level cfg now := Bucket.refill_tokens h.le
  have hlast : (e.1.refill cfg now).lastRefill = max e.1.lastRefill now := Bucket.refill_lastRefill
  rw [h.access, max_eq_right (h.past.trans ht)] at hlast
  rw [← htokens]
  exact congrArg (Bucket.mk _) hlast

theorem Kept.call (h : Kept cfg t e) (hrate : 0 ≤ cfg.refillRate) (ht : t ≤ now) (f : Method) :
    Kept cfg now ((e.1.call cfg now f).1, now) := by
  have hrefill := h.refill ht
  have hnonneg : min 0 (cfg.capacity : ℚ) ≤ e.1.level cfg now :=
    h.nonneg.trans (le_refillTo hrate (le_max_left _ _) h.le)
  have hle : e.1.level cfg now ≤ cfg.capacity := refillTo_le_cap
  have hzero : min 0 (cfg.capacity : ℚ) ≤ 0 := min_le_left _ _
  generalize e.1.level cfg now = x at hrefill hnonneg hle
  cases f with
  | consume =>
    simp only [Bucket.call, Bucket.consume, hrefill]
    split_ifs with hone
    · exact ⟨by dsimp only; linarith, by dsimp only; linarith, rfl, le_rfl⟩
    · exact ⟨hnonneg, hle, rfl, le_rfl⟩
  | refund =>
    simp only [Bucket.call, Bucket.refund, hrefill]
    exact ⟨le_min (min_le_right _ _) (by linarith), min_le_left _ _, rfl, le_rfl⟩
  | getTokens =>
    simp only [Bucket.call, Bucket.getTokens, Bucket.consume, hrefill]
    by_cases hone : x ≥ 1
    · simp only [hone, Bucket.refund, Bucket.refill, sub_self, max_self, lt_irrefl, ite_false, ite_true, sub_add_cancel]
      exact ⟨le_min (min_le_right _ _) hnonneg, min_le_left _ _, rfl, le_rfl⟩
    · simp only [hone, ite_false, Bool.false_eq_true]
      exact ⟨hnonneg, hle, rfl, le_rfl⟩

theorem level_of_idle (hrate : 0 ≤ cfg.refillRate) (hfull : cfg.capacity ≤ seconds * cfg.refillRate)
    (h : Kept cfg t e) (hidle : seconds < now - e.2) : e.1.level cfg now = cfg.capacity := by
  have hpos : 0 ≤ max 0 (now - e.2) * cfg.refillRate := mul_nonneg (le_max_left _ _) hrate
  have henough : seconds * cfg.refillRate ≤ max 0 (now - e.2) * cfg.refillRate :=
    mul_le_mul_of_nonneg_right (hidle.le.trans (le_max_right _ _)) hrate
  rw [Bucket.level, refillTo, h.access, min_eq_left]
  rcases min_le_iff.1 h.nonneg with hzero | hcap <;> linarith

/-- The tables of the two managers at `t`: a bucket that only the second one has is full from then on. -/
def Same (cfg : Config) (t : ℚ) (m m' : Buckets K) : Prop :=
  ∀ k, (∀ e, m' k = some e → Kept cfg t e) ∧
    (m k = m' k ∨ m k = none ∧ ∃ e, m' k = some e ∧ ∀ now, t ≤ now → e.1.level cfg now = cfg.capacity)

variable {m m' : Buckets K}

theorem Same.mono (h : Same cfg t m m') (ht : t ≤ now) : Same cfg now m m' := by
  intro k
  obtain ⟨hkept, hsame⟩ := h k
  refine ⟨fun e he => ?_, hsame.imp_right ?_⟩
  · obtain ⟨hnonneg, hle, haccess, hpast⟩ := hkept e he
    exact ⟨hnonneg, hle, haccess, hpast.trans ht⟩
  · rintro ⟨hnone, e, he, hlevel⟩
    exact ⟨hnone, e, he, fun _ hle => hlevel _ (ht.trans hle)⟩

theorem Same.cleanup (hrate : 0 ≤ cfg.refillRate) (hfull : cfg.capacity ≤ seconds * cfg.refillRate)
    (h : Same cfg now m m') : Same cfg now (cleanup seconds now m) m' := by
  intro k
  obtain ⟨hkept, hsame⟩ := h k
  refine ⟨hkept, ?_⟩
  rcases hsame with heq | ⟨hnone, hlevel⟩
  · cases he : m' k with
    | none => simp [TokenBucket.cleanup, heq, he]
    | some e =>
      rw [TokenBucket.cleanup, heq, he, Option.filter_some]
      split_ifs with hidle
      · exact .inl rfl
      · have hidle : seconds + e.2 < now := by simpa using hidle
        exact .inr ⟨rfl, e, rfl, fun later hlater => level_of_idle hrate hfull (hkept e he) (by linarith)⟩
  · exact .inr ⟨by simp [TokenBucket.cleanup, hnone], hlevel⟩

theorem Same.getBucket (h : Same cfg now m m') (k : K) :
    (getBucket cfg ((m k).map Prod.fst) now).refill cfg now =
      (getBucket cfg ((m' k).map Prod.fst) now).refill cfg now := by
  rcases (h k).2 with heq | ⟨hnone, e, he, hlevel⟩
  · rw [heq]
  · have hinit : (Bucket.init cfg now).refill cfg now = ⟨(Bucket.init cfg now).level cfg now, now⟩ :=
      Kept.init.refill le_rfl
    have hfull : (Bucket.init cfg now).level cfg now = cfg.capacity := by simp [Bucket.level, Bucket.init, refillTo]
    rw [hnone, he]
    exact hinit.trans ((hfull.trans (hlevel now le_rfl).symm) ▸ (((h k).1 e he).refill le_rfl).symm)

theorem Same.kept (h : Same cfg now m m') (k : K) :
    ∃ last, Kept cfg now (TokenBucket.getBucket cfg ((m' k).map Prod.fst) now, last) := by
  cases he : m' k with
  | none => exact ⟨now, .init⟩
  | some e => exact ⟨e.2, (h k).1 e he⟩

variable [DecidableEq K] {r : Request K}

theorem Same.use (hrate : 0 ≤ cfg.refillRate) (h : Same cfg r.now m m') :
    (use cfg m r).2 = (use cfg m' r).2 ∧ Same cfg r.now (use cfg m r).1 (use cfg m' r).1 := by
  have hcall := call_congr (h.getBucket r.key) r.method
  simp only [TokenBucket.use, hcall, true_and]
  intro j
  by_cases hj : j = r.key
  · subst hj
    obtain ⟨last, hkept⟩ := h.kept r.key
    simpa only [update_self, Option.some.injEq, forall_eq', true_or, and_true] using hkept.call hrate le_rfl r.method
  · simpa only [update_of_ne hj] using h j

theorem Same.manage (hrate : 0 ≤ cfg.refillRate) (hfull : cfg.capacity ≤ seconds * cfg.refillRate)
    (h : Same cfg t m m') (ht : t ≤ r.now) :
    (manage cfg (some seconds) m r).2 = (manage cfg none m' r).2 ∧
      Same cfg r.now (manage cfg (some seconds) m r).1 (manage cfg none m' r).1 := by
  obtain ⟨f, k, now⟩ := r
  cases f with
  | consume => exact Same.use hrate ((h.mono ht).cleanup hrate hfull)
  | refund | getTokens => exact Same.use hrate (h.mono ht)

theorem answers_of_same (hrate : 0 ≤ cfg.refillRate) (hfull : cfg.capacity ≤ seconds * cfg.refillRate)
    {rs : List (Request K)} (h : Same cfg t m m') (hsorted : ((t :: rs.map Request.now)).Pairwise (· ≤ ·)) :
    answers cfg (some seconds) m rs = answers cfg none m' rs := by
  induction rs generalizing t m m' with
  | nil => rfl
  | cons r rs ih =>
    rw [List.map_cons, List.pairwise_cons] at hsorted
    obtain ⟨hanswer, hsame⟩ := h.manage hrate hfull (hsorted.1 _ List.mem_cons_self)
    simp only [answers, hanswer, ih hsame hsorted.2]

/-- When a full refill takes no longer than `cleanup_seconds`, no answer depends on the clean-up. -/
theorem cleanup_invisible (cfg : Config) (cleanupSeconds : ℚ) (hrate : 0 ≤ cfg.refillRate)
    (hfull : cfg.capacity ≤ cleanupSeconds * cfg.refillRate) (rs : List (Request K))
    (hsorted : (rs.map Request.now).Pairwise (· ≤ ·)) :
    answers cfg (some cleanupSeconds) (fun _ => none) rs = answers cfg none (fun _ => none) rs := by
  cases rs with
  | nil => rfl
  | cons r rs =>
    refine answers_of_same hrate hfull (t := r.now) (fun k => ⟨nofun, .inl rfl⟩) ?_
    refine List.pairwise_cons.2 ⟨fun x hx => ?_, hsorted⟩
    rcases List.mem_cons.1 hx with rfl | hx
    · exact le_rfl
    · exact List.rel_of_pairwise_cons hsorted hx

/-- The settings of `rate_limiter`; the second call drops the bucket of the first. -/
theorem cleanup_invisible_rate_limiter :
    answers ⟨10, 1 / 6⟩ (some 3600) (fun _ => none)
      [⟨.consume, 0, 0⟩, ⟨.consume, 1, 4000⟩, (⟨.getTokens, 0, 4000⟩ : Request ℕ)] =
      [.decision ⟨true, 0⟩, .decision ⟨true, 0⟩, .tokens 10] :=
  (cleanup_invisible ⟨10, 1 / 6⟩ 3600 (by norm_num) (by norm_num) _ (by decide +kernel)).trans (by decide +kernel)

end CodeIndexer.TokenBucket
