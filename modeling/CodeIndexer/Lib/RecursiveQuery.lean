import Mathlib

/-!
# Recursive queries

A `WITH RECURSIVE` table whose two parts are joined by `UNION`, as SQLite evaluates it: rows wait in a
queue, the recursive part is run on one row at a time, and what it yields is queued unless the table or the
queue has that row already. `Derived` is the table this computes, as a set. A query need not end, so `eval`
takes fuel; it ends when only finitely many rows are derived, which a depth counter in the rows ensures.
-/

namespace RecursiveQuery

open List
variable {R : Type*}

/-- The rows of the table, with `init` the initial part and `step` the recursive one. -/
inductive Derived (init : List R) (step : R → List R) : R → Prop
  | base {r : R} : r ∈ init → Derived init step r
  | next {r r' : R} : Derived init step r → r' ∈ step r → Derived init step r'

/-- What holds whenever a row is taken from the queue. -/
structure LoopInv (init : List R) (step : R → List R) (queue done : List R) : Prop where
  nodup : (done ++ queue).Nodup
  sound : ∀ r ∈ done ++ queue, Derived init step r
  base : ∀ r ∈ init, r ∈ done ++ queue
  next : ∀ r ∈ done, ∀ r' ∈ step r, r' ∈ done ++ queue

variable {init : List R} {step : R → List R}

theorem LoopInv.mem_iff {done : List R} (h : LoopInv init step [] done) (r : R) : r ∈ done ↔ Derived init step r := by
  constructor
  · exact fun hr => h.sound r (by simpa using hr)
  · intro hr
    induction hr with
    | base hr => simpa using h.base _ hr
    | next _ hnext ih => simpa using h.next _ ih _ hnext

section
variable [DecidableEq R]

def loop (step : R → List R) : ℕ → List R → List R → Option (List R)
  | _, [], done => some done
  | 0, _ :: _, _ => none
  | fuel + 1, r :: queue, done =>
    let fresh := (step r).dedup.filter fun r' => r' ∉ done ++ r :: queue
    loop step fuel (queue ++ fresh) (done ++ [r])

def eval (step : R → List R) (fuel : ℕ) (init : List R) : Option (List R) :=
  loop step fuel init.dedup []

theorem LoopInv.start : LoopInv init step init.dedup [] where
  nodup := nodup_dedup init
  sound _ hr := .base (mem_dedup.mp hr)
  base _ hr := mem_dedup.mpr hr
  next _ hr := absurd hr not_mem_nil

theorem LoopInv.advance {r : R} {queue done : List R} (h : LoopInv init step (r :: queue) done) :
    LoopInv init step (queue ++ (step r).dedup.filter fun r' => r' ∉ done ++ r :: queue) (done ++ [r]) := by
  have hassoc : ∀ more : List R, done ++ [r] ++ (queue ++ more) = done ++ r :: queue ++ more := by simp
  refine ⟨?_, ?_, ?_, ?_⟩
  · rw [hassoc, nodup_append]
    refine ⟨h.nodup, (nodup_dedup _).filter _, ?_⟩
    rintro a ha b hb rfl
    exact (of_decide_eq_true (mem_filter.mp hb).2) ha
  · rw [hassoc]
    intro r' hr'
    rcases mem_append.mp hr' with hr' | hr'
    · exact h.sound r' hr'
    · exact .next (h.sound r (by simp)) (mem_dedup.mp (mem_filter.mp hr').1)
  · rw [hassoc]
    exact fun r' hr' => mem_append_left _ (h.base r' hr')
  · rw [hassoc]
    intro a ha r' hr'
    rw [mem_append]
    rcases mem_append.mp ha with ha | ha
    · exact .inl (h.next a ha r' hr')
    · obtain rfl := mem_singleton.mp ha
      by_cases hseen : r' ∈ done ++ a :: queue
      · exact .inl hseen
      · exact .inr (mem_filter.mpr ⟨mem_dedup.mpr hr', decide_eq_true hseen⟩)

theorem loop_spec {fuel : ℕ} {queue done out : List R} (h : LoopInv init step queue done)
    (hout : loop step fuel queue done = some out) : out.Nodup ∧ ∀ r, r ∈ out ↔ Derived init step r := by
  induction fuel generalizing queue done with
  | zero =>
    cases queue with
    | nil => cases hout; exact ⟨by simpa using h.nodup, h.mem_iff⟩
    | cons r queue => cases hout
  | succ fuel ih =>
    cases queue with
    | nil => cases hout; exact ⟨by simpa using h.nodup, h.mem_iff⟩
    | cons r queue => exact ih h.advance hout

theorem eval_spec {fuel : ℕ} {out : List R} (h : eval step fuel init = some out) :
    out.Nodup ∧ ∀ r, r ∈ out ↔ Derived init step r :=
  loop_spec .start h

variable {all : List R}

/-- Every turn moves a row of `all` to the rows done, so there are no more turns than rows. -/
theorem loop_ends (hall : ∀ r, Derived init step r → r ∈ all) {fuel : ℕ}
    {queue done : List R} (h : LoopInv init step queue done) (hfuel : all.length ≤ fuel + done.length) :
    ∃ out, loop step fuel queue done = some out := by
  induction fuel generalizing queue done with
  | zero =>
    cases queue with
    | nil => exact ⟨done, rfl⟩
    | cons r queue =>
      have hsub : done ++ r :: queue ⊆ all := fun r' hr' => hall r' (h.sound r' hr')
      have hlen := (h.nodup.subperm hsub).length_le
      simp only [length_append, length_cons] at hlen
      omega
  | succ fuel ih =>
    cases queue with
    | nil => exact ⟨done, rfl⟩
    | cons r queue =>
      refine ih h.advance ?_
      simp only [length_append, length_singleton]
      omega

theorem loop_mono {fuel fuel' : ℕ} (hfuel : fuel ≤ fuel') {queue done out : List R}
    (h : loop step fuel queue done = some out) : loop step fuel' queue done = some out := by
  induction fuel generalizing fuel' queue done with
  | zero =>
    cases queue with
    | nil => cases fuel' <;> exact h
    | cons r queue => cases h
  | succ fuel ih =>
    obtain ⟨fuel', rfl⟩ := Nat.exists_eq_add_of_le' (Nat.le_of_add_left_le hfuel)
    cases queue with
    | nil => exact h
    | cons r queue => exact ih (Nat.le_of_succ_le_succ hfuel) h

theorem exists_eval_eq (hall : ∀ r, Derived init step r → r ∈ all) :
    ∃ out, ∀ fuel ≥ all.length, eval step fuel init = some out := by
  obtain ⟨out, hout⟩ := loop_ends hall (.start : LoopInv init step _ _) (Nat.le_add_right _ _)
  exact ⟨out, fun fuel hfuel => loop_mono hfuel hout⟩

end

/-! ### Rows with a depth -/

/-- The rows that `k` turns of the recursive part yield. -/
def level (init : List R) (step : R → List R) : ℕ → List R
  | 0 => init
  | k + 1 => (level init step k).flatMap step

def levels (init : List R) (step : R → List R) (bound : ℕ) : List R :=
  (List.range (bound + 1)).flatMap (level init step)

/-- Where the initial rows have depth 0, each turn goes one deeper, and rows at `bound` yield nothing,
all rows are found within `bound` turns. -/
theorem mem_levels {depth : R → ℕ} {bound : ℕ}
    (hbase : ∀ r ∈ init, depth r = 0)
    (hnext : ∀ r, ∀ r' ∈ step r, depth r < bound ∧ depth r' = depth r + 1) {r : R}
    (h : Derived init step r) : r ∈ levels init step bound := by
  have hlevel : depth r ≤ bound ∧ r ∈ level init step (depth r) := by
    induction h with
    | base hr =>
      rw [hbase _ hr]
      exact ⟨Nat.zero_le _, hr⟩
    | next _ hstep ih =>
      obtain ⟨hlt, hdepth⟩ := hnext _ _ hstep
      rw [hdepth]
      exact ⟨hlt, mem_flatMap.mpr ⟨_, ih.2, hstep⟩⟩
  exact mem_flatMap.mpr ⟨depth r, mem_range.mpr (Nat.lt_succ_of_le hlevel.1), hlevel.2⟩

theorem exists_eval_eq_of_depth [DecidableEq R] (depth : R → ℕ) (bound : ℕ) (hbase : ∀ r ∈ init, depth r = 0)
    (hnext : ∀ r, ∀ r' ∈ step r, depth r < bound ∧ depth r' = depth r + 1) :
    ∃ out fuel₀, ∀ fuel ≥ fuel₀, eval step fuel init = some out := by
  obtain ⟨out, hout⟩ := exists_eval_eq fun r hr => mem_levels hbase hnext (r := r) hr
  exact ⟨out, _, hout⟩

end RecursiveQuery
