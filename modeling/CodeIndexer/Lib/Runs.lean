import Mathlib

/-!
# Maximal runs and windows

`runs p l` are the maximal stretches of `l` on which `p` holds, `windows n l` its factors of length `n`.
A nonempty factor of `l` lies in one of the runs exactly when `p` holds on all of it, so the windows of
the runs are the windows of `l` on which `p` holds.
-/

namespace Runs

open List

variable {α β : Type*}

/-- The runs of `cur ++ l`, where `cur` is the run being collected. -/
def runsFrom (p : α → Bool) : List α → List α → List (List α)
  | cur, [] => if cur.isEmpty then [] else [cur]
  | cur, x :: l =>
    if p x then runsFrom p (cur ++ [x]) l
    else if cur.isEmpty then runsFrom p [] l
    else cur :: runsFrom p [] l

def runs (p : α → Bool) (l : List α) : List (List α) := runsFrom p [] l

def windows (n : ℕ) (l : List α) : List (List α) :=
  (List.range (l.length + 1 - n)).map fun i => (l.drop i).take n

variable {w l : List α} {p : α → Bool}

theorem infix_append_cons_iff {a b : List α} {x : α} (hx : x ∉ w) (hw : w ≠ []) :
    w <:+: a ++ x :: b ↔ w <:+: a ∨ w <:+: b := by
  constructor
  · rintro ⟨s, t, h⟩
    rw [append_assoc] at h
    rcases append_eq_append_iff.1 h with ⟨a', ha, hwt⟩ | ⟨c, -, hxb⟩
    · rcases append_eq_append_iff.1 hwt with ⟨c, rfl, -⟩ | ⟨c, rfl, hxb⟩
      · exact .inl ⟨s, c, by rw [ha, append_assoc]⟩
      · rcases c with _ | ⟨y, c⟩
        · exact .inl ⟨s, [], by simp [ha]⟩
        · obtain ⟨rfl, -⟩ := List.cons.inj hxb
          exact absurd (by simp) hx
    · rcases c with _ | ⟨y, c⟩
      · rcases w with _ | ⟨y, w⟩
        · exact absurd rfl hw
        · obtain ⟨rfl, -⟩ := List.cons.inj hxb
          exact absurd (by simp) hx
      · obtain ⟨-, rfl⟩ := List.cons.inj hxb
        exact .inr ⟨c, t, append_assoc _ _ _⟩
  · rintro (h | h)
    · exact h.trans (infix_append' [] a (x :: b))
    · exact h.trans ⟨a ++ [x], [], by simp⟩

theorem infix_runsFrom_iff (hw : w ≠ []) {cur : List α} (hcur : ∀ x ∈ cur, p x)
    (l : List α) : (∃ r ∈ runsFrom p cur l, w <:+: r) ↔ w <:+: cur ++ l ∧ ∀ x ∈ w, p x := by
  induction l generalizing cur with
  | nil =>
    have hall : w <:+: cur → ∀ x ∈ w, p x := fun h x hx => hcur x (h.subset hx)
    rcases cur with _ | ⟨c, cur⟩
    · simp [runsFrom, hw]
    · simpa [runsFrom] using hall
  | cons x l ih =>
    by_cases hx : p x
    · have hcur' : ∀ y ∈ cur ++ [x], p y := by
        intro y hy
        rcases mem_append.1 hy with hy | hy
        · exact hcur y hy
        · exact mem_singleton.1 hy ▸ hx
      rw [runsFrom, if_pos hx, ih hcur', append_assoc]
      rfl
    · -- a factor on which `p` holds cannot contain `x`, so it lies in `cur` or behind `x`
      have hsplit : (w <:+: cur ++ x :: l ∧ ∀ y ∈ w, p y) ↔ w <:+: cur ∨ w <:+: l ∧ ∀ y ∈ w, p y := by
        constructor
        · rintro ⟨h, hall⟩
          have hnot : x ∉ w := fun hmem => hx (hall x hmem)
          exact ((infix_append_cons_iff hnot hw).1 h).imp_right fun h => ⟨h, hall⟩
        · rintro (h | ⟨h, hall⟩)
          · exact ⟨h.trans (infix_append' [] cur (x :: l)), fun y hy => hcur y (h.subset hy)⟩
          · exact ⟨h.trans ⟨cur ++ [x], [], by simp⟩, hall⟩
      have ih := @ih [] (by simp)
      rw [runsFrom, if_neg hx, hsplit]
      rcases cur with _ | ⟨c, cur⟩
      · simp [ih, hw]
      · simp [ih]

theorem infix_runs_iff (hw : w ≠ []) (l : List α) : (∃ r ∈ runs p l, w <:+: r) ↔ w <:+: l ∧ ∀ x ∈ w, p x :=
  infix_runsFrom_iff hw (by simp) l

theorem of_mem_runs {r : List α} (hr : r ∈ runs p l) : ∀ x ∈ r, p x := by
  intro x hx
  have hfactor : [x] <:+: r := by
    obtain ⟨s, t, rfl⟩ := append_of_mem hx
    exact ⟨s, t, by simp⟩
  exact ((infix_runs_iff (cons_ne_nil x []) l).1 ⟨r, hr, hfactor⟩).2 x mem_cons_self

theorem mem_windows {n : ℕ} : w ∈ windows n l ↔ w.length = n ∧ w <:+: l := by
  simp only [windows, mem_map, mem_range]
  constructor
  · rintro ⟨i, hi, rfl⟩
    refine ⟨?_, (List.take_prefix _ _).isInfix.trans (drop_suffix _ _).isInfix⟩
    rw [length_take, length_drop]
    omega
  · rintro ⟨rfl, s, t, rfl⟩
    refine ⟨s.length, ?_, by simp⟩
    simp only [length_append]
    omega

theorem windows_map (f : α → β) (n : ℕ) (l : List α) : windows n (l.map f) = (windows n l).map (List.map f) := by
  simp [windows, map_drop, map_take, Function.comp_def]

end Runs
