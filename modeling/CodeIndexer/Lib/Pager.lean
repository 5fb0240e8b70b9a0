import Mathlib

/-!
# Paged readers

A pager gives the page at an offset and the offset of the next page. `Follows scroll o pages` says
that following the offsets from `o` ends, with these pages. Loops over a pager take fuel; `Returns`
is the result they have with enough of it.
-/

/-- With enough fuel the loop ends with `b`. -/
def Returns {β : Type*} (loop : ℕ → Option β) (b : β) : Prop := ∃ n, ∀ m, n ≤ m → loop m = some b

theorem Returns.unique {β : Type*} {loop : ℕ → Option β} {b c : β} (hb : Returns loop b) (hc : Returns loop c) :
    b = c := by
  obtain ⟨n, hn⟩ := hb
  obtain ⟨m, hm⟩ := hc
  exact Option.mem_unique (hn _ (le_max_left n m)) (hm _ (le_max_right n m))

theorem Returns.exists_and_iff {β : Type*} {loop : ℕ → Option β} {b : β} {P : β → Prop} (h : Returns loop b) :
    (∃ c, Returns loop c ∧ P c) ↔ P b := by
  constructor
  · rintro ⟨c, hc, hP⟩
    exact h.unique hc ▸ hP
  · exact fun hP => ⟨b, h, hP⟩

abbrev Pager (ω α : Type*) := Option ω → List α × Option ω

namespace Pager

variable {ω α : Type*} {scroll : Pager ω α} {o : Option ω} {pages pages' : List (List α)}

inductive Follows (scroll : Pager ω α) : Option ω → List (List α) → Prop
  | last {o : Option ω} {page : List α} : scroll o = (page, none) → Follows scroll o [page]
  | next {o : Option ω} {page : List α} {o' : ω} {pages : List (List α)} :
    scroll o = (page, some o') → Follows scroll (some o') pages → Follows scroll o (page :: pages)

namespace Follows

theorem unique (h : Follows scroll o pages) (h' : Follows scroll o pages') : pages = pages' := by
  induction h generalizing pages' with
  | last he =>
    cases h' with
    | last he' => rw [Prod.mk.inj (he.symm.trans he') |>.1]
    | next he' => exact absurd (Prod.mk.inj (he.symm.trans he')).2 (by simp)
  | next he _ ih =>
    cases h' with
    | last he' => exact absurd (Prod.mk.inj (he.symm.trans he')).2 (by simp)
    | next he' h' =>
      obtain ⟨rfl, ho⟩ := Prod.mk.inj (he.symm.trans he')
      cases ho
      rw [ih h']

theorem not_stuck (h : Follows scroll o pages) {o' : ω} (hnext : (scroll o).2 = some o') : o ≠ some o' := by
  rintro rfl
  cases h with
  | last he => simp [he] at hnext
  | @next _ page o₁ rest he hrest =>
    obtain rfl : o₁ = o' := by simpa [he] using hnext
    have hloop : rest = page :: rest := hrest.unique (.next he hrest)
    simpa using congrArg List.length hloop

end Follows

end Pager
