import Mathlib

/-!
# Clamped linear refill

`refillTo cap rate x e`: a level `x` after `e` units of time of refilling at `rate`, never above
`cap`. Over any ordered field; for a non-negative rate, refilling is an action of the non-negative
times (`refillTo_add`) that commutes with a clamped credit (`refillTo_credit`).
-/

namespace Refill

variable {K : Type*} [Field K] [LinearOrder K]

/-- The level `x` after refilling for `e` at `rate`, clamped at `cap`. -/
def refillTo (cap rate x e : K) : K := min cap (x + e * rate)

variable {cap rate x e e₁ e₂ : K}

theorem refillTo_le_cap : refillTo cap rate x e ≤ cap := min_le_left _ _

theorem refillTo_le : refillTo cap rate x e ≤ x + e * rate := min_le_right _ _

theorem refillTo_zero (h : x ≤ cap) : refillTo cap rate x 0 = x := by
  simp [refillTo, h]

variable [IsStrictOrderedRing K]

theorem le_refillTo (hr : 0 ≤ rate) (he : 0 ≤ e) (h : x ≤ cap) : x ≤ refillTo cap rate x e :=
  le_min h (le_add_of_nonneg_right (mul_nonneg he hr))

theorem refillTo_add (hr : 0 ≤ rate) (he : 0 ≤ e₂) :
    refillTo cap rate (refillTo cap rate x e₁) e₂ = refillTo cap rate x (e₁ + e₂) := by
  have hpos : 0 ≤ e₂ * rate := mul_nonneg he hr
  simp only [refillTo]
  rw [min_add_add_right cap (x + e₁ * rate) (e₂ * rate) |>.symm, ← min_assoc,
    min_eq_left (le_add_of_nonneg_right hpos)]
  ring_nf

theorem refillTo_credit {c : K} (hr : 0 ≤ rate) (he : 0 ≤ e) (hc : 0 ≤ c) :
    refillTo cap rate (min cap (x + c)) e = min cap (refillTo cap rate x e + c) := by
  have hpos : 0 ≤ e * rate := mul_nonneg he hr
  simp only [refillTo]
  rw [← min_add_add_right cap (x + c), ← min_add_add_right cap (x + e * rate), ← min_assoc,
    ← min_assoc, min_eq_left (le_add_of_nonneg_right hpos), min_eq_left (le_add_of_nonneg_right hc)]
  ring_nf

end Refill
