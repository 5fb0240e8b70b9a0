import Mathlib

/-!
# The proleptic Gregorian calendar

Ordinals count days from 1 January of year 1, which is day 1. `ymd2ord` and `ord2ymd` are the two
directions; `ord2ymd` finds the year by the 400/100/4/1-year cycles and the month by an estimate
that is off by at most one. `ord2ymd_spec` says that it returns a valid date with the ordinal asked
for; the rest bounds a day by the month and quarter it lies in.
-/

namespace Calendar

def isLeap (y : ℕ) : Bool := y % 4 == 0 && (y % 100 != 0 || y % 400 == 0)

def daysBeforeYear (y : ℕ) : ℕ := (y - 1) * 365 + (y - 1) / 4 - (y - 1) / 100 + (y - 1) / 400

/-- Days of a common year before month `m`; `13` is the year's length. -/
def daysBeforeMonthCommon : ℕ → ℕ
  | 1 => 0 | 2 => 31 | 3 => 59 | 4 => 90 | 5 => 120 | 6 => 151 | 7 => 181
  | 8 => 212 | 9 => 243 | 10 => 273 | 11 => 304 | 12 => 334 | 13 => 365 | _ => 0

variable (leap : Bool)

def daysBeforeMonth (m : ℕ) : ℕ :=
  daysBeforeMonthCommon m + if leap && 2 < m then 1 else 0

def daysInMonth (m : ℕ) : ℕ := daysBeforeMonth leap (m + 1) - daysBeforeMonth leap m

def ymd2ord (y m d : ℕ) : ℕ := daysBeforeYear y + daysBeforeMonth (isLeap y) m + d

def monthDay (n : ℕ) : ℕ × ℕ :=
  let m := (n + 50) / 32
  if daysBeforeMonth leap m > n then (m - 1, n - daysBeforeMonth leap (m - 1) + 1)
  else (m, n - daysBeforeMonth leap m + 1)

def ord2ymd (ord : ℕ) : ℕ × ℕ × ℕ :=
  let n := ord - 1
  let n400 := n / 146097
  let n100 := n % 146097 / 36524
  let n4 := n % 146097 % 36524 / 1461
  let n1 := n % 146097 % 36524 % 1461 / 365
  let year := n400 * 400 + n100 * 100 + n4 * 4 + n1 + 1
  if n1 = 4 ∨ n100 = 4 then (year - 1, 12, 31)
  else
    let leap := n1 == 3 && (n4 != 24 || n100 == 3)
    (year, monthDay leap (n % 146097 % 36524 % 1461 % 365))

structure IsDate (y m d : ℕ) : Prop where
  year : 1 ≤ y
  month_pos : 1 ≤ m
  month_le : m ≤ 12
  day_pos : 1 ≤ d
  day_le : d ≤ daysInMonth (isLeap y) m

instance (y m d : ℕ) : Decidable (IsDate y m d) :=
  decidable_of_iff (1 ≤ y ∧ 1 ≤ m ∧ m ≤ 12 ∧ 1 ≤ d ∧ d ≤ daysInMonth (isLeap y) m)
    ⟨fun ⟨h₁, h₂, h₃, h₄, h₅⟩ => ⟨h₁, h₂, h₃, h₄, h₅⟩,
      fun h => ⟨h.year, h.month_pos, h.month_le, h.day_pos, h.day_le⟩⟩

theorem monthDay_spec : ∀ n < if leap then 366 else 365,
    1 ≤ (monthDay leap n).1 ∧ (monthDay leap n).1 ≤ 12 ∧ 1 ≤ (monthDay leap n).2 ∧
      (monthDay leap n).2 ≤ daysInMonth leap (monthDay leap n).1 ∧
      daysBeforeMonth leap (monthDay leap n).1 + (monthDay leap n).2 = n + 1 := by
  cases leap <;> decide +kernel

theorem isLeap_iff (y : ℕ) : isLeap y = true ↔ y % 4 = 0 ∧ (y % 100 ≠ 0 ∨ y % 400 = 0) := by
  simp [isLeap]

variable {a b c d y m k y' : ℕ}

theorem daysBeforeYear_cycles (hb : b < 4) (hc : c < 25) (hd : d < 4) :
    daysBeforeYear (a * 400 + b * 100 + c * 4 + d + 1) = a * 146097 + b * 36524 + c * 1461 + d * 365 := by
  unfold daysBeforeYear
  omega

theorem isLeap_cycles (hb : b < 4) (hc : c < 25) (hd : d < 4) :
    isLeap (a * 400 + b * 100 + c * 4 + d + 1) = (d == 3 && (c != 24 || b == 3)) := by
  rw [Bool.eq_iff_iff, isLeap_iff]
  simp only [Bool.and_eq_true, Bool.or_eq_true, beq_iff_eq, bne_iff_ne]
  omega

theorem daysBeforeYear_succ (hy : 1 ≤ y) :
    daysBeforeYear (y + 1) = daysBeforeYear y + if isLeap y then 366 else 365 := by
  have h₄ : y / 4 = (y - 1) / 4 + if y % 4 = 0 then 1 else 0 := by split <;> omega
  have h₁₀₀ : y / 100 = (y - 1) / 100 + if y % 100 = 0 then 1 else 0 := by split <;> omega
  have h₄₀₀ : y / 400 = (y - 1) / 400 + if y % 400 = 0 then 1 else 0 := by split <;> omega
  have hle : (y - 1) / 100 ≤ (y - 1) / 4 := Nat.div_le_div_left (by decide) (by decide)
  have hcentury : y % 100 = 0 → y % 4 = 0 := by omega
  have hcycle : y % 400 = 0 → y % 100 = 0 := by omega
  unfold daysBeforeYear
  rw [Nat.add_sub_cancel, h₄, h₁₀₀, h₄₀₀]
  -- What is left is linear in the quotients, with the remainders only compared with 0.
  have hl := isLeap_iff y
  generalize (y - 1) / 4 = q₄, (y - 1) / 100 = q₁₀₀, (y - 1) / 400 = q₄₀₀ at hle ⊢
  generalize y % 4 = r₄, y % 100 = r₁₀₀, y % 400 = r₄₀₀ at hcentury hcycle hl ⊢
  by_cases hleap : isLeap y = true
  · rw [if_pos hleap]
    have := hl.1 hleap
    split_ifs <;> omega
  · rw [if_neg hleap]
    have : ¬ (r₄ = 0 ∧ (r₁₀₀ ≠ 0 ∨ r₄₀₀ = 0)) := fun h => hleap (hl.2 h)
    split_ifs <;> omega

theorem december_last : ∀ leap, daysBeforeMonth leap 12 + 31 = if leap then 366 else 365 := by decide

theorem isDate_december_last (h : 1 ≤ y) : IsDate y 12 31 :=
  ⟨h, by decide, by decide, by decide, by cases isLeap y <;> decide⟩

theorem ymd2ord_december_last (hb : b < 4) (hc : c < 25) (hl : c ≠ 24 ∨ b = 3) :
    ymd2ord (a * 400 + b * 100 + c * 4 + 3 + 1) 12 31 =
      a * 146097 + b * 36524 + c * 1461 + 1461 := by
  have hleap : isLeap (a * 400 + b * 100 + c * 4 + 3 + 1) = true := by
    rw [isLeap_cycles hb hc (by decide)]
    simpa using hl
  rw [ymd2ord, hleap, add_assoc, december_last, daysBeforeYear_cycles hb hc (by decide)]
  simp only [↓reduceIte]

theorem ord2ymd_spec {ord : ℕ} (h : 1 ≤ ord) :
    IsDate (ord2ymd ord).1 (ord2ymd ord).2.1 (ord2ymd ord).2.2 ∧
      ymd2ord (ord2ymd ord).1 (ord2ymd ord).2.1 (ord2ymd ord).2.2 = ord := by
  unfold ord2ymd
  extract_lets n a b c d year leap
  set r := n % 146097 % 36524 % 1461 % 365 with hr
  have hc : c < 25 := by omega
  by_cases hlast : d = 4 ∨ b = 4
  · -- the last day of a leap year that closes a 4-year or a 400-year cycle
    simp only [hlast, ↓reduceIte]
    refine ⟨isDate_december_last (by omega), ?_⟩
    by_cases hb : b = 4
    · have hyear : year - 1 = a * 400 + 3 * 100 + 24 * 4 + 3 + 1 := by omega
      rw [hyear, ymd2ord_december_last (b := 3) (c := 24) (by decide) (by decide) (by decide)]
      omega
    · have hyear : year - 1 = a * 400 + b * 100 + c * 4 + 3 + 1 := by omega
      rw [hyear, ymd2ord_december_last (by omega) hc (by omega)]
      omega
  · simp only [hlast, ↓reduceIte]
    have hb : b < 4 := by omega
    have hd : d < 4 := by omega
    have hleap : isLeap year = leap := isLeap_cycles hb hc hd
    have hdays : daysBeforeYear year = a * 146097 + b * 36524 + c * 1461 + d * 365 :=
      daysBeforeYear_cycles hb hc hd
    have hr' : r < if leap then 366 else 365 := by
      split <;> omega
    obtain ⟨hm, hm', hday, hday', hs⟩ := monthDay_spec leap r hr'
    refine ⟨⟨by omega, hm, hm', hday, by rw [hleap]; exact hday'⟩, ?_⟩
    rw [ymd2ord, hleap, hdays]
    omega

/-! ### Quarters -/

theorem daysBeforeMonth_mono : ∀ m ≤ 13, ∀ m' ≤ m, 1 ≤ m' → daysBeforeMonth leap m' ≤ daysBeforeMonth leap m := by
  cases leap <;> decide

theorem daysBeforeMonth_thirteen : ∀ leap, daysBeforeMonth leap 13 = if leap then 366 else 365 := by
  decide

theorem first_le_ymd2ord (h : IsDate y m d) (hk : 1 ≤ k) (hkm : k ≤ m) : ymd2ord y k 1 ≤ ymd2ord y m d := by
  have := daysBeforeMonth_mono (isLeap y) m (h.month_le.trans (by decide)) k hkm hk
  have := h.day_pos
  unfold ymd2ord
  omega

theorem ymd2ord_lt_first (h : IsDate y m d) (hmk : m < k) (hk : k ≤ 12) : ymd2ord y m d < ymd2ord y k 1 := by
  have h₁ := daysBeforeMonth_mono (isLeap y) k (by omega) (m + 1) hmk (by omega)
  have h₂ := daysBeforeMonth_mono (isLeap y) (m + 1) (by omega) m (by omega) h.month_pos
  have := h.day_le
  unfold daysInMonth at this
  unfold ymd2ord
  omega

theorem ymd2ord_lt_next_year (h : IsDate y m d) : ymd2ord y m d < ymd2ord (y + 1) 1 1 := by
  have h₁ := daysBeforeMonth_mono (isLeap y) 13 (by decide) (m + 1) (by have := h.month_le; omega)
    (by omega)
  have h₂ := daysBeforeMonth_mono (isLeap y) (m + 1) (by have := h.month_le; omega) m (by omega) h.month_pos
  have hday := h.day_le
  unfold daysInMonth at hday
  rw [daysBeforeMonth_thirteen] at h₁
  have hjan : daysBeforeMonth (isLeap (y + 1)) 1 = 0 := by cases isLeap (y + 1) <;> rfl
  unfold ymd2ord
  rw [daysBeforeYear_succ h.year, hjan]
  omega

theorem daysBeforeYear_mono : Monotone daysBeforeYear := by
  refine monotone_nat_of_le_succ fun y => ?_
  rcases Nat.eq_zero_or_pos y with rfl | hy
  · decide
  · rw [daysBeforeYear_succ hy]
    exact Nat.le_add_right _ _

theorem first_le_of_year_le (hy : y ≤ y') (h : IsDate y' m d) : ymd2ord y 1 1 ≤ ymd2ord y' m d := by
  have hjan : ∀ leap, daysBeforeMonth leap 1 = 0 := by decide
  have := daysBeforeYear_mono hy
  have := h.day_pos
  unfold ymd2ord
  rw [hjan]
  omega

theorem ymd2ord_inj {m' d' : ℕ} (h : IsDate y m d) (h' : IsDate y' m' d')
    (heq : ymd2ord y m d = ymd2ord y' m' d') : y = y' ∧ m = m' ∧ d = d' := by
  have hy : y = y' := by
    rcases Nat.lt_trichotomy y y' with hlt | rfl | hlt
    · exact absurd heq ((ymd2ord_lt_next_year h).trans_le (first_le_of_year_le hlt h')).ne
    · rfl
    · exact absurd heq.symm ((ymd2ord_lt_next_year h').trans_le (first_le_of_year_le hlt h)).ne
  subst hy
  have hm : m = m' := by
    rcases Nat.lt_trichotomy m m' with hlt | rfl | hlt
    · exact absurd heq ((ymd2ord_lt_first h hlt h'.month_le).trans_le
        (first_le_ymd2ord h' h'.month_pos (le_refl _))).ne
    · rfl
    · exact absurd heq.symm ((ymd2ord_lt_first h' hlt h.month_le).trans_le
        (first_le_ymd2ord h h.month_pos (le_refl _))).ne
  subst hm
  unfold ymd2ord at heq
  exact ⟨rfl, rfl, by omega⟩

end Calendar
