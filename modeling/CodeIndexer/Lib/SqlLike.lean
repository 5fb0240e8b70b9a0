import Mathlib

/-!
# `LIKE`

SQLite's `LIKE` without an `ESCAPE` clause: `%` stands for any text, `_` for any one character, and every
other character for itself in either case of the ASCII letters. `Resembles p t` is that reading of a
pattern `p` as a relation to the texts it matches, and `like` is the matcher.
-/

namespace SqlLike

inductive Resembles : List Char → List Char → Prop
  | nil : Resembles [] []
  | anyText (u : List Char) {p t : List Char} : Resembles p t → Resembles ('%' :: p) (u ++ t)
  | anyChar (c : Char) {p t : List Char} : Resembles p t → Resembles ('_' :: p) (c :: t)
  | char {a c : Char} {p t : List Char} : a ≠ '%' → a ≠ '_' → a.toLower = c.toLower → Resembles p t →
      Resembles (a :: p) (c :: t)

def like : List Char → List Char → Bool
  | [], t => t.isEmpty
  | a :: p, t =>
    if a = '%' then t.tails.any (like p)
    else match t with
      | [] => false
      | c :: t => (a = '_' || a.toLower = c.toLower) && like p t

/-- A character that is no wildcard and neither case of a letter. -/
def Plain (c : Char) : Prop := c ≠ '%' ∧ c ≠ '_' ∧ ∀ d : Char, c.toLower = d.toLower ↔ d = c

theorem toLower_of_not_isAlpha {c : Char} (hc : c.isAlpha = false) : c.toLower = c :=
  Char.toLower_eq_of_not_isUpper (by simp_all [Char.isAlpha])

theorem plain_of_not_isAlpha {c : Char} (hp : c ≠ '%') (hu : c ≠ '_') (hc : c.isAlpha = false) : Plain c := by
  refine ⟨hp, hu, ?_⟩
  intro d; constructor
  · intro h
    have hd : d.isAlpha = false := by
      rw [← Char.isAlpha_toLower_eq_isAlpha, ← h, Char.isAlpha_toLower_eq_isAlpha, hc]
    rw [← toLower_of_not_isAlpha hd, ← h, toLower_of_not_isAlpha hc]
  · rintro rfl; rfl

namespace Resembles
variable {a c : Char} {n p q t u : List Char}

theorem eq_nil (h : Resembles [] t) : t = [] := by
  cases h; rfl

theorem cons_percent_iff : Resembles ('%' :: p) t ↔ ∃ u, u <:+ t ∧ Resembles p u := by
  constructor
  · intro h
    cases h with
    | anyText u h => exact ⟨_, List.suffix_append u _, h⟩
    | char hne => exact absurd rfl hne
  · rintro ⟨u, ⟨v, rfl⟩, h⟩
    exact .anyText v h

theorem cons_iff (ha : a ≠ '%') :
    Resembles (a :: p) t ↔ ∃ c u, t = c :: u ∧ (a = '_' ∨ a.toLower = c.toLower) ∧ Resembles p u := by
  constructor
  · intro h
    cases h with
    | anyText => exact absurd rfl ha
    | anyChar c h => exact ⟨c, _, rfl, .inl rfl, h⟩
    | char _ _ hac h => exact ⟨_, _, rfl, .inr hac, h⟩
  · rintro ⟨c, u, rfl, hac, h⟩
    by_cases hu : a = '_'
    · subst hu; exact .anyChar c h
    · exact .char ha hu (hac.resolve_left hu) h

theorem refl : ∀ n : List Char, Resembles n n
  | [] => .nil
  | a :: n => by
    by_cases ha : a = '%'
    · subst ha; exact .anyText ['%'] (refl n)
    · exact (cons_iff ha).mpr ⟨a, n, rfl, .inr rfl, refl n⟩

theorem append (h : Resembles p t) (h' : Resembles q u) : Resembles (p ++ q) (t ++ u) := by
  induction h with
  | nil => exact h'
  | anyText v _ ih => rw [List.append_assoc]; exact .anyText v ih
  | anyChar c _ ih => exact .anyChar c ih
  | char hp hu hac _ ih => exact .char hp hu hac ih

theorem of_append (h : Resembles (p ++ q) t) : ∃ u v, t = u ++ v ∧ Resembles p u ∧ Resembles q v := by
  induction p generalizing t with
  | nil => exact ⟨[], t, rfl, .nil, h⟩
  | cons a p ih =>
    by_cases ha : a = '%'
    · subst ha
      obtain ⟨w, ⟨v, rfl⟩, hw⟩ := cons_percent_iff.mp h
      obtain ⟨x, y, rfl, hx, hy⟩ := ih hw
      exact ⟨v ++ x, y, by rw [List.append_assoc], .anyText v hx, hy⟩
    · obtain ⟨c, w, rfl, hac, hw⟩ := (cons_iff ha).mp h
      obtain ⟨x, y, rfl, hx, hy⟩ := ih hw
      exact ⟨c :: x, y, rfl, (cons_iff ha).mpr ⟨c, x, rfl, hac, hx⟩, hy⟩

theorem append_iff : Resembles (p ++ q) t ↔ ∃ u v, t = u ++ v ∧ Resembles p u ∧ Resembles q v := by
  refine ⟨of_append, ?_⟩
  rintro ⟨u, v, rfl, hu, hv⟩
  exact hu.append hv

theorem percent (t : List Char) : Resembles ['%'] t := by
  simpa using anyText t nil

theorem append_percent_iff : Resembles (p ++ ['%']) t ↔ ∃ u, u <+: t ∧ Resembles p u := by
  rw [append_iff]
  constructor
  · rintro ⟨u, v, rfl, hu, -⟩
    exact ⟨u, List.prefix_append u v, hu⟩
  · rintro ⟨u, ⟨v, rfl⟩, hu⟩
    exact ⟨u, v, rfl, hu, percent v⟩

theorem cons_plain_iff (ha : Plain a) : Resembles (a :: p) t ↔ ∃ u, t = a :: u ∧ Resembles p u := by
  rw [cons_iff ha.1]
  constructor
  · rintro ⟨c, u, rfl, hac, hu⟩
    exact ⟨u, by rw [(ha.2.2 c).mp (hac.resolve_left ha.2.1)], hu⟩
  · rintro ⟨u, rfl, hu⟩
    exact ⟨a, u, rfl, .inr rfl, hu⟩

theorem plain_iff (hp : ∀ a ∈ p, Plain a) : Resembles p t ↔ t = p := by
  induction p generalizing t with
  | nil => exact ⟨eq_nil, by rintro rfl; exact .nil⟩
  | cons a p ih =>
    rw [cons_plain_iff (hp a List.mem_cons_self)]
    simp only [ih fun b hb => hp b (List.mem_cons_of_mem a hb)]
    exact ⟨by rintro ⟨u, rfl, rfl⟩; rfl, by rintro rfl; exact ⟨p, rfl, rfl⟩⟩

end Resembles

open Resembles

theorem like_iff (p t : List Char) : like p t = true ↔ Resembles p t := by
  induction p generalizing t with
  | nil =>
    rw [like, List.isEmpty_iff]
    exact ⟨by rintro rfl; exact .nil, eq_nil⟩
  | cons a p ih =>
    by_cases ha : a = '%'
    · subst ha
      simp only [like, if_pos, List.any_eq_true, List.mem_tails, cons_percent_iff, ih]
    · rw [cons_iff ha]
      cases t with
      | nil => simp [like, ha]
      | cons c t => simp [like, ha, ih]

section Fixed
variable {p lit t : List Char}

theorem like_append_percent : like (p ++ ['%']) t = true ↔ ∃ u, u <+: t ∧ Resembles p u := by
  rw [like_iff, append_percent_iff]

theorem like_percent_cons (hlit : ∀ c ∈ lit, Plain c) : like ('%' :: lit) t = true ↔ lit <:+ t := by
  simp only [like_iff, cons_percent_iff, plain_iff hlit, exists_eq_right]

theorem like_percent_percent (hlit : ∀ c ∈ lit, Plain c) : like ('%' :: (lit ++ ['%'])) t = true ↔ lit <:+: t := by
  simp only [like_iff, cons_percent_iff, append_percent_iff, plain_iff hlit, exists_eq_right]
  rw [List.infix_iff_prefix_suffix]
  simp only [and_comm]

end Fixed

end SqlLike
