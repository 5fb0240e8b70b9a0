import CodeIndexer.Lib.PyText

/-!
# Texts joined by a separator

`splitBy sep s` is Python's `s.split(sep)`: it cuts at the leftmost `sep`, and again in what follows it.
Joining the pieces gives back `s`; splitting a joined list gives back the list exactly if no separator
shows up early, in a piece or across its end.
-/

namespace Separator

open PyText List

/-- `splitBy` with `skip` characters of a separator still to pass, and the piece so far in reverse. -/
def splitFrom (sep : Str) : ℕ → Str → Str → List Str
  | _, piece, [] => [piece.reverse]
  | skip + 1, piece, _ :: s => splitFrom sep skip piece s
  | 0, piece, c :: s =>
    if sep <+: c :: s then piece.reverse :: splitFrom sep (sep.length - 1) [] s
    else splitFrom sep 0 (c :: piece) s

def splitBy (sep s : Str) : List Str := splitFrom sep 0 [] s

variable {sep : Str}

theorem splitFrom_ne_nil (k : ℕ) (piece s : Str) : splitFrom sep k piece s ≠ [] := by
  induction s generalizing k piece with
  | nil => cases k <;> simp [splitFrom]
  | cons c s ih =>
    cases k with
    | succ k => exact ih k piece
    | zero => rw [splitFrom]; split <;> simp [ih]

theorem splitBy_ne_nil (s : Str) : splitBy sep s ≠ [] := splitFrom_ne_nil 0 [] s

theorem splitFrom_append (u s : Str) : splitFrom sep u.length [] (u ++ s) = splitFrom sep 0 [] s := by
  induction u with
  | nil => rfl
  | cons c u ih => exact ih

/-- No separator begins in `u`, which is followed by `s`. -/
def NoneBegins (sep u s : Str) : Prop := ∀ v w, u = v ++ w → w ≠ [] → ¬ sep <+: w ++ s

variable {u s n : Str} {names : List Str}

theorem splitFrom_of_noneBegins (h : NoneBegins sep u s) (piece : Str) :
    splitFrom sep 0 piece (u ++ s) = splitFrom sep 0 (u.reverse ++ piece) s := by
  induction u generalizing piece with
  | nil => rfl
  | cons c u ih =>
    have hc : ¬ sep <+: c :: (u ++ s) := h [] (c :: u) rfl (by simp)
    have hu : NoneBegins sep u s := fun v w hvw => h (c :: v) w (by rw [hvw]; rfl)
    rw [cons_append, splitFrom, if_neg hc, ih hu]
    simp

theorem splitBy_append_sep (hsep : sep ≠ []) (h : NoneBegins sep u (sep ++ s)) :
    splitBy sep (u ++ (sep ++ s)) = u :: splitBy sep s := by
  rw [splitBy, splitFrom_of_noneBegins h]
  cases sep with
  | nil => exact absurd rfl hsep
  | cons c sep =>
    have hhead : c :: sep <+: c :: (sep ++ s) := prefix_append (c :: sep) s
    rw [cons_append, splitFrom, if_pos hhead]
    simp [splitFrom_append, splitBy]

theorem splitBy_of_no_separator (h : ¬ sep <:+: s) : splitBy sep s = [s] := by
  have hnone : NoneBegins sep s [] := by
    rintro v w rfl - hw
    rw [append_nil] at hw
    exact h (hw.isInfix.trans (suffix_append v w).isInfix)
  have hs := splitFrom_of_noneBegins hnone []
  simpa [splitBy, splitFrom] using hs

theorem exists_leftmost (h : sep <:+: s) : ∃ u t, s = u ++ (sep ++ t) ∧ NoneBegins sep u (sep ++ t) := by
  induction s with
  | nil =>
    obtain rfl := eq_nil_of_infix_nil h
    exact ⟨[], [], rfl, fun v w hvw hw => absurd (append_eq_nil_iff.mp hvw.symm).2 hw⟩
  | cons c s ih =>
    by_cases hhead : sep <+: c :: s
    · obtain ⟨t, ht⟩ := hhead
      exact ⟨[], t, ht.symm, fun v w hvw hw => absurd (append_eq_nil_iff.mp hvw.symm).2 hw⟩
    · obtain ⟨u, t, rfl, hu⟩ := ih ((infix_cons_iff.mp h).resolve_left hhead)
      refine ⟨c :: u, t, rfl, ?_⟩
      intro v w hvw hw
      cases v with
      | nil => rw [← hvw.trans (nil_append w)]; exact hhead
      | cons d v => exact hu v w (List.cons.inj hvw).2 hw

/-- A separator begins early if there is one in `n` and all but the last character of the next one. -/
theorem noneBegins_iff (hsep : sep ≠ []) : NoneBegins sep n (sep ++ s) ↔ ¬ sep <:+: n ++ sep.dropLast := by
  have hlen : sep.dropLast.length < sep.length := by
    rw [length_dropLast]; exact Nat.sub_lt (length_pos_iff.mpr hsep) one_pos
  have hdrop : sep.dropLast <+: sep ++ s := (List.dropLast_prefix sep).trans (prefix_append sep s)
  constructor
  · rintro h ⟨a, b, hab⟩
    have hshort : a.length < n.length := by
      have := congrArg List.length hab
      simp only [length_append] at this
      omega
    obtain ⟨w, rfl⟩ : a <+: n := by
      refine prefix_of_prefix_length_le ?_ (prefix_append n sep.dropLast) hshort.le
      rw [← hab, append_assoc]
      exact prefix_append a _
    have hw : w ≠ [] := by rintro rfl; simp at hshort
    rw [append_assoc, append_assoc, append_cancel_left_eq] at hab
    have hhead : sep <+: w ++ sep.dropLast := ⟨b, hab⟩
    exact h a w rfl hw (hhead.trans ((prefix_append_right_inj w).mpr hdrop))
  · rintro h v w rfl hw hhead
    have hshort : sep.length ≤ (w ++ sep.dropLast).length := by
      have := length_pos_iff.mpr hw
      rw [length_append, length_dropLast]; omega
    have hin := prefix_of_prefix_length_le hhead ((prefix_append_right_inj w).mpr hdrop) hshort
    refine h (hin.isInfix.trans ?_)
    rw [append_assoc]
    exact (suffix_append v _).isInfix

theorem intercalate_concat (hne : names ≠ []) (n : Str) :
    sep.intercalate (names ++ [n]) = sep.intercalate names ++ (sep ++ n) := by
  induction names with
  | nil => exact absurd rfl hne
  | cons m names ih =>
    cases names with
    | nil => simp [intercalate_cons_cons]
    | cons m' names =>
      have hrest := ih (cons_ne_nil m' names)
      simp only [cons_append, intercalate_cons_cons, append_assoc] at hrest ⊢
      rw [hrest]

theorem intercalate_splitBy (hsep : sep ≠ []) (s : Str) : sep.intercalate (splitBy sep s) = s := by
  induction hn : s.length using Nat.strong_induction_on generalizing s with
  | _ n ih =>
    by_cases h : sep <:+: s
    · obtain ⟨u, t, rfl, hu⟩ := exists_leftmost h
      have hshort : t.length < n := by
        have := length_pos_iff.mpr hsep
        simp only [← hn, length_append]; omega
      rw [splitBy_append_sep hsep hu, intercalate_cons_of_ne_nil (splitBy_ne_nil t), ih _ hshort t rfl,
        append_assoc]
    · rw [splitBy_of_no_separator h]; simp [List.intercalate]

theorem splitBy_eq_singleton_iff (hsep : sep ≠ []) : splitBy sep n = [n] ↔ ¬ sep <:+: n := by
  refine ⟨?_, splitBy_of_no_separator⟩
  intro h hin
  obtain ⟨u, t, rfl, hu⟩ := exists_leftmost hin
  rw [splitBy_append_sep hsep hu] at h
  exact splitBy_ne_nil t (List.cons.inj h).2

theorem splitBy_append_sep_iff (hsep : sep ≠ []) :
    splitBy sep (n ++ (sep ++ s)) = n :: names ↔ ¬ sep <:+: n ++ sep.dropLast ∧ splitBy sep s = names := by
  rw [← noneBegins_iff (s := s) hsep]
  constructor
  · intro h
    have hin : sep <:+: n ++ (sep ++ s) := ⟨n, s, append_assoc n sep s⟩
    obtain ⟨u, t, heq, hu⟩ := exists_leftmost hin
    rw [heq, splitBy_append_sep hsep hu] at h
    obtain ⟨rfl, hrest⟩ := List.cons.inj h
    obtain rfl : s = t := append_cancel_left (append_cancel_left heq)
    exact ⟨hu, hrest⟩
  · rintro ⟨hn, rfl⟩
    exact splitBy_append_sep hsep hn

/-- Splitting inverts joining exactly if no separator shows up in the last text, nor in another one followed
by all but the last character of a separator. -/
theorem splitBy_intercalate_iff (hsep : sep ≠ []) (hne : names ≠ []) :
    splitBy sep (sep.intercalate names) = names ↔
      (∀ n ∈ names.dropLast, ¬ sep <:+: n ++ sep.dropLast) ∧ ∀ n ∈ names.getLast?, ¬ sep <:+: n := by
  induction names with
  | nil => exact absurd rfl hne
  | cons n names ih =>
    cases names with
    | nil => simp [List.intercalate, splitBy_eq_singleton_iff hsep]
    | cons m names =>
      rw [intercalate_cons_cons, append_assoc, splitBy_append_sep_iff hsep,
        ih (cons_ne_nil m names)]
      simp [and_assoc]

/-! ### Looking for a word between separators -/

section Word
variable {c : Char} {x w : Str}

theorem prefix_word_iff (hx : c ∉ x) (hw : c ∉ w) (s : Str) : x ++ [c] <+: w ++ c :: s ↔ x = w := by
  induction x generalizing w with
  | nil =>
    cases w with
    | nil => simp
    | cons d w => simpa [eq_comm] using (ne_of_not_mem_cons hw).symm
  | cons a x ih =>
    cases w with
    | nil => simpa using fun h : a = c => absurd h.symm (ne_of_not_mem_cons hx)
    | cons d w =>
      rw [cons_append, cons_append, cons_prefix_cons, ih (not_mem_of_not_mem_cons hx)
        (not_mem_of_not_mem_cons hw), List.cons.injEq]

theorem infix_append_iff (hw : c ∉ w) (y s : Str) : c :: y <:+: w ++ s ↔ c :: y <:+: s := by
  induction w with
  | nil => rfl
  | cons d w ih =>
    rw [cons_append, infix_cons_iff, ih (not_mem_of_not_mem_cons hw), cons_prefix_cons]
    exact or_iff_right fun h => ne_of_not_mem_cons hw h.1

theorem infix_intercalate_iff {ws : List Str} (hne : ws ≠ []) (hx : c ∉ x) (hws : ∀ w ∈ ws, c ∉ w) :
    c :: (x ++ [c]) <:+: c :: ([c].intercalate ws ++ [c]) ↔ x ∈ ws := by
  have hfirst : ∀ w ∈ ws, ∀ s : Str,
      c :: (x ++ [c]) <:+: c :: (w ++ c :: s) ↔ x = w ∨ c :: (x ++ [c]) <:+: c :: s := by
    intro w hw s
    rw [infix_cons_iff, cons_prefix_cons, prefix_word_iff hx (hws w hw), infix_append_iff (hws w hw)]
    simp
  induction ws with
  | nil => exact absurd rfl hne
  | cons w ws ih =>
    cases ws with
    | nil =>
      have hshort : ¬ c :: (x ++ [c]) <:+: [c] := fun h => by simpa using h.length_le
      simpa [List.intercalate, hshort] using hfirst w mem_cons_self []
    | cons w' ws =>
      have hrest : c :: (x ++ [c]) <:+: c :: ([c].intercalate (w' :: ws) ++ [c]) ↔ x ∈ w' :: ws :=
        ih (cons_ne_nil w' ws) (fun v hv => hws v (mem_cons_of_mem w hv))
          (fun v hv => hfirst v (mem_cons_of_mem w hv))
      rw [intercalate_cons_cons, append_assoc, append_assoc,
        singleton_append, hfirst w mem_cons_self, hrest]
      exact mem_cons.symm

end Word

end Separator
