import CodeIndexer.Lib.PyText

/-!
# The lines of a text file

`readText` is what reading a file in text mode makes of its characters: any line end becomes a newline.
`keepends` is `str.splitlines(keepends=True)`, whose pieces put together are the text again; `splitlines`
gives the same pieces without what ends them.
-/

namespace TextLines

open PyText List

/-! ### Reading -/

def readText : Str → Str
  | [] => []
  | c :: s =>
    if c = '\r' then if s.head? = some '\n' then readText s else '\n' :: readText s
    else c :: readText s

theorem cr_notMem_readText (s : Str) : '\r' ∉ readText s := by
  induction s with
  | nil => exact not_mem_nil
  | cons c s ih =>
    rw [readText]
    split_ifs with hc hs
    · exact ih
    · simpa using ih
    · simpa [eq_comm] using ⟨hc, ih⟩

variable {s line : Str} {c : Char}

theorem readText_append (hs : s.getLast? ≠ some '\r') (t : Str) : readText (s ++ t) = readText s ++ readText t := by
  induction s with
  | nil => rfl
  | cons c s ih =>
    by_cases hnil : s = []
    · subst hnil
      have hc : c ≠ '\r' := by simpa using hs
      simp [readText, hc]
    · have hhead : (s ++ t).head? = s.head? := List.head?_append_of_ne_nil s hnil
      have hlast : s.getLast? ≠ some '\r' := by rwa [List.getLast?_cons_of_ne_nil hnil] at hs
      simp only [cons_append, readText, hhead, ih hlast]
      split_ifs <;> rfl

theorem readText_of_no_cr (hs : '\r' ∉ s) : readText s = s := by
  induction s with
  | nil => rfl
  | cons c s ih =>
    rw [readText, if_neg (ne_of_not_mem_cons hs).symm, ih (not_mem_of_not_mem_cons hs)]

theorem no_break_of_readText (h : ∀ c ∈ readText s, isLineBreak c = false) : ∀ c ∈ s, isLineBreak c = false := by
  induction s with
  | nil => simp
  | cons c s ih =>
    rw [readText] at h
    split_ifs at h with hc hs
    · -- a carriage return before a newline leaves the newline
      have hnl : '\n' ∈ s := mem_of_mem_head? hs
      exact absurd (ih h '\n' hnl) (by decide)
    · exact absurd (h '\n' mem_cons_self) (by decide)
    · intro d hd
      rcases mem_cons.mp hd with rfl | hd
      · exact h d mem_cons_self
      · exact ih (fun e he => h e (mem_cons_of_mem c he)) d hd

/-! ### Lines with their ends -/

/-- `c`, followed by `s`, is the last character of a line. -/
def endsLine (c : Char) (s : Str) : Bool := isLineBreak c && !(c = '\r' && s.head? = some '\n')

def keepends : Str → List Str
  | [] => []
  | c :: s =>
    if endsLine c s then [c] :: keepends s
    else match keepends s with
      | [] => [[c]]
      | line :: lines => (c :: line) :: lines

theorem keepends_cons_of_ends (h : endsLine c s = true) : keepends (c :: s) = [c] :: keepends s := by
  rw [keepends, if_pos h]

theorem keepends_cons_of_not {lines : List Str} (h : endsLine c s = false)
    (hs : keepends s = line :: lines) : keepends (c :: s) = (c :: line) :: lines := by
  rw [keepends, if_neg (by simp [h]), hs]

theorem flatten_keepends (s : Str) : (keepends s).flatten = s := by
  induction s with
  | nil => rfl
  | cons c s ih =>
    rw [keepends]
    split_ifs
    · simp [ih]
    · cases hs : keepends s with
      | nil | cons line lines => rw [hs] at ih; simpa using ih

theorem keepends_ne_nil (hs : s ≠ []) : keepends s ≠ [] := by
  intro h
  have := flatten_keepends s
  rw [h] at this
  exact hs this.symm

theorem endsLine_of_ne (hc : isLineBreak c = true) (hcr : c ≠ '\r') (s : Str) : endsLine c s = true := by
  simp [endsLine, hc, hcr]

theorem keepends_append (hc : isLineBreak c = true) (hcr : c ≠ '\r') (t : Str) :
    keepends (s ++ c :: t) = keepends (s ++ [c]) ++ keepends t := by
  induction s with
  | nil => simp [keepends, endsLine_of_ne hc hcr]
  | cons d s ih =>
    have hhead : (s ++ c :: t).head? = (s ++ [c]).head? := by cases s <;> rfl
    have hends : endsLine d (s ++ c :: t) = endsLine d (s ++ [c]) := by rw [endsLine, hhead]; rfl
    rw [cons_append, cons_append, keepends, keepends, hends, ih]
    split_ifs
    · rfl
    · obtain ⟨line, lines, hlines⟩ := exists_cons_of_ne_nil (keepends_ne_nil (s := s ++ [c]) (by simp))
      rw [hlines]; rfl

theorem keepends_line (h : ∀ c ∈ line, isLineBreak c = false) : keepends (line ++ ['\n']) = [line ++ ['\n']] := by
  induction line with
  | nil => rfl
  | cons c line ih =>
    have hc : endsLine c (line ++ ['\n']) = false := by simp [endsLine, h c mem_cons_self]
    rw [cons_append, keepends, hc, ih fun d hd => h d (mem_cons_of_mem c hd)]; rfl

theorem ne_nil_of_mem_keepends (h : line ∈ keepends s) : line ≠ [] := by
  induction s generalizing line with
  | nil => cases h
  | cons c s ih =>
    rw [keepends] at h
    split_ifs at h
    · rcases mem_cons.mp h with rfl | h
      · exact cons_ne_nil c []
      · exact ih h
    · cases hs : keepends s with
      | nil =>
        rw [hs] at h
        obtain rfl := mem_singleton.mp h
        exact cons_ne_nil c []
      | cons first lines =>
        rw [hs] at h ih
        rcases mem_cons.mp h with rfl | h
        · exact cons_ne_nil c first
        · exact ih (mem_cons_of_mem first h)

theorem ends_of_mem_dropLast (h : line ∈ (keepends s).dropLast) : ∃ c ∈ line.getLast?, isLineBreak c = true := by
  induction s generalizing line with
  | nil => cases h
  | cons c s ih =>
    by_cases hends : endsLine c s = true
    · rw [keepends_cons_of_ends hends] at h
      cases hs : keepends s with
      | nil => rw [hs] at h; cases h
      | cons first lines =>
        rw [hs, dropLast_cons_cons] at h
        rcases mem_cons.mp h with rfl | h
        · exact ⟨c, rfl, (Bool.and_eq_true_iff.mp hends).1⟩
        · exact ih (by rw [hs]; exact h)
    · have hends : endsLine c s = false := by simpa using hends
      cases hs : keepends s with
      | nil =>
        have hone : keepends (c :: s) = [[c]] := by rw [keepends, hends, hs]; rfl
        rw [hone] at h
        cases h
      | cons first lines =>
        rw [keepends_cons_of_not hends hs] at h
        cases lines with
        | nil => cases h
        | cons second lines =>
          rcases mem_cons.mp h with rfl | h
          · have hfirst : first ≠ [] := ne_nil_of_mem_keepends (by rw [hs]; exact mem_cons_self)
            rw [List.getLast?_cons_of_ne_nil hfirst]
            exact ih (by rw [hs, dropLast_cons_cons]; exact mem_cons_self)
          · exact ih (by rw [hs, dropLast_cons_cons]; exact mem_cons_of_mem first h)

theorem no_break_before_last (hs : '\r' ∉ s) (h : line ∈ keepends s) : ∀ c ∈ line.dropLast, isLineBreak c = false := by
  induction s generalizing line with
  | nil => cases h
  | cons c s ih =>
    have hcr : c ≠ '\r' := (ne_of_not_mem_cons hs).symm
    have ih := fun {line} => @ih line (not_mem_of_not_mem_cons hs)
    have hends : endsLine c s = isLineBreak c := by simp [endsLine, hcr]
    cases hc : isLineBreak c with
    | true =>
      rw [keepends_cons_of_ends (hends.trans hc)] at h
      rcases mem_cons.mp h with rfl | h
      · simp
      · exact ih h
    | false =>
      cases hlines : keepends s with
      | nil =>
        obtain rfl : line = [c] := by simpa [keepends, hends, hc, hlines] using h
        simp
      | cons first lines =>
        rw [keepends_cons_of_not (hends.trans hc) hlines] at h
        rcases mem_cons.mp h with rfl | h
        · have hmem : first ∈ keepends s := by rw [hlines]; exact mem_cons_self
          rw [dropLast_cons_of_ne_nil (ne_nil_of_mem_keepends hmem)]
          exact forall_mem_cons.mpr ⟨hc, ih hmem⟩
        · exact ih (by rw [hlines]; exact mem_cons_of_mem first h)

theorem eq_of_flatten_eq {pieces xs ys : List Str} (hpieces : ∀ p ∈ pieces, p ≠ []) (hxs : xs <+: pieces)
    (hys : ys <+: pieces) (h : xs.flatten = ys.flatten) : xs = ys := by
  have hextend : ∀ {as bs : List Str}, as <+: bs → bs <+: pieces → as.flatten = bs.flatten → as = bs := by
    rintro as bs ⟨more, rfl⟩ hbs hflat
    rw [flatten_append, self_eq_append_right, flatten_eq_nil_iff] at hflat
    cases more with
    | nil => rw [append_nil]
    | cons p more => exact absurd (hflat p mem_cons_self) (hpieces p (hbs.subset (by simp)))
  rcases prefix_or_prefix_of_prefix hxs hys with hpre | hpre
  · exact hextend hpre hys h
  · exact (hextend hpre hxs h.symm).symm

theorem keepends_take_drop {b : Str} {k : ℕ} (hc : isLineBreak c = true) (hcr : c ≠ '\r')
    (h : ((keepends s).take k).flatten = b ++ [c]) :
    keepends (b ++ [c]) = (keepends s).take k ∧ keepends ((keepends s).drop k).flatten = (keepends s).drop k := by
  have hs : s = b ++ c :: ((keepends s).drop k).flatten := by
    conv_lhs => rw [← flatten_keepends s, ← take_append_drop k (keepends s), flatten_append, h]
    simp
  have hlines : keepends s = keepends (b ++ [c]) ++ keepends ((keepends s).drop k).flatten := by
    conv_lhs => rw [hs]
    exact keepends_append hc hcr _
  have htake : keepends (b ++ [c]) = (keepends s).take k := by
    refine eq_of_flatten_eq (fun p hp => ne_nil_of_mem_keepends hp) ⟨_, hlines.symm⟩ (List.take_prefix k _) ?_
    rw [flatten_keepends, h]
  refine ⟨htake, (append_right_inj (keepends (b ++ [c]))).mp ?_⟩
  rw [← hlines, htake, take_append_drop]

/-! ### Lines without their ends -/

theorem isSpace_of_isLineBreak (h : isLineBreak c = true) : isSpace c = true := by
  have hnat : c.toNat ∈ [0x0a, 0x0b, 0x0c, 0x0d, 0x1c, 0x1d, 0x1e, 0x85, 0x2028, 0x2029] := by
    simpa [isLineBreak] using h
  simp only [isSpace, decide_eq_true_eq, mem_cons, not_mem_nil, or_false] at hnat ⊢
  omega

def body (line : Str) : Str := line.takeWhile fun c => !isLineBreak c

theorem body_cons_of_break (hc : isLineBreak c = true) (s : Str) : body (c :: s) = [] := by
  simp [body, hc]

theorem body_cons (hc : isLineBreak c = false) (s : Str) : body (c :: s) = c :: body s := by
  simp [body, hc]

/-- The pieces of `splitlines` with `cur` before the first one. -/
def bodiesFrom (cur : Str) : List Str → List Str
  | [] => if cur.isEmpty then [] else [cur]
  | line :: lines => (cur ++ body line) :: lines.map body

theorem bodiesFrom_nil (lines : List Str) : bodiesFrom [] lines = lines.map body := by
  cases lines <;> rfl

theorem linesFrom_eq (cur s : Str) : linesFrom cur s = bodiesFrom cur (keepends s) := by
  induction cur, s using linesFrom.induct with
  | case1 cur h | case2 cur h => simp [linesFrom, keepends, bodiesFrom, h]
  | case3 cur c h | case4 cur c h => simp [linesFrom, keepends, endsLine, bodiesFrom, h, body]
  | case5 cur c d cs h ih =>
    obtain ⟨rfl, rfl⟩ := h
    have hkeep : keepends ('\r' :: '\n' :: cs) = ['\r', '\n'] :: keepends cs :=
      keepends_cons_of_not (by simp [endsLine]) (keepends_cons_of_ends (by simp [endsLine, isLineBreak]))
    rw [linesFrom, if_pos ⟨rfl, rfl⟩, ih, hkeep, bodiesFrom_nil, bodiesFrom, body_cons_of_break (by decide),
      append_nil]
  | case6 cur c d cs h hc ih =>
    have hends : endsLine c (d :: cs) = true := by simpa [endsLine, hc, ← not_and_or] using h
    rw [linesFrom, if_neg h, if_pos hc, ih, keepends_cons_of_ends hends, bodiesFrom_nil, bodiesFrom,
      body_cons_of_break hc, append_nil]
  | case7 cur c d cs h hc ih =>
    have hc : isLineBreak c = false := by simpa using hc
    have hends : endsLine c (d :: cs) = false := by simp [endsLine, hc]
    obtain ⟨line, lines, hlines⟩ := exists_cons_of_ne_nil (keepends_ne_nil (cons_ne_nil d cs))
    rw [linesFrom, if_neg h, if_neg (by simp [hc]), ih, keepends_cons_of_not hends hlines, hlines]
    simp [bodiesFrom, body_cons hc]

theorem splitlines_eq (s : Str) : splitlines s = (keepends s).map body := by
  rw [splitlines, linesFrom_eq, bodiesFrom_nil]

theorem breaks_after_body (h : line ∈ keepends s) :
    ∀ c ∈ line.dropWhile (fun c => !isLineBreak c), isLineBreak c = true := by
  induction s generalizing line with
  | nil => cases h
  | cons c s ih =>
    by_cases hends : endsLine c s = true
    · have hc : isLineBreak c = true := (Bool.and_eq_true_iff.mp hends).1
      rw [keepends_cons_of_ends hends] at h
      rcases mem_cons.mp h with rfl | h
      · simp [hc]
      · exact ih h
    · have hends : endsLine c s = false := by simpa using hends
      cases hs : keepends s with
      | nil =>
        obtain rfl : line = [c] := by simpa [keepends, hends, hs] using h
        cases hc : isLineBreak c <;> simp [hc]
      | cons first lines =>
        rw [keepends_cons_of_not hends hs] at h
        rcases mem_cons.mp h with rfl | h
        · cases hc : isLineBreak c with
          | false => simpa [hc] using ih (by rw [hs]; exact mem_cons_self)
          | true =>
            -- only a carriage return before a newline is a break that ends no line
            obtain ⟨rfl, hhead⟩ : c = '\r' ∧ s.head? = some '\n' := by simpa [endsLine, hc] using hends
            obtain ⟨t, rfl⟩ := List.head?_eq_some_iff.mp hhead
            obtain ⟨rfl, -⟩ := List.cons.inj hs
            simp [isLineBreak]
        · exact ih (by rw [hs]; exact mem_cons_of_mem first h)

theorem strip_append_spaces (s : Str) {t : Str} (ht : ∀ c ∈ t, isSpace c = true) : strip (s ++ t) = strip s := by
  have hdrop : t.dropWhile isSpace = [] := dropWhile_eq_nil_iff.mpr ht
  rw [strip, dropWhile_append, strip]
  split_ifs with h
  · rw [hdrop, isEmpty_iff.mp h]
  · exact rdropWhile_append_of_all _ ht

theorem strip_cons_space (hc : isSpace c = true) (s : Str) : strip (c :: s) = strip s := by
  rw [strip, dropWhile_cons_of_pos hc, strip]

theorem strip_isInfix (s : Str) : strip s <:+: s :=
  (List.rdropWhile_prefix _ _).isInfix.trans (dropWhile_suffix _).isInfix

theorem strip_strip (s : Str) : strip (strip s) = strip s := by
  have hlead : (strip s).dropWhile isSpace = strip s := by
    cases hs : strip s with
    | nil => rfl
    | cons c t =>
      -- the first character is the first one of the text that is not blank
      have hhead : (s.dropWhile isSpace).head? = some c := by
        obtain ⟨u, hu⟩ := rdropWhile_prefix isSpace (s.dropWhile isSpace)
        rw [← hu]
        change (strip s ++ u).head? = some c
        rw [hs]; rfl
      have hc := List.head?_dropWhile_not isSpace s
      rw [hhead] at hc
      exact dropWhile_cons_of_neg (by simpa using hc)
  rw [strip, hlead]
  exact rdropWhile_idempotent isSpace _

theorem strip_body (h : line ∈ keepends s) : strip (body line) = strip line := by
  have hsplit : body line ++ line.dropWhile (fun c => !isLineBreak c) = line := takeWhile_append_dropWhile
  conv_rhs => rw [← hsplit]
  exact (strip_append_spaces _ fun c hc => isSpace_of_isLineBreak (breaks_after_body h c hc)).symm

theorem map_strip_splitlines (s : Str) : (splitlines s).map strip = (keepends s).map strip := by
  rw [splitlines_eq, map_map]
  exact map_congr_left fun line hline => strip_body hline

end TextLines
