import CodeIndexer.Lib.FlatRegex
import CodeIndexer.Lib.Runs

/-!
# Required trigrams of a pattern

The scanner of `regex_trigram.py` and what it computes on a flat pattern. The scanner works on the
pattern text: it looks ahead for quantifiers, skips classes, and gives up at `|` and `(`. On the text of a
token list its runs are the maximal rows of tokens that show a character and are not quantified
(`requiredLiteralRuns_render`), so a trigram is required exactly when three consecutive such tokens show
it (`mem_extractRequiredTrigrams`).

A set of trigrams is a list without repetitions.
-/

namespace CodeIndexer.RegexTrigram

open PyText FlatRegex Runs List

def trigramLength : ℕ := 3

def trigrams (text : Str) : List Str := (windows trigramLength text).dedup

def indexStorable (ch : Char) : Bool :=
  (0x20 ≤ ch.toNat && ch.toNat ≤ 0x7E) || ch ∈ ['\t', '\n', '\r']

def asciiSubruns (run : Str) : List Str := runs indexStorable run

variable (U : Unicode)

def isQuantifierAt : Str → ℕ
  | [] => 0
  | c :: cs =>
    if c ∈ ['?', '*', '+'] then 1
    else if c = '{' then
      let m := cs.takeWhile U.digit
      match cs.drop m.length with
      | [] => 0
      | d :: rest =>
        if d = ',' then
          let n := rest.takeWhile U.digit
          if m ≠ [] ∧ (rest.drop n.length).head? = some '}' then m.length + n.length + 3 else 0
        else if m ≠ [] ∧ d = '}' then m.length + 2
        else 0
    else 0

def skipMembers : Str → ℕ
  | [] => 0
  | [c] => if c = ']' then 0 else if c = '\\' then 2 else 1
  | c :: d :: cs =>
    if c = ']' then 0 else if c = '\\' then 2 + skipMembers cs else 1 + skipMembers (d :: cs)

def classLength (cs : Str) : ℕ :=
  let j := if cs.head? = some '^' then 1 else 0
  let j := if (cs.drop j).head? = some ']' then j + 1 else j
  j + skipMembers (cs.drop j) + 1

def flush (current : Str) (runs : List Str) : List Str := if current.isEmpty then runs else runs ++ [current]

/-- The loop of `_required_literal_runs`; `skip` characters of the text are behind the index `i`
already. -/
def scan : Str → ℕ → Str → List Str → Option (List Str)
  | [], _, current, runs => some (flush current runs)
  | _ :: cs, skip + 1, current, runs => scan cs skip current runs
  | c :: cs, 0, current, runs =>
    if c = '|' ∨ c = '(' then none
    else if c = '[' then scan cs (classLength cs) [] (flush current runs)
    else if c ∈ ['.', '^', '$'] then scan cs 0 [] (flush current runs)
    else if isQuantifierAt U (c :: cs) ≠ 0 then
      scan cs (isQuantifierAt U (c :: cs) - 1) [] (flush current.dropLast runs)
    else if c = '\\' then
      match cs.head? with
      | none => scan cs 0 [] (flush current runs)
      | some nxt =>
        if U.alnum nxt then scan cs 1 [] (flush current runs)
        else if isQuantifierAt U cs.tail ≠ 0 then
          scan cs (1 + isQuantifierAt U cs.tail) [] (flush current runs)
        else scan cs 1 (current ++ [nxt]) runs
    else if isQuantifierAt U cs ≠ 0 then scan cs (isQuantifierAt U cs) [] (flush current runs)
    else scan cs 0 (current ++ [c]) runs

def requiredLiteralRuns (pattern : Str) : Option (List Str) := scan U pattern 0 [] []

/-- The search's case flag is an argument that the source does not read. -/
def extractRequiredTrigrams (pattern : Str) (_caseInsensitive : Bool) : Option (List Str) :=
  if pattern.isEmpty then none
  else match requiredLiteralRuns U pattern with
    | none => none
    | some runs =>
      let required := (runs.flatMap fun run => (asciiSubruns run).flatMap fun sub =>
        if trigramLength ≤ sub.length then trigrams (U.lowered sub) else []).dedup
      if required.isEmpty then none else some required

/-! ### Quantifiers -/

variable {U}

variable {c : Char} {a : Atom U}

theorem digit_of_isDigit (h : c.isDigit) : U.digit c := by
  have hascii : isAscii c := by
    simp only [Char.isDigit, Bool.and_eq_true, decide_eq_true_eq, UInt32.le_iff_toNat_le] at h
    exact decide_eq_true (lt_of_le_of_lt h.2 (by decide))
  rw [Unicode.digit, if_pos hascii]
  exact h

theorem alnum_of_isAlpha (h : c.isAlpha) : U.alnum c := by
  have hascii : isAscii c := by
    simp only [Char.isAlpha, Char.isUpper, Char.isLower, Bool.or_eq_true, Bool.and_eq_true, decide_eq_true_eq,
      UInt32.le_iff_toNat_le] at h
    refine decide_eq_true ?_
    rcases h with h | h <;> exact lt_of_le_of_lt h.2 (by decide)
  rw [Unicode.alnum, if_pos hascii, Char.isAlphanum, h, Bool.true_or]

theorem takeWhile_digits (m : Numeral) {d : Char} (hd : U.digit d = false) (rest : Str) :
    (m.digits ++ d :: rest).takeWhile U.digit = m.digits := by
  rw [takeWhile_append_of_pos fun c hc => digit_of_isDigit (m.isDigit c hc),
    takeWhile_cons_of_neg (by simp [hd]), append_nil]

theorem isQuantifierAt_text (q : Quant) (rest : Str) : isQuantifierAt U (q.text ++ rest) = q.text.length := by
  have hcomma : U.digit ',' = false := rfl
  have hbrace : U.digit '}' = false := rfl
  cases q with
  | opt | star | plus => rfl
  | exactly m =>
    simp [isQuantifierAt, Quant.text, takeWhile_digits m hbrace, m.ne_nil]
  | atLeast m =>
    simp [isQuantifierAt, Quant.text, takeWhile_digits m hcomma, m.ne_nil, hbrace]
  | between m n =>
    simp [isQuantifierAt, Quant.text, takeWhile_digits m hcomma, takeWhile_digits n hbrace, m.ne_nil]
    omega

theorem isQuantifierAt_cons (h : c ∉ ['?', '*', '+', '{']) (cs : Str) : isQuantifierAt U (c :: cs) = 0 := by
  simp only [mem_cons, not_mem_nil, or_false, not_or] at h
  simp [isQuantifierAt, h]

theorem isQuantifierAt_render (toks : List (Tok U)) : isQuantifierAt U (render toks) = 0 := by
  rcases toks with _ | ⟨⟨a, reps⟩, toks⟩
  · rfl
  · cases a with
    | lit c h =>
      refine isQuantifierAt_cons (fun hc => h ?_) _
      simp only [mem_cons, not_mem_nil, or_false] at hc
      rcases hc with rfl | rfl | rfl | rfl <;> decide
    | dot | caret | dollar | bracket | letter | punct => exact isQuantifierAt_cons (by decide) _

/-! ### Classes -/

theorem skipMembers_items (items : List ClassItem) (rest : Str) :
    skipMembers (items.flatMap ClassItem.text ++ ']' :: rest) = (items.flatMap ClassItem.text).length := by
  induction items with
  | nil =>
    rcases rest with _ | ⟨c, rest⟩ <;> rfl
  | cons item items ih =>
    rw [flatMap_cons, append_assoc, length_append]
    cases item with
    | plain c h =>
      simp only [mem_cons, not_mem_nil, or_false, not_or] at h
      -- the loop looks at one more character than it passes
      obtain ⟨d, cs, hcs⟩ : ∃ d cs, items.flatMap ClassItem.text ++ ']' :: rest = d :: cs :=
        exists_cons_of_ne_nil (by simp)
      simp only [ClassItem.text, singleton_append, length_singleton]
      rw [← ih, hcs, skipMembers, if_neg h.2.1, if_neg h.2.2]
    | escaped c =>
      rw [← ih]
      rfl

theorem classLength_body (k : BracketClass) (rest : Str) : classLength (k.body ++ rest) = k.body.length := by
  obtain ⟨negated, leadingBracket, items, hne, hcaret⟩ := k
  have hlen := skipMembers_items items rest
  -- without a leading bracket the first member does not start with one
  have hhead : leadingBracket = false → ((items.flatMap ClassItem.text) ++ ']' :: rest).head? ≠ some ']' := by
    rintro rfl
    rcases items with _ | ⟨⟨c, hc⟩ | c, items⟩
    · simp at hne
    · simp only [mem_cons, not_mem_nil, or_false, not_or] at hc
      simp [ClassItem.text, hc.2.1]
    · simp [ClassItem.text]
  have hcaret' : negated = false → leadingBracket = false →
      ((items.flatMap ClassItem.text) ++ ']' :: rest).head? ≠ some '^' := by
    intro hn hl
    have hcaret := hcaret hn hl
    rw [List.head?_append]
    cases h : (items.flatMap ClassItem.text).head? with
    | none => simp
    | some c => simpa [h] using hcaret
  simp only [BracketClass.body, append_assoc, singleton_append, length_append,
    length_singleton]
  generalize items.flatMap ClassItem.text = M at hlen hhead hcaret'
  rcases negated with _ | _ <;> rcases leadingBracket with _ | _
  · show classLength (M ++ ']' :: rest) = 0 + (0 + (M.length + 1))
    simp only [classLength, if_neg (hcaret' rfl rfl), drop_zero, if_neg (hhead rfl), hlen]
    omega
  · show 1 + skipMembers (M ++ ']' :: rest) + 1 = 0 + (1 + (M.length + 1))
    omega
  · show classLength ('^' :: (M ++ ']' :: rest)) = 1 + (0 + (M.length + 1))
    simp only [classLength, List.head?_cons, if_pos, drop_succ_cons, drop_zero, if_neg (hhead rfl), hlen]
    omega
  · show 2 + skipMembers (M ++ ']' :: rest) + 1 = 1 + (1 + (M.length + 1))
    omega

/-! ### The scanner on pattern text -/

variable {cur rest : Str} {acc : List Str}

theorem scan_skip (passed : Str) : scan U (passed ++ rest) passed.length cur acc = scan U rest 0 cur acc := by
  induction passed with
  | nil => rfl
  | cons c passed ih => exact ih

theorem scan_quant (q : Quant) : scan U (q.text ++ rest) 0 [] acc = scan U rest 0 [] acc := by
  obtain ⟨c, cs, hcs, hc⟩ : ∃ c cs, q.text = c :: cs ∧ c ∈ ['?', '*', '+', '{'] := by
    cases q <;> exact ⟨_, _, rfl, by decide⟩
  have hlen := isQuantifierAt_text (U := U) q rest
  rw [hcs, cons_append] at hlen ⊢
  have hno : ¬ (c = '|' ∨ c = '(') ∧ c ≠ '[' ∧ c ∉ ['.', '^', '$'] := by
    simp only [mem_cons, not_mem_nil, or_false] at hc
    rcases hc with rfl | rfl | rfl | rfl <;> decide
  rw [scan, if_neg hno.1, if_neg hno.2.1, if_neg hno.2.2, hlen, if_pos (by simp)]
  exact scan_skip cs

theorem scan_repeats (reps : List Repeat) :
    scan U (reps.flatMap Repeat.text ++ rest) 0 [] acc = scan U rest 0 [] acc := by
  induction reps with
  | nil => rfl
  | cons r reps ih =>
    obtain ⟨q, _ | _⟩ := r
    · rw [flatMap_cons, Repeat.text, if_neg Bool.false_ne_true, append_nil, append_assoc,
        scan_quant, ih]
    · rw [flatMap_cons, Repeat.text, if_pos rfl, append_assoc, append_assoc, scan_quant]
      exact (scan_quant .opt).trans ih

theorem scan_escape (c : Char) :
    scan U ('\\' :: c :: rest) 0 cur acc =
      if U.alnum c then scan U rest 0 [] (flush cur acc)
      else if isQuantifierAt U rest ≠ 0 then scan U rest (isQuantifierAt U rest) [] (flush cur acc)
      else scan U rest 0 (cur ++ [c]) acc := by
  rw [scan, if_neg (by decide), if_neg (by decide), if_neg (by decide), isQuantifierAt_cons (by decide),
    if_neg (by simp), if_pos rfl, Nat.add_comm 1]
  rfl

theorem scan_lit (h : c ∉ metaCharacters) :
    scan U (c :: rest) 0 cur acc =
      if isQuantifierAt U rest ≠ 0 then scan U rest (isQuantifierAt U rest) [] (flush cur acc)
      else scan U rest 0 (cur ++ [c]) acc := by
  simp only [metaCharacters, mem_cons, not_mem_nil, or_false, not_or] at h
  have hquant : isQuantifierAt U (c :: rest) = 0 := isQuantifierAt_cons (by simp [h]) rest
  rw [scan, if_neg (by simp [h]), if_neg (by simp [h]), if_neg (by simp [h]), hquant, if_neg (by simp),
    if_neg (by simp [h])]

theorem scan_atom_breaks (h : a.char? = none) :
    scan U (a.text ++ rest) 0 cur acc = scan U rest 0 [] (flush cur acc) := by
  cases a with
  | lit c _ | punct c _ => cases h
  | dot | caret | dollar => rfl
  | bracket k =>
    show scan U (k.body ++ rest) (classLength (k.body ++ rest)) [] _ = _
    rw [classLength_body, scan_skip]
  | letter c hc => exact (scan_escape c).trans (if_pos (alnum_of_isAlpha hc.1))

theorem scan_atom (h : a.char? = some c) :
    scan U (a.text ++ rest) 0 cur acc =
      if isQuantifierAt U rest ≠ 0 then scan U rest (isQuantifierAt U rest) [] (flush cur acc)
      else scan U rest 0 (cur ++ [c]) acc := by
  cases a with
  | lit c' hc =>
    cases h
    exact scan_lit hc
  | punct c' hc =>
    obtain rfl := Option.some.inj h
    exact (scan_escape c').trans (if_neg (by simp [hc]))
  | _ => cases h

theorem scan_tok (tok : Tok U) (hrest : isQuantifierAt U rest = 0) :
    scan U (tok.text ++ rest) 0 cur acc =
      match tok.char? with
      | some c => scan U rest 0 (cur ++ [c]) acc
      | none => scan U rest 0 [] (flush cur acc) := by
  obtain ⟨a, _ | ⟨r, reps⟩⟩ := tok
  · show scan U (a.text ++ [] ++ rest) 0 cur acc = match a.char? with | some c => _ | none => _
    rw [append_nil]
    cases hc : a.char? with
    | some c => rw [scan_atom hc, if_neg (by simp [hrest])]
    | none => exact scan_atom_breaks hc
  · show scan U ((a.text ++ (r :: reps).flatMap Repeat.text) ++ rest) 0 cur acc = scan U rest 0 [] (flush cur acc)
    rw [append_assoc]
    cases hc : a.char? with
    | some c =>
      -- the look-ahead passes the first quantifier together with the character
      obtain ⟨tail, htail⟩ : ∃ tail, (r :: reps).flatMap Repeat.text ++ rest = r.quant.text ++ tail :=
        ⟨_, by rw [flatMap_cons, Repeat.text, append_assoc, append_assoc]⟩
      have hlen := isQuantifierAt_text (U := U) r.quant tail
      have hne : r.quant.text.length ≠ 0 := by cases r.quant <;> simp [Quant.text]
      calc scan U (a.text ++ ((r :: reps).flatMap Repeat.text ++ rest)) 0 cur acc
          = scan U (r.quant.text ++ tail) r.quant.text.length [] (flush cur acc) := by
            rw [scan_atom hc, htail, hlen, if_pos hne]
        _ = scan U (r.quant.text ++ tail) 0 [] (flush cur acc) := by rw [scan_skip, scan_quant]
        _ = scan U rest 0 [] (flush cur acc) := by rw [← htail, scan_repeats]
    | none => rw [scan_atom_breaks hc, scan_repeats]

theorem scan_render (toks : List (Tok U)) (cur : Str) (acc : List Str) :
    scan U (render toks) 0 cur acc =
      some (acc ++ (runsFrom Option.isSome (cur.map some) (toks.map Tok.char?)).map List.reduceOption) := by
  induction toks generalizing cur acc with
  | nil =>
    rcases cur with _ | ⟨c, cur⟩
    · simp [scan, render, runsFrom, flush]
    · simp [scan, render, runsFrom, flush, List.reduceOption]
  | cons tok toks ih =>
    show scan U (tok.text ++ render toks) 0 cur acc = _
    rw [scan_tok tok (isQuantifierAt_render toks), map_cons]
    cases hc : tok.char? with
    | some c =>
      show scan U (render toks) 0 (cur ++ [c]) acc = _
      rw [ih, runsFrom, if_pos Option.isSome_some, map_append]
      rfl
    | none =>
      rw [ih, runsFrom, if_neg (by simp)]
      rcases cur with _ | ⟨c, cur⟩
      · rfl
      · simp [flush, List.reduceOption]

theorem requiredLiteralRuns_render (toks : List (Tok U)) :
    requiredLiteralRuns U (render toks) =
      some ((runs Option.isSome (toks.map Tok.char?)).map List.reduceOption) :=
  scan_render toks [] []

/-! ### The required trigrams -/

theorem infix_reduceOption_iff {w : Str} {r : List (Option Char)} (hr : ∀ o ∈ r, o.isSome) :
    w <:+: r.reduceOption ↔ w.map some <:+: r := by
  have hmap : r.reduceOption.map some = r := by
    induction r with
    | nil => rfl
    | cons o r ih =>
      obtain ⟨c, rfl⟩ := Option.isSome_iff_exists.1 (hr o mem_cons_self)
      exact congrArg (some c :: ·) (ih fun o ho => hr o (mem_cons_of_mem _ ho))
  constructor
  · intro h
    rw [← hmap]
    exact h.map some
  · intro h
    have h := h.filterMap id
    rwa [filterMap_map, Function.id_comp, filterMap_some] at h

theorem isAscii_of_indexStorable (h : indexStorable c) : isAscii c := by
  simp only [indexStorable, Bool.or_eq_true, Bool.and_eq_true, decide_eq_true_eq] at h
  rcases h with h | h
  · exact decide_eq_true (lt_of_le_of_lt h.2 (by decide))
  · simp only [mem_cons, not_mem_nil, or_false] at h
    rcases h with rfl | rfl | rfl <;> rfl

theorem lowered_of_indexStorable {s : Str} (h : ∀ c ∈ s, indexStorable c) : U.lowered s = s.map Char.toLower :=
  if_pos (all_eq_true.2 fun c hc => isAscii_of_indexStorable (h c hc))

theorem ne_nil_of_length {α : Type*} {cs : List α} (h : cs.length = trigramLength) : cs ≠ [] :=
  ne_nil_of_length_pos (h ▸ Nat.succ_pos 2)

theorem mem_trigrams_map {α : Type*} {t : Str} {f : α → Char} {text : List α} :
    t ∈ trigrams (text.map f) ↔ ∃ cs : List α, cs.length = trigramLength ∧ cs <:+: text ∧ t = cs.map f := by
  rw [trigrams, mem_dedup, windows_map, mem_map]
  simp only [mem_windows, and_assoc, eq_comm]

theorem mem_subrun_trigrams {t run : Str} :
    (∃ sub ∈ asciiSubruns run, t ∈ if trigramLength ≤ sub.length then trigrams (U.lowered sub) else []) ↔
      ∃ cs : Str, cs.length = trigramLength ∧ cs <:+: run ∧ (∀ c ∈ cs, indexStorable c) ∧
        t = cs.map Char.toLower := by
  constructor
  · rintro ⟨sub, hsub, ht⟩
    split at ht
    · rw [lowered_of_indexStorable (of_mem_runs hsub), mem_trigrams_map] at ht
      obtain ⟨cs, hlen, hcs, rfl⟩ := ht
      obtain ⟨hrun, hall⟩ := (infix_runs_iff (ne_nil_of_length hlen) run).1 ⟨sub, hsub, hcs⟩
      exact ⟨cs, hlen, hrun, hall, rfl⟩
    · cases ht
  · rintro ⟨cs, hlen, hrun, hall, rfl⟩
    obtain ⟨sub, hsub, hcs⟩ := (infix_runs_iff (ne_nil_of_length hlen) run).2 ⟨hrun, hall⟩
    refine ⟨sub, hsub, ?_⟩
    rw [if_pos (hlen ▸ hcs.length_le), lowered_of_indexStorable (of_mem_runs hsub), mem_trigrams_map]
    exact ⟨cs, hlen, hcs, rfl⟩

theorem mem_extractRequiredTrigrams {toks : List (Tok U)} {ci : Bool} {S : List Str}
    (h : extractRequiredTrigrams U (render toks) ci = some S) (t : Str) :
    t ∈ S ↔ ∃ cs : Str, cs.length = trigramLength ∧ cs.map some <:+: toks.map Tok.char? ∧
      (∀ c ∈ cs, indexStorable c) ∧ t = cs.map Char.toLower := by
  unfold extractRequiredTrigrams at h
  split at h
  · cases h
  rw [requiredLiteralRuns_render] at h
  dsimp only at h
  split at h
  · cases h
  cases h
  rw [mem_dedup]
  simp only [mem_flatMap, mem_subrun_trigrams, mem_map]
  have hruns : ∀ {cs : Str}, cs.length = trigramLength →
      ((∃ r ∈ runs Option.isSome (toks.map Tok.char?), cs.map some <:+: r) ↔
        cs.map some <:+: toks.map Tok.char?) := by
    intro cs hlen
    rw [infix_runs_iff (ne_nil_of_length ((length_map some).trans hlen))]
    simp
  constructor
  · rintro ⟨-, ⟨r, hr, rfl⟩, cs, hlen, hcs, hall, rfl⟩
    rw [infix_reduceOption_iff (of_mem_runs hr)] at hcs
    exact ⟨cs, hlen, (hruns hlen).1 ⟨r, hr, hcs⟩, hall, rfl⟩
  · rintro ⟨cs, hlen, hcs, hall, rfl⟩
    obtain ⟨r, hr, hcs⟩ := (hruns hlen).2 hcs
    refine ⟨_, ⟨r, hr, rfl⟩, cs, hlen, ?_, hall, rfl⟩
    rw [infix_reduceOption_iff (of_mem_runs hr)]
    exact hcs

end CodeIndexer.RegexTrigram
