import CodeIndexer.GlobalRepos.TrigramIndex

/-!
# Does the pre-filter keep every match?

A file that contains a match of a flat pattern contains, one after the other, the characters that three
consecutive literal tokens stand for, so it has their trigram. The scanner takes every escaped
punctuation character for itself. An engine may not: to ripgrep's default engine `\<` and `\>` are the
start and the end of a word, and a trigram taken across them is required of files that need not have
it. A file with a match is kept exactly when it spells these trigrams out anyway (`SpelledOut`), or is not
indexed.
-/

namespace CodeIndexer.Prefilter

open PyText Runs FlatRegex RegexTrigram TrigramIndex List

variable {U : Unicode}

/-- Three consecutive tokens that show the storable characters `cs`. -/
structure Window (toks w : List (Tok U)) (cs : Str) : Prop where
  factor : w <:+: toks
  length : cs.length = trigramLength
  chars : w.map Tok.char? = cs.map some
  storable : ∀ c ∈ cs, indexStorable c

variable {E : Engine U} {toks w : List (Tok U)} {cs : Str} {S : List Str} {t : Str}

theorem mem_required (hS : extractRequiredTrigrams U (render toks) false = some S) :
    t ∈ S ↔ ∃ w cs, Window toks w cs ∧ t = cs.map Char.toLower := by
  rw [mem_extractRequiredTrigrams hS]
  constructor
  · rintro ⟨cs, hlen, ⟨pre, post, h⟩, hall, rfl⟩
    obtain ⟨l, post', rfl, hl, -⟩ := map_eq_append_iff.1 h.symm
    obtain ⟨pre', w, rfl, -, hw⟩ := map_eq_append_iff.1 hl
    exact ⟨w, cs, ⟨⟨pre', post', rfl⟩, hlen, hw, hall⟩, rfl⟩
  · rintro ⟨w, cs, hwin, rfl⟩
    exact ⟨cs, hwin.length, hwin.chars ▸ hwin.factor.map _, hwin.storable, rfl⟩

theorem toLower_indexStorable {c : Char} (h : indexStorable c) :
    indexStorable c.toLower ∧ c.toLower.toLower = c.toLower := by
  have hall : ∀ n < 128, indexStorable (Char.ofNat n) → indexStorable (Char.ofNat n).toLower ∧
      (Char.ofNat n).toLower.toLower = (Char.ofNat n).toLower := by decide
  have hlt : c.toNat < 128 := of_decide_eq_true (isAscii_of_indexStorable h)
  have hc := hall c.toNat hlt
  rw [Char.ofNat_toNat] at hc
  exact hc h

theorem lowered_required (hS : extractRequiredTrigrams U (render toks) false = some S) (ht : t ∈ S) :
    U.lowered t = t := by
  obtain ⟨w, cs, hwin, rfl⟩ := (mem_required hS).1 ht
  rw [lowered_of_indexStorable, map_map]
  · exact map_congr_left fun c hc => (toLower_indexStorable (hwin.storable c hc)).2
  · intro c hc
    obtain ⟨c', hc', rfl⟩ := mem_map.1 hc
    exact (toLower_indexStorable (hwin.storable c' hc')).1

theorem candidate_iff_of_extract (hS : extractRequiredTrigrams U (render toks) false = some S)
    {content : Option (List UInt8)} :
    candidate U S content ↔ (fileTrigrams U content).2 = false ∨ ∀ t ∈ S, t ∈ (fileTrigrams U content).1 := by
  rw [candidate_iff]
  exact or_congr_right (forall₂_congr fun t ht => by rw [lowered_required hS ht])

theorem ne_nil_of_extract {pattern : Str} {ci : Bool} (hS : extractRequiredTrigrams U pattern ci = some S) :
    S ≠ [] := by
  unfold extractRequiredTrigrams at hS
  split at hS
  · cases hS
  · split at hS
    · cases hS
    · dsimp only at hS
      split at hS
      · cases hS
      · rename_i hne
        rw [← Option.some.inj hS]
        exact fun h => hne (isEmpty_iff.2 h)

theorem indexStorable_of_toLower_eq {c c' : Char} (h : indexStorable c) (hlower : c'.toLower = c.toLower) :
    indexStorable c' := by
  have hc := (toLower_indexStorable h).1
  rw [← hlower, Char.toLower] at hc
  split at hc
  · rename_i hupper
    have hle : 65 ≤ c'.toNat ∧ c'.toNat ≤ 90 := hupper
    have hchar := indexStorable_ofNat c'.toNat (by omega)
    rw [Char.ofNat_toNat] at hchar
    rw [hchar]
    simp only [Bool.or_eq_true, Bool.and_eq_true, decide_eq_true_eq]
    omega
  · exact hc

theorem storable_of_map_toLower_eq {cs' : Str} (h : ∀ c ∈ cs, indexStorable c)
    (hlower : cs'.map Char.toLower = cs.map Char.toLower) : ∀ c ∈ cs', indexStorable c := by
  intro c' hc'
  have hmem : c'.toLower ∈ cs.map Char.toLower := hlower ▸ mem_map_of_mem hc'
  obtain ⟨c, hc, heq⟩ := mem_map.1 hmem
  exact indexStorable_of_toLower_eq (h c hc) heq.symm

/-- Where three tokens in a row show storable characters but the engine does not read all of them as these
characters, the file has the three characters in a row anyway, up to case. -/
def SpelledOut (E : Engine U) (toks : List (Tok U)) (data : List UInt8) : Prop :=
  ∀ w cs, Window toks w cs → (∃ tok ∈ w, E.fixedTok tok = none) →
    ∃ cs' : Str, cs'.map Char.toLower = cs.map Char.toLower ∧ encode cs' <:+: data

def Kept (E : Engine U) (toks : List (Tok U)) (content : Option (List UInt8)) : Prop :=
  ∀ data ∈ content, maxIndexBytes < data.length ∨ SpelledOut E toks data

theorem kept_iff (hS : extractRequiredTrigrams U (render toks) false = some S) {content : Option (List UInt8)}
    (hmatch : ∀ data ∈ content, E.Contains toks data) :
    ((fileTrigrams U content).2 = false ∨ ∀ t ∈ S, t ∈ (fileTrigrams U content).1) ↔ Kept E toks content := by
  rcases content with _ | data
  · exact iff_of_true (.inl rfl) nofun
  by_cases hsize : maxIndexBytes < data.length
  · refine iff_of_true (.inl ?_) ?_
    · rw [fileTrigrams, if_pos hsize]
    · rintro _ ⟨⟩
      exact .inl hsize
  have hle := Nat.le_of_not_lt hsize
  have hindexed : (fileTrigrams U (some data)).2 ≠ false := by
    rw [fileTrigrams, if_neg hsize]
    exact Bool.noConfusion
  constructor
  · rintro h _ ⟨⟩
    refine .inr fun w cs hwin _ => ?_
    have hcs := (h.resolve_left hindexed) _ ((mem_required hS).2 ⟨w, cs, hwin, rfl⟩)
    obtain ⟨cs', -, -, hdata, hlower⟩ := (mem_fileTrigrams_iff hle).1 hcs
    exact ⟨cs', hlower.symm, hdata⟩
  · intro h
    refine .inr fun t ht => ?_
    obtain ⟨w, cs, hwin, rfl⟩ := (mem_required hS).1 ht
    obtain ⟨cs', hlower, hdata⟩ : ∃ cs' : Str, cs'.map Char.toLower = cs.map Char.toLower ∧ encode cs' <:+: data := by
      by_cases hnone : ∃ tok ∈ w, E.fixedTok tok = none
      · exact (h data rfl).resolve_left hsize w cs hwin hnone
      · have hfixed : w.map E.fixedTok = cs.map some := by
          rw [← hwin.chars]
          exact map_congr_left fun tok htok =>
            (E.fixedTok_cases tok).resolve_left fun hn => hnone ⟨tok, htok, hn⟩
        exact ⟨cs, rfl, (hmatch data rfl).encode_occurs hwin.factor hfixed⟩
    refine (mem_fileTrigrams_iff hle).2 ⟨cs', ?_, storable_of_map_toLower_eq hwin.storable hlower, hdata, hlower.symm⟩
    rw [← hwin.length, ← length_map Char.toLower, hlower, length_map]

/-- If the engine reads the pattern's escaped punctuation as the characters themselves, no match is
lost. -/
theorem kept_of_literal (h : ∀ tok ∈ toks, ∀ c hc, tok.atom = .punct c hc → E.literal c)
    (content : Option (List UInt8)) : Kept E toks content := by
  refine fun data _ => .inr fun w cs hwin => ?_
  rintro ⟨⟨a, reps⟩, htok, hnone⟩
  have hmem : Tok.char? ⟨a, reps⟩ ∈ cs.map some := hwin.chars ▸ mem_map_of_mem htok
  obtain ⟨c, -, hc⟩ := mem_map.1 hmem
  rcases reps with _ | ⟨r, reps⟩
  · cases a with
    | lit c' hc' => cases hnone
    | punct c' hc' =>
      have hlit := h _ (hwin.factor.subset htok) c' hc' rfl
      have hnone : (if E.literal c' then some c' else none) = none := hnone
      rw [if_pos hlit] at hnone
      cases hnone
    | _ => cases hc
  · cases hc

/-- A file with a match has every required trigram, or is marked as not indexed, and the query returns it,
exactly when it is unreadable, too large, or spells out what the engine reads as an assertion. -/
theorem prefilter_complete_iff (hS : extractRequiredTrigrams U (render toks) false = some S)
    {files : List (Str × Option (List UInt8))} {path : Str} {content : Option (List UInt8)}
    (hfile : (path, content) ∈ files) (hmatch : ∀ data ∈ content, E.Contains toks data) :
    (((fileTrigrams U content).2 = false ∨ ∀ t ∈ S, t ∈ (fileTrigrams U content).1) ∧
      ∃ l, (build U files).query U false S = some l ∧ path ∈ l) ↔ Kept E toks content := by
  constructor
  · rintro ⟨h, -⟩
    exact (kept_iff hS hmatch).1 h
  · intro h
    have hreq := (kept_iff hS hmatch).2 h
    obtain ⟨l, hl, hperm⟩ := query_build_perm (U := U) files (ne_nil_of_extract hS)
    have hcand := (candidate_iff_of_extract hS).2 hreq
    exact ⟨hreq, l, hl, hperm.mem_iff.2 (mem_map.2 ⟨_, mem_filter.2 ⟨hfile, hcand⟩, rfl⟩)⟩

def foobar : List (Tok asciiOnly) :=
  [⟨.lit 'f' (by decide), []⟩, ⟨.lit 'o' (by decide), []⟩, ⟨.lit 'o' (by decide), []⟩, ⟨.lit 'b' (by decide), []⟩,
    ⟨.lit 'a' (by decide), []⟩, ⟨.lit 'r' (by decide), []⟩]

/-- `.` is any byte; the other atoms that are not characters match nothing. -/
def dotEngine : Engine asciiOnly where
  literal _ := true
  special a _ text _ :=
    match a with
    | .dot => text.length = 1
    | _ => False

theorem prefilter_complete_dot :
    ∃ (toks : List (Tok asciiOnly)) (S l : List Str), render toks = "foo.bar" ∧
      dotEngine.Contains toks (encode "x foo-bar") ∧
      extractRequiredTrigrams asciiOnly (render toks) false = some S ∧
      Kept dotEngine toks (some (encode "x foo-bar")) ∧
      (∀ t ∈ S, t ∈ (fileTrigrams asciiOnly (some (encode "x foo-bar"))).1) ∧
      (build asciiOnly [("a.txt", some (encode "x foo-bar")), ("b.txt", some [])]).query
        asciiOnly false S = some l ∧ "a.txt".toList ∈ l := by
  have hseq : dotEngine.Seq (foobar.take 3 ++ ⟨.dot, []⟩ :: foobar.drop 3) (encode "x ")
      (encode "foo" ++ (encode "-" ++ encode "bar")) [] :=
    .append (.of_fixedTok rfl _ _) (.cons rfl (.of_fixedTok rfl _ _))
  have hmatch : dotEngine.Contains (foobar.take 3 ++ ⟨.dot, []⟩ :: foobar.drop 3) (encode "x foo-bar") :=
    ⟨encode "x ", _, [], by decide +kernel, hseq⟩
  have hS : extractRequiredTrigrams asciiOnly (render (foobar.take 3 ++ ⟨.dot, []⟩ :: foobar.drop 3)) false =
      some (["foo", "bar"].map String.toList) := by decide +kernel
  have hkept : Kept dotEngine (foobar.take 3 ++ ⟨.dot, []⟩ :: foobar.drop 3) (some (encode "x foo-bar")) :=
    kept_of_literal (fun _ _ _ _ _ => rfl) _
  obtain ⟨hreq, l, hl, hmem⟩ := (prefilter_complete_iff hS mem_cons_self (by
    rintro data ⟨⟩
    exact hmatch)).2 hkept
  exact ⟨_, _, l, by decide +kernel, hmatch, hS, hkept, hreq.resolve_left (by decide +kernel), hl, hmem⟩

/-! ### Word boundaries -/

def isWordByte (b : UInt8) : Bool :=
  let c := Char.ofNat b.toNat
  c.isAlphanum || c = '_'

/-- `E`, but `\<` and `\>` match no text, at the start and at the end of an ASCII word, as in ripgrep's
default engine. -/
def withWordBoundaries (E : Engine U) : Engine U where
  literal c := c ∉ ['<', '>'] && E.literal c
  special a before text after :=
    match a with
    | .punct c _ =>
      if c = '<' then text = [] ∧ before.getLast?.any isWordByte = false ∧ after.head?.any isWordByte = true
      else if c = '>' then text = [] ∧ before.getLast?.any isWordByte = true ∧ after.head?.any isWordByte = false
      else E.special a before text after
    | _ => E.special a before text after

/-- The word `foobar` is in the file, its required trigrams are not, and the query drops the file. -/
theorem word_pattern_dropped :
    ∃ toks S, render toks = "\\<foobar\\>" ∧
      (withWordBoundaries dotEngine).Contains toks (encode "a foobar b") ∧
      extractRequiredTrigrams asciiOnly (render toks) false = some S ∧ "<fo".toList ∈ S ∧
      (fileTrigrams asciiOnly (some (encode "a foobar b"))).2 = true ∧
      "<fo".toList ∉ (fileTrigrams asciiOnly (some (encode "a foobar b".toList))).1 ∧
      (build asciiOnly [("a.txt", some (encode "a foobar b"))]).query asciiOnly false S =
        some [] := by
  refine ⟨⟨.punct '<' rfl, []⟩ :: (foobar ++ [⟨.punct '>' rfl, []⟩]),
    ["<fo", "foo", "oob", "oba", "bar", "ar>"].map String.toList, by decide +kernel, ?_, by decide +kernel,
    by decide +kernel, by decide +kernel, by decide +kernel, by decide +kernel⟩
  have hstart : (withWordBoundaries dotEngine).tok ⟨.punct '<' rfl, []⟩ (encode "a ") []
      (encode "foobar" ++ ([] ++ []) ++ encode " b") := by
    show [] = [] ∧ _
    decide +kernel
  have hend : (withWordBoundaries dotEngine).tok ⟨.punct '>' rfl, []⟩ (encode "a " ++ [] ++ encode "foobar")
      [] ([] ++ encode " b") := by
    show [] = [] ∧ _
    decide +kernel
  exact ⟨encode "a ", _, encode " b", by decide +kernel,
    .cons hstart (.append (.of_fixedTok rfl _ _) (.cons hend .nil))⟩

end CodeIndexer.Prefilter
