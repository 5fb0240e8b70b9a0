import Mathlib

/-!
# Python text

A `str` is its list of code points. On ASCII the character tests are spelled out; what the
interpreter reads from the Unicode database elsewhere is the parameter `Unicode`.
-/

namespace PyText

open List

abbrev Str := List Char

/-- A literal stands for its code points. -/
instance : Coe String Str := ⟨String.toList⟩

instance : LawfulBEq Str := inferInstance

/-- The interpreter's Unicode tables: `str.lower` on a whole string, and the character tests on
non-ASCII characters. -/
structure Unicode where
  lower : Str → Str
  isDigit : Char → Bool
  isAlnum : Char → Bool
  decimal : Char → Option ℕ

/-- A database that knows no character outside ASCII. -/
def asciiOnly : Unicode := ⟨List.map Char.toLower, fun _ => false, fun _ => false, fun _ => none⟩

def isAscii (c : Char) : Bool := c.toNat < 128

namespace Unicode
variable (U : Unicode)

/-- `str.isdigit` on one character. -/
def digit (c : Char) : Bool := if isAscii c then c.isDigit else U.isDigit c

/-- `str.isalnum` on one character. -/
def alnum (c : Char) : Bool := if isAscii c then c.isAlphanum else U.isAlnum c

def lowered (s : Str) : Str := if s.all isAscii then s.map Char.toLower else U.lower s

/-- The value `int` gives a character that `\d` matches. -/
def digitValue (c : Char) : Option ℕ :=
  if isAscii c then if c.isDigit then some (c.toNat - '0'.toNat) else none else U.decimal c

end Unicode

/-- `str(n)` of a natural number. -/
def natStr (n : ℕ) : Str := Nat.toDigits 10 n

theorem natStr_injective : Function.Injective natStr := by
  intro i j h
  calc
    i = Nat.ofDigitChars 10 (natStr i) 0 := Nat.ofDigitChars_ten_toDigits.symm
    _ = Nat.ofDigitChars 10 (natStr j) 0 := by rw [h]
    _ = j := Nat.ofDigitChars_ten_toDigits

theorem notMem_natStr {c : Char} (hc : c.isDigit = false) (n : ℕ) : c ∉ natStr n := by
  intro h
  rw [Nat.isDigit_of_mem_toDigits (by decide) (by decide) h] at hc
  cases hc

theorem natStr_length_lt {n : ℕ} (h : n < 1000) : (natStr n).length < 4 :=
  Nat.lt_succ_of_le (Nat.toDigits_length 10 n 3 (by decide) h)

theorem natStr_four {n : ℕ} (h : 1000 ≤ n) (h' : n ≤ 9999) :
    natStr n = [Nat.digitChar (n / 1000), Nat.digitChar (n / 100 % 10), Nat.digitChar (n / 10 % 10),
      Nat.digitChar (n % 10)] := by
  unfold natStr
  rw [Nat.toDigits_of_base_le (by decide) (by omega), Nat.toDigits_of_base_le (by decide) (by omega),
    Nat.toDigits_of_base_le (by decide) (by omega), Nat.toDigits_of_lt_base (by omega)]
  simp [Nat.div_div_eq_div_mul]

theorem digitValue_digitChar (U : Unicode) : ∀ d < 10, U.digitValue (Nat.digitChar d) = some d := by
  intro d hd
  interval_cases d <;> rfl

/-! ### Words -/

/-- The characters `str.split` splits at. -/
def isSpace (c : Char) : Bool :=
  let n := c.toNat
  (9 ≤ n ∧ n ≤ 13) ∨ (28 ≤ n ∧ n ≤ 32) ∨ n ∈ [0x85, 0xa0, 0x1680, 0x2028, 0x2029, 0x202f, 0x205f, 0x3000] ∨
    (0x2000 ≤ n ∧ n ≤ 0x200a)

def split (s : Str) : List Str := (s.splitOnP isSpace).filter (· ≠ [])

/-- `s.strip()`. -/
def strip (s : Str) : Str := (s.dropWhile isSpace).rdropWhile isSpace

/-- Nothing to strip at either end. -/
def Tight (s : Str) : Prop := (∃ c ∈ s.head?, isSpace c = false) ∧ ∃ c ∈ s.getLast?, isSpace c = false

variable {s t : Str} {lines : List Str}

theorem Tight.ne_nil (h : Tight s) : s ≠ [] := by
  rintro rfl
  obtain ⟨⟨c, hc, -⟩, -⟩ := h
  simp at hc

theorem Tight.append (hs : Tight s) (u : Str) (ht : Tight t) : Tight (s ++ u ++ t) := by
  obtain ⟨⟨c, hc, hcs⟩, -⟩ := hs
  obtain ⟨-, d, hd, hds⟩ := ht
  exact ⟨⟨c, by simp [Option.mem_def.1 hc], hcs⟩, d, by simp [List.getLast?_append, Option.mem_def.1 hd], hds⟩

theorem rdropWhile_append_of_all {p : Char → Bool} (s : Str) (ht : ∀ c ∈ t, p c) :
    (s ++ t).rdropWhile p = s.rdropWhile p := by
  induction t using List.reverseRecOn with
  | nil => rw [append_nil]
  | append_singleton t a ih =>
    rw [← append_assoc, rdropWhile_concat_pos _ _ _ (ht a (by simp))]
    exact ih fun c hc => ht c (by simp [hc])

theorem strip_append (hs : Tight s) (ht : ∀ c ∈ t, isSpace c) : strip (s ++ t) = s := by
  obtain ⟨⟨c, hc, hcs⟩, d, hd, hds⟩ := hs
  have hhead : (s ++ t).dropWhile isSpace = s ++ t := by
    cases s with
    | nil => simp at hc
    | cons a s =>
      obtain rfl : a = c := by simpa using hc
      rw [cons_append, dropWhile_cons_of_neg (by simp [hcs])]
  have hlast : s.rdropWhile isSpace = s := by
    rw [rdropWhile_eq_self_iff]
    intro hne
    rw [List.getLast?_eq_some_getLast hne] at hd
    rw [Option.some.inj hd, hds]
    exact Bool.false_ne_true
  rw [strip, hhead, rdropWhile_append_of_all s ht, hlast]

theorem Tight.strip_eq (h : Tight s) : strip s = s := by
  simpa using strip_append h (t := []) (by simp)

/-! ### Lines -/

theorem flatMap_terminated (sep : Str) (hne : lines ≠ []) :
    lines.flatMap (· ++ sep) = sep.intercalate lines ++ sep := by
  induction lines with
  | nil => exact absurd rfl hne
  | cons line lines ih =>
    cases lines with
    | nil => simp [List.intercalate]
    | cons line' lines =>
      rw [flatMap_cons, ih (cons_ne_nil _ _), intercalate_cons_cons]
      simp

theorem Tight.intercalate (sep : Str) (hne : lines ≠ []) (h : ∀ line ∈ lines, Tight line) :
    Tight (sep.intercalate lines) := by
  induction lines with
  | nil => exact absurd rfl hne
  | cons line lines ih =>
    cases lines with
    | nil => simpa [List.intercalate] using h line mem_cons_self
    | cons line' lines =>
      rw [intercalate_cons_cons]
      exact (h line mem_cons_self).append _ (ih (cons_ne_nil _ _) fun l hl => h l (mem_cons_of_mem _ hl))

theorem splitOn_strip_lines (hne : lines ≠ []) (htight : ∀ line ∈ lines, Tight line)
    (hline : ∀ line ∈ lines, '\n' ∉ line) : (strip (lines.flatMap (· ++ ['\n']))).splitOn '\n' = lines := by
  rw [flatMap_terminated _ hne, strip_append (.intercalate _ hne htight) (by simp [isSpace])]
  exact splitOn_intercalate _ hline hne

/-- Where `str.splitlines` ends a line. -/
def isLineBreak (c : Char) : Bool :=
  c.toNat ∈ [0x0a, 0x0b, 0x0c, 0x0d, 0x1c, 0x1d, 0x1e, 0x85, 0x2028, 0x2029]

def linesFrom : Str → Str → List Str
  | cur, [] => if cur.isEmpty then [] else [cur]
  | cur, [c] => if isLineBreak c then [cur] else [cur ++ [c]]
  | cur, c :: d :: cs =>
    if c = '\r' ∧ d = '\n' then cur :: linesFrom [] cs
    else if isLineBreak c then cur :: linesFrom [] (d :: cs)
    else linesFrom (cur ++ [c]) (d :: cs)

def splitlines (s : Str) : List Str := linesFrom [] s

theorem linesFrom_line {line : Str} (h : ∀ c ∈ line, isLineBreak c = false) (cur rest : Str) :
    linesFrom cur (line ++ '\n' :: rest) = (cur ++ line) :: linesFrom [] rest := by
  induction line generalizing cur with
  | nil =>
    rw [append_nil]
    rcases rest with _ | ⟨c, rest⟩
    · rfl
    · rw [nil_append, linesFrom, if_neg (by simp), if_pos (by decide)]
  | cons c line ih =>
    have hc := h c mem_cons_self
    have hr : c ≠ '\r' := by
      rintro rfl
      exact absurd hc (by decide)
    have ih := ih (fun c' h' => h c' (mem_cons_of_mem _ h')) (cur ++ [c])
    obtain ⟨d, cs, hcs⟩ := exists_cons_of_ne_nil (l := line ++ '\n' :: rest) (by simp)
    rw [cons_append, hcs, linesFrom, if_neg (fun h => hr h.1), if_neg (by simp [hc]), ← hcs, ih,
      append_assoc]
    rfl

theorem splitlines_lines (h : ∀ line ∈ lines, ∀ c ∈ line, isLineBreak c = false) :
    splitlines (lines.flatMap (· ++ ['\n'])) = lines := by
  induction lines with
  | nil => rfl
  | cons line lines ih =>
    rw [splitlines, flatMap_cons, append_assoc, singleton_append,
      linesFrom_line (h line mem_cons_self), nil_append]
    exact congrArg (line :: ·) (ih fun l hl => h l (mem_cons_of_mem _ hl))

/-! ### UTF-8 -/

/-- `s.encode("utf-8")`. -/
def encode (s : Str) : List UInt8 := s.flatMap String.utf8EncodeChar

/-- `bs.decode("utf-8")`; `none` for `UnicodeDecodeError`. -/
def decode (bs : List UInt8) : Option Str := bs.toByteArray.utf8Decode?.map Array.toList

theorem decode_encode (s : Str) : decode (encode s) = some s := by
  show Option.map _ s.utf8Encode.utf8Decode? = some s
  rw [List.utf8Decode?_utf8Encode]
  rfl

end PyText
