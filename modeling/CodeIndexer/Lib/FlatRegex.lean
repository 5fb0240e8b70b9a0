import CodeIndexer.Lib.PyText

/-!
# Flat regular expressions

Patterns without groups and alternation: a sequence of atoms, each with the quantifiers that follow it.
A value of `Tok` is a well-formed piece of pattern text, which `text` writes out.

Matching is over the bytes of a file, and a match knows what stands before and after it, since that is
what assertions look at. `Engine` is what a regex engine decides: what `.`, an anchor, a class and a
letter escape match, and which escaped punctuation stands for itself. Where it does, and on literals, an
atom matches the UTF-8 encoding of its character.
-/

namespace FlatRegex

open PyText

/-! ### Pattern text -/

structure Numeral where
  digits : Str
  ne_nil : digits ≠ []
  isDigit : ∀ c ∈ digits, c.isDigit

def Numeral.value (m : Numeral) : ℕ := m.digits.foldl (fun n c => 10 * n + (c.toNat - '0'.toNat)) 0

inductive Quant
  | opt
  | star
  | plus
  | exactly (m : Numeral)
  | atLeast (m : Numeral)
  | between (m n : Numeral)

namespace Quant

def text : Quant → Str
  | .opt => ['?']
  | .star => ['*']
  | .plus => ['+']
  | .exactly m => '{' :: (m.digits ++ ['}'])
  | .atLeast m => '{' :: (m.digits ++ [',', '}'])
  | .between m n => '{' :: (m.digits ++ ',' :: (n.digits ++ ['}']))

def Allows : Quant → ℕ → Prop
  | .opt, k => k ≤ 1
  | .star, _ => True
  | .plus, k => 1 ≤ k
  | .exactly m, k => k = m.value
  | .atLeast m, k => m.value ≤ k
  | .between m n, k => m.value ≤ k ∧ k ≤ n.value

end Quant

/-- A quantifier, and whether a lazy `?` follows it. -/
structure Repeat where
  quant : Quant
  lazy : Bool

def Repeat.text (r : Repeat) : Str := r.quant.text ++ if r.lazy then ['?'] else []

inductive ClassItem
  | plain (c : Char) (h : c ∉ ['[', ']', '\\'])
  | escaped (c : Char)

def ClassItem.text : ClassItem → Str
  | .plain c _ => [c]
  | .escaped c => ['\\', c]

/-- A bracket class with no `[` inside but an escaped one. A `]` right after the opening (or after the `^`
of a negated class) is a member. -/
structure BracketClass where
  negated : Bool
  leadingBracket : Bool
  items : List ClassItem
  ne_empty : leadingBracket = true ∨ items ≠ []
  no_caret : negated = false → leadingBracket = false → (items.flatMap ClassItem.text).head? ≠ some '^'

def BracketClass.body (k : BracketClass) : Str :=
  (if k.negated then ['^'] else []) ++ (if k.leadingBracket then [']'] else []) ++
    k.items.flatMap ClassItem.text ++ [']']

def metaCharacters : List Char := ['\\', '.', '+', '*', '?', '(', ')', '|', '[', '{', '^', '$']

/-- `letter` are the escapes of an ASCII letter but for those that take an argument; `punct` escapes a
character that `str.isalnum` does not hold of. -/
inductive Atom (U : Unicode)
  | lit (c : Char) (h : c ∉ metaCharacters)
  | dot
  | caret
  | dollar
  | bracket (k : BracketClass)
  | letter (c : Char) (h : c.isAlpha ∧ c ∉ ['x', 'u', 'U', 'p', 'P'])
  | punct (c : Char) (h : U.alnum c = false)

variable {U : Unicode}

namespace Atom

def text : Atom U → Str
  | .lit c _ => [c]
  | .dot => ['.']
  | .caret => ['^']
  | .dollar => ['$']
  | .bracket k => '[' :: k.body
  | .letter c _ => ['\\', c]
  | .punct c _ => ['\\', c]

/-- The character that a literal or escaped punctuation shows. -/
def char? : Atom U → Option Char
  | .lit c _ => some c
  | .punct c _ => some c
  | _ => none

end Atom

structure Tok (U : Unicode) where
  atom : Atom U
  repeats : List Repeat

namespace Tok

def text (tok : Tok U) : Str := tok.atom.text ++ tok.repeats.flatMap Repeat.text

def char? (tok : Tok U) : Option Char := if tok.repeats.isEmpty then tok.atom.char? else none

end Tok

def render (toks : List (Tok U)) : Str := toks.flatMap Tok.text

/-! ### Matches -/

/-- A relation between what stands before a match, the match, and what stands after it. -/
abbrev Language := List UInt8 → List UInt8 → List UInt8 → Prop

structure Engine (U : Unicode) where
  literal : Char → Bool
  special : Atom U → Language

namespace Engine

/-- The character an atom stands for. -/
def fixed (E : Engine U) : Atom U → Option Char
  | .lit c _ => some c
  | .punct c _ => if E.literal c then some c else none
  | _ => none

def atom (E : Engine U) (a : Atom U) : Language := fun before text after =>
  match E.fixed a with
  | some c => text = encode [c]
  | none => E.special a before text after

end Engine

inductive Power (L : Language) : ℕ → Language
  | zero {b f : List UInt8} : Power L 0 b [] f
  | succ {k : ℕ} {b x y f : List UInt8} : L b x (y ++ f) → Power L k (b ++ x) y f → Power L (k + 1) b (x ++ y) f

def repeated (L : Language) (r : Repeat) : Language := fun before text after =>
  ∃ k, r.quant.Allows k ∧ Power L k before text after

namespace Engine

variable (E : Engine U)

def tok (tok : Tok U) : Language := tok.repeats.foldl repeated (E.atom tok.atom)

inductive Seq : List (Tok U) → Language
  | nil {b f : List UInt8} : Seq [] b [] f
  | cons {tok : Tok U} {toks : List (Tok U)} {b x y f : List UInt8} :
    E.tok tok b x (y ++ f) → Seq toks (b ++ x) y f → Seq (tok :: toks) b (x ++ y) f

def Contains (toks : List (Tok U)) (data : List UInt8) : Prop :=
  ∃ before text after, data = before ++ text ++ after ∧ E.Seq toks before text after

def fixedTok (tok : Tok U) : Option Char := if tok.repeats.isEmpty then E.fixed tok.atom else none

variable {E}

variable {b x f t : List UInt8} {l₁ l₂ w : List (Tok U)} {cs : Str}

theorem tok_of_fixedTok {t : Tok U} {c : Char} (h : E.fixedTok t = some c) : E.tok t b x f ↔ x = encode [c] := by
  obtain ⟨a, _ | ⟨r, reps⟩⟩ := t
  · have hfixed : E.fixed a = some c := h
    show E.atom a b x f ↔ x = encode [c]
    rw [atom, hfixed]
  · cases h

theorem fixedTok_cases (t : Tok U) : E.fixedTok t = none ∨ E.fixedTok t = t.char? := by
  obtain ⟨a, _ | ⟨r, reps⟩⟩ := t
  · show E.fixed a = none ∨ E.fixed a = a.char?
    cases a with
    | punct c h =>
      by_cases hc : E.literal c
      · exact .inr (if_pos hc)
      · exact .inl (if_neg hc)
    | lit c h => exact .inr rfl
    | _ => exact .inl rfl
  · exact .inl rfl

theorem Seq.append_left (h : E.Seq (l₁ ++ l₂) b t f) :
    ∃ x y, t = x ++ y ∧ E.Seq l₁ b x (y ++ f) ∧ E.Seq l₂ (b ++ x) y f := by
  induction l₁ generalizing b t with
  | nil =>
    refine ⟨[], t, rfl, .nil, ?_⟩
    rw [List.append_nil]
    exact h
  | cons tok l₁ ih =>
    rcases h with _ | ⟨htok, hseq⟩
    obtain ⟨x, y, rfl, h₁, h₂⟩ := ih hseq
    refine ⟨_, y, (List.append_assoc _ _ _).symm, .cons ?_ h₁, ?_⟩
    · rw [← List.append_assoc]
      exact htok
    · rw [← List.append_assoc]
      exact h₂

theorem Seq.append {y : List UInt8} (h₁ : E.Seq l₁ b x (y ++ f))
    (h₂ : E.Seq l₂ (b ++ x) y f) : E.Seq (l₁ ++ l₂) b (x ++ y) f := by
  induction l₁ generalizing b x with
  | nil =>
    rcases h₁ with _ | _
    rwa [List.append_nil] at h₂
  | cons tok l₁ ih =>
    rcases h₁ with _ | ⟨htok, hseq⟩
    rw [List.append_assoc]
    refine .cons ?_ (ih hseq (by rwa [List.append_assoc]))
    rwa [List.append_assoc]

theorem Seq.eq_encode (hw : w.map E.fixedTok = cs.map some) (h : E.Seq w b t f) : t = encode cs := by
  induction w generalizing cs b t with
  | nil =>
    rcases cs with _ | ⟨c, cs⟩
    · cases h
      rfl
    · cases hw
  | cons tok w ih =>
    rcases cs with _ | ⟨c, cs⟩
    · cases hw
    · obtain ⟨hc, hw⟩ := List.cons.inj hw
      rcases h with _ | ⟨htok, hseq⟩
      rw [(tok_of_fixedTok hc).1 htok, ih hw hseq]
      simp [encode]

theorem Seq.of_fixedTok (hw : w.map E.fixedTok = cs.map some) (b f : List UInt8) : E.Seq w b (encode cs) f := by
  induction w generalizing cs b with
  | nil =>
    rcases cs with _ | ⟨c, cs⟩
    · exact .nil
    · cases hw
  | cons tok w ih =>
    rcases cs with _ | ⟨c, cs⟩
    · cases hw
    · obtain ⟨hc, hw⟩ := List.cons.inj hw
      exact .cons ((tok_of_fixedTok hc).2 (by simp [encode])) (ih hw _)

theorem Contains.encode_occurs {toks : List (Tok U)} {data : List UInt8}
    (h : E.Contains toks data) (hw : w <:+: toks) (hcs : w.map E.fixedTok = cs.map some) :
    encode cs <:+: data := by
  obtain ⟨pre, post, rfl⟩ := hw
  obtain ⟨b, t, f, rfl, hseq⟩ := h
  obtain ⟨x, y, rfl, hseq, -⟩ := hseq.append_left
  obtain ⟨u, v, rfl, -, hseq⟩ := hseq.append_left
  rw [← hseq.eq_encode hcs]
  exact ⟨b ++ u, y ++ f, by simp only [List.append_assoc]⟩

end Engine

end FlatRegex
