import CodeIndexer.Lib.PyText

/-!
# POSIX pure paths

`pathlib.PurePosixPath`: a root (none, `/` or `//`) and parts that are non-empty, not `.` and free
of `/`; `..` is an ordinary part. `parse_str` says that a path is read back from its string, and
`relativeTo_eq_some_iff` that `relative_to` inverts `/`.
-/

namespace PurePath

open PyText List

inductive Root
  | relative
  | slash
  | slashes
deriving DecidableEq

/-- What `pathlib` keeps as a part. -/
def IsPart (p : Str) : Prop := p ≠ [] ∧ p ≠ ['.'] ∧ '/' ∉ p

instance (p : Str) : Decidable (IsPart p) := inferInstanceAs (Decidable (_ ∧ _ ∧ _))

structure Path where
  root : Root
  parts : List Str
  wf : ∀ p ∈ parts, IsPart p
deriving DecidableEq

def parseRoot : Str → Root
  | '/' :: '/' :: '/' :: _ => .slash
  | '/' :: '/' :: _ => .slashes
  | '/' :: _ => .slash
  | _ => .relative

def parseParts (s : Str) : List Str := (s.splitOn '/').filter fun p => p ≠ [] ∧ p ≠ ['.']

theorem not_mem_of_mem_splitOn {α : Type*} [BEq α] [LawfulBEq α] {a : α} {xs l : List α}
    (hl : l ∈ xs.splitOn a) : a ∉ l := by
  induction xs generalizing l with
  | nil => simp_all
  | cons x xs ih =>
    rw [splitOn_cons_eq_if_modifyHead] at hl
    split at hl
    · rcases mem_cons.1 hl with rfl | hl
      · exact not_mem_nil
      · exact ih hl
    · rename_i hx
      obtain ⟨y, ys, hy⟩ := exists_cons_of_ne_nil (splitOn_ne_nil a xs)
      rw [hy] at hl ih
      rcases mem_cons.1 hl with rfl | hl
      · intro ha
        rcases mem_cons.1 ha with rfl | ha
        · exact hx (beq_self_eq_true _)
        · exact ih mem_cons_self ha
      · exact ih (mem_cons_of_mem _ hl)

/-- `Path(s)`. -/
def parse (s : Str) : Path where
  root := parseRoot s
  parts := parseParts s
  wf p hp := by
    obtain ⟨hp, hne⟩ := mem_filter.1 hp
    obtain ⟨hne, hdot⟩ := of_decide_eq_true hne
    exact ⟨hne, hdot, not_mem_of_mem_splitOn hp⟩

namespace Path

variable {p q base rel : Path}

@[ext] theorem ext (hr : p.root = q.root) (hp : p.parts = q.parts) : p = q := by
  cases p; cases q; simp_all

def rootStr : Root → Str
  | .relative => []
  | .slash => ['/']
  | .slashes => ['/', '/']

/-- `str(p)`. -/
def str (p : Path) : Str :=
  if p.root = .relative ∧ p.parts = [] then ['.'] else rootStr p.root ++ List.intercalate ['/'] p.parts

def isAbsolute (p : Path) : Bool := p.root ≠ .relative

def name (p : Path) : Str := p.parts.getLastD []

/-- `p.relative_to(base)`; `none` for `ValueError`. -/
def relativeTo (p base : Path) : Option Path :=
  if p.root = base.root ∧ base.parts <+: p.parts then
    some ⟨.relative, p.parts.drop base.parts.length, fun q hq => p.wf q (mem_of_mem_drop hq)⟩
  else none

/-- `base / p`. -/
def join (base p : Path) : Path :=
  match p.root with
  | .relative => ⟨base.root, base.parts ++ p.parts, by
      intro q hq
      rcases mem_append.1 hq with hq | hq
      · exact base.wf q hq
      · exact p.wf q hq⟩
  | _ => p

/-! ### Reading a path back -/

theorem intercalate_parts_head (ps : List Str) (hps : ∀ p ∈ ps, IsPart p) :
    ps = [] ∨ ∃ c s, c ≠ '/' ∧ List.intercalate ['/'] ps = c :: s := by
  rcases ps with _ | ⟨p, ps⟩
  · exact .inl rfl
  · obtain ⟨hne, -, hslash⟩ := hps p mem_cons_self
    obtain ⟨c, s, rfl⟩ := exists_cons_of_ne_nil hne
    refine .inr ⟨c, ?_⟩
    have hc : c ≠ '/' := fun h => hslash (h ▸ mem_cons_self)
    rcases ps with _ | ⟨q, qs⟩
    · exact ⟨s, hc, by simp [List.intercalate]⟩
    · exact ⟨_, hc, by rw [intercalate_cons_cons]; rfl⟩

theorem parseParts_intercalate (ps : List Str) (hps : ∀ p ∈ ps, IsPart p) :
    parseParts (List.intercalate ['/'] ps) = ps := by
  rcases eq_or_ne ps [] with rfl | hne
  · rfl
  · rw [parseParts, splitOn_intercalate _ (fun p hp => (hps p hp).2.2) hne, filter_eq_self]
    intro p hp
    exact decide_eq_true ⟨(hps p hp).1, (hps p hp).2.1⟩

theorem parse_str (p : Path) : parse p.str = p := by
  obtain ⟨r, ps, hps⟩ := p
  by_cases hdot : r = .relative ∧ ps = []
  · obtain ⟨rfl, rfl⟩ := hdot
    exact Path.ext rfl rfl
  · simp only [str, if_neg hdot]
    have hparts := parseParts_intercalate ps hps
    apply Path.ext
    · show parseRoot _ = r
      rcases intercalate_parts_head ps hps with rfl | ⟨c, s, hc, hs⟩
      · rcases r with _ | _ | _
        · exact absurd ⟨rfl, rfl⟩ hdot
        all_goals rfl
      · rw [hs]
        rcases r with _ | _ | _ <;> simp [rootStr, parseRoot, hc]
    · show parseParts _ = ps
      rcases r with _ | _ | _
      · exact hparts
      · show parseParts ('/' :: _) = ps
        exact hparts
      · show parseParts ('/' :: '/' :: _) = ps
        exact hparts

theorem str_injective (h : p.str = q.str) : p = q := by
  rw [← parse_str p, ← parse_str q, h]

/-! ### `relative_to` and `/` -/

theorem isAbsolute_eq_false : p.isAbsolute = false ↔ p.root = .relative := by
  simp [isAbsolute]

theorem isSome_relativeTo_iff : (p.relativeTo base).isSome ↔ p.root = base.root ∧ base.parts <+: p.parts := by
  unfold relativeTo
  split <;> simp_all

theorem relativeTo_root (h : p.relativeTo base = some rel) : rel.root = .relative := by
  unfold relativeTo at h
  split at h
  · cases h; rfl
  · cases h

theorem join_root_of_relative (base : Path) (hp : p.root = .relative) : (base.join p).root = base.root := by
  simp [join, hp]

theorem join_parts_of_relative (base : Path) (hp : p.root = .relative) :
    (base.join p).parts = base.parts ++ p.parts := by
  simp [join, hp]

theorem relativeTo_eq_some_iff : p.relativeTo base = some rel ↔ rel.root = .relative ∧ base.join rel = p := by
  constructor
  · intro h
    have hrel := relativeTo_root h
    refine ⟨hrel, ?_⟩
    unfold relativeTo at h
    split at h
    · rename_i hp
      obtain ⟨hroot, t, ht⟩ := hp
      cases h
      apply Path.ext
      · exact hroot.symm
      · show base.parts ++ p.parts.drop base.parts.length = p.parts
        rw [← ht, drop_left]
    · cases h
  · rintro ⟨hrel, rfl⟩
    have hparts := join_parts_of_relative base hrel
    have hcond : (base.join rel).root = base.root ∧ base.parts <+: (base.join rel).parts :=
      ⟨join_root_of_relative base hrel, rel.parts, hparts.symm⟩
    rw [relativeTo, if_pos hcond]
    congr 1
    apply Path.ext
    · exact hrel.symm
    · show (base.join rel).parts.drop base.parts.length = rel.parts
      rw [hparts, drop_left]

end Path

end PurePath
