import CodeIndexer.GlobalRepos.Prefilter
import CodeIndexer.Lib.PurePath

/-!
# Regex search with and without the pre-filter

`search` builds one ripgrep command: with the pre-filter's candidates as explicit files, or with the
search path. Of ripgrep it is assumed that a directory argument is walked honouring the `-g` globs and
the ignore rules, and that a file named on the command line is searched whatever these say. What a walk
leaves out depends on where it starts (a hidden directory is walked if it is the argument), and a file may
be read in another way if it is named (a walk stops at a NUL byte).

Which files the two commands can report differ where an explicit file does not pass the globs, where the
search path is, or is in, what the walk of the root leaves out, where a file is read in two ways, and where
a candidate was dropped (`reports_search_iff`).
-/

namespace CodeIndexer.RegexSearch

open PyText PurePath FlatRegex RegexTrigram TrigramIndex Prefilter List

/-! ### The repository -/

structure RepoFile where
  path : Path
  content : Option (List UInt8)
deriving DecidableEq

/-- A working tree below its canonical root. `resolve` follows symbolic links; a walk does not, so it
reaches a file under its own name. `skips` is what a walk that starts at a directory leaves out. -/
structure Repo where
  root : Path
  resolve : Path → Path
  skips : Path → Path → Bool
  files : List RepoFile
  relative : ∀ f ∈ files, f.path.root = .relative
  canonical : ∀ f ∈ files, resolve (root.join f.path) = root.join f.path
  /-- No file lies under another one. -/
  separate : ∀ f ∈ files, ∀ g ∈ files, g.path.parts <+: f.path.parts → f = g
  oneLine : ∀ f ∈ files, f.path.str.any isLineBreak = false

namespace Repo

def isListed (R : Repo) (f : RepoFile) : Bool := !R.skips R.root f.path

def listing (R : Repo) : Str := (R.files.filter R.isListed).flatMap fun f => f.path.str ++ ['\n']

def readBytes (R : Repo) (p : Path) : Option (List UInt8) :=
  (R.files.find? fun f => R.root.join f.path = p).bind RepoFile.content

end Repo

def enumerateFiles (returncode : ℤ) (stdout : Str) : List Str :=
  if returncode ∉ [0, 1] then [] else (splitlines stdout).filter fun line => line ≠ []

def buildIndex (U : Unicode) (R : Repo) : Db :=
  build U ((enumerateFiles 0 R.listing).map fun rel => (rel, R.readBytes (R.root.join (parse rel))))

/-! ### The command -/

structure Search where
  pattern : Str
  path : Option Str
  includePatterns : Option (List Str)
  excludePatterns : Option (List Str)
  caseSensitive : Bool
  contextLines : ℤ
  multiline : Bool
  pcre2 : Bool

structure Command where
  flags : List Str
  pattern : Str
  globs : List Str
  targets : List Path

def maxPrefilterCandidates : ℕ := 8000

def searchPath (R : Repo) (q : Search) : Path :=
  match q.path with
  | some path => if path.isEmpty then R.root else R.root.join (parse path)
  | none => R.root

/-- `index` is the database if `exists()` finds one of the current schema; `failed` as in `query`. -/
def prefilterCandidateFiles (U : Unicode) (R : Repo) (index : Option Db) (failed : Bool) (q : Search) :
    Option (List Path) :=
  match index with
  | none => none
  | some db =>
    if db.files.isEmpty then none
    else
      match extractRequiredTrigrams U q.pattern (!q.caseSensitive) with
      | none => none
      | some required =>
        match db.query U failed required with
        | none => none
        | some rels =>
          if maxPrefilterCandidates < rels.length then none
          else
            let scope := R.resolve (searchPath R q)
            some (rels.filterMap fun rel =>
              let ap := R.resolve (R.root.join (parse rel))
              (ap.relativeTo scope).map fun _ => ap)

def searchFlags (q : Search) : List Str :=
  ["--json".toList] ++
    (if q.multiline then ["--multiline".toList, "--multiline-dotall".toList] else []) ++
    (if q.pcre2 then ["--pcre2".toList] else []) ++
    (if q.caseSensitive then [] else ["-i".toList]) ++
    if 0 < q.contextLines then ["-C".toList, natStr q.contextLines.toNat] else []

def searchGlobs (q : Search) : List Str :=
  q.includePatterns.getD [] ++ (q.excludePatterns.getD []).map ('!' :: ·) ++
    ["!.code-indexer/**".toList, "!.git/**".toList]

def searchRipgrep (R : Repo) (q : Search) (candidateFiles : Option (List Path)) : Command :=
  ⟨searchFlags q, q.pattern, searchGlobs q, candidateFiles.getD [searchPath R q]⟩

def search (U : Unicode) (R : Repo) (index : Option Db) (failed : Bool) (q : Search) : Option Command :=
  match prefilterCandidateFiles U R index failed q with
  | some [] => none
  | candidateFiles => some (searchRipgrep R q candidateFiles)

/-! ### Ripgrep -/

/-- How ripgrep matches one glob against a file, and when its regex pass finds a match in a file that is
named on the command line or reached by a walk. -/
structure Ripgrep where
  globMatch : Str → Path → Bool
  contains : (named : Bool) → List Str → Str → List UInt8 → Prop

/-- The last glob that matches decides; where none does, a file passes if there are only exclusions. -/
def Ripgrep.passes (rg : Ripgrep) (globs : List Str) (p : Path) : Bool :=
  match globs.reverse.find? fun g => rg.globMatch (if g.head? = some '!' then g.tail else g) p with
  | some g => g.head? ≠ some '!'
  | none => globs.all fun g => g.head? = some '!'

def Repo.under (R : Repo) (target : Path) (f : RepoFile) : Prop :=
  ((R.root.join f.path).relativeTo (R.resolve target)).isSome

/-- A walk of the target reaches the file. -/
def Repo.walks (R : Repo) (rg : Ripgrep) (globs : List Str) (target : Path) (f : RepoFile) : Prop :=
  R.skips (R.resolve target) f.path = false ∧ rg.passes globs f.path = true

def Reports (rg : Ripgrep) (R : Repo) (cmd : Command) (f : RepoFile) : Prop :=
  ∃ target ∈ cmd.targets, ∃ data ∈ f.content,
    if R.resolve target = R.root.join f.path then rg.contains true cmd.flags cmd.pattern data
    else R.under target f ∧ R.walks rg cmd.globs target f ∧ rg.contains false cmd.flags cmd.pattern data

/-! ### The index of the working tree -/

namespace Repo

variable {R : Repo} {f g : RepoFile}

theorem eq_of_under (hf : f ∈ R.files) (hg : g ∈ R.files)
    (h : ((R.root.join f.path).relativeTo (R.root.join g.path)).isSome) : f = g := by
  obtain ⟨-, hpre⟩ := Path.isSome_relativeTo_iff.1 h
  rw [Path.join_parts_of_relative _ (R.relative f hf), Path.join_parts_of_relative _ (R.relative g hg)] at hpre
  exact R.separate f hf g hg ((prefix_append_right_inj _).1 hpre)

theorem eq_of_join_eq (hf : f ∈ R.files) (hg : g ∈ R.files) (h : R.root.join f.path = R.root.join g.path) : f = g :=
  eq_of_under hf hg (Path.isSome_relativeTo_iff.2 ⟨congrArg Path.root h, h ▸ prefix_refl _⟩)

theorem readBytes_file (hf : f ∈ R.files) : R.readBytes (R.root.join f.path) = f.content := by
  unfold readBytes
  cases hfind : R.files.find? fun g => R.root.join g.path = R.root.join f.path with
  | none => exact absurd (List.find?_eq_none.1 hfind f hf) (by simp)
  | some g =>
    have hjoin : R.root.join g.path = R.root.join f.path := by simpa using List.find?_some hfind
    rw [eq_of_join_eq (mem_of_find?_eq_some hfind) hf hjoin]
    rfl

theorem str_ne_nil (hf : f ∈ R.files) : f.path.str ≠ [] := by
  have hrel := R.relative f hf
  unfold Path.str
  split
  · exact cons_ne_nil _ _
  · rename_i hne
    rcases Path.intercalate_parts_head _ f.path.wf with hnil | ⟨c, s, -, hs⟩
    · exact absurd ⟨hrel, hnil⟩ hne
    · rw [hs]
      simp

theorem enumerateFiles_listing (R : Repo) :
    enumerateFiles 0 R.listing = (R.files.filter R.isListed).map fun f => f.path.str := by
  have hmem : ∀ line ∈ (R.files.filter R.isListed).map fun f => f.path.str,
      ∃ f ∈ R.files, f.path.str = line := by
    intro line hline
    obtain ⟨f, hf, rfl⟩ := mem_map.1 hline
    exact ⟨f, mem_of_mem_filter hf, rfl⟩
  have hlisting : R.listing =
      ((R.files.filter R.isListed).map fun f => f.path.str).flatMap (· ++ ['\n']) := by
    rw [listing, flatMap_map]
  rw [enumerateFiles, if_neg (by decide), hlisting, splitlines_lines, filter_eq_self]
  · intro line hline
    obtain ⟨f, hf, rfl⟩ := hmem line hline
    simpa using str_ne_nil hf
  · intro line hline
    obtain ⟨f, hf, rfl⟩ := hmem line hline
    simpa using R.oneLine f hf

end Repo

variable {U : Unicode} {R : Repo} {rg : Ripgrep} {q : Search} {f : RepoFile} {failed : Bool} {S : List Str}

theorem buildIndex_eq (U : Unicode) (R : Repo) : buildIndex U R =
    build U ((R.files.filter R.isListed).map fun f => (f.path.str, f.content)) := by
  rw [buildIndex, R.enumerateFiles_listing, map_map]
  refine congrArg (build U) (map_congr_left fun f hf => ?_)
  show (f.path.str, R.readBytes (R.root.join (parse f.path.str))) = (f.path.str, f.content)
  rw [Path.parse_str, Repo.readBytes_file (mem_of_mem_filter hf)]

def Repo.candidates (R : Repo) (U : Unicode) (S : List Str) : List RepoFile :=
  R.files.filter fun f => R.isListed f && candidate U S f.content

theorem Repo.mem_candidates : f ∈ R.candidates U S ↔ f ∈ R.files ∧ R.isListed f = true ∧ candidate U S f.content := by
  simp [Repo.candidates]

theorem query_buildIndex (hS : S ≠ []) : ∃ rels, (buildIndex U R).query U false S = some rels ∧
    rels.Perm ((R.candidates U S).map fun f => f.path.str) := by
  obtain ⟨rels, hrels, hperm⟩ := query_build_perm (U := U)
    ((R.files.filter R.isListed).map fun f => (f.path.str, f.content)) hS
  rw [← buildIndex_eq] at hrels
  refine ⟨rels, hrels, hperm.trans (.of_eq ?_)⟩
  rw [filter_map, map_map, filter_filter, Repo.candidates]
  exact congrArg _ (filter_congr fun f _ => Bool.and_comm _ _)

/-- The pre-filter does not give up: the index has a file and can be read, trigrams are required, and not
too many files have them. -/
structure Prefiltered (U : Unicode) (R : Repo) (failed : Bool) (q : Search) (S : List Str) : Prop where
  listed : ∃ f ∈ R.files, R.isListed f = true
  readable : failed = false
  required : extractRequiredTrigrams U q.pattern (!q.caseSensitive) = some S
  few : (R.candidates U S).length ≤ maxPrefilterCandidates

theorem buildIndex_isEmpty : (buildIndex U R).files.isEmpty = false ↔ ∃ f ∈ R.files, R.isListed f = true := by
  rw [buildIndex_eq, build_files]
  simp

theorem prefilter_none (h : ∀ S, ¬ Prefiltered U R failed q S) :
    prefilterCandidateFiles U R (some (buildIndex U R)) failed q = none := by
  unfold prefilterCandidateFiles
  dsimp only
  split
  · rfl
  rename_i hlisted
  cases hS : extractRequiredTrigrams U q.pattern (!q.caseSensitive) with
  | none => rfl
  | some S =>
    cases failed with
    | true =>
      have hnone : (buildIndex U R).query U true S = none := if_pos (by simp)
      dsimp only
      rw [hnone]
    | false =>
      obtain ⟨rels, hrels, hperm⟩ := query_buildIndex (U := U) (R := R) (ne_nil_of_extract hS)
      dsimp only
      rw [hrels]
      refine if_pos (Nat.lt_of_not_le fun hle => h S ⟨?_, rfl, hS, ?_⟩)
      · exact buildIndex_isEmpty.1 (Bool.eq_false_of_not_eq_true hlisted)
      · simpa [hperm.length_eq] using hle

theorem prefilter_some (h : Prefiltered U R failed q S) :
    ∃ l, prefilterCandidateFiles U R (some (buildIndex U R)) failed q = some l ∧
      ∀ p, p ∈ l ↔ ∃ f ∈ R.candidates U S, p = R.root.join f.path ∧ R.under (searchPath R q) f := by
  obtain ⟨hlisted, rfl, hS, hfew⟩ := h
  obtain ⟨rels, hrels, hperm⟩ := query_buildIndex (U := U) (R := R) (ne_nil_of_extract hS)
  have hle : ¬ maxPrefilterCandidates < rels.length := by
    rw [hperm.length_eq, length_map]
    exact Nat.not_lt.2 hfew
  unfold prefilterCandidateFiles
  dsimp only
  rw [buildIndex_isEmpty.2 hlisted, hS]
  dsimp only
  rw [hrels]
  refine ⟨_, (if_neg Bool.false_ne_true).trans (if_neg hle), fun p => ?_⟩
  have hcanonical : ∀ f ∈ R.candidates U S, R.resolve (R.root.join (parse f.path.str)) = R.root.join f.path := by
    intro f hf
    rw [Path.parse_str, R.canonical f (Repo.mem_candidates.1 hf).1]
  rw [mem_filterMap]
  constructor
  · rintro ⟨rel, hrel, hap⟩
    obtain ⟨f, hf, rfl⟩ := mem_map.1 (hperm.mem_iff.1 hrel)
    rw [hcanonical f hf] at hap
    obtain ⟨r, hr, rfl⟩ := Option.map_eq_some_iff.1 hap
    exact ⟨f, hf, rfl, Option.isSome_iff_exists.2 ⟨r, hr⟩⟩
  · rintro ⟨f, hf, rfl, hunder⟩
    obtain ⟨r, hr⟩ := Option.isSome_iff_exists.1 hunder
    refine ⟨f.path.str, hperm.mem_iff.2 (mem_map_of_mem hf), ?_⟩
    rw [hcanonical f hf]
    exact Option.map_eq_some_iff.2 ⟨r, hr, rfl⟩

/-! ### The files that are reported -/

def Repo.names (R : Repo) (q : Search) (f : RepoFile) : Prop := R.resolve (searchPath R q) = R.root.join f.path

instance : Decidable (R.names q f) := inferInstanceAs (Decidable (_ = _))

/-- When the full scan reports a file below the search path, from its bytes. -/
def Scanned (rg : Ripgrep) (R : Repo) (q : Search) (f : RepoFile) (data : List UInt8) : Prop :=
  if R.names q f then rg.contains true (searchFlags q) q.pattern data
  else R.walks rg (searchGlobs q) (searchPath R q) f ∧ rg.contains false (searchFlags q) q.pattern data

theorem reports_full_iff : Reports rg R (searchRipgrep R q none) f ↔
    R.under (searchPath R q) f ∧ ∃ data ∈ f.content, Scanned rg R q f data := by
  have hself : R.names q f → R.under (searchPath R q) f := by
    intro h
    rw [Repo.under, h]
    exact Path.isSome_relativeTo_iff.2 ⟨rfl, prefix_refl _⟩
  have htarget : ∀ data, (if R.names q f then rg.contains true (searchFlags q) q.pattern data
      else R.under (searchPath R q) f ∧ R.walks rg (searchGlobs q) (searchPath R q) f ∧
        rg.contains false (searchFlags q) q.pattern data) ↔ R.under (searchPath R q) f ∧ Scanned rg R q f data := by
    intro data
    unfold Scanned
    split
    · rename_i h
      simp [hself h]
    · exact Iff.rfl
  constructor
  · rintro ⟨target, hmem, data, hdata, h⟩
    obtain rfl := mem_singleton.1 hmem
    exact ⟨((htarget data).1 h).1, data, hdata, ((htarget data).1 h).2⟩
  · rintro ⟨hunder, data, hdata, h⟩
    exact ⟨searchPath R q, mem_singleton_self _, data, hdata, (htarget data).2 ⟨hunder, h⟩⟩

/-- When the command with the candidates reports it. -/
def Picked (U : Unicode) (rg : Ripgrep) (R : Repo) (q : Search) (S : List Str) (f : RepoFile)
    (data : List UInt8) : Prop :=
  R.isListed f = true ∧ candidate U S f.content ∧ rg.contains true (searchFlags q) q.pattern data

theorem reports_candidates_iff {l : List Path} (hf : f ∈ R.files)
    (hl : ∀ p, p ∈ l ↔ ∃ f ∈ R.candidates U S, p = R.root.join f.path ∧ R.under (searchPath R q) f) :
    Reports rg R (searchRipgrep R q (some l)) f ↔
      R.under (searchPath R q) f ∧ ∃ data ∈ f.content, Picked U rg R q S f data := by
  constructor
  · rintro ⟨target, htarget, data, hdata, h⟩
    obtain ⟨g, hcand, rfl, hunder⟩ := (hl target).1 htarget
    obtain ⟨hg, hlisted, hcand⟩ := Repo.mem_candidates.1 hcand
    rw [Repo.under, R.canonical g hg] at h
    split at h
    · rename_i heq
      obtain rfl := Repo.eq_of_join_eq hf hg heq.symm
      exact ⟨hunder, data, hdata, hlisted, hcand, h⟩
    · -- a candidate is no directory
      rename_i hne
      exact absurd (by rw [Repo.eq_of_under hf hg h.1]) hne
  · rintro ⟨hunder, data, hdata, hlisted, hcand, h⟩
    have hmem := Repo.mem_candidates.2 ⟨hf, hlisted, hcand⟩
    refine ⟨R.root.join f.path, (hl _).2 ⟨f, hmem, rfl, hunder⟩, data, hdata, ?_⟩
    rw [if_pos (R.canonical f hf)]
    exact h

theorem reports_search_iff (hf : f ∈ R.files) (hpre : Prefiltered U R failed q S) :
    (∃ cmd ∈ search U R (some (buildIndex U R)) failed q, Reports rg R cmd f) ↔
      R.under (searchPath R q) f ∧ ∃ data ∈ f.content, Picked U rg R q S f data := by
  obtain ⟨l, hl, hmem⟩ := prefilter_some hpre
  rw [← reports_candidates_iff hf hmem, search, hl]
  rcases l with _ | ⟨p, l⟩
  · -- no command is run, and a command without files would report none
    constructor
    · rintro ⟨cmd, hcmd, -⟩
      cases hcmd
    · rintro ⟨target, htarget, -⟩
      cases htarget
  · constructor
    · rintro ⟨cmd, ⟨⟩, h⟩
      exact h
    · intro h
      exact ⟨_, rfl, h⟩

/-- If the pre-filter does not give up: of the files below the search path, one that the search path names and that
has a match is listed and a candidate; another one is listed, a candidate and has a match as a named file exactly when
the walk of the search path reaches it and finds a match. -/
def Agrees (U : Unicode) (rg : Ripgrep) (R : Repo) (failed : Bool) (q : Search) : Prop :=
  ∀ S, Prefiltered U R failed q S → ∀ f ∈ R.files, R.under (searchPath R q) f → ∀ data ∈ f.content,
    if R.names q f then
      rg.contains true (searchFlags q) q.pattern data → R.isListed f = true ∧ candidate U S f.content
    else
      R.isListed f = true ∧ candidate U S f.content ∧ rg.contains true (searchFlags q) q.pattern data ↔
        R.walks rg (searchGlobs q) (searchPath R q) f ∧ rg.contains false (searchFlags q) q.pattern data

theorem picked_iff_scanned {data : List UInt8} : (Picked U rg R q S f data ↔ Scanned rg R q f data) ↔
    if R.names q f then
      rg.contains true (searchFlags q) q.pattern data → R.isListed f = true ∧ candidate U S f.content
    else
      R.isListed f = true ∧ candidate U S f.content ∧ rg.contains true (searchFlags q) q.pattern data ↔
        R.walks rg (searchGlobs q) (searchPath R q) f ∧ rg.contains false (searchFlags q) q.pattern data := by
  unfold Picked Scanned
  split
  · rw [← and_assoc, and_iff_right_iff_imp]
  · exact Iff.rfl

theorem reports_search_of_gave_up (h : ∀ S, ¬ Prefiltered U R failed q S) :
    (∃ cmd ∈ search U R (some (buildIndex U R)) failed q, Reports rg R cmd f) ↔
      Reports rg R (searchRipgrep R q none) f := by
  rw [search, prefilter_none h]
  constructor
  · rintro ⟨cmd, ⟨⟩, hreports⟩
    exact hreports
  · intro hreports
    exact ⟨_, rfl, hreports⟩

/-- Globs of the forms `*.ext` and `dir/**`. -/
def simpleGlob (g : Str) (p : Path) : Bool :=
  if g.head? = some '*' then g.tail.isSuffixOf p.str else (g.take (g.length - 2)).isPrefixOf p.str

def sampleRipgrep : Ripgrep := ⟨simpleGlob, fun _ _ _ data => dotEngine.Contains foobar data⟩

def sampleRepo : Repo where
  root := parse "/repo"
  resolve p := p
  skips _ _ := false
  files := [⟨parse "a.txt", some (encode "foobar")⟩, ⟨parse "b.md", some (encode "none")⟩]
  relative := by decide +kernel
  canonical _ _ := rfl
  separate := by decide +kernel
  oneLine := by decide +kernel

def sampleSearch (includePatterns excludePatterns : Option (List Str)) : Search :=
  ⟨render foobar, none, includePatterns, excludePatterns, true, 0, false, false⟩

theorem sampleRepo_contains {f : RepoFile} (hf : f ∈ sampleRepo.files) {data : List UInt8} (hdata : data ∈ f.content)
    (hmatch : dotEngine.Contains foobar data) : f = ⟨parse "a.txt", some (encode "foobar")⟩ := by
  rcases mem_cons.1 hf with rfl | hf
  · rfl
  · obtain rfl := mem_singleton.1 hf
    cases hdata
    exact absurd (hmatch.encode_occurs (infix_refl foobar) (show _ = "foobar".toList.map some from rfl))
      (by decide +kernel)

end CodeIndexer.RegexSearch
