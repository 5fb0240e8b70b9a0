import CodeIndexer.Lib.PyText

/-!
# Translating a git diff (services/smart_indexer.py)

`_get_git_deltas_since_commit` reads the text of `git diff --name-status` and `_do_incremental_index`
applies the lists it makes: deleted paths leave the index, added and modified ones are indexed from
disk. Trees and indexes are partial functions from paths to contents. `Listing` is what git may print
for two trees; `Dropped` are the lines whose change is lost in the translation.
-/

namespace CodeIndexer.Indexing

open PyText List

structure GitDelta where
  added : List Str
  modified : List Str
  deleted : List Str
  renamed : List (Str × Str)
deriving DecidableEq

namespace GitDelta

def empty : GitDelta := ⟨[], [], [], []⟩

variable (shouldIndexFile : Str → Bool)

def rename (d : GitDelta) (oldPath newPath : Str) : GitDelta where
  added := if shouldIndexFile newPath then d.added ++ [newPath] else d.added
  modified := d.modified
  deleted := if shouldIndexFile oldPath then d.deleted ++ [oldPath] else d.deleted
  renamed := d.renamed ++ [(oldPath, newPath)]

def addParts (d : GitDelta) (status filePath : Str) (rest : List Str) : GitDelta :=
  if shouldIndexFile filePath = false then d
  else if status = ['A'] then { d with added := d.added ++ [filePath] }
  else if status = ['M'] then { d with modified := d.modified ++ [filePath] }
  else if status = ['D'] then { d with deleted := d.deleted ++ [filePath] }
  else if ['R'] <+: status then
    match rest with
    | [] => d
    | newPath :: _ => d.rename shouldIndexFile filePath newPath
  else d

def addLine (d : GitDelta) (line : Str) : GitDelta :=
  if line = [] then d
  else
    match (strip line).splitOn '\t' with
    | status :: filePath :: rest => d.addParts shouldIndexFile status filePath rest
    | _ => d

/-- `_get_git_deltas_since_commit` on what `git diff` printed; `none` for a failure, a timeout or an
exception. -/
def getGitDeltasSinceCommit : Option Str → GitDelta
  | none => empty
  | some stdout => ((strip stdout).splitOn '\n').foldl (addLine shouldIndexFile) empty

/-- `_do_incremental_index`: deletions first, then what was added or modified is indexed from disk. -/
def applyTo {K : Type} (d : GitDelta) (disk index : Str → Option K) : Str → Option K := fun path =>
  let index := fun p => if p ∈ d.deleted then none else index p
  if path ∈ d.added ++ d.modified then (disk path).or (index path) else index path

end GitDelta

/-! ### What git prints -/

inductive DiffEntry
  | added (path : Str)
  | modified (path : Str)
  | deleted (path : Str)
  | typeChanged (path : Str)
  | renamed (score oldPath newPath : Str)
  | copied (score source target : Str)
deriving DecidableEq

namespace DiffEntry

def parts : DiffEntry → List Str
  | added path => [['A'], path]
  | modified path => [['M'], path]
  | deleted path => [['D'], path]
  | typeChanged path => [['T'], path]
  | renamed score oldPath newPath => ['R' :: score, oldPath, newPath]
  | copied score source target => ['C' :: score, source, target]

def print (e : DiffEntry) : Str := List.intercalate ['\t'] e.parts

def changes : DiffEntry → List Str
  | added path | modified path | deleted path | typeChanged path => [path]
  | renamed _ oldPath newPath => [oldPath, newPath]
  | copied _ _ target => [target]

variable {K : Type}

def Holds (old new : Str → Option K) : DiffEntry → Prop
  | added path => old path = none ∧ (new path).isSome
  | modified path => (old path).isSome ∧ (new path).isSome ∧ old path ≠ new path
  | deleted path => (old path).isSome ∧ new path = none
  | typeChanged path => (old path).isSome ∧ (new path).isSome ∧ old path ≠ new path
  | renamed _ oldPath newPath => ((old oldPath).isSome ∧ new oldPath = none) ∧ old newPath = none ∧ (new newPath).isSome
  | copied _ source target => (old source).isSome ∧ old target = none ∧ (new target).isSome

def Unquoted (field : Str) : Prop := field ≠ [] ∧ '\t' ∉ field ∧ '\n' ∉ field

/-- The change of an indexable path that no list receives: a copy, a type change, and a rename from a
name that is not indexed. -/
def Dropped (shouldIndexFile : Str → Bool) : DiffEntry → Prop
  | typeChanged path => shouldIndexFile path
  | renamed _ oldPath newPath => shouldIndexFile oldPath = false ∧ shouldIndexFile newPath
  | copied _ _ target => shouldIndexFile target
  | _ => False

end DiffEntry

/-- What git may print for two trees: true lines that report every change once. -/
structure Listing {K : Type} (old new : Str → Option K) (entries : List DiffEntry) : Prop where
  unquoted : ∀ e ∈ entries, ∀ field ∈ e.parts, DiffEntry.Unquoted field
  holds : ∀ e ∈ entries, e.Holds old new
  complete : ∀ path, old path ≠ new path → ∃ e ∈ entries, path ∈ e.changes
  once : ∀ e ∈ entries, ∀ e' ∈ entries, ∀ path ∈ e.changes, path ∈ e'.changes → e = e'

def printListing (entries : List DiffEntry) : Str := (entries.map DiffEntry.print).flatMap (· ++ ['\n'])

def indexOf {K : Type} (shouldIndexFile : Str → Bool) (tree : Str → Option K) : Str → Option K := fun path =>
  if shouldIndexFile path then tree path else none

/-! ### Reading the text back -/

namespace DiffEntry

variable {e : DiffEntry}

theorem print_tight (hlast : ∃ c ∈ e.print.getLast?, isSpace c = false) : Tight e.print := by
  refine ⟨?_, hlast⟩
  cases e <;> exact ⟨_, rfl, by decide⟩

theorem splitOn_print (h : ∀ field ∈ e.parts, Unquoted field) : e.print.splitOn '\t' = e.parts := by
  refine splitOn_intercalate _ (fun field hf => (h field hf).2.1) ?_
  cases e <;> simp [parts]

theorem newline_notMem_print (h : ∀ field ∈ e.parts, Unquoted field) : '\n' ∉ e.print := by
  have hfields : ∀ field ∈ e.parts, '\n' ∉ field := fun field hf => (h field hf).2.2
  generalize hp : e.parts = parts at hfields
  intro hmem
  rw [print, hp] at hmem
  clear hp h
  induction parts with
  | nil => simp [List.intercalate] at hmem
  | cons p parts ih =>
    cases parts with
    | nil => exact hfields p mem_cons_self (by simpa [List.intercalate] using hmem)
    | cons q parts =>
      rw [intercalate_cons_cons, mem_append, mem_append] at hmem
      rcases hmem with (hmem | hmem) | hmem
      · exact hfields p mem_cons_self hmem
      · simp at hmem
      · exact ih (fun field hf => hfields field (mem_cons_of_mem _ hf)) hmem

def addTo (shouldIndexFile : Str → Bool) (d : GitDelta) (e : DiffEntry) : GitDelta :=
  match e.parts with
  | status :: filePath :: rest => d.addParts shouldIndexFile status filePath rest
  | _ => d

/-- The line does not end in white space, which `strip` would take from its last path. -/
def Clean (e : DiffEntry) : Prop := ∃ c ∈ e.print.getLast?, isSpace c = false

theorem addLine_print {shouldIndexFile : Str → Bool} (h : ∀ field ∈ e.parts, Unquoted field)
    (hclean : e.Clean) (d : GitDelta) : d.addLine shouldIndexFile e.print = e.addTo shouldIndexFile d := by
  have htight := print_tight hclean
  rw [GitDelta.addLine, if_neg htight.ne_nil, htight.strip_eq, splitOn_print h]
  rfl

end DiffEntry

variable {K : Type} {shouldIndexFile : Str → Bool} {old new : Str → Option K} {entries : List DiffEntry} {path : Str}

theorem getGitDeltas_printListing (hun : ∀ e ∈ entries, ∀ field ∈ e.parts, DiffEntry.Unquoted field)
    (hclean : ∀ e ∈ entries, e.Clean) :
    GitDelta.getGitDeltasSinceCommit shouldIndexFile (some (printListing entries)) =
      entries.foldl (fun d e => e.addTo shouldIndexFile d) .empty := by
  rcases eq_or_ne entries [] with rfl | hne
  · rfl
  have hlines : (strip (printListing entries)).splitOn '\n' = entries.map DiffEntry.print := by
    refine splitOn_strip_lines (by simpa using hne) ?_ ?_
    · intro line hline
      obtain ⟨e, he, rfl⟩ := mem_map.1 hline
      exact DiffEntry.print_tight (hclean e he)
    · intro line hline
      obtain ⟨e, he, rfl⟩ := mem_map.1 hline
      exact DiffEntry.newline_notMem_print (hun e he)
  rw [GitDelta.getGitDeltasSinceCommit, hlines, foldl_map]
  exact foldl_ext _ _ _ fun d e he => DiffEntry.addLine_print (hun e he) (hclean e he) d

/-! ### The lists of a delta -/

namespace DiffEntry

variable (shouldIndexFile)

def Adds (path : Str) : DiffEntry → Prop
  | added p => shouldIndexFile p ∧ path = p
  | renamed _ oldPath newPath => shouldIndexFile oldPath ∧ shouldIndexFile newPath ∧ path = newPath
  | _ => False

def Modifies (path : Str) : DiffEntry → Prop
  | modified p => shouldIndexFile p ∧ path = p
  | _ => False

def Deletes (path : Str) : DiffEntry → Prop
  | deleted p => shouldIndexFile p ∧ path = p
  | renamed _ oldPath _ => shouldIndexFile oldPath ∧ path = oldPath
  | _ => False

variable {shouldIndexFile}

theorem mem_addTo (shouldIndexFile : Str → Bool) (d : GitDelta) (e : DiffEntry) (path : Str) :
    (path ∈ (e.addTo shouldIndexFile d).added ↔ path ∈ d.added ∨ e.Adds shouldIndexFile path) ∧
    (path ∈ (e.addTo shouldIndexFile d).modified ↔ path ∈ d.modified ∨ e.Modifies shouldIndexFile path) ∧
    (path ∈ (e.addTo shouldIndexFile d).deleted ↔ path ∈ d.deleted ∨ e.Deletes shouldIndexFile path) := by
  cases e with
  | added p | modified p | deleted p | typeChanged p | copied _ p _ =>
    cases hp : shouldIndexFile p <;>
      simp [addTo, parts, GitDelta.addParts, hp, Adds, Modifies, Deletes]
  | renamed score p q =>
    cases hp : shouldIndexFile p <;> cases hq : shouldIndexFile q <;>
      simp [addTo, parts, GitDelta.addParts, GitDelta.rename, hp, hq, Adds, Modifies, Deletes]

end DiffEntry

def deltaOf (shouldIndexFile : Str → Bool) (entries : List DiffEntry) : GitDelta :=
  entries.foldl (fun d e => e.addTo shouldIndexFile d) .empty

theorem mem_foldl_addTo (shouldIndexFile : Str → Bool) (entries : List DiffEntry) (d : GitDelta) (path : Str) :
    let d' := entries.foldl (fun d e => e.addTo shouldIndexFile d) d
    (path ∈ d'.added ↔ path ∈ d.added ∨ ∃ e ∈ entries, e.Adds shouldIndexFile path) ∧
    (path ∈ d'.modified ↔ path ∈ d.modified ∨ ∃ e ∈ entries, e.Modifies shouldIndexFile path) ∧
    (path ∈ d'.deleted ↔ path ∈ d.deleted ∨ ∃ e ∈ entries, e.Deletes shouldIndexFile path) := by
  induction entries generalizing d with
  | nil => simp
  | cons e entries ih =>
    obtain ⟨hadd, hmod, hdel⟩ := ih (e.addTo shouldIndexFile d)
    obtain ⟨hadd', hmod', hdel'⟩ := DiffEntry.mem_addTo shouldIndexFile d e path
    simp only [foldl_cons, mem_cons, exists_eq_or_imp]
    exact ⟨by rw [hadd, hadd', or_assoc], by rw [hmod, hmod', or_assoc], by rw [hdel, hdel', or_assoc]⟩

theorem mem_deltaOf (shouldIndexFile : Str → Bool) (entries : List DiffEntry) (path : Str) :
    (path ∈ (deltaOf shouldIndexFile entries).added ↔ ∃ e ∈ entries, e.Adds shouldIndexFile path) ∧
    (path ∈ (deltaOf shouldIndexFile entries).modified ↔ ∃ e ∈ entries, e.Modifies shouldIndexFile path) ∧
    (path ∈ (deltaOf shouldIndexFile entries).deleted ↔ ∃ e ∈ entries, e.Deletes shouldIndexFile path) := by
  have h := mem_foldl_addTo shouldIndexFile entries .empty path
  simpa only [deltaOf, GitDelta.empty, not_mem_nil, false_or] using h

/-! ### Exactness -/

namespace DiffEntry

variable {e : DiffEntry}

theorem mem_changes (h : e.Adds shouldIndexFile path ∨ e.Modifies shouldIndexFile path ∨
    e.Deletes shouldIndexFile path) : path ∈ e.changes ∧ shouldIndexFile path := by
  cases e with
  | renamed score p q =>
    simp only [Adds, Modifies, Deletes, false_or] at h
    rcases h with ⟨-, hq, rfl⟩ | ⟨hp, rfl⟩
    · exact ⟨by simp [changes], hq⟩
    · exact ⟨by simp [changes], hp⟩
  | added p | modified p | deleted p =>
    simp only [Adds, Modifies, Deletes, or_false, false_or] at h
    obtain ⟨hp, rfl⟩ := h
    exact ⟨by simp [changes], hp⟩
  | typeChanged p | copied _ _ p => simp [Adds, Modifies, Deletes] at h

theorem isSome_of_reindexed (hv : e.Holds old new)
    (h : e.Adds shouldIndexFile path ∨ e.Modifies shouldIndexFile path) : (new path).isSome := by
  cases e with
  | added p =>
    simp only [Adds, Modifies, or_false] at h
    exact h.2 ▸ hv.2
  | modified p =>
    simp only [Adds, Modifies, false_or] at h
    exact h.2 ▸ hv.2.1
  | renamed score p q =>
    simp only [Adds, Modifies, or_false] at h
    exact h.2.2 ▸ hv.2.2
  | deleted p | typeChanged p | copied _ _ p => simp [Adds, Modifies] at h

theorem ne_of_none_of_isSome {a b : Option K} (ha : a = none) (hb : b.isSome) : a ≠ b := by
  rintro rfl
  simp [ha] at hb

theorem ne_of_mem_changes (hv : e.Holds old new) (h : path ∈ e.changes) : old path ≠ new path := by
  cases e <;> simp only [changes, List.mem_cons, List.not_mem_nil, or_false] at h
  case added p =>
    subst h
    exact ne_of_none_of_isSome hv.1 hv.2
  case modified p | typeChanged p =>
    subst h
    exact hv.2.2
  case deleted p =>
    subst h
    exact (ne_of_none_of_isSome hv.2 hv.1).symm
  case renamed score p q =>
    rcases h with rfl | rfl
    · exact (ne_of_none_of_isSome hv.1.2 hv.1.1).symm
    · exact ne_of_none_of_isSome hv.2.1 hv.2.2
  case copied score p q =>
    subst h
    exact ne_of_none_of_isSome hv.2.1 hv.2.2

theorem reaches (hv : e.Holds old new) (h : path ∈ e.changes) (hidx : shouldIndexFile path)
    (hkept : ¬ e.Dropped shouldIndexFile) :
    ((new path).isSome ∧ (e.Adds shouldIndexFile path ∨ e.Modifies shouldIndexFile path)) ∨
      (new path = none ∧ e.Deletes shouldIndexFile path) := by
  cases e <;> simp only [changes, List.mem_cons, List.not_mem_nil, or_false] at h
  case added p =>
    subst h
    exact .inl ⟨hv.2, .inl ⟨hidx, rfl⟩⟩
  case modified p =>
    subst h
    exact .inl ⟨hv.2.1, .inr ⟨hidx, rfl⟩⟩
  case deleted p =>
    subst h
    exact .inr ⟨hv.2, hidx, rfl⟩
  case typeChanged p | copied _ _ p =>
    subst h
    exact absurd hidx hkept
  case renamed score p q =>
    rcases h with rfl | rfl
    · exact .inr ⟨hv.1.2, hidx, rfl⟩
    · have hp : shouldIndexFile p := by
        by_contra hp
        exact hkept ⟨by simpa using hp, hidx⟩
      exact .inl ⟨hv.2.2, .inl ⟨hp, hidx, rfl⟩⟩

theorem Dropped.exists_lost (hdrop : e.Dropped shouldIndexFile) : ∃ path ∈ e.changes, shouldIndexFile path ∧
    ¬ (e.Adds shouldIndexFile path ∨ e.Modifies shouldIndexFile path ∨ e.Deletes shouldIndexFile path) := by
  cases e with
  | added p | modified p | deleted p => exact hdrop.elim
  | typeChanged p | copied _ _ p => exact ⟨p, by simp [changes], hdrop, by simp [Adds, Modifies, Deletes]⟩
  | renamed score p q =>
    exact ⟨q, by simp [changes], hdrop.2, by simp [Adds, Modifies, Deletes, hdrop.1]⟩

end DiffEntry

variable {d : GitDelta} {disk index : Str → Option K}

theorem applyTo_of_reindexed (h : path ∈ d.added ∨ path ∈ d.modified)
    (hdisk : (disk path).isSome) : d.applyTo disk index path = disk path := by
  rw [GitDelta.applyTo, if_pos (mem_append.2 h), Option.or_of_isSome hdisk]

theorem applyTo_of_not_reindexed (hadd : path ∉ d.added)
    (hmod : path ∉ d.modified) : d.applyTo disk index path = if path ∈ d.deleted then none else index path := by
  rw [GitDelta.applyTo, if_neg (by simp [hadd, hmod])]

theorem applyTo_deltaOf_untouched (new index : Str → Option K) (h : ∀ e ∈ entries, ¬ (e.Adds shouldIndexFile path ∨
    e.Modifies shouldIndexFile path ∨ e.Deletes shouldIndexFile path)) :
    (deltaOf shouldIndexFile entries).applyTo new index path = index path := by
  obtain ⟨hadd, hmod, hdel⟩ := mem_deltaOf shouldIndexFile entries path
  rw [applyTo_of_not_reindexed, if_neg]
  · rw [hdel]
    rintro ⟨e, he, hd⟩
    exact h e he (.inr (.inr hd))
  · rw [hadd]
    rintro ⟨e, he, ha⟩
    exact h e he (.inl ha)
  · rw [hmod]
    rintro ⟨e, he, hm⟩
    exact h e he (.inr (.inl hm))

theorem indexOf_of_indexable (tree : Str → Option K) (h : shouldIndexFile path) :
    indexOf shouldIndexFile tree path = tree path := if_pos h

theorem applyTo_deltaOf_of_kept (hlist : Listing old new entries)
    (hkept : ∀ e ∈ entries, ¬ e.Dropped shouldIndexFile) (path : Str) :
    (deltaOf shouldIndexFile entries).applyTo new (indexOf shouldIndexFile old) path =
      indexOf shouldIndexFile new path := by
  cases hidx : shouldIndexFile path with
  | false =>
    rw [applyTo_deltaOf_untouched]
    · simp [indexOf, hidx]
    · intro e _ h
      simpa [hidx] using (DiffEntry.mem_changes h).2
  | true =>
    rw [indexOf_of_indexable new hidx]
    by_cases hne : old path = new path
    · rw [applyTo_deltaOf_untouched, indexOf_of_indexable old hidx, hne]
      intro e he h
      exact DiffEntry.ne_of_mem_changes (hlist.holds e he) (DiffEntry.mem_changes h).1 hne
    · obtain ⟨hadd, hmod, hdel⟩ := mem_deltaOf shouldIndexFile entries path
      obtain ⟨e, he, hch⟩ := hlist.complete path hne
      rcases DiffEntry.reaches (hlist.holds e he) hch hidx (hkept e he) with ⟨hsome, h⟩ | ⟨hnone, hd⟩
      · refine applyTo_of_reindexed ?_ hsome
        rcases h with h | h
        · exact .inl (hadd.2 ⟨e, he, h⟩)
        · exact .inr (hmod.2 ⟨e, he, h⟩)
      · have hgone : ∀ e' ∈ entries, ¬ (e'.Adds shouldIndexFile path ∨ e'.Modifies shouldIndexFile path) := by
          intro e' he' h
          simpa [hnone] using DiffEntry.isSome_of_reindexed (hlist.holds e' he') h
        rw [applyTo_of_not_reindexed, if_pos (hdel.2 ⟨e, he, hd⟩), hnone]
        · rw [hadd]
          rintro ⟨e', he', h⟩
          exact hgone e' he' (.inl h)
        · rw [hmod]
          rintro ⟨e', he', h⟩
          exact hgone e' he' (.inr h)

/-- For every listing whose lines do not end in white space, the delta leads from the index of the old
tree to the index of the new one exactly when no line is dropped. -/
theorem gitDelta_exact_iff (shouldIndexFile : Str → Bool) (old new : Str → Option K) (entries : List DiffEntry)
    (hlist : Listing old new entries) (hclean : ∀ e ∈ entries, e.Clean) :
    (GitDelta.getGitDeltasSinceCommit shouldIndexFile (some (printListing entries))).applyTo new
        (indexOf shouldIndexFile old) = indexOf shouldIndexFile new ↔
      ∀ e ∈ entries, ¬ e.Dropped shouldIndexFile := by
  rw [getGitDeltas_printListing hlist.unquoted hclean]
  constructor
  · intro h e he hdrop
    obtain ⟨path, hch, hidx, hlost⟩ := hdrop.exists_lost
    -- the path belongs to this line alone, so no other line hands it to a list
    have huntouched : ∀ e' ∈ entries, ¬ (e'.Adds shouldIndexFile path ∨ e'.Modifies shouldIndexFile path ∨
        e'.Deletes shouldIndexFile path) := by
      intro e' he' h'
      obtain rfl := hlist.once e he e' he' path hch (DiffEntry.mem_changes h').1
      exact hlost h'
    have hpath := congrFun h path
    rw [indexOf_of_indexable new hidx] at hpath
    have hold := applyTo_deltaOf_untouched new (indexOf shouldIndexFile old) huntouched
    rw [indexOf_of_indexable old hidx] at hold
    exact DiffEntry.ne_of_mem_changes (hlist.holds e he) hch (hold.symm.trans hpath)
  · intro hkept
    funext path
    exact applyTo_deltaOf_of_kept hlist hkept path

/-! ### Small trees -/

def treeOf (files : List (Str × ℕ)) : Str → Option ℕ := fun path => files.lookup path

theorem treeOf_eq_none {files : List (Str × ℕ)} (h : path ∉ files.map Prod.fst) : treeOf files path = none := by
  rw [treeOf, lookup_eq_none_iff]
  intro f hf
  have hne : path ≠ f.1 := fun heq => h (heq ▸ mem_map_of_mem hf)
  simpa using hne

def IsListing (old new : List (Str × ℕ)) (entries : List DiffEntry) : Prop :=
  (∀ e ∈ entries, ∀ field ∈ e.parts, field ≠ [] ∧ '\t' ∉ field ∧ '\n' ∉ field) ∧
  (∀ e ∈ entries, e.Holds (treeOf old) (treeOf new)) ∧
  (∀ path ∈ old.map Prod.fst ++ new.map Prod.fst, treeOf old path ≠ treeOf new path →
    ∃ e ∈ entries, path ∈ e.changes) ∧
  ∀ e ∈ entries, ∀ e' ∈ entries, ∀ path ∈ e.changes, path ∈ e'.changes → e = e'

instance {K : Type} [DecidableEq K] (old new : Str → Option K) : (e : DiffEntry) → Decidable (e.Holds old new)
  | .added path => inferInstanceAs (Decidable (old path = none ∧ (new path).isSome))
  | .modified path | .typeChanged path =>
    inferInstanceAs (Decidable ((old path).isSome ∧ (new path).isSome ∧ old path ≠ new path))
  | .deleted path => inferInstanceAs (Decidable ((old path).isSome ∧ new path = none))
  | .renamed _ oldPath newPath => inferInstanceAs (Decidable
    (((old oldPath).isSome ∧ new oldPath = none) ∧ old newPath = none ∧ (new newPath).isSome))
  | .copied _ source target => inferInstanceAs (Decidable
    ((old source).isSome ∧ old target = none ∧ (new target).isSome))

instance (old new : List (Str × ℕ)) (entries : List DiffEntry) : Decidable (IsListing old new entries) :=
  inferInstanceAs (Decidable (_ ∧ _ ∧ _ ∧ _))

theorem IsListing.listing {old new : List (Str × ℕ)} (h : IsListing old new entries) :
    Listing (treeOf old) (treeOf new) entries where
  unquoted := h.1
  holds := h.2.1
  complete path hne := by
    refine h.2.2.1 path ?_ hne
    by_contra hmem
    rw [mem_append, not_or] at hmem
    exact hne (by rw [treeOf_eq_none hmem.1, treeOf_eq_none hmem.2])
  once := h.2.2.2

def isPy (path : Str) : Bool := ['.', 'p', 'y'].isSuffixOf path

def score100 : Str := ['1', '0', '0']
def aPy : Str := ['a', '.', 'p', 'y']
def bPy : Str := ['b', '.', 'p', 'y']
def cPy : Str := ['c', '.', 'p', 'y']
def dPy : Str := ['d', '.', 'p', 'y']
def aTxt : Str := ['a', '.', 't', 'x', 't']

def plainEntries : List DiffEntry := [.modified aPy, .deleted bPy, .renamed score100 cPy dPy,
    .added ['e', '.', 'p', 'y']]

theorem gitDelta_exact_plain :
    (GitDelta.getGitDeltasSinceCommit isPy (some (printListing plainEntries))).applyTo
        (treeOf [(aPy, 5), (dPy, 3), (['e', '.', 'p', 'y'], 4)])
        (indexOf isPy (treeOf [(aPy, 1), (bPy, 2), (cPy, 3)])) =
      indexOf isPy (treeOf [(aPy, 5), (dPy, 3), (['e', '.', 'p', 'y'], 4)]) := by
  have hlist : IsListing [(aPy, 1), (bPy, 2), (cPy, 3)] [(aPy, 5), (dPy, 3), (['e', '.', 'p', 'y'], 4)]
      plainEntries := by decide +kernel
  refine (gitDelta_exact_iff isPy _ _ plainEntries hlist.listing ?_).2 ?_
  · simp only [plainEntries, mem_cons, not_mem_nil, or_false]
    rintro e (rfl | rfl | rfl | rfl) <;> exact ⟨'y', rfl, by decide⟩
  · simp only [plainEntries, mem_cons, not_mem_nil, or_false]
    rintro e (rfl | rfl | rfl | rfl)
    · exact id
    · exact id
    · rintro ⟨h, -⟩
      exact absurd h (by decide)
    · exact id

def translated (shouldIndexFile : Str → Bool) (old new : List (Str × ℕ)) (entries : List DiffEntry) : Str → Option ℕ :=
  (GitDelta.getGitDeltasSinceCommit shouldIndexFile (some (printListing entries))).applyTo (treeOf new)
    (indexOf shouldIndexFile (treeOf old))

/-- A copy and a rename of a text file are not indexed, a type change leaves the old content, and a
name that ends in a blank is looked up without it. -/
theorem gitDelta_inexact :
    (Listing (treeOf [(aPy, 1)]) (treeOf [(bPy, 1), (cPy, 1)]) [.copied score100 aPy bPy, .renamed score100 aPy cPy] ∧
      translated isPy [(aPy, 1)] [(bPy, 1), (cPy, 1)]
      [.copied score100 aPy bPy, .renamed score100 aPy cPy] bPy = none) ∧
    (Listing (treeOf [(aTxt, 1)]) (treeOf [(aPy, 1)]) [.renamed score100 aTxt aPy] ∧
      translated isPy [(aTxt, 1)] [(aPy, 1)] [.renamed score100 aTxt aPy] aPy = none) ∧
    (Listing (treeOf [(aPy, 1)]) (treeOf [(aPy, 2)]) [.typeChanged aPy] ∧
      translated isPy [(aPy, 1)] [(aPy, 2)] [.typeChanged aPy] aPy = some 1) ∧
    Listing (treeOf []) (treeOf [(['a', ' '], 1)]) [.added ['a', ' ']] ∧
      translated (fun _ => true) [] [(['a', ' '], 1)] [.added ['a', ' ']] ['a', ' '] = none := by
  refine ⟨⟨IsListing.listing ?_, ?_⟩, ⟨IsListing.listing ?_, ?_⟩, ⟨IsListing.listing ?_, ?_⟩, IsListing.listing ?_, ?_⟩
  all_goals decide +kernel

end CodeIndexer.Indexing
