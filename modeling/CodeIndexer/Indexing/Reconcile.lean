import CodeIndexer.Indexing.Scroll
import CodeIndexer.Lib.Dict
import CodeIndexer.Lib.PurePath

/-!
# The selection of a reconcile (services/smart_indexer.py)

`_do_reconcile_with_database` compares the files on disk with `_get_indexed_files_snapshot`, which
is read through `_scroll_all_content_points`: a file that is not among the snapshot's paths is
missing and gets indexed, an indexed path that is not among the files is deleted.
`reconcile_complete_iff` says when the snapshot and both selections are right.
-/

namespace CodeIndexer.Indexing

open PyText PurePath Pager List

structure Project where
  codebaseDir : Path
  absolute : codebaseDir.isAbsolute

/-- What the snapshot reads of a content point. The outer `Option` is the key's presence, the inner
one whether `float`, or `strptime` for `indexed_at`, accepts its value. -/
structure ContentPoint where
  path : Option Str
  fileMtime : Option (Option ℚ)
  filesystemMtime : Option (Option ℚ)
  createdAt : Option (Option ℚ)
  indexedAt : Option (Option ℚ)
deriving DecidableEq

def ContentPoint.extractBestTimestamp (p : ContentPoint) : Option ℚ :=
  match p.fileMtime, p.filesystemMtime, p.createdAt, p.indexedAt with
  | some t, _, _, _ => t
  | none, some t, _, _ => t
  | none, none, some t, _ => t
  | none, none, none, some t => some (t.getD 0)
  | none, none, none, none => some 0

/-- The files that `find_files` yields, and which paths exist. -/
structure Disk (P : Project) where
  files : List Path
  present : Path → Bool
  inside : ∀ f ∈ files, (f.relativeTo P.codebaseDir).isSome
  found : ∀ f ∈ files, present f

/-- `_get_effective_content_id_for_reconcile`, `none` where it raises, and
`_get_any_content_id_for_file`. -/
structure ContentIds where
  effective : Str → Option Str
  stored : Str → Option Str

inductive Verdict
  | missing
  | modified
  | upToDate
  | skipped
deriving DecidableEq

namespace Project

variable (P : Project)

def locate (path : Str) : Path :=
  if (parse path).isAbsolute then parse path else P.codebaseDir.join (parse path)

def snapshotPoint (snapshot : Dict Path ℚ) (p : ContentPoint) : Option (Dict Path ℚ) :=
  match p.path with
  | none => some snapshot
  | some path =>
    match p.extractBestTimestamp with
    | none => none
    | some timestamp =>
      if (snapshot.get? (P.locate path)).all (timestamp > ·) then some (snapshot.set (P.locate path) timestamp)
      else some snapshot

def getIndexedFilesSnapshot (points : List ContentPoint) : Dict Path ℚ :=
  (points.foldlM P.snapshotPoint Dict.empty).getD Dict.empty

/-- The list that `file_in_db` searches; `none` where a path is not under the project. A path that is
not absolute stays a `Path` in it, which no string equals. -/
def indexedPaths (keys : List Path) : Option (List (Option Str)) :=
  keys.mapM fun key =>
    if key.isAbsolute then (key.relativeTo P.codebaseDir).map fun rel => some rel.str else some none

def classify (ids : ContentIds) (keys : List Path) (filePath : Path) : Verdict :=
  match filePath.relativeTo P.codebaseDir with
  | none => .skipped
  | some rel =>
    match ids.effective rel.str, P.indexedPaths keys with
    | some current, some indexed =>
      if some rel.str ∉ indexed then .missing
      else
        match ids.stored rel.str with
        | none => .upToDate
        | some stored => if stored ≠ [] ∧ current ≠ stored then .modified else .upToDate
    | _, _ => .skipped

variable {P} in
def missingFiles (ids : ContentIds) (D : Disk P) (points : List ContentPoint) : List Path :=
  let keys := (P.getIndexedFilesSnapshot points).items.map Prod.fst
  D.files.filter fun f => P.classify ids keys f = .missing

def diskFilesSet (D : Disk P) : List Str := D.files.filterMap fun f => (f.relativeTo P.codebaseDir).map Path.str

/-- The deletion loop over the snapshot's paths; `none` where `relative_to` raises. -/
def deletedAmong (gitAware : Bool) (D : Disk P) : List Path → Option (List Str)
  | [] => some []
  | key :: keys =>
    match key.relativeTo P.codebaseDir with
    | none => none
    | some rel =>
      (deletedAmong gitAware D keys).map fun deleted =>
        if rel.str ∈ P.diskFilesSet D then deleted
        else if gitAware && D.present (P.codebaseDir.join (parse rel.str)) then deleted
        else rel.str :: deleted

variable {P} in
def deletedFiles (gitAware : Bool) (D : Disk P) (points : List ContentPoint) : Option (List Str) :=
  if D.files = [] then some []
  else P.deletedAmong gitAware D ((P.getIndexedFilesSnapshot points).items.map Prod.fst)

end Project

/-! ### What the selection should be -/

section Spec

variable {P : Project} (ids : ContentIds) (gitAware : Bool) (D : Disk P)

def Indexed (P : Project) (content : List ContentPoint) (f : Path) : Prop :=
  ∃ p ∈ content, ∃ path ∈ p.path, P.locate path = f

def MissingSound (content points : List ContentPoint) : Prop :=
  ∀ f ∈ Project.missingFiles ids D points, ¬ Indexed P content f

def DetectsGone (content points : List ContentPoint) : Prop :=
  ∀ f, Indexed P content f → D.present f = false →
    ∃ deleted, Project.deletedFiles gitAware D points = some deleted ∧
      ∃ rel, f.relativeTo P.codebaseDir = some rel ∧ rel.str ∈ deleted

def Readable (content : List ContentPoint) : Prop :=
  ∀ p ∈ content, p.path.isSome → p.extractBestTimestamp.isSome

instance (content : List ContentPoint) : Decidable (Readable content) :=
  inferInstanceAs (Decidable (∀ p ∈ content, p.path.isSome → p.extractBestTimestamp.isSome))

def Inside (P : Project) (content : List ContentPoint) : Prop :=
  ∀ f, Indexed P content f → (f.relativeTo P.codebaseDir).isSome

end Spec

/-! ### The snapshot -/

section Snapshot

variable {P : Project} {points : List ContentPoint} {f : Path}

theorem foldlM_snapshot (hr : Readable points) (d : Dict Path ℚ) :
    ∃ d', points.foldlM P.snapshotPoint d = some d' ∧
      ∀ f, (d'.get? f).isSome ↔ (d.get? f).isSome ∨ Indexed P points f := by
  induction points generalizing d with
  | nil => exact ⟨d, rfl, by simp [Indexed]⟩
  | cons p points ih =>
    have hr' : Readable points := fun q hq => hr q (mem_cons_of_mem _ hq)
    -- the point adds its own file and nothing else
    have hstep : ∃ d₁, P.snapshotPoint d p = some d₁ ∧
        ∀ f, (d₁.get? f).isSome ↔ (d.get? f).isSome ∨ ∃ path ∈ p.path, P.locate path = f := by
      cases hpath : p.path with
      | none => exact ⟨d, by simp [Project.snapshotPoint, hpath], by simp⟩
      | some path =>
        obtain ⟨t, ht⟩ := Option.isSome_iff_exists.1 (hr p (by simp) (by simp [hpath]))
        by_cases hall : (d.get? (P.locate path)).all (t > ·)
        · refine ⟨d.set (P.locate path) t, by simp [Project.snapshotPoint, hpath, ht, hall], fun f => ?_⟩
          rw [Dict.get?_set]
          by_cases hf : f = P.locate path
          · simp [hf]
          · simp [hf, Ne.symm hf]
        · refine ⟨d, by simp [Project.snapshotPoint, hpath, ht, hall], fun f => ?_⟩
          have hsome : (d.get? (P.locate path)).isSome := by
            cases hd : d.get? (P.locate path) with
            | none => simp [hd] at hall
            | some _ => rfl
          constructor
          · exact .inl
          · rintro (h | ⟨path', hpath', rfl⟩)
            · exact h
            · obtain rfl : path = path' := by simpa using hpath'
              exact hsome
    obtain ⟨d₁, hd₁, hkeys₁⟩ := hstep
    obtain ⟨d', hd', hkeys⟩ := ih hr' d₁
    refine ⟨d', by simp [foldlM_cons, hd₁, hd'], fun f => ?_⟩
    rw [hkeys, hkeys₁]
    simp [Indexed, or_assoc]

theorem foldlM_snapshot_none (hr : ¬ Readable points) (d : Dict Path ℚ) : points.foldlM P.snapshotPoint d = none := by
  induction points generalizing d with
  | nil => exact absurd (by simp [Readable]) hr
  | cons p points ih =>
    rw [foldlM_cons]
    cases hstep : P.snapshotPoint d p with
    | none => rfl
    | some d₁ =>
      refine ih (fun hr' => hr ?_) d₁
      intro q hq hpath
      rcases mem_cons.1 hq with rfl | hq
      · obtain ⟨path, hpath⟩ := Option.isSome_iff_exists.1 hpath
        cases ht : q.extractBestTimestamp with
        | none => simp [Project.snapshotPoint, hpath, ht] at hstep
        | some _ => rfl
      · exact hr' q hq hpath

theorem mem_snapshot (hr : Readable points) :
    f ∈ (P.getIndexedFilesSnapshot points).items.map Prod.fst ↔ Indexed P points f := by
  obtain ⟨d, hd, hkeys⟩ := foldlM_snapshot (P := P) hr Dict.empty
  have hget := hkeys f
  rw [Project.getIndexedFilesSnapshot, hd, Option.getD_some]
  rw [Dict.get?_empty, Option.isSome_none, Bool.false_eq_true, false_or] at hget
  rw [← hget, Option.isSome_iff_ne_none, Ne, Dict.get?_eq_none_iff, not_not]

theorem snapshot_of_not_readable (hr : ¬ Readable points) :
    (P.getIndexedFilesSnapshot points).items.map Prod.fst = [] := by
  rw [Project.getIndexedFilesSnapshot, foldlM_snapshot_none hr]
  rfl

end Snapshot

/-! ### Missing and deleted files -/

section Select

variable {P : Project} {D : Disk P} {ids : ContentIds} {gitAware : Bool} {content points : List ContentPoint}
  {keys : List Path} {f : Path}

theorem readable_congr (hperm : points.Perm content) : Readable points ↔ Readable content :=
  forall_congr' fun p => by rw [hperm.mem_iff]

theorem indexed_congr (hperm : points.Perm content) (f : Path) : Indexed P points f ↔ Indexed P content f :=
  exists_congr fun p => by rw [hperm.mem_iff]

theorem isAbsolute_of_relativeTo {key rel : Path} (hrel : key.relativeTo P.codebaseDir = some rel) :
    key.isAbsolute := by
  have hroot := (Path.isSome_relativeTo_iff.1 (by rw [hrel]; rfl)).1
  simpa [Path.isAbsolute, hroot] using P.absolute

theorem mem_indexedPaths {indexed : List (Option Str)} (h : P.indexedPaths keys = some indexed) {key rel : Path}
    (hkey : key ∈ keys) (hrel : key.relativeTo P.codebaseDir = some rel) : some rel.str ∈ indexed := by
  induction keys generalizing indexed with
  | nil => simp at hkey
  | cons k keys ih =>
    simp only [Project.indexedPaths, mapM_cons, Option.pure_def, Option.bind_eq_bind,
      Option.bind_eq_some_iff, Option.some.injEq] at h
    obtain ⟨r, hr, rs, hrs, rfl⟩ := h
    rcases mem_cons.1 hkey with rfl | hkey
    · rw [if_pos (isAbsolute_of_relativeTo hrel), hrel] at hr
      cases hr
      exact mem_cons_self
    · exact mem_cons_of_mem _ (ih hrs hkey)

theorem not_mem_of_missing (h : P.classify ids keys f = .missing) : f ∉ keys := by
  intro hf
  unfold Project.classify at h
  cases hrel : f.relativeTo P.codebaseDir with
  | none => simp [hrel] at h
  | some rel =>
    cases heff : ids.effective rel.str with
    | none => simp [hrel, heff] at h
    | some current =>
      cases hidx : P.indexedPaths keys with
      | none => simp [hrel, heff, hidx] at h
      | some indexed =>
        have hmem := mem_indexedPaths hidx hf hrel
        simp only [hrel, heff, hidx, hmem, not_true, ↓reduceIte] at h
        cases hst : ids.stored rel.str with
        | none => simp [hst] at h
        | some stored =>
          simp only [hst] at h
          split at h <;> cases h

theorem classify_nil {rel : Path} (hrel : f.relativeTo P.codebaseDir = some rel)
    (heff : (ids.effective rel.str).isSome) : P.classify ids [] f = .missing := by
  obtain ⟨current, hcur⟩ := Option.isSome_iff_exists.1 heff
  simp [Project.classify, hrel, hcur, Project.indexedPaths]

def HasContentId (P : Project) (ids : ContentIds) (f : Path) : Prop :=
  ∃ rel, f.relativeTo P.codebaseDir = some rel ∧ (ids.effective rel.str).isSome

theorem missingSound_iff (hperm : points.Perm content) : MissingSound ids D content points ↔
    Readable content ∨ ∀ f ∈ D.files, HasContentId P ids f → ¬ Indexed P content f := by
  have hread := readable_congr hperm
  have hindexed := indexed_congr (P := P) hperm
  by_cases hr : Readable content
  · simp only [hr, true_or, iff_true]
    intro f hf
    have hmissing := of_decide_eq_true (mem_filter.1 hf).2
    have hnot := not_mem_of_missing hmissing
    rwa [mem_snapshot (hread.2 hr), hindexed] at hnot
  · simp only [hr, false_or]
    have hkeys : (P.getIndexedFilesSnapshot points).items.map Prod.fst = [] :=
      snapshot_of_not_readable fun h => hr (hread.1 h)
    constructor
    · rintro h f hf ⟨rel, hrel, heff⟩
      refine h f (mem_filter.2 ⟨hf, decide_eq_true ?_⟩)
      rw [hkeys]
      exact classify_nil hrel heff
    · intro h f hf
      obtain ⟨hf, hmissing⟩ := mem_filter.1 hf
      refine h f hf ?_
      cases hrel : f.relativeTo P.codebaseDir with
      | none => simp [Project.classify, hrel] at hmissing
      | some rel =>
        refine ⟨rel, hrel, ?_⟩
        cases heff : ids.effective rel.str with
        | none => simp [Project.classify, hrel, heff] at hmissing
        | some _ => rfl

theorem deletedAmong_eq_some {deleted : List Str} (h : P.deletedAmong gitAware D keys = some deleted) :
    (∀ key ∈ keys, (key.relativeTo P.codebaseDir).isSome) ∧
      ∀ key ∈ keys, D.present key = false → ∃ rel, key.relativeTo P.codebaseDir = some rel ∧ rel.str ∈ deleted := by
  induction keys generalizing deleted with
  | nil => simp
  | cons k keys ih =>
    rw [Project.deletedAmong] at h
    cases hrel : k.relativeTo P.codebaseDir with
    | none => simp [hrel] at h
    | some rel =>
      simp only [hrel, Option.map_eq_some_iff] at h
      obtain ⟨rest, hrest, hdel⟩ := h
      obtain ⟨hin, hgone⟩ := ih hrest
      have hjoin : P.codebaseDir.join rel = k := (Path.relativeTo_eq_some_iff.1 hrel).2
      have hsub : ∀ s ∈ rest, s ∈ deleted := by
        intro s hs
        rw [← hdel]
        split
        · exact hs
        · split
          · exact hs
          · exact mem_cons_of_mem _ hs
      refine ⟨?_, ?_⟩
      · intro key hkey
        rcases mem_cons.1 hkey with rfl | hkey
        · simp [hrel]
        · exact hin key hkey
      · intro key hkey hpres
        rcases mem_cons.1 hkey with rfl | hkey
        · refine ⟨rel, hrel, ?_⟩
          have hdisk : rel.str ∉ P.diskFilesSet D := by
            intro hmem
            obtain ⟨g, hg, hgrel⟩ := mem_filterMap.1 hmem
            obtain ⟨rel', hrel', hstr⟩ := Option.map_eq_some_iff.1 hgrel
            obtain rfl := Path.str_injective hstr
            rw [(Path.relativeTo_eq_some_iff.1 hrel').2] at hjoin
            rw [← hjoin, D.found g hg] at hpres
            exact absurd hpres (by simp)
          rw [← hdel, if_neg hdisk, Path.parse_str, hjoin, hpres]
          simp
        · obtain ⟨rel', hrel', hmem⟩ := hgone key hkey hpres
          exact ⟨rel', hrel', hsub _ hmem⟩

theorem deletedAmong_isSome (h : ∀ key ∈ keys, (key.relativeTo P.codebaseDir).isSome) :
    (P.deletedAmong gitAware D keys).isSome := by
  induction keys with
  | nil => rfl
  | cons k keys ih =>
    obtain ⟨rel, hrel⟩ := Option.isSome_iff_exists.1 (h k mem_cons_self)
    simpa [Project.deletedAmong, hrel] using ih fun key hkey => h key (mem_cons_of_mem _ hkey)

theorem detectsGone_iff (hperm : points.Perm content) : DetectsGone gitAware D content points ↔
    (∀ f, Indexed P content f → D.present f) ∨ Readable content ∧ D.files ≠ [] ∧ Inside P content := by
  have hread := readable_congr hperm
  have hindexed := indexed_congr (P := P) hperm
  constructor
  · intro h
    by_cases hall : ∀ f, Indexed P content f → D.present f
    · exact .inl hall
    · push Not at hall
      obtain ⟨f, hf, hgone⟩ := hall
      obtain ⟨deleted, hdel, rel, hrel, hmem⟩ := h f hf (by simpa using hgone)
      have hfiles : D.files ≠ [] := by
        intro hnil
        rw [Project.deletedFiles, if_pos hnil] at hdel
        cases hdel
        cases hmem
      rw [Project.deletedFiles, if_neg hfiles] at hdel
      have hr : Readable content := by
        by_contra hr
        rw [snapshot_of_not_readable fun h => hr (hread.1 h)] at hdel
        cases hdel
        cases hmem
      refine .inr ⟨hr, hfiles, fun g hg => ?_⟩
      exact (deletedAmong_eq_some hdel).1 g ((mem_snapshot (hread.2 hr)).2 ((hindexed g).2 hg))
  · rintro (hall | ⟨hr, hfiles, hin⟩) f hf hgone
    · exact absurd (hall f hf) (by simp [hgone])
    · have hkeys : ∀ key, key ∈ (P.getIndexedFilesSnapshot points).items.map Prod.fst ↔ Indexed P content key :=
        fun key => (mem_snapshot (hread.2 hr)).trans (hindexed key)
      have hsome : (P.deletedAmong gitAware D ((P.getIndexedFilesSnapshot points).items.map Prod.fst)).isSome :=
        deletedAmong_isSome fun key hkey => hin key ((hkeys key).1 hkey)
      obtain ⟨deleted, hdel⟩ := Option.isSome_iff_exists.1 hsome
      refine ⟨deleted, by rw [Project.deletedFiles, if_neg hfiles]; exact hdel, ?_⟩
      exact (deletedAmong_eq_some hdel).2 f ((hkeys f).2 hf) hgone

end Select

/-! ### Complete snapshots -/

section Complete

variable {ω : Type} [DecidableEq ω] {P : Project} (ids : ContentIds) (gitAware : Bool) (D : Disk P)
  (scroll : Pager ω ContentPoint) (content : List ContentPoint)

/-- Both loops return every content point once, and the reconcile that reads them selects rightly. -/
def SnapshotComplete : Prop :=
  (∃ r, Returns (scrollAllContentPoints scroll) r ∧
    r.Perm content ∧ MissingSound ids D content r ∧ DetectsGone gitAware D content r) ∧
  ∃ r, Returns (fetchAllContentPoints scroll) r ∧ r.Perm content

/-- On a correct pager both loops end. The snapshot is complete exactly when nothing follows the first
page, and the selections are right exactly when moreover the timestamps are numbers (or no file on
disk is indexed) and, if an indexed file is gone, some file is left on disk and none is outside the
project. -/
theorem reconcile_complete_iff (pages : List (List ContentPoint)) (hf : Follows scroll none pages)
    (hp : pages.flatten.Perm content) :
    (∃ r, Returns (scrollAllContentPoints scroll) r) ∧ (∃ r, Returns (fetchAllContentPoints scroll) r) ∧
    (SnapshotComplete ids gitAware D scroll content ↔
      pages.tail.flatten = [] ∧
      (Readable content ∨ ∀ f ∈ D.files, HasContentId P ids f → ¬ Indexed P content f) ∧
      ((∀ f, Indexed P content f → D.present f) ∨ Readable content ∧ D.files ≠ [] ∧ Inside P content)) := by
  refine ⟨⟨_, scrollAll_returns scroll⟩, ⟨_, fetchAll_returns hf⟩, ?_⟩
  have hscroll := scrollAll_complete_iff hf hp
  rw [(scrollAll_returns scroll).exists_and_iff] at hscroll
  rw [SnapshotComplete, (scrollAll_returns scroll).exists_and_iff, hscroll, fetchAll_complete_iff hf hp]
  constructor
  · rintro ⟨⟨htail, hmissing, hgone⟩, -⟩
    have hperm := hscroll.2 htail
    exact ⟨htail, (missingSound_iff hperm).1 hmissing, (detectsGone_iff hperm).1 hgone⟩
  · rintro ⟨htail, hmissing, hgone⟩
    have hperm := hscroll.2 htail
    exact ⟨⟨htail, (missingSound_iff hperm).2 hmissing, (detectsGone_iff hperm).2 hgone⟩,
      dropWhile_flatten_of_tail htail⟩

end Complete

/-! ### Two files in a project -/

def projectP : Project := ⟨parse ['/', 'p'], by decide⟩
def fileA : Path := parse ['/', 'p', '/', 'a']
def fileB : Path := parse ['/', 'p', '/', 'b']

def pointOf (path : Str) : ContentPoint := ⟨some path, some (some 0), none, none, none⟩

def someIds : ContentIds := ⟨some, some⟩

def diskA : Disk projectP := ⟨[fileA], (· = fileA), by decide, by decide⟩
def diskAB : Disk projectP := ⟨[fileA, fileB], fun f => f = fileA ∨ f = fileB, by decide, by decide⟩

def onePage : Pager ℕ ContentPoint := fun _ => ([pointOf ['a'], pointOf ['b']], none)

def twoPages : Pager ℕ ContentPoint
  | none => ([pointOf ['a']], some 0)
  | some _ => ([pointOf ['b']], none)

/-- A page that holds everything; the second file is gone. -/
theorem reconcile_complete_one_page :
    SnapshotComplete someIds false diskA onePage [pointOf ['a'], pointOf ['b']] := by
  have hf : Follows onePage none [[pointOf ['a'], pointOf ['b']]] := .last rfl
  refine (reconcile_complete_iff someIds false diskA onePage _ _ hf (by simp)).2.2.2 ⟨rfl, ?_, ?_⟩
  · exact .inl (by decide)
  · refine .inr ⟨by decide, by decide, ?_⟩
    rintro f ⟨p, hp, path, hpath, rfl⟩
    simp only [mem_cons, not_mem_nil, or_false] at hp
    rcases hp with rfl | rfl
    · obtain rfl : ['a'] = path := by simpa [pointOf] using hpath
      decide
    · obtain rfl : ['b'] = path := by simpa [pointOf] using hpath
      decide

def contentFile (n : ℕ) : VectorFile ℕ ContentPoint := (n, some (pointOf (natStr n)))

def largeCollection : List (VectorFile ℕ ContentPoint) := (List.range 5001).map contentFile

theorem loadPoints_contentFiles (l : List ℕ) : (loadPoints (fun _ => true) (l.map contentFile)).length = l.length := by
  simp [loadPoints, contentFile, filterMap_map]

/-- The file walk over 5001 content points pages correctly and the snapshot has 5000 of them. Over two
pages, an indexed file counts as missing, and one that is gone is not detected. -/
theorem reconcile_incomplete :
    ((∃ pages, Follows (scrollPoints (fun _ => true) 5000 largeCollection) none pages ∧
        pages.flatten = loadPoints (fun _ => true) largeCollection) ∧
      ¬ ∃ r, Returns (scrollAllContentPoints (scrollPoints (fun _ => true) 5000 largeCollection)) r ∧
        r.Perm (loadPoints (fun _ => true) largeCollection)) ∧
    Follows twoPages none [[pointOf ['a']], [pointOf ['b']]] ∧
    ∃ r, Returns (scrollAllContentPoints twoPages) r ∧
      Project.missingFiles someIds diskAB r = [fileB] ∧ Project.deletedFiles false diskA r = some [] := by
  refine ⟨⟨scrollPoints_follows (by decide) ?_, ?_⟩, .next rfl (.last rfl), _, scrollAll_returns twoPages, ?_, ?_⟩
  · have hkeys : largeCollection.map Prod.fst = List.range 5001 := by
      rw [largeCollection, map_map]
      exact map_id _
    rw [hkeys]
    exact nodup_range
  · rw [(scrollAll_scrollPoints _ _ _).exists_and_iff]
    intro hperm
    have hlen := hperm.length_eq
    rw [largeCollection, ← map_take, loadPoints_contentFiles, loadPoints_contentFiles, length_take,
      length_range] at hlen
    omega
  · decide +kernel
  · decide +kernel

end CodeIndexer.Indexing
