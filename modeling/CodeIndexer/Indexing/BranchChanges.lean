import CodeIndexer.Indexing.Reconcile
import CodeIndexer.Indexing.Visibility

/-!
# Switching to a branch (services/high_throughput_processor.py)

`process_branch_changes_high_throughput` indexes the changed files that are on disk. Then it reads all content points
once, shows the unchanged files in the branch and hides the files that are in neither list there. The files to hide
are told from the stored paths made relative to the project, but the points are matched by their stored paths, so a
point with an absolute path in the project is neither hidden nor shown. Changed files are not shown at all: one that
was hidden stays hidden unless indexing it replaces its points.

`end_indexing`, which does not touch vector files, and the full text index are left out.
-/

namespace CodeIndexer.Indexing

open PyText PurePath Storage Pager List

variable {V B : Type}

/-! ### Visibility -/

variable (P : Project) (c : Collection V (Fields B))

def batchUpdatePayloadOnly (updates : List (Str × List Str)) : Collection V (Fields B) :=
  updates.foldl (fun c u =>
    match c.idIndex.get? u.1 with
    | none => c
    | some vectorFile =>
      match c.files.get? vectorFile with
      | none => c
      | some p => { c with files := c.files.set vectorFile (hideIn p u.2) }) c

def updatesFor (edit : List Str → Option (List Str)) (filePaths : List Str) (points : List (Point V (Fields B))) :
    List (Str × List Str) :=
  points.filterMap fun p =>
    if p.path ≠ [] ∧ p.path ∈ filePaths then (edit p.body.hidden).map fun hidden => (p.id, hidden) else none

def batchEnsureFilesVisibleInBranch (filePaths : List Str) (branch : Str)
    (allContentPoints : List (Point V (Fields B))) : Collection V (Fields B) :=
  batchUpdatePayloadOnly c (updatesFor (dropBranch branch) filePaths allContentPoints)

def batchHideFilesInBranch (filePaths : List Str) (branch : Str)
    (allContentPoints : List (Point V (Fields B))) : Collection V (Fields B) :=
  batchUpdatePayloadOnly c (updatesFor (addBranch branch) filePaths allContentPoints)

def Project.relativePath (path : Str) : Str :=
  if (parse path).isAbsolute then ((parse path).relativeTo P.codebaseDir).elim path Path.str else path

def Project.filesToHide (allContentPoints : List (Point V (Fields B))) (currentFiles : List Str) : List Str :=
  ((allContentPoints.filter (·.path ≠ [])).map fun p => P.relativePath p.path).filter (· ∉ currentFiles)

def Project.hideFilesNotInBranch (branch : Str) (currentFiles : List Str)
    (allContentPoints : List (Point V (Fields B))) : Collection V (Fields B) :=
  batchHideFilesInBranch c (P.filesToHide allContentPoints currentFiles) branch allContentPoints

def vectorFiles (c : Collection V B) : List (VectorFile FileKey (Point V B)) :=
  (c.files.items.insertionSort fun e e' => e.1 ≤ e'.1).map fun e => (e.1, some e.2)

def contentPager : Pager FileKey (Point V (Fields B)) :=
  scrollPoints isContent 5000 (vectorFiles c)

def Project.updateBranchVisibility (branch : Str) (changedFiles unchangedFiles : List Str)
    (c : Collection V (Fields B)) (fuel : ℕ) : Option (Collection V (Fields B)) :=
  (fetchAllContentPoints (contentPager c) fuel).map fun allContentPoints =>
    P.hideFilesNotInBranch (batchEnsureFilesVisibleInBranch c unchangedFiles branch allContentPoints) branch
      (changedFiles ++ unchangedFiles) allContentPoints

abbrev Write (V B : Type) := Str × List (Point V (Fields B))

def indexWrites (L : Layout V) (c : Collection V (Fields B)) (writes : List (Write V B)) : Collection V (Fields B) :=
  writes.foldl (fun c w => (upsertPoints L c w.2).1) c

/-- `process_branch_changes_high_throughput` with isolation, not cancelled. `writes` is what the changed files that
are on disk come to; a file that fails or has no chunk writes nothing. -/
def Project.processBranchChanges (L : Layout V) (branch : Str) (changedFiles unchangedFiles : List Str)
    (writes : List (Write V B)) (c : Collection V (Fields B)) (fuel : ℕ) : Option (Collection V (Fields B)) :=
  P.updateBranchVisibility branch changedFiles unchangedFiles
    (indexWrites L c.beginIndexing writes) fuel

/-! ### Updates of payloads -/

/-- The updates that reach a vector file, one after the other: those whose id is indexed under it. -/
def applyUpdates (idIndex : Dict Str FileKey) (vf : FileKey) (updates : List (Str × List Str))
    (p : Point V (Fields B)) : Point V (Fields B) :=
  updates.foldl (fun q u => if idIndex.get? u.1 = some vf then hideIn q u.2 else q) p

section Updates

variable {c : Collection V (Fields B)} {edit : List Str → Option (List Str)} {filePaths : List Str}
variable {points : List (Point V (Fields B))} {p : Point V (Fields B)} {vf : FileKey}

theorem batchUpdatePayloadOnly_spec (c : Collection V (Fields B)) (updates : List (Str × List Str)) :
    ∃ files, batchUpdatePayloadOnly c updates = { c with files := files } ∧
      ∀ vf, files.get? vf = (c.files.get? vf).map (applyUpdates c.idIndex vf updates) := by
  induction updates using List.reverseRecOn with
  | nil => exact ⟨c.files, rfl, fun vf => Option.map_id_apply.symm⟩
  | append_singleton updates u ih =>
    obtain ⟨files, heq, hfiles⟩ := ih
    have happly : ∀ vf (p : Point V (Fields B)), applyUpdates c.idIndex vf (updates ++ [u]) p =
        if c.idIndex.get? u.1 = some vf then hideIn (applyUpdates c.idIndex vf updates p) u.2
        else applyUpdates c.idIndex vf updates p := fun vf p => foldl_concat ..
    rw [batchUpdatePayloadOnly, foldl_concat, ← batchUpdatePayloadOnly, heq]
    cases hid : c.idIndex.get? u.1 with
    | none =>
      refine ⟨files, by simp only, fun vf => ?_⟩
      rw [hfiles]
      refine Option.map_congr fun p _ => ?_
      rw [happly, hid, if_neg (Option.some_ne_none vf).symm]
    | some vf₀ =>
      cases hp : c.files.get? vf₀ with
      | none =>
        have hfile : files.get? vf₀ = none := by rw [hfiles, hp]; rfl
        refine ⟨files, by simp only [hfile], fun vf => ?_⟩
        rw [hfiles]
        refine Option.map_congr fun p hvf => ?_
        rw [happly, hid, if_neg]
        rintro ⟨⟩
        cases hp.symm.trans hvf
      | some p₀ =>
        have hfile : files.get? vf₀ = some (applyUpdates c.idIndex vf₀ updates p₀) := by rw [hfiles, hp]; rfl
        refine ⟨files.set vf₀ (hideIn (applyUpdates c.idIndex vf₀ updates p₀) u.2), by simp only [hfile], fun vf => ?_⟩
        rw [Dict.get?_set]
        split
        · rename_i hvf
          rw [hvf, hp, Option.map_some, happly, if_pos hid]
        · rename_i hvf
          rw [hfiles]
          refine Option.map_congr fun p _ => ?_
          rw [happly, if_neg]
          rw [hid]
          rintro ⟨⟩
          exact hvf rfl

theorem bare_applyUpdates (idIndex : Dict Str FileKey) (updates : List (Str × List Str)) (p : Point V (Fields B)) :
    bare (applyUpdates idIndex vf updates p) = bare p := by
  refine foldlRecOn (motive := fun q => bare q = bare p) updates _ rfl fun q hq u _ => ?_
  split <;> exact hq

theorem isContent_of_bare {q : Point V (Fields B)} (h : bare q = bare p) : isContent q = isContent p := by
  have htype : q.body.type = p.body.type := congrArg (fun q => q.body.type) h
  rw [isContent, isContent, htype]

/-- What a batch does with a vector file `q` for the point `p` of its snapshot. -/
def editFor (edit : List Str → Option (List Str)) (filePaths : List Str) (p q : Point V (Fields B)) :
    Point V (Fields B) :=
  if p.path ≠ [] ∧ p.path ∈ filePaths then (edit p.body.hidden).elim q (hideIn q) else q

theorem editFor_editFor (q : Point V (Fields B)) :
    editFor edit filePaths p (editFor edit filePaths p q) = editFor edit filePaths p q := by
  unfold editFor
  split
  · cases edit p.body.hidden with
    | none | some hidden => rfl
  · rfl

theorem applyUpdates_cons (p : Point V (Fields B)) (points : List (Point V (Fields B))) (q : Point V (Fields B)) :
    applyUpdates c.idIndex vf (updatesFor edit filePaths (p :: points)) q =
      applyUpdates c.idIndex vf (updatesFor edit filePaths points)
        (if c.idIndex.get? p.id = some vf then editFor edit filePaths p q else q) := by
  rw [updatesFor, filterMap_cons, editFor]
  by_cases hpath : p.path ≠ [] ∧ p.path ∈ filePaths
  · simp only [if_pos hpath]
    cases edit p.body.hidden with
    | none => exact congrArg _ (ite_self q).symm
    | some hidden => rfl
  · simp only [if_neg hpath, ite_self]
    rfl

theorem applyUpdates_of_not_reached (h : ∀ p ∈ points, c.idIndex.get? p.id ≠ some vf) (q : Point V (Fields B)) :
    applyUpdates c.idIndex vf (updatesFor edit filePaths points) q = q := by
  induction points with
  | nil => rfl
  | cons p points ih =>
    rw [applyUpdates_cons, if_neg (h p mem_cons_self)]
    exact ih fun p' hp' => h p' (mem_cons_of_mem p hp')

theorem applyUpdates_of_reached (hp : p ∈ points) (hown : c.idIndex.get? p.id = some vf)
    (hothers : ∀ p' ∈ points, c.idIndex.get? p'.id = some vf → p' = p) (q : Point V (Fields B)) :
    applyUpdates c.idIndex vf (updatesFor edit filePaths points) q = editFor edit filePaths p q := by
  induction points generalizing q with
  | nil => cases hp
  | cons p' points ih =>
    have hothers' := fun p'' hp'' => hothers p'' (mem_cons_of_mem p' hp'')
    rw [applyUpdates_cons]
    by_cases hreach : c.idIndex.get? p'.id = some vf
    · rw [if_pos hreach, hothers p' mem_cons_self hreach]
      by_cases hmem : p ∈ points
      · rw [ih hmem hothers', editFor_editFor]
      · exact applyUpdates_of_not_reached (fun p'' hp'' h => hmem (hothers' p'' hp'' h ▸ hp'')) _
    · rw [if_neg hreach]
      refine ih ((mem_cons.1 hp).resolve_left fun heq => hreach ?_) hothers' q
      rwa [← heq]

end Updates

/-! ### The snapshot -/

theorem untilEmpty_of_next {ω α : Type} {scroll : Pager ω α} {o : Option ω} {pages : List (List α)}
    (h : Follows scroll o pages) (hne : ∀ o page o', scroll o = (page, some o') → page ≠ []) :
    (untilEmpty pages).flatten = pages.flatten := by
  induction h with
  | @last o page he =>
    cases page <;> simp [untilEmpty]
  | @next o page o' pages he hrest ih =>
    have hpage : page.isEmpty = false := isEmpty_eq_false_iff.2 (hne o page o' he)
    rw [untilEmpty_cons, hpage, ih, flatten_cons]
    rfl

section Snapshot

variable {c : Collection V (Fields B)}

def contentPoints (c : Collection V (Fields B)) : List (Point V (Fields B)) := loadPoints isContent (vectorFiles c)

theorem mem_contentPoints {p : Point V (Fields B)} :
    p ∈ contentPoints c ↔ ∃ vf, c.files.get? vf = some p ∧ isContent p = true := by
  rw [contentPoints, loadPoints, mem_filterMap]
  constructor
  · rintro ⟨f, hf, hp⟩
    obtain ⟨e, he, rfl⟩ := mem_map.1 hf
    obtain ⟨heq, hcontent⟩ := Option.filter_eq_some_iff.1 hp
    obtain rfl := Option.some.inj heq
    exact ⟨e.1, Dict.mem_items_iff.1 ((mem_insertionSort _).1 he), hcontent⟩
  · rintro ⟨vf, hp, hcontent⟩
    refine ⟨(vf, some p), mem_map.2 ⟨(vf, p), (mem_insertionSort _).2 (Dict.mem_items_iff.2 hp), rfl⟩, ?_⟩
    exact Option.filter_eq_some_iff.2 ⟨rfl, hcontent⟩

theorem countP_other_le {c' : Collection V (Fields B)}
    (h : ∀ vf q, c'.files.get? vf = some q → isContent q = false →
      ∃ p, c.files.get? vf = some p ∧ isContent p = false) :
    c'.files.items.countP (fun e => !isContent e.2) ≤ c.files.items.countP (fun e => !isContent e.2) := by
  rw [countP_eq_length_filter, countP_eq_length_filter, ← length_map Prod.fst, ← length_map Prod.fst]
  refine ((c'.files.nodup.sublist (filter_sublist.map _)).subperm fun vf hvf => ?_).length_le
  obtain ⟨e, he, rfl⟩ := mem_map.1 hvf
  obtain ⟨he, hother⟩ := mem_filter.1 he
  obtain ⟨p, hp, hpother⟩ := h e.1 e.2 (Dict.mem_items_iff.1 he) (by simpa using hother)
  exact mem_map.2 ⟨(e.1, p), mem_filter.2 ⟨Dict.mem_items_iff.2 hp, by simpa using hpother⟩, rfl⟩

/-- With fewer other points than a page has, no full page is without content points. -/
theorem snapshot_returns (hfew : c.files.items.countP (fun e => !isContent e.2) < 5000) :
    Returns (fetchAllContentPoints (contentPager c)) (contentPoints c) := by
  have hnodup : ((vectorFiles c).map Prod.fst).Nodup := by
    rw [vectorFiles, map_map]
    exact ((perm_insertionSort _ _).map Prod.fst).nodup_iff.2 c.files.nodup
  obtain ⟨pages, hpages, hflat⟩ := @scrollPoints_follows _ _ _ isContent 5000 (vectorFiles c) (by decide) hnodup
  have hnext : ∀ o page o', contentPager c o = (page, some o') → page ≠ [] := by
    intro o page o' hscroll hnil
    obtain ⟨hpage, hoffset⟩ := Prod.mk.inj hscroll
    split at hoffset
    case isFalse => cases hoffset
    case isTrue hfull =>
      refine hfew.not_ge ?_
      set sorted := c.files.items.insertionSort fun e e' => e.1 ≤ e'.1
      set start := startIdx (vectorFiles c) o
      have hother : ∀ e ∈ (sorted.drop start).take 5000, (!isContent e.2) = true := by
        intro e he
        rw [hnil, loadPoints, filterMap_eq_nil_iff] at hpage
        have hskip := hpage (e.1, some e.2) (by
          rw [vectorFiles, ← map_drop, ← map_take]
          exact mem_map_of_mem he)
        simpa using hskip
      have hlength := hfull.1
      rw [vectorFiles, ← map_drop, ← map_take, length_map] at hlength
      calc 5000 = ((sorted.drop start).take 5000).length := hlength.symm
        _ = ((sorted.drop start).take 5000).countP (fun e => !isContent e.2) := (countP_eq_length.2 hother).symm
        _ ≤ sorted.countP (fun e => !isContent e.2) :=
            ((take_sublist _ _).trans (drop_sublist _ _)).countP_le
        _ = c.files.items.countP (fun e => !isContent e.2) := (perm_insertionSort _ _).countP_eq _
  rw [contentPoints, ← hflat, ← untilEmpty_of_next hpages hnext]
  exact fetchAll_returns hpages

end Snapshot

/-! ### Indexing the changed files -/

/-- What indexing the changed files writes: fresh content points under the files' relative paths. -/
def Fresh (L : Layout V) (writes : List (Write V B)) : Prop :=
  ∀ w ∈ writes, w.2 ≠ [] ∧ w.1 ≠ [] ∧ (parse w.1).isAbsolute = false ∧
    ∀ p ∈ w.2, p.path = w.1 ∧ isContent p = true ∧ p.body.hiddenBranches = none ∧ (L.vectorFile p).isSome = true

/-- The id of a content point in the vector file is indexed under it, and of no other content point. -/
structure OwnAt (c : Collection V (Fields B)) (vf : FileKey) : Prop where
  own : ∀ p, c.files.get? vf = some p → isContent p = true → c.idIndex.get? p.id = some vf
  sole : ∀ vf' q, c.files.get? vf' = some q → isContent q = true → c.idIndex.get? q.id = some vf → vf' = vf

/-- The points of the vector file, stored and written, have no id in common with points of other vector files. -/
structure Alone (L : Layout V) (c : Collection V (Fields B)) (points : List (Point V (Fields B))) (vf : FileKey) : Prop
    extends OwnAt c vf where
  stored : ∀ p ∈ points, ∀ vf' q, c.files.get? vf' = some q → q.id = p.id → (vf' = vf ↔ L.vectorFile p = some vf)
  written : ∀ p ∈ points, ∀ q ∈ points, q.id = p.id → (L.vectorFile q = some vf ↔ L.vectorFile p = some vf)

/-- The point is stored in the vector file, and nothing is written there. -/
def Unwritten (L : Layout V) (c : Collection V (Fields B)) (points : List (Point V (Fields B))) (vf : FileKey)
    (p : Point V (Fields B)) : Prop :=
  c.files.get? vf = some p ∧ ∀ q ∈ points, L.vectorFile q ≠ some vf

/-- A state of indexing that began with `c`. -/
structure IndexedFrom (L : Layout V) (c : Collection V (Fields B)) (points : List (Point V (Fields B)))
    (c' : Collection V (Fields B)) : Prop where
  files : ∀ vf q, c'.files.get? vf = some q → q ∈ points ∧ L.vectorFile q = some vf ∨ c.files.get? vf = some q
  own : ∀ vf, Alone L c points vf → OwnAt c' vf

section Indexing

variable {L : Layout V} {c c' : Collection V (Fields B)} {points call : List (Point V (Fields B))}
variable {writes : List (Write V B)} {p q : Point V (Fields B)} {vf : FileKey}

theorem Unwritten.eq (h : Unwritten L c points vf p) (hindexed : IndexedFrom L c points c')
    (hq : c'.files.get? vf = some q) : q = p := by
  rcases hindexed.files vf q hq with ⟨hnew, hvf⟩ | hold
  · exact absurd hvf (h.2 q hnew)
  · exact Option.mem_unique hold h.1

theorem OwnAt.of_bare (h : OwnAt c vf) (hidx : c'.idIndex = c.idIndex)
    (hback : ∀ vf q, c'.files.get? vf = some q → ∃ p, c.files.get? vf = some p ∧ bare q = bare p) : OwnAt c' vf := by
  constructor
  · intro q hq hcontent
    obtain ⟨p, hp, hbare⟩ := hback vf q hq
    rw [hidx, show q.id = p.id from congrArg (fun q => q.id) hbare]
    exact h.own p hp (isContent_of_bare hbare ▸ hcontent)
  · intro vf' q hq hcontent hid
    obtain ⟨p, hp, hbare⟩ := hback vf' q hq
    rw [hidx, show q.id = p.id from congrArg (fun q => q.id) hbare] at hid
    exact h.sole vf' p hp (isContent_of_bare hbare ▸ hcontent) hid

namespace IndexedFrom

theorem dropOrphans (h : IndexedFrom L c points c') (call : List (Point V (Fields B))) :
    IndexedFrom L c points (c'.dropOrphans call) := by
  obtain ⟨hfiles, hidx, -⟩ := (c'.dropOrphans_spec call).1
  refine ⟨fun vf q hq => h.files vf q ((hfiles vf q).1 hq).1, fun vf halone => ⟨fun q hq hcontent => ?_,
    fun vf' q hq hcontent hid => ?_⟩⟩
  · obtain ⟨hq, hkept⟩ := (hfiles vf q).1 hq
    have howned := (h.own vf halone).own q hq hcontent
    exact (hidx q.id vf).2 ⟨howned, fun hid => hkept q.id hid howned⟩
  · exact (h.own vf halone).sole vf' q ((hfiles vf' q).1 hq).1 hcontent ((hidx q.id vf).1 hid).1

theorem writePoint (h : IndexedFrom L c points c') (hp : p ∈ points) {vf₀ : FileKey}
    (hvf₀ : L.vectorFile p = some vf₀) : IndexedFrom L c points (c'.writePoint p vf₀) := by
  -- A point of another vector file has the id of `p` only if `Alone` is not asked of either file.
  have hshared : ∀ vf, Alone L c points vf → ∀ vf' q, c'.files.get? vf' = some q → q.id = p.id →
      (vf' = vf ↔ vf₀ = vf) := by
    intro vf halone vf' q hq hid
    rw [← Option.some_inj (a := vf₀), ← hvf₀]
    rcases h.files vf' q hq with ⟨hnew, hvf'⟩ | hold
    · rw [← halone.written p hp q hnew hid, hvf', Option.some_inj]
    · exact halone.stored p hp vf' q hold hid
  refine ⟨fun vf q hq => ?_, fun vf halone => ⟨fun q hq hcontent => ?_, fun vf' q hq hcontent hid => ?_⟩⟩
  · rw [Collection.writePoint_files, Dict.get?_set_eq_some] at hq
    rcases hq with ⟨rfl, rfl⟩ | ⟨-, hq⟩
    · exact .inl ⟨hp, hvf₀⟩
    · exact h.files vf q hq
  · rw [Collection.writePoint_files, Dict.get?_set_eq_some] at hq
    rw [Collection.writePoint_idIndex]
    rcases hq with ⟨rfl, rfl⟩ | ⟨hne, hq⟩
    · rw [Dict.get?_set_self]
    · rw [Dict.get?_set_of_ne, (h.own vf halone).own q hq hcontent]
      exact fun hid => hne ((hshared vf halone vf q hq hid).1 rfl).symm
  · rw [Collection.writePoint_files, Dict.get?_set_eq_some] at hq
    rw [Collection.writePoint_idIndex, Dict.get?_set_eq_some] at hid
    rcases hq with ⟨rfl, rfl⟩ | ⟨-, hq⟩
    · exact hid.elim And.right fun hold => absurd rfl hold.1
    · rcases hid with ⟨hid, rfl⟩ | ⟨-, hid⟩
      · exact (hshared _ halone vf' q hq hid).2 rfl
      · exact (h.own vf halone).sole vf' q hq hcontent hid

theorem writePoints (h : IndexedFrom L c points c') (hcall : call ⊆ points) :
    IndexedFrom L c points (writePoints L c' call).1 := by
  induction call generalizing c' with
  | nil => exact h
  | cons p call ih =>
    rw [Indexing.writePoints]
    cases hvf : L.vectorFile p with
    | none => exact h
    | some vf => exact ih (h.writePoint (hcall mem_cons_self) hvf) fun q hq => hcall (mem_cons_of_mem _ hq)

theorem refl : IndexedFrom L c points c := ⟨fun _ _ hq => .inr hq, fun _ halone => halone.toOwnAt⟩

theorem indexWrites : IndexedFrom L c (writes.flatMap Prod.snd) (indexWrites L c writes) :=
  foldlRecOn (motive := IndexedFrom L c (writes.flatMap Prod.snd)) writes _ refl fun _ h w hw =>
    (h.dropOrphans w.2).writePoints fun _ hp => mem_flatMap.2 ⟨w, hw, hp⟩

end IndexedFrom

namespace Fresh

theorem of_mem (h : Fresh L writes) (hp : p ∈ writes.flatMap Prod.snd) (branch : Str) :
    isContent p = true ∧ branch ∉ p.body.hidden ∧ p.path ≠ [] ∧ (parse p.path).isAbsolute = false := by
  obtain ⟨w, hw, hp⟩ := mem_flatMap.1 hp
  obtain ⟨-, hne, hrel, hall⟩ := h w hw
  obtain ⟨hpath, hcontent, hhidden, -⟩ := hall p hp
  rw [hpath, Fields.hidden, hhidden]
  exact ⟨hcontent, not_mem_nil, hne, hrel⟩

theorem countP_le (h : Fresh L writes) : (indexWrites L c writes).files.items.countP (fun e => !isContent e.2) ≤
      c.files.items.countP (fun e => !isContent e.2) := by
  refine countP_other_le fun vf q hq hother => ?_
  rcases IndexedFrom.indexWrites.files vf q hq with ⟨hnew, -⟩ | hold
  · cases hother.symm.trans (h.of_mem hnew []).1
  · exact ⟨q, hold, hother⟩

theorem mem_of_writePoints (hcall : ∀ p ∈ call, (L.vectorFile p).isSome = true) (hp : p ∈ call)
    (hvf : L.vectorFile p = some vf) (hq : (writePoints L c call).1.files.get? vf = some q) : q ∈ call := by
  induction call generalizing c with
  | nil => cases hp
  | cons p' call ih =>
    obtain ⟨vf', hvf'⟩ := Option.isSome_iff_exists.1 (hcall p' mem_cons_self)
    rw [writePoints, hvf'] at hq
    have hrest : ∀ p ∈ call, (L.vectorFile p).isSome = true := fun p hp => hcall p (mem_cons_of_mem p' hp)
    rcases mem_cons.1 hp with rfl | hp
    · obtain rfl := Option.some.inj (hvf.symm.trans hvf')
      rcases (IndexedFrom.refl.writePoints (Subset.refl call)).files vf q hq with ⟨hq, -⟩ | hq
      · exact mem_cons_of_mem _ hq
      · rw [Collection.writePoint_files, Dict.get?_set_self] at hq
        exact Option.some.inj hq ▸ mem_cons_self
    · exact mem_cons_of_mem _ (ih hrest hp hq)

/-- Where something was written, only what was written is found. -/
theorem mem_of_written (h : Fresh L writes) (hp : p ∈ writes.flatMap Prod.snd) (hvf : L.vectorFile p = some vf)
    (hq : (indexWrites L c writes).files.get? vf = some q) : q ∈ writes.flatMap Prod.snd := by
  induction writes generalizing c with
  | nil => cases hp
  | cons w writes ih =>
    rw [flatMap_cons, mem_append] at hp ⊢
    rcases hp with hp | hp
    · rcases (IndexedFrom.indexWrites (c := (upsertPoints L c w.2).1)).files vf q hq with ⟨hnew, -⟩ | hold
      · exact .inr hnew
      · exact .inl (mem_of_writePoints (fun p hp => ((h w mem_cons_self).2.2.2 p hp).2.2.2) hp hvf hold)
    · exact .inr (ih (fun w' hw' => h w' (mem_cons_of_mem w hw')) hp hq)

/-- A point after indexing was written or is the one that was stored. -/
theorem forall_unwritten_iff (h : Fresh L writes) (hp : (indexWrites L c writes).files.get? vf = some p)
    {Q : Point V (Fields B) → Prop} (hnew : p ∈ writes.flatMap Prod.snd → Q p) :
    (∀ p', Unwritten L c (writes.flatMap Prod.snd) vf p' → Q p') ↔ Q p := by
  by_cases hwritten : ∃ w ∈ writes.flatMap Prod.snd, L.vectorFile w = some vf
  · obtain ⟨w, hw, hvf⟩ := hwritten
    exact iff_of_true (fun p' hp' => absurd hvf (hp'.2 w hw)) (hnew (h.mem_of_written hw hvf hp))
  · have hnot : ∀ w ∈ writes.flatMap Prod.snd, L.vectorFile w ≠ some vf := fun w hw hvf => hwritten ⟨w, hw, hvf⟩
    have hold := (IndexedFrom.indexWrites.files vf p hp).resolve_left fun hnew => hnot p hnew.1 hnew.2
    exact ⟨fun hall => hall p ⟨hold, hnot⟩, fun hQ p' hp' => hp'.eq IndexedFrom.indexWrites hp ▸ hQ⟩

theorem idIndex_of_writePoints {x : Str} (hcall : ∀ p ∈ call, (L.vectorFile p).isSome = true)
    (hother : ∀ p ∈ call, L.vectorFile p ≠ some vf) (hx : (writePoints L c call).1.idIndex.get? x = some vf) :
    c.idIndex.get? x = some vf ∧ x ∉ call.map Point.id := by
  induction call generalizing c with
  | nil => exact ⟨hx, not_mem_nil⟩
  | cons p call ih =>
    obtain ⟨vf', hvf'⟩ := Option.isSome_iff_exists.1 (hcall p mem_cons_self)
    rw [writePoints, hvf'] at hx
    obtain ⟨hx, hnot⟩ := ih (fun p' hp' => hcall p' (mem_cons_of_mem p hp'))
      (fun p' hp' => hother p' (mem_cons_of_mem p hp')) hx
    rw [Collection.writePoint_idIndex, Dict.get?_set_eq_some] at hx
    rcases hx with ⟨-, rfl⟩ | ⟨hne, hx⟩
    · exact absurd hvf' (hother p mem_cons_self)
    · exact ⟨hx, not_mem_cons_of_ne_of_not_mem hne hnot⟩

/-- A vector file stays if nothing is written there and no id that is indexed under it is listed for a changed file. -/
theorem stays (h : Fresh L writes) (hp : Unwritten L c (writes.flatMap Prod.snd) vf p)
    (hlisted : ∀ x, c.idIndex.get? x = some vf → ∀ w ∈ writes, x ∉ c.loadedPathIndex.getPointIds w.1) :
    (indexWrites L c writes).files.get? vf = some p := by
  induction writes generalizing c with
  | nil => exact hp.1
  | cons w writes ih =>
    obtain ⟨hp, hother⟩ := hp
    rw [flatMap_cons] at hother
    obtain ⟨hne, hpath, -, hall⟩ := h w mem_cons_self
    have hcall : ∀ p ∈ w.2, L.vectorFile p ≠ some vf := fun p hp => hother p (mem_append_left _ hp)
    obtain ⟨hfiles, hidx, -⟩ := (c.dropOrphans_spec w.2).1
    refine ih (fun w' hw' => h w' (mem_cons_of_mem w hw')) ⟨?_, fun q hq => hother q (mem_append_right _ hq)⟩
      fun x hx w' hw' hmem => ?_
    · refine writePoints_kept ((hfiles vf p).2 ⟨hp, fun x hx hvf => ?_⟩) hcall
      exact hlisted x hvf w mem_cons_self ((mem_orphanIds c hne hpath fun p hp => (hall p hp).1).1 hx).1
    · obtain ⟨hx, hnot⟩ := idIndex_of_writePoints (fun p hp => (hall p hp).2.2.2) hcall hx
      refine hlisted x ((hidx x vf).1 hx).1 w' (mem_cons_of_mem w hw') ?_
      exact (listed_of_upsertPoints (fun p hp => (hall p hp).1 ▸ hpath) hmem).resolve_right hnot

end Fresh

end Indexing

/-! ### What the visibility part does -/

namespace Project

variable (P : Project) (branch : Str) (changed unchanged : List Str)

theorem relativePath_idem (path : Str) : P.relativePath (P.relativePath path) = P.relativePath path := by
  unfold relativePath
  by_cases habs : (parse path).isAbsolute = true
  · rw [if_pos habs]
    cases hrel : (parse path).relativeTo P.codebaseDir with
    | none => rw [Option.elim_none, if_pos habs, hrel, Option.elim_none]
    | some rel =>
      rw [Option.elim_some, if_neg]
      rw [Path.parse_str, Bool.not_eq_true, Path.isAbsolute_eq_false]
      exact Path.relativeTo_root hrel
  · rw [if_neg habs, if_neg habs]

theorem relativePath_of_relative {path : Str} (h : (parse path).isAbsolute = false) : P.relativePath path = path := by
  rw [relativePath, if_neg]
  rw [h]
  exact Bool.false_ne_true

def settle (p : Point V (Fields B)) : Point V (Fields B) :=
  if isContent p = true ∧ p.path ≠ [] ∧ p.path ∈ unchanged then (dropBranch branch p.body.hidden).elim p (hideIn p)
  else if isContent p = true ∧ p.path ≠ [] ∧ P.relativePath p.path = p.path ∧ p.path ∉ changed ++ unchanged then
    (addBranch branch p.body.hidden).elim p (hideIn p)
  else p

theorem mem_filesToHide {points : List (Point V (Fields B))} {current : List Str} {p : Point V (Fields B)}
    (hp : p ∈ points) (hpath : p.path ≠ []) :
    p.path ∈ P.filesToHide points current ↔ P.relativePath p.path = p.path ∧ p.path ∉ current := by
  rw [filesToHide, mem_filter, mem_map, decide_eq_true_iff]
  refine and_congr_left fun _ => ⟨?_, fun hrel => ⟨p, mem_filter.2 ⟨hp, decide_eq_true hpath⟩, hrel⟩⟩
  rintro ⟨q, -, hq⟩
  rw [← hq, relativePath_idem]

theorem updateBranchVisibility_returns {c : Collection V (Fields B)}
    (hfew : c.files.items.countP (fun e => !isContent e.2) < 5000) :
    ∃ c', Returns (P.updateBranchVisibility branch changed unchanged c) c' ∧ c'.idIndex = c.idIndex ∧
      (∀ vf q, c'.files.get? vf = some q → ∃ p, c.files.get? vf = some p ∧ bare q = bare p) ∧
      ∀ vf, OwnAt c vf → c'.files.get? vf = (c.files.get? vf).map (P.settle branch changed unchanged) := by
  obtain ⟨n, hn⟩ := snapshot_returns hfew
  obtain ⟨files, hfiles, hget⟩ := batchUpdatePayloadOnly_spec c
    (updatesFor (dropBranch branch) unchanged (contentPoints c))
  obtain ⟨files', hfiles', hget'⟩ := batchUpdatePayloadOnly_spec { c with files := files }
    (updatesFor (addBranch branch) (P.filesToHide (contentPoints c) (changed ++ unchanged)) (contentPoints c))
  refine ⟨{ c with files := files' }, ⟨n, fun m hm => ?_⟩, rfl, fun vf q hq => ?_, fun vf hown => ?_⟩
  · rw [updateBranchVisibility, hn m hm, Option.map_some, batchEnsureFilesVisibleInBranch, hfiles, hideFilesNotInBranch,
      batchHideFilesInBranch, hfiles']
  · rw [hget', hget, Option.map_map] at hq
    obtain ⟨p, hp, rfl⟩ := Option.map_eq_some_iff.1 hq
    exact ⟨p, hp, (bare_applyUpdates ..).trans (bare_applyUpdates ..)⟩
  · rw [hget', hget, Option.map_map]
    refine Option.map_congr fun p hp => ?_
    -- A content point of the snapshot that reaches the vector file is the one that is there.
    have hothers : ∀ p' ∈ contentPoints c, c.idIndex.get? p'.id = some vf → p' = p := by
      intro p' hp' hreach
      obtain ⟨vf', hvf', hcontent⟩ := mem_contentPoints.1 hp'
      obtain rfl := hown.sole vf' p' hvf' hcontent hreach
      exact Option.mem_unique hvf' hp
    rw [Function.comp_apply, settle]
    by_cases hcontent : isContent p = true
    · have hmem : p ∈ contentPoints c := mem_contentPoints.2 ⟨vf, hp, hcontent⟩
      have hown := hown.own p hp hcontent
      rw [applyUpdates_of_reached hmem hown hothers, applyUpdates_of_reached hmem hown hothers, editFor, editFor]
      by_cases hpath : p.path = []
      · simp [hpath]
      · have hhide : p.path ∈ P.filesToHide (contentPoints c) (changed ++ unchanged) ↔
            P.relativePath p.path = p.path ∧ p.path ∉ changed ++ unchanged := P.mem_filesToHide hmem hpath
        simp only [ne_eq, hcontent, hpath, not_false_eq_true, true_and, hhide]
        by_cases hun : p.path ∈ unchanged
        · -- A file that is shown is not one to hide.
          rw [if_neg fun hhidden => hhidden.2 (mem_append_right _ hun), if_pos hun, if_pos hun]
        · rw [if_neg hun, if_neg hun]
    · have hnone : ∀ p' ∈ contentPoints c, c.idIndex.get? p'.id ≠ some vf := by
        intro p' hp' hreach
        obtain ⟨-, -, hcontent'⟩ := mem_contentPoints.1 hp'
        exact hcontent (hothers p' hp' hreach ▸ hcontent')
      rw [applyUpdates_of_not_reached hnone, applyUpdates_of_not_reached hnone, if_neg fun h => hcontent h.1,
        if_neg fun h => hcontent h.1]

/-- Every content point is hidden in the branch if and only if its path, made relative, is not a current file. -/
def Isolated (P : Project) (branch : Str) (current : List Str) (c : Collection V (Fields B)) : Prop :=
  ∀ vf p, c.files.get? vf = some p → isContent p = true →
    (branch ∈ p.body.hidden ↔ P.relativePath p.path ∉ current)

/-- The content point is put right: its stored path is an unchanged file, or it is relative and in neither list, or
there is nothing to do. -/
def Settles (P : Project) (branch : Str) (changed unchanged : List Str) (p : Point V (Fields B)) : Prop :=
  (p.path ≠ [] ∧ p.path ∈ unchanged → P.relativePath p.path ∈ changed ++ unchanged) ∧
  (¬ (p.path ≠ [] ∧ p.path ∈ unchanged) →
    p.path ≠ [] ∧ P.relativePath p.path = p.path ∧ p.path ∉ changed ++ unchanged ∨
      (branch ∈ p.body.hidden ↔ P.relativePath p.path ∉ changed ++ unchanged))

end Project

theorem Edits.elim {branch : Str} {hidden : Bool} {edit : List Str → Option (List Str)} (h : Edits branch hidden edit)
    (p : Point V (Fields B)) :
    bare ((edit p.body.hidden).elim p (hideIn p)) = bare p ∧
    (branch ∈ ((edit p.body.hidden).elim p (hideIn p)).body.hidden ↔ hidden = true) ∧
    (∀ b ≠ branch, b ∈ ((edit p.body.hidden).elim p (hideIn p)).body.hidden ↔ b ∈ p.body.hidden) ∧
    ((edit p.body.hidden).elim p (hideIn p) = p ↔ (branch ∈ p.body.hidden ↔ hidden = true)) := by
  cases hedit : edit p.body.hidden with
  | none =>
    have hdone := h.skips _ hedit
    exact ⟨rfl, hdone, fun b _ => Iff.rfl, iff_of_true rfl hdone⟩
  | some hidden' =>
    obtain ⟨hnot, hnow, hothers⟩ := h.edits _ _ hedit
    refine ⟨rfl, hnow, hothers, iff_of_false (fun heq => hnot ?_) hnot⟩
    have hsame : hidden' = p.body.hidden := congrArg (fun q => q.body.hidden) heq
    rwa [← hsame]

namespace Project

variable {P : Project} {branch : Str} {changed unchanged : List Str}

section

variable (p : Point V (Fields B))

theorem settle_bare : bare (P.settle branch changed unchanged p) = bare p := by
  unfold settle
  split
  · exact ((edits_dropBranch branch).elim p).1
  · split
    · exact ((edits_addBranch branch).elim p).1
    · rfl

theorem settle_path : (P.settle branch changed unchanged p).path = p.path :=
  congrArg (fun q => q.path) (settle_bare p)

theorem isContent_settle : isContent (P.settle branch changed unchanged p) = isContent p :=
  isContent_of_bare (settle_bare p)

theorem settle_others {b : Str} (hb : b ≠ branch) :
    b ∈ (P.settle branch changed unchanged p).body.hidden ↔ b ∈ p.body.hidden := by
  unfold settle
  split
  · exact ((edits_dropBranch branch).elim p).2.2.1 b hb
  · split
    · exact ((edits_addBranch branch).elim p).2.2.1 b hb
    · exact Iff.rfl

theorem settle_of_other (hother : isContent p = false) : P.settle branch changed unchanged p = p := by
  simp [settle, hother]

end

variable {p : Point V (Fields B)} (hcontent : isContent p = true)
include hcontent

theorem mem_settle : branch ∈ (P.settle branch changed unchanged p).body.hidden ↔
    ¬ (p.path ≠ [] ∧ p.path ∈ unchanged) ∧
      (p.path ≠ [] ∧ P.relativePath p.path = p.path ∧ p.path ∉ changed ++ unchanged ∨ branch ∈ p.body.hidden) := by
  simp only [settle, hcontent, true_and]
  split
  · rename_i hun
    have hshown := ((edits_dropBranch branch).elim p).2.1
    simpa [hun] using hshown
  · rename_i hun
    split
    · rename_i hhide
      exact iff_of_true (((edits_addBranch branch).elim p).2.1.2 rfl) ⟨hun, .inl hhide⟩
    · tauto

theorem settles_iff :
    (branch ∈ (P.settle branch changed unchanged p).body.hidden ↔ P.relativePath p.path ∉ changed ++ unchanged) ↔
      P.Settles branch changed unchanged p := by
  rw [mem_settle hcontent, Settles]
  by_cases hun : p.path ≠ [] ∧ p.path ∈ unchanged
  · tauto
  · simp only [hun, not_false_eq_true, true_and, IsEmpty.forall_iff, forall_const]
    constructor
    · intro hiff
      by_cases hhide : p.path ≠ [] ∧ P.relativePath p.path = p.path ∧ p.path ∉ changed ++ unchanged
      · exact .inl hhide
      · exact .inr (by rw [← hiff]; tauto)
    · rintro (hhide | hiff)
      · exact iff_of_true (.inl hhide) (by rw [hhide.2.1]; exact hhide.2.2)
      · rw [← hiff]
        refine or_iff_right_of_imp fun hhide => hiff.2 ?_
        rw [hhide.2.1]
        exact hhide.2.2

theorem settle_eq_self_iff : P.settle branch [] unchanged p = p ↔
    (p.path ≠ [] → p.path ∈ unchanged → branch ∉ p.body.hidden) ∧
    (p.path ≠ [] → P.relativePath p.path = p.path → p.path ∉ unchanged → branch ∈ p.body.hidden) := by
  simp only [settle, hcontent, true_and, nil_append]
  split
  · rename_i hun
    rw [((edits_dropBranch branch).elim p).2.2.2]
    simp [hun]
  · split
    · rename_i hhide
      rw [((edits_addBranch branch).elim p).2.2.2]
      simp [hhide]
    · tauto

/-- Another run without changed files leaves a settled point alone if and only if no changed file is hidden. -/
theorem settle_settle_iff :
    P.settle branch [] (changed ++ unchanged) (P.settle branch changed unchanged p) =
        P.settle branch changed unchanged p ↔
      (p.path ≠ [] → p.path ∈ changed → p.path ∉ unchanged → branch ∉ p.body.hidden) := by
  rw [settle_eq_self_iff ((isContent_settle p).trans hcontent), settle_path, mem_settle hcontent, mem_append]
  tauto

omit hcontent in
theorem settles_of_fresh (hrel : (parse p.path).isAbsolute = false) (hpath : p.path ≠ [])
    (hfresh : branch ∉ p.body.hidden) : P.Settles branch changed unchanged p := by
  rw [Settles, P.relativePath_of_relative hrel]
  refine ⟨fun hun => mem_append_right _ hun.2, fun _ => ?_⟩
  by_cases hmem : p.path ∈ changed ++ unchanged
  · exact .inr (iff_of_false hfresh fun hnot => hnot hmem)
  · exact .inl ⟨hpath, rfl, hmem⟩

omit hcontent in
/-- After a run, a content point is hidden in the branch exactly if its path is in neither list, if and only if it was
written or is put right; a point that was not written keeps the other branches. Another run with all files unchanged
leaves the point alone if and only if it was written, or is not a hidden one of a changed file. -/
theorem branch_isolated_iff {L : Layout V} {c : Collection V (Fields B)} {writes : List (Write V B)}
    (hfew : c.files.items.countP (fun e => !isContent e.2) < 5000) (hfresh : Fresh L writes) :
    ∃ c' c'', Returns (P.processBranchChanges L branch changed unchanged writes c) c' ∧
      Returns (P.processBranchChanges L branch [] (changed ++ unchanged) [] c') c'' ∧
      (∀ vf p, Unwritten L c (writes.flatMap Prod.snd) vf p → Alone L c (writes.flatMap Prod.snd) vf →
        (∀ x, c.idIndex.get? x = some vf → ∀ w ∈ writes, x ∉ c.loadedPathIndex.getPointIds w.1) →
        (c'.files.get? vf).isSome = true) ∧
      ∀ vf q, Alone L c (writes.flatMap Prod.snd) vf → c'.files.get? vf = some q →
        (isContent q = true → ((branch ∈ q.body.hidden ↔ P.relativePath q.path ∉ changed ++ unchanged) ↔
          ∀ p, Unwritten L c (writes.flatMap Prod.snd) vf p → P.Settles branch changed unchanged p)) ∧
        (∀ p, Unwritten L c (writes.flatMap Prod.snd) vf p →
          bare q = bare p ∧ ∀ b ≠ branch, b ∈ q.body.hidden ↔ b ∈ p.body.hidden) ∧
        (c''.files.get? vf = some q ↔ ∀ p, Unwritten L c (writes.flatMap Prod.snd) vf p → isContent p = true →
          p.path ≠ [] → p.path ∈ changed → p.path ∉ unchanged → branch ∉ p.body.hidden) := by
  have hindexed : IndexedFrom L c.beginIndexing (writes.flatMap Prod.snd) (indexWrites L c.beginIndexing writes) :=
    IndexedFrom.indexWrites
  have hfew₁ := hfresh.countP_le.trans_lt (show c.beginIndexing.files.items.countP _ < _ from hfew)
  obtain ⟨c', hret, hidx, hback, hfiles⟩ := P.updateBranchVisibility_returns branch changed unchanged hfew₁
  have hfew₂ : c'.beginIndexing.files.items.countP (fun e => !isContent e.2) < 5000 := by
    refine lt_of_le_of_lt (countP_other_le fun vf q hq hother => ?_) hfew₁
    obtain ⟨p, hp, hbare⟩ := hback vf q hq
    exact ⟨p, hp, isContent_of_bare hbare ▸ hother⟩
  obtain ⟨c'', hret₂, -, -, hfiles₂⟩ := P.updateBranchVisibility_returns branch [] (changed ++ unchanged) hfew₂
  have hown : ∀ vf, Alone L c (writes.flatMap Prod.snd) vf → OwnAt (indexWrites L c.beginIndexing writes) vf :=
    fun vf halone => hindexed.own vf ⟨⟨halone.own, halone.sole⟩, halone.stored, halone.written⟩
  refine ⟨c', c'', hret, hret₂, fun vf p hp halone hlisted => ?_, fun vf q halone hq => ?_⟩
  · rw [hfiles vf (hown vf halone), hfresh.stays (c := c.beginIndexing) hp hlisted]
    rfl
  · rw [hfiles vf (hown vf halone)] at hq
    obtain ⟨p, hp, rfl⟩ := Option.map_eq_some_iff.1 hq
    have hsecond : c''.files.get? vf = some (P.settle branch [] (changed ++ unchanged)
        (P.settle branch changed unchanged p)) := by
      rw [hfiles₂ vf ((hown vf halone).of_bare hidx hback), show c'.beginIndexing.files = c'.files from rfl,
        hfiles vf (hown vf halone), hp]
      rfl
    refine ⟨fun hcontent => ?_, fun p' hp' => ?_, ?_⟩
    · rw [isContent_settle] at hcontent
      rw [settle_path, settles_iff hcontent]
      refine (hfresh.forall_unwritten_iff hp fun hnew => ?_).symm
      obtain ⟨-, hvisible, hpath, hrel⟩ := hfresh.of_mem hnew branch
      exact settles_of_fresh hrel hpath hvisible
    · rw [← Unwritten.eq (c := c.beginIndexing) hp' hindexed hp]
      exact ⟨settle_bare p, fun b hb => settle_others p hb⟩
    · rw [hsecond, Option.some_inj]
      refine Iff.trans ?_ (hfresh.forall_unwritten_iff (Q := fun p => isContent p = true → p.path ≠ [] →
        p.path ∈ changed → p.path ∉ unchanged → branch ∉ p.body.hidden) hp
        fun hnew _ _ _ _ => (hfresh.of_mem hnew branch).2.1).symm
      cases hcontent : isContent p with
      | false =>
        refine iff_of_true (settle_of_other _ ?_) fun h => absurd h Bool.false_ne_true
        rw [isContent_settle, hcontent]
      | true => exact (settle_settle_iff hcontent).trans ⟨fun h _ => h, fun h => h rfl⟩

end Project

/-! ### One stored file -/

def storedPoint (path : Str) (hiddenBranches : Option (List Str)) : Point ℚ (Fields ℕ) :=
  ⟨"p1", 0, path, ⟨some "content", hiddenBranches, 0⟩⟩

def oneStored (path : Str) (hiddenBranches : Option (List Str)) : Collection ℚ (Fields ℕ) :=
  Collection.new.beginIndexing.writePoint (storedPoint path hiddenBranches) (chunkFile "p1")

section OneStored

variable {path : Str} {hiddenBranches : Option (List Str)}

theorem get?_oneStored {vf : FileKey} {p : Point ℚ (Fields ℕ)} :
    (oneStored path hiddenBranches).files.get? vf = some p ↔
      vf = chunkFile "p1" ∧ p = storedPoint path hiddenBranches := by
  rw [oneStored, Collection.writePoint_files, Dict.get?_set]
  split
  · rename_i heq
    simp [heq, eq_comm]
  · rename_i hne
    constructor
    · intro hnone
      cases hnone
    · exact fun hp => absurd hp.1 hne

theorem ownAt_oneStored (vf : FileKey) : OwnAt (oneStored path hiddenBranches) vf := by
  have hidx : (oneStored path hiddenBranches).idIndex.get? "p1" = some (chunkFile "p1") := by
    rw [oneStored, Collection.writePoint_idIndex, storedPoint, Dict.get?_set_self]
  constructor
  · intro p hp _
    obtain ⟨rfl, rfl⟩ := get?_oneStored.1 hp
    exact hidx
  · intro vf' q hq _ hid
    obtain ⟨rfl, rfl⟩ := get?_oneStored.1 hq
    exact Option.some.inj (hidx.symm.trans hid)

end OneStored

def writeD : Write ℚ ℕ := ("d.py", [{ storedPoint "d.py" none with id := "p2" }])

/-- `d.py` is new, `c.py` has the content of `b.py`, and `a.py` is not in the branch. -/
theorem branch_isolated_with_shared :
    ∃ c', Returns (projectP.processBranchChanges onesLayout "main" ["d.py"] ["c.py"] [writeD] withShared) c' ∧
      (c'.files.get? (chunkFile "p1")).isSome = true ∧ projectP.Isolated "main" ["d.py", "c.py"] c' := by
  have hitem : ∀ {vf : FileKey} {p}, withShared.files.get? vf = some p → (vf, p) ∈ withShared.files.items :=
    Dict.mem_items_iff.2
  have hown : ∀ e ∈ withShared.files.items, withShared.idIndex.get? e.2.id = some e.1 := by decide +kernel
  have hother : ∀ p ∈ writeD.2, ∀ e ∈ withShared.files.items, e.2.id ≠ p.id := by decide +kernel
  have halone : ∀ vf, Alone onesLayout withShared ([writeD].flatMap Prod.snd) vf := by
    refine fun vf => ⟨⟨fun p hp _ => hown _ (hitem hp), fun vf' q hq _ hid => ?_⟩, fun p hp vf' q hq hid => ?_,
      fun p hp q hq _ => ?_⟩
    · exact Option.some.inj ((hown _ (hitem hq)).symm.trans hid)
    · exact absurd hid (hother p hp _ (hitem hq))
    · rw [mem_singleton.1 hp, mem_singleton.1 hq]
  have hfresh : Fresh onesLayout [writeD] := by
    unfold Fresh
    decide +kernel
  have hsettles : ∀ e ∈ withShared.files.items, projectP.Settles "main" ["d.py"] ["c.py"] e.2 := by
    unfold Project.Settles
    decide +kernel
  obtain ⟨c', c'', hret, -, hstays, hpoints⟩ := @Project.branch_isolated_iff _ _ projectP "main" ["d.py"] ["c.py"]
    onesLayout withShared [writeD] (by decide +kernel) hfresh
  refine ⟨c', hret, hstays _ (chunkPoint "p1" none) ⟨by decide +kernel, by decide +kernel⟩ (halone _)
    fun x _ w hw => ?_, fun vf q hq hcontent => ((hpoints vf q (halone vf) hq).1 hcontent).2 fun p hp => ?_⟩
  · rw [mem_singleton.1 hw]
    exact not_mem_nil
  · exact hsettles _ (hitem hp.1)

theorem oneStored_returns (path : Str) (hiddenBranches : Option (List Str)) (branch : Str)
    (changed unchanged : List Str) :
    ∃ c', Returns (projectP.processBranchChanges onesLayout branch changed unchanged []
        (oneStored path hiddenBranches)) c' ∧
      c'.files.get? (chunkFile "p1") =
        some (projectP.settle branch changed unchanged (storedPoint path hiddenBranches)) := by
  have hnone : (oneStored path hiddenBranches).beginIndexing.files.items.countP (fun e => !isContent e.2) = 0 := by
    refine countP_eq_zero.2 fun e he => ?_
    rw [(get?_oneStored.1 (Dict.mem_items_iff.1 he)).2]
    exact Bool.false_ne_true
  obtain ⟨c', hret, -, -, hfiles⟩ := projectP.updateBranchVisibility_returns branch changed unchanged
    (by rw [hnone]; decide)
  refine ⟨c', hret, ?_⟩
  rw [hfiles _ ⟨(ownAt_oneStored _).own, (ownAt_oneStored _).sole⟩,
    show (oneStored path hiddenBranches).beginIndexing.files = (oneStored path hiddenBranches).files from rfl,
    get?_oneStored.2 ⟨rfl, rfl⟩]
  rfl

/-- `/p/a.py` is in neither list and stays visible; `a.py` is changed and empty and stays hidden. -/
theorem branch_not_isolated :
    (∃ c', Returns (projectP.processBranchChanges onesLayout "main" [] [] []
        (oneStored "/p/a.py" none)) c' ∧
      c'.files.get? (chunkFile "p1") = some (storedPoint "/p/a.py" none) ∧
      projectP.relativePath "/p/a.py" = "a.py" ∧ ¬ projectP.Isolated "main" [] c') ∧
    ∃ c', Returns (projectP.processBranchChanges onesLayout "main" ["a.py"] [] []
        (oneStored "a.py" (some ["main"]))) c' ∧
      c'.files.get? (chunkFile "p1") = some (storedPoint "a.py" (some ["main"])) ∧
      ¬ projectP.Isolated "main" ["a.py"] c' := by
  constructor
  · obtain ⟨c', hret, hp⟩ := oneStored_returns "/p/a.py" none "main" [] []
    have hsame : projectP.settle "main" [] [] (storedPoint "/p/a.py" none) =
        storedPoint "/p/a.py" none := by decide
    refine ⟨c', hret, hp, by decide, fun hiso => ?_⟩
    exact absurd (hiso _ _ hp rfl) (by decide)
  · obtain ⟨c', hret, hp⟩ := oneStored_returns "a.py" (some ["main"]) "main" ["a.py"] []
    have hsame : projectP.settle "main" ["a.py"] [] (storedPoint "a.py" (some ["main"])) =
        storedPoint "a.py" (some ["main"]) := by decide
    refine ⟨c', hret, hp, fun hiso => ?_⟩
    exact absurd (hiso _ _ hp rfl) (by decide)

end CodeIndexer.Indexing
