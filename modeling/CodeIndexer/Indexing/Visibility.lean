import CodeIndexer.Indexing.CleanStore

/-!
# Hiding a file in a branch

A point is hidden in the branches its `hidden_branches` list. To hide a file in a branch, or to show it again,
the points of the file are scrolled through, and `_batch_update_points` upserts those that need another list,
one by one. Each of these upserts is a call of its own, and `upsert_points` drops the points of the file that
its call does not have. So the first update of a file with several points removes all the others.
-/

namespace CodeIndexer.Indexing

open PyText Storage List

variable {V B : Type}

/-- The rest of a payload: `type`, `hidden_branches`, and the other fields with the chunk text. -/
structure Fields (B : Type) where
  type : Option Str
  hiddenBranches : Option (List Str)
  rest : B
deriving DecidableEq

def Fields.hidden (fields : Fields B) : List Str := fields.hiddenBranches.getD []

def hideIn (p : Point V (Fields B)) (hidden : List Str) : Point V (Fields B) :=
  { p with body := { p.body with hiddenBranches := some hidden } }

def bare (p : Point V (Fields B)) : Point V (Fields B) :=
  { p with body := { p.body with hiddenBranches := none } }

def isContent (p : Point V (Fields B)) : Bool := p.body.type = some "content".toList

/-! ### Scrolling through one file -/

def PathIndex.mergeFrom (ix other : PathIndex) : PathIndex :=
  other.items.foldl (fun ix e => e.2.foldl (fun ix id => ix.addPoint e.1 id) ix) ix

def rebuildPathIndexFromDisk (c : Collection V B) : PathIndex :=
  c.files.items.foldl (fun ix e => if e.2.id = [] ∨ e.2.path = [] then ix else ix.addPoint e.2.path e.2.id) .empty

def openPathIndex (c : Collection V B) : Collection V B :=
  if c.loadedPathIndex.items = [] then
    { c with
      pathIndex := some (PathIndex.mergeFrom c.loadedPathIndex (rebuildPathIndexFromDisk c))
      savedPathIndex := rebuildPathIndexFromDisk c }
  else { c with pathIndex := some c.loadedPathIndex }

def sortedIds (ids : List Str) : List Str := ids.dedup.insertionSort (· ≤ ·)

def listedPoints (c : Collection V B) (filePath : Str) (keeps : Point V B → Bool) : List (Point V B) :=
  (sortedIds (c.loadedPathIndex.getPointIds filePath)).filterMap fun id => (getPoint c id).filter keeps

def scrollFile (c : Collection V B) (filePath : Str) (keeps : Point V B → Bool) (limit : ℕ) : List (Point V B) :=
  (listedPoints c filePath keeps).take limit

/-! ### Updates -/

/-- `_batch_update_points` for new lists of hidden branches; false if an upsert raises. -/
def batchUpdatePoints (L : Layout V) :
    Collection V (Fields B) → List (Str × List Str) → Collection V (Fields B) × Bool
  | c, [] => (c, true)
  | c, (id, hidden) :: updates =>
    match getPoint c id with
    | none => batchUpdatePoints L c updates
    | some existing =>
      match upsertPoints L c [{ hideIn existing hidden with id := id }] with
      | (c, true) => batchUpdatePoints L c updates
      | (c, false) => (c, false)

/-- The common part of the two functions below; `edit` is the new list, if a point needs one. -/
def updateVisibility (edit : List Str → Option (List Str)) (L : Layout V) (c : Collection V (Fields B))
    (filePath : Str) : Collection V (Fields B) × Bool :=
  batchUpdatePoints L (openPathIndex c) ((scrollFile (openPathIndex c) filePath isContent 1000).filterMap fun p =>
    (edit p.body.hidden).map fun hidden => (p.id, hidden))

def addBranch (branch : Str) (hidden : List Str) : Option (List Str) :=
  if branch ∈ hidden then none else some (hidden ++ [branch])

def dropBranch (branch : Str) (hidden : List Str) : Option (List Str) :=
  if branch ∈ hidden then some (hidden.filter (· ≠ branch)) else none

def hideFileInBranch (L : Layout V) (c : Collection V (Fields B)) (filePath branch : Str) :
    Collection V (Fields B) × Bool := updateVisibility (addBranch branch) L c filePath

def ensureFileVisibleInBranch (L : Layout V) (c : Collection V (Fields B)) (filePath branch : Str) :
    Collection V (Fields B) × Bool := updateVisibility (dropBranch branch) L c filePath

/-- `delete_file_branch_aware` of a git project; the current branch may be unknown. -/
def softDelete (L : Layout V) (c : Collection V (Fields B)) (filePath : Str) (currentBranch : Option Str) :
    Collection V (Fields B) × Bool :=
  match currentBranch.filter (· ≠ []) with
  | some branch => ((hideFileInBranch L c filePath branch).1, true)
  | none => (c, false)

/-! ### What the parts do -/

variable {id filePath branch : Str} {hidden : Bool}

theorem mem_sortedIds {ids : List Str} : id ∈ sortedIds ids ↔ id ∈ ids := by simp [sortedIds]

theorem nodup_sortedIds (ids : List Str) : (sortedIds ids).Nodup :=
  (perm_insertionSort _ _).nodup_iff.2 (nodup_dedup ids)

section Open

variable {L : Layout V} {c : Collection V B}

theorem openPathIndex_files (c : Collection V B) : (openPathIndex c).files = c.files := by
  unfold openPathIndex
  split <;> rfl

theorem openPathIndex_idIndex (c : Collection V B) : (openPathIndex c).idIndex = c.idIndex := by
  unfold openPathIndex
  split <;> rfl

/-- The points of one file are indexed and lie where their vectors put them, and their ids are listed for the file and
for no other; an id that is listed for the file is not the one of another file's point. -/
structure FileInStep (L : Layout V) (c : Collection V B) (filePath : Str) : Prop where
  owned : ∀ vf p, c.files.get? vf = some p → p.path = filePath →
    c.idIndex.get? p.id = some vf ∧ L.vectorFile p = some vf
  listed : ∀ vf p, c.files.get? vf = some p → p.path = filePath →
    ∀ f, p.id ∈ c.loadedPathIndex.getPointIds f ↔ f = filePath
  named : ∀ id ∈ c.loadedPathIndex.getPointIds filePath, ∀ vf, c.idIndex.get? id = some vf →
    ∃ p, c.files.get? vf = some p ∧ p.id = id ∧ p.path = filePath

theorem path_of_mem_rebuild (h : id ∈ (rebuildPathIndexFromDisk c).getPointIds filePath) :
    ∃ vf p, c.files.get? vf = some p ∧ p.path = filePath := by
  revert h
  refine foldlRecOn (motive := fun ix : PathIndex => id ∈ ix.getPointIds filePath → _) _ _
    (fun hid => absurd hid not_mem_nil)
    fun ix ih e he hid => ?_
  split at hid
  · exact ih hid
  · rcases PathIndex.mem_addPoint.1 hid with hid | ⟨hpath, -⟩
    · exact ih hid
    · exact ⟨e.1, e.2, Dict.mem_items_iff.1 he, hpath.symm⟩

theorem mem_mergeFrom {ix other : PathIndex} :
    id ∈ (PathIndex.mergeFrom ix other).getPointIds filePath →
      id ∈ ix.getPointIds filePath ∨ id ∈ other.getPointIds filePath := by
  refine foldlRecOn (motive := fun ix' : PathIndex => id ∈ ix'.getPointIds filePath → _) _ _ .inl
    fun ix₁ ih e he => foldlRecOn (motive := fun ix' : PathIndex => id ∈ ix'.getPointIds filePath → _) _ _ ih
      fun ix₂ ih x hx hid => ?_
  rcases PathIndex.mem_addPoint.1 hid with hid | ⟨rfl, rfl⟩
  · exact ih hid
  · right
    rw [PathIndex.getPointIds, Dict.mem_items_iff.1 he]
    exact hx

namespace FileInStep

/-- Where the path index is empty, the file has no points, and rebuilding the index lists none for it. -/
theorem openPathIndex (h : FileInStep L c filePath) : FileInStep L (openPathIndex c) filePath := by
  by_cases hnil : c.loadedPathIndex.items = []
  · have hnone : ∀ vf p, c.files.get? vf = some p → p.path ≠ filePath := by
      intro vf p hp hpath
      obtain ⟨ids, hids, -⟩ := PathIndex.exists_mem_items ((h.listed vf p hp hpath filePath).2 rfl)
      rw [hnil] at hids
      cases hids
    refine ⟨fun vf p hp hpath => ?_, fun vf p hp hpath => ?_, fun id hid => ?_⟩
    · exact absurd hpath (hnone vf p (openPathIndex_files c ▸ hp))
    · exact absurd hpath (hnone vf p (openPathIndex_files c ▸ hp))
    · rw [Indexing.openPathIndex, if_pos hnil] at hid
      rcases mem_mergeFrom hid with hid | hid
      · obtain ⟨ids, hids, -⟩ := PathIndex.exists_mem_items hid
        rw [hnil] at hids
        cases hids
      · obtain ⟨vf, p, hp, hpath⟩ := path_of_mem_rebuild hid
        exact absurd hpath (hnone vf p hp)
  · rw [Indexing.openPathIndex, if_neg hnil]
    exact ⟨h.owned, h.listed, h.named⟩

variable {p p' : Point V B} {keeps : Point V B → Bool} {vf : FileKey}

section

variable (h : FileInStep L c filePath)
include h

theorem getPoint_of_path (hp : c.files.get? vf = some p) (hpath : p.path = filePath) : getPoint c p.id = some p := by
  rw [getPoint, (h.owned vf p hp hpath).1]
  exact hp

theorem of_getPoint (hid : id ∈ c.loadedPathIndex.getPointIds filePath) (hget : getPoint c id = some p) :
    ∃ vf, c.files.get? vf = some p ∧ p.id = id ∧ p.path = filePath := by
  obtain ⟨vf, hvf, hp⟩ := Option.bind_eq_some_iff.1 hget
  obtain ⟨q, hq, hqid, hpath⟩ := h.named id hid vf hvf
  obtain rfl := Option.mem_unique hp hq
  exact ⟨vf, hp, hqid, hpath⟩

theorem mem_listedPoints : p ∈ listedPoints c filePath keeps ↔
      ∃ vf, c.files.get? vf = some p ∧ p.path = filePath ∧ keeps p = true := by
  rw [listedPoints, mem_filterMap]
  constructor
  · rintro ⟨id, hid, hget⟩
    obtain ⟨hget, hkeeps⟩ := Option.filter_eq_some_iff.1 hget
    obtain ⟨vf, hvf, -, hpath⟩ := h.of_getPoint (mem_sortedIds.1 hid) hget
    exact ⟨vf, hvf, hpath, hkeeps⟩
  · rintro ⟨vf, hp, hpath, hkeeps⟩
    refine ⟨p.id, mem_sortedIds.2 ((h.listed vf p hp hpath filePath).2 rfl), ?_⟩
    exact Option.filter_eq_some_iff.2 ⟨h.getPoint_of_path hp hpath, hkeeps⟩

theorem nodup_listedPoints (keeps : Point V B → Bool) : ((listedPoints c filePath keeps).map Point.id).Nodup := by
  have hid : ∀ ids : List Str, (∀ id ∈ ids, id ∈ c.loadedPathIndex.getPointIds filePath) →
      ((ids.filterMap fun id => (getPoint c id).filter keeps).map Point.id).Sublist ids := by
    intro ids hids
    induction ids with
    | nil => exact .slnil
    | cons id ids ih =>
      have ih := ih fun id' hid' => hids id' (mem_cons_of_mem _ hid')
      rw [filterMap_cons]
      split
      · exact ih.cons _
      · rename_i p hp
        obtain ⟨vf, -, rfl, -⟩ := h.of_getPoint (hids id mem_cons_self) (Option.filter_eq_some_iff.1 hp).1
        exact ih.cons_cons _
  exact (nodup_sortedIds _).sublist (hid _ fun id hmem => mem_sortedIds.1 hmem)

theorem mem_scrollFile_of_unique {limit : ℕ} (hp : c.files.get? vf = some p) (hpath : p.path = filePath)
    (hkeeps : keeps p = true) (hlimit : 0 < limit)
    (honly : ∀ vf' q, c.files.get? vf' = some q → q.path = filePath → vf' = vf) :
    p ∈ scrollFile c filePath keeps limit := by
  have hmem := h.mem_listedPoints.2 ⟨vf, hp, hpath, hkeeps⟩
  -- The first point that is found is scrolled through, and it can only be `p`.
  obtain ⟨q, rest, hfound⟩ := exists_cons_of_ne_nil (ne_nil_of_mem hmem)
  have hqlisted : q ∈ listedPoints c filePath keeps := hfound ▸ mem_cons_self
  obtain ⟨vf', hvf', hqpath, -⟩ := h.mem_listedPoints.1 hqlisted
  obtain rfl := honly vf' q hvf' hqpath
  obtain ⟨n, rfl⟩ := Nat.exists_eq_succ_of_ne_zero hlimit.ne'
  rw [scrollFile, hfound, Option.mem_unique hp hvf']
  exact mem_cons_self

omit h in
theorem mem_loadedPathIndex_upsert (hfile : filePath ≠ []) (hpath : p.path = filePath) {g : Str} :
    id ∈ ((c.dropOrphans [p]).writePoint p vf).loadedPathIndex.getPointIds g ↔
      id ∈ c.loadedPathIndex.getPointIds g ∧ (g = filePath → id = p.id) ∨ g = filePath ∧ id = p.id := by
  obtain ⟨-, hix, -⟩ := c.dropOrphans_spec [p]
  have hloaded : (c.dropOrphans [p]).pathIndex.isSome = true := by rw [hix]; rfl
  have hgroup : ∀ ids, (pointsByFile [p]).get? g = some ids ↔ g = filePath ∧ ids = [p.id] := by
    intro ids
    rw [← Dict.mem_items_iff, pointsByFile_onePath (cons_ne_nil _ _) hfile (forall_mem_singleton.2 hpath),
      mem_singleton, Prod.mk.injEq, map_singleton]
  rw [mem_loadedPathIndex_writePoint hloaded (hpath ▸ hfile), hpath, Collection.loadedPathIndex, hix,
    Option.getD_some, (c.step1_spec [p]).1]
  simp only [hgroup, and_imp, forall_eq_apply_imp_iff, mem_singleton]

/-- The other points of the file are dropped. -/
theorem mem_orphanIds_of_path (hfile : filePath ≠ []) (hpath : p.path = filePath) {q : Point V B}
    (hq : c.files.get? vf = some q) (hqpath : q.path = filePath) (hqid : q.id ≠ p.id) : q.id ∈ c.orphanIds [p] := by
  rw [mem_orphanIds c (cons_ne_nil _ _) hfile (forall_mem_singleton.2 hpath), map_singleton, mem_singleton,
    (h.owned vf q hq hqpath).1]
  exact ⟨(h.listed vf q hq hqpath filePath).2 rfl, hqid, fun g hg => (h.listed vf q hq hqpath g).1 hg, rfl⟩

theorem files_upsert (hfile : filePath ≠ []) (hpath : p.path = filePath)
    (hplace : ∀ vf' q, c.files.get? vf' = some q → q.path = filePath → q.id = p.id → vf' = vf) {vf' : FileKey}
    {q : Point V B} : ((c.dropOrphans [p]).writePoint p vf).files.get? vf' = some q ↔
      vf' = vf ∧ q = p ∨ vf' ≠ vf ∧ c.files.get? vf' = some q ∧ q.path ≠ filePath := by
  rw [(c.dropOrphans [p]).writePoint_files, Dict.get?_set_eq_some, (c.dropOrphans_spec [p]).1.files]
  refine or_congr (and_congr_right fun _ => eq_comm) (and_congr_right fun hne => and_congr_right fun hq => ?_)
  constructor
  · intro hkept hqpath
    refine hkept q.id (h.mem_orphanIds_of_path hfile hpath hq hqpath fun hid => ?_) (h.owned vf' q hq hqpath).1
    exact hne (hplace vf' q hq hqpath hid)
  · intro hqpath x hx hxvf
    have hlisted := ((mem_orphanIds c (cons_ne_nil _ _) hfile (forall_mem_singleton.2 hpath)).1 hx).1
    obtain ⟨r, hr, -, hrpath⟩ := h.named x hlisted vf' hxvf
    exact hqpath (Option.mem_unique hq hr ▸ hrpath)

/-- The upsert of one point of the file: its other points are gone, and the other files keep theirs. -/
theorem upsert_one (hfile : filePath ≠ []) (hpath : p.path = filePath) (hvf : L.vectorFile p = some vf)
    (hsole : ∀ g, p.id ∈ c.loadedPathIndex.getPointIds g → g = filePath)
    (hplace : ∀ vf' q, c.files.get? vf' = some q → q.path = filePath → q.id = p.id → vf' = vf) :
    ∃ c', upsertPoints L c [p] = (c', true) ∧ FileInStep L c' filePath ∧
      (∀ vf' q, c'.files.get? vf' = some q ↔
        vf' = vf ∧ q = p ∨ vf' ≠ vf ∧ c.files.get? vf' = some q ∧ q.path ≠ filePath) ∧
      ∀ vf' q, c.files.get? vf' = some q → q.path = filePath → q.id ≠ p.id → getPoint c' q.id = none := by
  obtain ⟨hremoves, -, -⟩ := c.dropOrphans_spec [p]
  have hfiles : ∀ vf' q, ((c.dropOrphans [p]).writePoint p vf).files.get? vf' = some q ↔ _ := fun vf' q =>
    h.files_upsert hfile hpath hplace
  refine ⟨(c.dropOrphans [p]).writePoint p vf, ?_, ⟨fun vf' q hq hqpath => ?_, fun vf' q hq hqpath g => ?_,
    fun x hx vf' hvf' => ?_⟩, hfiles, fun vf' q hq hqpath hqid => ?_⟩
  · rw [upsertPoints, writePoints, hvf]
    rfl
  · obtain ⟨rfl, rfl⟩ := ((hfiles vf' q).1 hq).resolve_right fun hother => hother.2.2 hqpath
    refine ⟨?_, hvf⟩
    rw [Collection.writePoint_idIndex, Dict.get?_set_self]
  · obtain ⟨rfl, rfl⟩ := ((hfiles vf' q).1 hq).resolve_right fun hother => hother.2.2 hqpath
    rw [mem_loadedPathIndex_upsert hfile hpath]
    have hsole := hsole g
    tauto
  · obtain rfl : x = p.id :=
      ((mem_loadedPathIndex_upsert hfile hpath).1 hx).elim (fun hold => hold.2 rfl) And.right
    rw [Collection.writePoint_idIndex, Dict.get?_set_self] at hvf'
    cases hvf'
    exact ⟨p, (hfiles vf p).2 (.inl ⟨rfl, rfl⟩), rfl, hpath⟩
  · have hgone := h.mem_orphanIds_of_path hfile hpath hq hqpath hqid
    rw [getPoint, Collection.writePoint_idIndex, Dict.get?_set_of_ne _ _ hqid,
      Option.eq_none_iff_forall_ne_some.2 fun vf'' hvf'' => ((hremoves.idIndex q.id vf'').1 hvf'').2 hgone]
    rfl

theorem upsert_replace (hfile : filePath ≠ []) (hp : c.files.get? vf = some p) (hpath : p.path = filePath)
    (hid : p'.id = p.id) (hpath' : p'.path = filePath) (hvf : L.vectorFile p' = some vf) :
    ∃ c', upsertPoints L c [p'] = (c', true) ∧ FileInStep L c' filePath ∧
      (∀ vf' q, c'.files.get? vf' = some q ↔
        vf' = vf ∧ q = p' ∨ vf' ≠ vf ∧ c.files.get? vf' = some q ∧ q.path ≠ filePath) ∧
      ∀ vf' q, c.files.get? vf' = some q → q.path = filePath → q.id ≠ p.id → getPoint c' q.id = none := by
  rw [← hid]
  refine h.upsert_one hfile hpath' hvf (fun g hg => ?_) fun vf' q hq hqpath hqid => ?_
  · rw [hid] at hg
    exact (h.listed vf p hp hpath g).1 hg
  · have hqowned := (h.owned vf' q hq hqpath).1
    rw [hqid, hid, (h.owned vf p hp hpath).1] at hqowned
    exact (Option.some.inj hqowned).symm

end

end FileInStep

end Open

section Update

variable {L : Layout V} {c : Collection V (Fields B)} {filePath : Str}

theorem batchUpdatePoints_skip (updates : List (Str × List Str)) (h : ∀ u ∈ updates, getPoint c u.1 = none) :
    batchUpdatePoints L c updates = (c, true) := by
  induction updates with
  | nil => rfl
  | cons u updates ih =>
    rw [batchUpdatePoints, h u mem_cons_self]
    exact ih fun u' hu' => h u' (mem_cons_of_mem _ hu')

/-- Either no scrolled point needs another list and no vector file changes, or one does, and then it is the only
point of the file that is left. -/
theorem updateVisibility_cases (h : FileInStep L c filePath) (hfile : filePath ≠ [])
    (edit : List Str → Option (List Str)) :
    (∀ p ∈ scrollFile (openPathIndex c) filePath isContent 1000, edit p.body.hidden = none) ∧
      (updateVisibility edit L c filePath).1.files = c.files ∧
      FileInStep L (updateVisibility edit L c filePath).1 filePath ∨
    ∃ vf p hidden, c.files.get? vf = some p ∧ p.path = filePath ∧ isContent p = true ∧
      edit p.body.hidden = some hidden ∧ FileInStep L (updateVisibility edit L c filePath).1 filePath ∧
      ∀ vf' q, (updateVisibility edit L c filePath).1.files.get? vf' = some q ↔
        vf' = vf ∧ q = hideIn p hidden ∨ vf' ≠ vf ∧ c.files.get? vf' = some q ∧ q.path ≠ filePath := by
  have hopen := h.openPathIndex
  have hfiles := openPathIndex_files c
  have hnodup : ((scrollFile (openPathIndex c) filePath isContent 1000).map Point.id).Nodup :=
    (hopen.nodup_listedPoints isContent).sublist ((take_sublist _ _).map _)
  have hscroll : ∀ p ∈ scrollFile (openPathIndex c) filePath isContent 1000,
      ∃ vf, (openPathIndex c).files.get? vf = some p ∧ p.path = filePath ∧ isContent p = true :=
    fun p hp => hopen.mem_listedPoints.1 (mem_of_mem_take hp)
  unfold updateVisibility
  -- The first point that needs another list decides; the points before it are passed over.
  generalize scrollFile (openPathIndex c) filePath isContent 1000 = points at hnodup hscroll
  induction points with
  | nil => exact .inl ⟨nofun, hfiles, hopen⟩
  | cons p points ih =>
    obtain ⟨hnew, hnodup⟩ := nodup_cons.1 hnodup
    cases hedit : edit p.body.hidden with
    | none =>
      rw [filterMap_cons_none (by rw [hedit]; rfl)]
      refine (ih hnodup fun q hq => hscroll q (mem_cons_of_mem _ hq)).imp_left fun hnone => ⟨fun q hq => ?_, hnone.2⟩
      rcases mem_cons.1 hq with rfl | hq
      · exact hedit
      · exact hnone.1 q hq
    | some hidden =>
      obtain ⟨vf, hp, hpath, hcontent⟩ := hscroll p mem_cons_self
      obtain ⟨c', hup, hstep, hleft, hgone⟩ := hopen.upsert_replace hfile hp hpath
        (show (hideIn p hidden).id = p.id from rfl) hpath (hopen.owned vf p hp hpath).2
      rw [filterMap_cons_some (by rw [hedit]; rfl), batchUpdatePoints, hopen.getPoint_of_path hp hpath]
      dsimp only
      rw [show ({ hideIn p hidden with id := p.id } : Point V (Fields B)) = hideIn p hidden from rfl, hup]
      dsimp only
      rw [batchUpdatePoints_skip _ ?_]
      · refine .inr ⟨vf, p, hidden, hfiles ▸ hp, hpath, hcontent, hedit, hstep, fun vf' q => ?_⟩
        rw [hleft, hfiles]
      · -- The other points of the file are gone.
        intro u hu
        obtain ⟨q, hq, hqu⟩ := mem_filterMap.1 hu
        obtain ⟨hidden', -, rfl⟩ := Option.map_eq_some_iff.1 hqu
        obtain ⟨vfq, hvfq, hqpath, -⟩ := hscroll q (mem_cons_of_mem _ hq)
        exact hgone vfq q hvfq hqpath fun hid => hnew (mem_map.2 ⟨q, hq, hid⟩)

end Update

/-! ### Only the visibility changes -/

/-- A point and what has become of it: only `hidden_branches` differs, and only for points of the file, which are
hidden in the branch now, or visible. -/
structure Updated (filePath branch : Str) (hidden : Bool) (p p' : Point V (Fields B)) : Prop where
  same : bare p' = bare p
  others : ∀ b ≠ branch, b ∈ p'.body.hidden ↔ b ∈ p.body.hidden
  file : p.path = filePath → (branch ∈ p'.body.hidden ↔ hidden = true)
  elsewhere : p.path ≠ filePath → p' = p

theorem Updated.path {p p' : Point V (Fields B)}
    (h : Updated filePath branch hidden p p') : p'.path = p.path := congrArg (fun q => q.path) h.same

def OnlyVisibility (filePath branch : Str) (hidden : Bool) (c c' : Collection V (Fields B)) : Prop :=
  ∀ vf, Option.Rel (Updated filePath branch hidden) (c.files.get? vf) (c'.files.get? vf)

/-- What the branch could see it can see again, and the other branches see what they saw. -/
def Restores (branch : Str) (c c' : Collection V (Fields B)) : Prop :=
  ∀ vf, Option.Rel (fun p p' => bare p' = bare p ∧ (branch ∉ p.body.hidden → branch ∉ p'.body.hidden) ∧
    ∀ b ≠ branch, b ∈ p'.body.hidden ↔ b ∈ p.body.hidden) (c.files.get? vf) (c'.files.get? vf)

def Settled (filePath branch : Str) (hidden : Bool) (c : Collection V (Fields B)) : Prop :=
  ∀ vf p, c.files.get? vf = some p → p.path = filePath → (branch ∈ p.body.hidden ↔ hidden = true)

structure Lone (filePath : Str) (c : Collection V (Fields B)) : Prop where
  content : ∀ vf p, c.files.get? vf = some p → p.path = filePath → isContent p = true
  only : ∀ vf p vf' p', c.files.get? vf = some p → p.path = filePath → c.files.get? vf' = some p' →
    p'.path = filePath → vf' = vf

/-- A new list is made for the points that are not as they should be, and puts that right. -/
structure Edits (branch : Str) (hidden : Bool) (edit : List Str → Option (List Str)) : Prop where
  skips : ∀ h, edit h = none → (branch ∈ h ↔ hidden = true)
  edits : ∀ h h', edit h = some h' → ¬ (branch ∈ h ↔ hidden = true) ∧ (branch ∈ h' ↔ hidden = true) ∧
    ∀ b ≠ branch, b ∈ h' ↔ b ∈ h

theorem edits_addBranch (branch : Str) : Edits branch true (addBranch branch) where
  skips h hnone := by
    unfold addBranch at hnone
    split at hnone
    · simpa
    · cases hnone
  edits h h' hsome := by
    unfold addBranch at hsome
    split at hsome
    · cases hsome
    · rename_i hmem
      cases hsome
      refine ⟨by simpa using hmem, by simp, fun b hb => ?_⟩
      simp [hb]

theorem edits_dropBranch (branch : Str) : Edits branch false (dropBranch branch) where
  skips h hnone := by
    unfold dropBranch at hnone
    split at hnone
    · cases hnone
    · rename_i hmem
      simpa using hmem
  edits h h' hsome := by
    unfold dropBranch at hsome
    split at hsome
    · rename_i hmem
      cases hsome
      refine ⟨by simpa using hmem, by simp, fun b hb => ?_⟩
      simp [hb]
    · cases hsome

section Frame

variable {L : Layout V} {c : Collection V (Fields B)} {filePath branch : Str} {hidden : Bool}
  {edit : List Str → Option (List Str)}

theorem onlyVisibility_iff_of_files_eq {c' : Collection V (Fields B)} (hfiles : c'.files = c.files) :
    OnlyVisibility filePath branch hidden c c' ↔ Settled filePath branch hidden c := by
  constructor
  · intro honly vf p hp hpath
    have hrel := honly vf
    rw [hfiles, hp] at hrel
    cases hrel with
    | some hup => exact hup.file hpath
  · intro hsettled vf
    rw [hfiles]
    cases hp : c.files.get? vf with
    | none => exact .none
    | some p => exact .some ⟨rfl, fun _ _ => Iff.rfl, hsettled vf p hp, fun _ => rfl⟩

theorem updated_hideIn (hedit : Edits branch hidden edit) {p : Point V (Fields B)} {h' : List Str}
    (hpath : p.path = filePath) (hsome : edit p.body.hidden = some h') :
    Updated filePath branch hidden p (hideIn p h') where
  same := rfl
  others := (hedit.edits _ _ hsome).2.2
  file _ := (hedit.edits _ _ hsome).2.1
  elsewhere hne := absurd hpath hne

theorem onlyVisibility_updateVisibility_iff (h : FileInStep L c filePath) (hfile : filePath ≠ [])
    (hedit : Edits branch hidden edit) :
    OnlyVisibility filePath branch hidden c (updateVisibility edit L c filePath).1 ↔
      Settled filePath branch hidden c ∨ Lone filePath c := by
  rcases updateVisibility_cases h hfile edit with ⟨hnone, hfiles, -⟩ | ⟨vf, p, h', hp, hpath, hcontent, hsome, -, hleft⟩
  · rw [onlyVisibility_iff_of_files_eq hfiles]
    refine ⟨.inl, ?_⟩
    rintro (hsettled | hlone)
    · exact hsettled
    · intro vf p hp hpath
      have hfiles' := openPathIndex_files c
      refine hedit.skips _ (hnone p (h.openPathIndex.mem_scrollFile_of_unique (hfiles' ▸ hp) hpath
        (hlone.content vf p hp hpath) (by decide) fun vf' q hq hqpath => ?_))
      exact hlone.only vf p vf' q hp hpath (hfiles' ▸ hq) hqpath
  · constructor
    · intro honly
      -- A point of the file that is kept is the updated one.
      have hvf : ∀ vf' q, c.files.get? vf' = some q → q.path = filePath → vf' = vf := by
        intro vf' q hq hqpath
        have hrel := honly vf'
        rw [hq] at hrel
        cases hq' : (updateVisibility edit L c filePath).1.files.get? vf' with
        | none =>
          rw [hq'] at hrel
          cases hrel
        | some q' =>
          rcases (hleft vf' q').1 hq' with ⟨heq, -⟩ | ⟨-, hold, hother⟩
          · exact heq
          · obtain rfl := Option.mem_unique hq hold
            exact absurd hqpath hother
      refine .inr ⟨fun vf' q hq hqpath => ?_, fun vf₁ p₁ vf₂ p₂ hp₁ hpath₁ hp₂ hpath₂ => ?_⟩
      · obtain rfl := hvf vf' q hq hqpath
        rwa [Option.mem_unique hq hp]
      · rw [hvf vf₁ p₁ hp₁ hpath₁, hvf vf₂ p₂ hp₂ hpath₂]
    · rintro (hsettled | hlone)
      · exact absurd (hsettled vf p hp hpath) (hedit.edits _ _ hsome).1
      · intro vf'
        by_cases hvf : vf' = vf
        · rw [hvf, hp, (hleft vf _).2 (.inl ⟨rfl, rfl⟩)]
          exact .some (updated_hideIn hedit hpath hsome)
        · cases hq : c.files.get? vf' with
          | none =>
            have hnone : (updateVisibility edit L c filePath).1.files.get? vf' = none := by
              refine Option.eq_none_iff_forall_ne_some.2 fun q hq' => ?_
              rcases (hleft vf' q).1 hq' with ⟨heq, -⟩ | ⟨-, hold, -⟩
              · exact hvf heq
              · cases hq.symm.trans hold
            rw [hnone]
            exact .none
          | some q =>
            have hother : q.path ≠ filePath := fun hqpath => hvf (hlone.only vf p vf' q hp hpath hq hqpath)
            rw [(hleft vf' q).2 (.inr ⟨hvf, hq, hother⟩)]
            exact .some ⟨rfl, fun _ _ => Iff.rfl, fun hqpath => absurd hqpath hother, fun _ => rfl⟩

theorem fileInStep_updateVisibility (h : FileInStep L c filePath) (hfile : filePath ≠ [])
    (edit : List Str → Option (List Str)) : FileInStep L (updateVisibility edit L c filePath).1 filePath := by
  rcases updateVisibility_cases h hfile edit with ⟨-, -, hstep⟩ | ⟨vf, p, h', -, -, -, -, hstep, -⟩ <;> exact hstep

namespace OnlyVisibility

variable {c' : Collection V (Fields B)} {vf : FileKey}

section

variable (h : OnlyVisibility filePath branch hidden c c')
include h

theorem forth {p : Point V (Fields B)}
    (hp : c.files.get? vf = some p) : ∃ p', c'.files.get? vf = some p' ∧ Updated filePath branch hidden p p' := by
  have hrel := h vf
  rw [hp] at hrel
  generalize c'.files.get? vf = o at hrel
  cases hrel with
  | some hup => exact ⟨_, rfl, hup⟩

theorem back {p' : Point V (Fields B)}
    (hp' : c'.files.get? vf = some p') : ∃ p, c.files.get? vf = some p ∧ Updated filePath branch hidden p p' := by
  have hrel := h vf
  rw [hp'] at hrel
  generalize c.files.get? vf = o at hrel
  cases hrel with
  | some hup => exact ⟨_, rfl, hup⟩

theorem lone (hlone : Lone filePath c) : Lone filePath c' := by
  refine ⟨fun vf p' hp' hpath => ?_, fun vf p' vf' q' hp' hpath hq' hqpath => ?_⟩
  · obtain ⟨p, hp, hup⟩ := h.back hp'
    have htype : p'.body.type = p.body.type := congrArg (fun q => q.body.type) hup.same
    rw [isContent, htype]
    exact hlone.content vf p hp (hup.path.symm.trans hpath)
  · obtain ⟨p, hp, hup⟩ := h.back hp'
    obtain ⟨q, hq, hupq⟩ := h.back hq'
    exact hlone.only vf p vf' q hp (hup.path.symm.trans hpath) hq (hupq.path.symm.trans hqpath)

end

theorem restores {c₁ c₂ : Collection V (Fields B)} (hhide : OnlyVisibility filePath branch true c c₁)
    (hshow : OnlyVisibility filePath branch false c₁ c₂) : Restores branch c c₂ := by
  intro vf
  cases hp : c.files.get? vf with
  | none =>
    have hnone : c₂.files.get? vf = none := by
      refine Option.eq_none_iff_forall_ne_some.2 fun p₂ hp₂ => ?_
      obtain ⟨p₁, hp₁, -⟩ := hshow.back hp₂
      obtain ⟨p₀, hp₀, -⟩ := hhide.back hp₁
      cases hp.symm.trans hp₀
    rw [hnone]
    exact .none
  | some p =>
    obtain ⟨p₁, hp₁, hup₁⟩ := hhide.forth hp
    obtain ⟨p₂, hp₂, hup₂⟩ := hshow.forth hp₁
    rw [hp₂]
    refine .some ⟨hup₂.same.trans hup₁.same, fun hvisible => ?_,
      fun b hb => (hup₂.others b hb).trans (hup₁.others b hb)⟩
    by_cases hfile : p.path = filePath
    · simpa using hup₂.file (hup₁.path.trans hfile)
    · rw [hup₂.elsewhere (hup₁.path ▸ hfile), hup₁.elsewhere hfile]
      exact hvisible

end OnlyVisibility

end Frame

/-! ### A file of two chunks -/

def chunkPoint (id : Str) (hiddenBranches : Option (List Str)) : Point ℚ (Fields ℕ) :=
  ⟨id, 0, "a.py", ⟨some "content", hiddenBranches, 0⟩⟩

def chunkFile (id : Str) : FileKey := List.replicate 4 "55".toList ++ [onesLayout.fileName id]

def oneChunk : Collection ℚ (Fields ℕ) :=
  Collection.new.beginIndexing.writePoint (chunkPoint "p1" none) (chunkFile "p1")

/-- Two further files, `b.py` and `c.py`, have the same content: one point is listed for both of them. -/
def sharedChunk (filePath : Str) : Point ℚ (Fields ℕ) := { chunkPoint "q" none with path := filePath }

def withShared : Collection ℚ (Fields ℕ) :=
  (oneChunk.writePoint (sharedChunk "b.py") (chunkFile "q")).writePoint (sharedChunk "c.py") (chunkFile "q")

theorem points_withShared {vf : FileKey} {p : Point ℚ (Fields ℕ)} (hp : withShared.files.get? vf = some p)
    (hpath : p.path = "a.py".toList) : vf = chunkFile "p1" ∧ p = chunkPoint "p1" none := by
  have hitems : withShared.files.items =
      [(chunkFile "p1".toList, chunkPoint "p1".toList none), (chunkFile "q".toList, sharedChunk "c.py".toList)] := by
    decide +kernel
  have hmem := Dict.mem_items_iff.2 hp
  rw [hitems, mem_cons, mem_singleton] at hmem
  rcases hmem with heq | heq
  · exact Prod.mk.inj heq
  · rw [(Prod.mk.inj heq).2] at hpath
    exact absurd hpath (by decide)

theorem fileInStep_withShared : FileInStep onesLayout withShared "a.py" := by
  have hlisted : ∀ e ∈ withShared.loadedPathIndex.items, "p1".toList ∈ e.2 → e.1 = "a.py".toList := by decide +kernel
  refine ⟨fun vf p hp hpath => ?_, fun vf p hp hpath f => ?_, fun id hid vf hvf => ?_⟩
  · obtain ⟨rfl, rfl⟩ := points_withShared hp hpath
    decide +kernel
  · obtain ⟨rfl, rfl⟩ := points_withShared hp hpath
    constructor
    · intro hid
      obtain ⟨ids, hids, hid⟩ := PathIndex.exists_mem_items hid
      exact hlisted _ hids hid
    · rintro rfl
      decide +kernel
  · obtain rfl : id = "p1".toList := mem_singleton.1 hid
    obtain rfl : chunkFile "p1" = vf := Option.some.inj hvf
    exact ⟨chunkPoint "p1" none, by decide +kernel, rfl, rfl⟩

def twoChunks (hiddenBranches : Option (List Str)) : Collection ℚ (Fields ℕ) :=
  (upsertPoints onesLayout Collection.new
    [chunkPoint "p1" hiddenBranches, chunkPoint "p2" hiddenBranches]).1

theorem not_onlyVisibility_of_lost {c c' : Collection ℚ (Fields ℕ)}
    (vf : FileKey) (hsome : (c.files.get? vf).isSome = true) (hnone : c'.files.get? vf = none) :
    ¬ OnlyVisibility filePath branch hidden c c' := by
  intro h
  obtain ⟨p, hp⟩ := Option.isSome_iff_exists.1 hsome
  obtain ⟨p', hp', -⟩ := h.forth hp
  cases hnone.symm.trans hp'

end CodeIndexer.Indexing
