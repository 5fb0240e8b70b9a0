import CodeIndexer.Lib.Dict
import CodeIndexer.Lib.Transition
import CodeIndexer.Storage.Quantizer

/-!
# A collection of the filesystem vector store

The vector files of a collection, the id index that names a file for every point id, the path index that
lists the point ids of every source file, and the change sets of an indexing session. `upsert_points`
first drops the ids its files no longer have (orphans): under the path index's lock it takes them out of
the path index and notes those that no other file owns, then it unlinks their vector files, then it
evicts them from the id index. After that it writes its points one by one. `delete_points` reads the
source file to clean the path index for from the vector file it deletes.

Vector files are written atomically, so a vector file on disk can be read. The id index is in memory; the
path index may still be on disk, where `end_indexing` saved it. The git fields of a vector file, the file
path cache, progress reports and the temporal metadata database are left out.
-/

namespace CodeIndexer.Storage

open PyText PurePath List Dict

variable {V B : Type}

/-- A point, as it is upserted and as its vector file has it. `path` is empty if the payload has none;
`body` is the rest of the payload and the chunk text. -/
structure Point (V B : Type) where
  id : Str
  vector : V
  path : Str
  body : B
deriving DecidableEq

abbrev FileKey := List Str

/-! ### Path index -/

abbrev PathIndex := Dict Str (List Str)

namespace PathIndex

def addPoint (ix : PathIndex) (filePath pointId : Str) : PathIndex :=
  ix.set filePath (((ix.get? filePath).getD []).insert pointId)

def removePoint (ix : PathIndex) (filePath pointId : Str) : PathIndex :=
  match ix.get? filePath with
  | none => ix
  | some ids =>
    let ids := ids.filter (· ≠ pointId)
    if ids = [] then ix.erase filePath else ix.set filePath ids

def getPointIds (ix : PathIndex) (filePath : Str) : List Str := (ix.get? filePath).getD []

def hasOtherOwner (ix : PathIndex) (pointId : Str) : Bool := ix.items.any fun e => pointId ∈ e.2

variable {ix : PathIndex} {f g x y : Str}

theorem mem_addPoint : x ∈ (ix.addPoint f y).getPointIds g ↔ x ∈ ix.getPointIds g ∨ g = f ∧ x = y := by
  rw [getPointIds, addPoint, get?_set]
  by_cases hg : g = f
  · subst hg
    rw [if_pos rfl, Option.getD_some, mem_insert_iff, getPointIds]
    tauto
  · rw [if_neg hg, ← getPointIds]
    tauto

theorem mem_removePoint : x ∈ (ix.removePoint f y).getPointIds g ↔ x ∈ ix.getPointIds g ∧ ¬ (g = f ∧ x = y) := by
  unfold removePoint
  split
  · rename_i hnone
    refine ⟨fun h => ⟨h, ?_⟩, And.left⟩
    rintro ⟨rfl, -⟩
    rw [getPointIds, hnone] at h
    cases h
  · rename_i ids hids
    by_cases hg : g = f
    · subst hg
      -- Whether the emptied entry is dropped or not, what is left of it is the filtered list.
      have hleft : getPointIds (if ids.filter (· ≠ y) = [] then Dict.erase ix g
          else Dict.set ix g (ids.filter (· ≠ y))) g = ids.filter (· ≠ y) := by
        split
        · rename_i hnil
          rw [getPointIds, get?_erase, if_pos rfl, hnil]
          rfl
        · rw [getPointIds, get?_set_self]
          rfl
      rw [hleft, getPointIds, hids, Option.getD_some]
      simp
    · have hother : getPointIds (if ids.filter (· ≠ y) = [] then Dict.erase ix f
          else Dict.set ix f (ids.filter (· ≠ y))) g = ix.getPointIds g := by
        split
        · rw [getPointIds, get?_erase_of_ne _ hg, getPointIds]
        · rw [getPointIds, get?_set_of_ne _ _ hg, getPointIds]
      rw [hother]
      simp [hg]

theorem hasOtherOwner_iff : ix.hasOtherOwner x = true ↔ ∃ f, x ∈ ix.getPointIds f := by
  rw [hasOtherOwner, any_eq_true]
  constructor
  · rintro ⟨⟨f, ids⟩, he, hx⟩
    refine ⟨f, ?_⟩
    rw [getPointIds, mem_items_iff.1 he]
    exact of_decide_eq_true hx
  · rintro ⟨f, hx⟩
    rw [getPointIds] at hx
    cases hids : Dict.get? ix f with
    | none => rw [hids] at hx; cases hx
    | some ids =>
      rw [hids] at hx
      exact ⟨(f, ids), mem_items_iff.2 hids, decide_eq_true hx⟩

end PathIndex

/-! ### Where a point's vector file goes -/

/-- `project` is the product with the projection matrix, or nothing for a vector that is refused (values
that are not numbers, or not as many as the collection's). `hashPrefix` is the prefix a temporal collection
names its files by. -/
structure Layout (V : Type) where
  project : V → Option (List ℚ)
  minVal : ℚ
  maxVal : ℚ
  hashPrefix : Option (Str → Str)

variable (idIndex : Dict Str FileKey) (L : Layout V)

def Layout.fileName (pointId : Str) : Str :=
  "vector_" ++ (match L.hashPrefix with
    | some hash => hash pointId
    | none => pointId.map fun c => if c = '/' then '_' else c) ++ ".json"

/-- The vector file of a point; none if the loop raises. -/
def Layout.vectorFile (p : Point V B) : Option FileKey :=
  (L.project p.vector).bind fun reduced =>
    (directory L.minVal L.maxVal reduced).map fun dir => dir ++ [L.fileName p.id]

/-! ### The collection -/

structure Changes where
  added : List Str
  updated : List Str
  deleted : List Str
deriving DecidableEq

def Changes.empty : Changes := ⟨[], [], []⟩

def Changes.noteDeleted (ch : Changes) (id : Str) : Changes := { ch with deleted := ch.deleted.insert id }

def Changes.noteWritten (ch : Changes) (existed : Bool) (id : Str) : Changes :=
  if existed then { ch with updated := ch.updated.insert id } else { ch with added := ch.added.insert id }

/-- `todo` are the points that a running `upsert_points` has not written yet. -/
structure Collection (V B : Type) where
  files : Dict FileKey (Point V B)
  idIndex : Dict Str FileKey
  pathIndex : Option PathIndex
  savedPathIndex : PathIndex
  session : Option Changes
  todo : List (Point V B)

/-- An id that is to be deleted: the file that dropped it, and its vector file. -/
structure Orphan where
  filePath : Str
  id : Str
  vectorFile : FileKey
deriving DecidableEq

def pointsByFile (points : List (Point V B)) : Dict Str (List Str) :=
  points.foldl (fun groups p =>
    if p.path = [] then groups else groups.set p.path ((groups.get? p.path).getD [] ++ [p.id])) .empty

def gatherOrphans (acc : PathIndex × List Orphan) (group : Str × List Str) : PathIndex × List Orphan :=
  let orphanIds := (acc.1.getPointIds group.1).filter (· ∉ group.2)
  let ix := orphanIds.foldl (fun ix id => ix.removePoint group.1 id) acc.1
  (ix, acc.2 ++ orphanIds.filterMap fun id =>
    if ix.hasOtherOwner id then none else (idIndex.get? id).map fun vectorFile => ⟨group.1, id, vectorFile⟩)

namespace Collection

variable (c : Collection V B) (p : Point V B)

def loadedPathIndex : PathIndex := c.pathIndex.getD c.savedPathIndex

def step1 (points : List (Point V B)) : PathIndex × List Orphan :=
  (pointsByFile points).items.foldl (gatherOrphans c.idIndex) (c.loadedPathIndex, [])

def unlink (o : Orphan) : Collection V B := { c with files := c.files.erase o.vectorFile }

def evict (o : Orphan) : Collection V B :=
  if c.idIndex.get? o.id = some o.vectorFile then
    { c with idIndex := c.idIndex.erase o.id, session := c.session.map (·.noteDeleted o.id) }
  else c

def dropOrphans (points : List (Point V B)) : Collection V B :=
  let (ix, orphans) := c.step1 points
  let c := { c with pathIndex := some ix }
  let c := orphans.foldl unlink c
  orphans.foldl evict c

def writeFile (vectorFile : FileKey) : Collection V B :=
  { c with files := c.files.set vectorFile p }

def registerId (vectorFile : FileKey) : Collection V B :=
  { c with
    idIndex := c.idIndex.set p.id vectorFile
    session := c.session.map (·.noteWritten (c.idIndex.get? p.id).isSome p.id) }

def registerPath : Collection V B :=
  if p.path = [] then c else { c with pathIndex := c.pathIndex.map (·.addPoint p.path p.id) }

def writePoint (vectorFile : FileKey) : Collection V B :=
  ((c.writeFile p vectorFile).registerId p vectorFile).registerPath p

/-- The loop of `delete_points` for one id; `removals` are the path index entries to remove. -/
def deletePoint (acc : Collection V B × List (Str × Str)) (id : Str) : Collection V B × List (Str × Str) :=
  let (c, removals) := acc
  match c.idIndex.get? id with
  | none => (c, removals)
  | some vectorFile =>
    let filePath := ((c.files.get? vectorFile).map Point.path).getD []
    ({ c with
        files := c.files.erase vectorFile
        idIndex := c.idIndex.erase id
        session := c.session.map (·.noteDeleted id) },
      if filePath = [] then removals else removals ++ [(filePath, id)])

/-- `delete_points`. The path index is cleaned only if it is in memory. -/
def deletePoints (ids : List Str) : Collection V B :=
  let (c, removals) := ids.foldl deletePoint (c, [])
  { c with pathIndex := c.pathIndex.map fun ix => removals.foldl (fun ix r => ix.removePoint r.1 r.2) ix }

def beginIndexing : Collection V B :=
  { c with session := some .empty, pathIndex := some c.loadedPathIndex }

def new : Collection V B := ⟨.empty, .empty, none, .empty, none, []⟩

end Collection

inductive Act (V B : Type)
  | upsert (points : List (Point V B))
  | write
  | delete (ids : List Str)

def Collection.step (c : Collection V B) : Act V B → Option (Collection V B)
  | .upsert points => if c.todo.isEmpty then some { c.dropOrphans points with todo := points } else none
  | .write =>
    match c.todo with
    | [] => none
    | p :: todo =>
      match L.vectorFile p with
      | none => some { c with todo := [] }
      | some vectorFile => some { c.writePoint p vectorFile with todo := todo }
  | .delete ids => if c.todo.isEmpty then some (c.deletePoints ids) else none

/-- Calls on a collection, one after the other, from a state that meets `start`. -/
def collection (start : Collection V B → Prop) :
    TransitionSystem (Collection V B) (Act V B) where
  init := start
  step := Collection.step L

/-! ### What the parts of a call do -/

theorem Changes.mem_noteDeleted {ch : Changes} {id x : Str} :
    id ∈ (ch.noteDeleted x).deleted ↔ id = x ∨ id ∈ ch.deleted := mem_insert_iff

/-- The ids of `ids` that were indexed are noted as deleted. -/
def Changes.Removes (ids : List Str) : Option Changes → Option Changes → Prop
  | none, session => session = none
  | some ch, session => ∃ ch', session = some ch' ∧ ch'.added = ch.added ∧ ch'.updated = ch.updated ∧
      ∀ id, id ∈ ch'.deleted ↔ id ∈ ch.deleted ∨ id ∈ ids ∧ (idIndex.get? id).isSome = true

namespace Changes.Removes

variable {idIndex : Dict Str FileKey} {id : Str} {ids : List Str} {session session' : Option Changes}

theorem nil (session : Option Changes) : Changes.Removes idIndex [] session session := by
  cases session with
  | none => rfl
  | some ch => exact ⟨ch, rfl, rfl, rfl, fun id => by simp⟩

theorem cons_hit (hhit : (idIndex.get? id).isSome = true)
    (h : Changes.Removes (idIndex.erase id) ids (session.map (·.noteDeleted id)) session') :
    Changes.Removes idIndex (id :: ids) session session' := by
  cases session with
  | none => exact h
  | some ch =>
    obtain ⟨ch', rfl, hadd, hupd, hdel⟩ := h
    refine ⟨ch', rfl, hadd, hupd, fun x => ?_⟩
    rw [hdel, Changes.mem_noteDeleted, get?_erase, mem_cons]
    by_cases hx : x = id
    · simp [hx, hhit]
    · simp [hx]

theorem cons_miss (hmiss : idIndex.get? id = none) (h : Changes.Removes idIndex ids session session') :
    Changes.Removes idIndex (id :: ids) session session' := by
  cases session with
  | none => exact h
  | some ch =>
    obtain ⟨ch', rfl, hadd, hupd, hdel⟩ := h
    refine ⟨ch', rfl, hadd, hupd, fun x => ?_⟩
    rw [hdel, mem_cons]
    by_cases hx : x = id
    · simp [hx, hmiss]
    · simp [hx]

end Changes.Removes

/-- The ids of `ids` are gone from the id index, and their vector files from the disk. -/
structure Removes (c c' : Collection V B) (ids : List Str) : Prop where
  files : ∀ vf p, c'.files.get? vf = some p ↔
    c.files.get? vf = some p ∧ ∀ id ∈ ids, c.idIndex.get? id ≠ some vf
  idIndex : ∀ id vf, c'.idIndex.get? id = some vf ↔ c.idIndex.get? id = some vf ∧ id ∉ ids
  session : Changes.Removes c.idIndex ids c.session c'.session

namespace Collection

theorem foldl_unlink (orphans : List Orphan) (c : Collection V B) :
    ∃ files, orphans.foldl unlink c = { c with files := files } ∧ ∀ vf p,
      files.get? vf = some p ↔ c.files.get? vf = some p ∧ ∀ o ∈ orphans, o.vectorFile ≠ vf := by
  induction orphans generalizing c with
  | nil => exact ⟨c.files, rfl, fun vf p => by simp⟩
  | cons o orphans ih =>
    obtain ⟨files, heq, hfiles⟩ := ih (c.unlink o)
    refine ⟨files, heq, fun vf p => ?_⟩
    rw [hfiles, unlink, get?_erase_eq_some, forall_mem_cons]
    constructor
    · rintro ⟨⟨hne, hp⟩, hrest⟩
      exact ⟨hp, hne.symm, hrest⟩
    · rintro ⟨hp, hne, hrest⟩
      exact ⟨⟨hne.symm, hp⟩, hrest⟩

theorem foldl_evict (orphans : List Orphan) (c : Collection V B)
    (h : ∀ o ∈ orphans, ∀ vf, c.idIndex.get? o.id = some vf → vf = o.vectorFile) :
    ∃ idIndex session, orphans.foldl evict c = { c with idIndex := idIndex, session := session } ∧
      (∀ id vf, idIndex.get? id = some vf ↔ c.idIndex.get? id = some vf ∧ id ∉ orphans.map Orphan.id) ∧
      Changes.Removes c.idIndex (orphans.map Orphan.id) c.session session := by
  induction orphans generalizing c with
  | nil => exact ⟨c.idIndex, c.session, rfl, fun id vf => by simp, .nil _⟩
  | cons o orphans ih =>
    by_cases hhit : c.idIndex.get? o.id = some o.vectorFile
    · have hevict : c.evict o =
          { c with idIndex := c.idIndex.erase o.id, session := c.session.map (·.noteDeleted o.id) } :=
        if_pos hhit
      obtain ⟨idIndex, session, heq, hidx, hsess⟩ := ih (c.evict o) fun o' ho' vf hvf => by
        rw [hevict, get?_erase_eq_some] at hvf
        exact h o' (mem_cons_of_mem _ ho') vf hvf.2
      rw [hevict] at hidx hsess
      refine ⟨idIndex, session, by rw [foldl_cons, heq, hevict], fun id vf => ?_,
        .cons_hit (by rw [hhit]; rfl) hsess⟩
      rw [hidx, get?_erase_eq_some, map_cons, mem_cons]
      tauto
    · have hevict : c.evict o = c := if_neg hhit
      have hnone : c.idIndex.get? o.id = none := by
        cases hget : c.idIndex.get? o.id with
        | none => rfl
        | some vf => exact absurd (h o mem_cons_self vf hget ▸ hget) hhit
      obtain ⟨idIndex, session, heq, hidx, hsess⟩ := ih c fun o' ho' => h o' (mem_cons_of_mem _ ho')
      refine ⟨idIndex, session, by rw [foldl_cons, hevict, heq], fun id vf => ?_, .cons_miss hnone hsess⟩
      rw [hidx, map_cons, mem_cons]
      by_cases hid : id = o.id
      · simp [hid, hnone]
      · simp [hid]

end Collection

/-! #### Orphans -/

theorem PathIndex.mem_foldl_removePoint {f x g : Str} (ids : List Str) {ix : PathIndex} :
    x ∈ (ids.foldl (fun ix id => ix.removePoint f id) ix).getPointIds g ↔
      x ∈ ix.getPointIds g ∧ ¬ (g = f ∧ x ∈ ids) := by
  induction ids generalizing ix with
  | nil => simp
  | cons id ids ih =>
    rw [foldl_cons, ih, mem_removePoint, mem_cons]
    tauto

theorem gatherOrphans_spec (ix : PathIndex) (orphans : List Orphan)
    (group : Str × List Str) :
    (∀ x g, x ∈ (gatherOrphans idIndex (ix, orphans) group).1.getPointIds g ↔
      x ∈ ix.getPointIds g ∧ (g = group.1 → x ∈ group.2)) ∧
    ∀ o ∈ (gatherOrphans idIndex (ix, orphans) group).2, o ∈ orphans ∨
      idIndex.get? o.id = some o.vectorFile ∧
      ∀ g, o.id ∉ (gatherOrphans idIndex (ix, orphans) group).1.getPointIds g := by
  obtain ⟨f, new⟩ := group
  constructor
  · intro x g
    rw [gatherOrphans, PathIndex.mem_foldl_removePoint]
    by_cases hg : g = f
    · subst hg
      simp only [mem_filter, decide_eq_true_eq, true_and, forall_const, not_and, not_not]
      tauto
    · simp [hg]
  · intro o ho
    rcases mem_append.1 ho with ho | ho
    · exact .inl ho
    · refine .inr ?_
      obtain ⟨id, -, hid⟩ := mem_filterMap.1 ho
      split at hid
      · cases hid
      · rename_i hown
        obtain ⟨vf, hvf, rfl⟩ := Option.map_eq_some_iff.1 hid
        exact ⟨hvf, fun g hg => hown (PathIndex.hasOtherOwner_iff.2 ⟨g, hg⟩)⟩

theorem foldl_gatherOrphans_spec (groups : List (Str × List Str)) :
    ∀ (ix : PathIndex) (orphans : List Orphan),
      (∀ o ∈ orphans, idIndex.get? o.id = some o.vectorFile ∧ ∀ g, o.id ∉ ix.getPointIds g) →
      (∀ x g, x ∈ (groups.foldl (gatherOrphans idIndex) (ix, orphans)).1.getPointIds g ↔
        x ∈ ix.getPointIds g ∧ ∀ group ∈ groups, g = group.1 → x ∈ group.2) ∧
      ∀ o ∈ (groups.foldl (gatherOrphans idIndex) (ix, orphans)).2,
        idIndex.get? o.id = some o.vectorFile ∧
        ∀ g, o.id ∉ (groups.foldl (gatherOrphans idIndex) (ix, orphans)).1.getPointIds g := by
  induction groups with
  | nil => exact fun ix orphans h => ⟨fun x g => by simp, h⟩
  | cons group groups ih =>
    intro ix orphans h
    obtain ⟨hix, horphans⟩ := gatherOrphans_spec idIndex ix orphans group
    rw [foldl_cons]
    obtain ⟨hix', horphans'⟩ := ih (gatherOrphans idIndex (ix, orphans) group).1
      (gatherOrphans idIndex (ix, orphans) group).2 fun o ho => by
        rcases horphans o ho with hold | hnew
        · obtain ⟨hidx, hown⟩ := h o hold
          exact ⟨hidx, fun g hg => hown g ((hix o.id g).1 hg).1⟩
        · exact hnew
    refine ⟨fun x g => ?_, horphans'⟩
    rw [hix', hix, forall_mem_cons]
    tauto

namespace Collection

variable (c : Collection V B) (p : Point V B) (vf : FileKey)

theorem step1_spec (points : List (Point V B)) :
    (∀ x g, x ∈ (c.step1 points).1.getPointIds g ↔ x ∈ c.loadedPathIndex.getPointIds g ∧
      ∀ ids, (pointsByFile points).get? g = some ids → x ∈ ids) ∧
    ∀ o ∈ (c.step1 points).2, c.idIndex.get? o.id = some o.vectorFile ∧
      ∀ g, o.id ∉ (c.step1 points).1.getPointIds g := by
  obtain ⟨hix, horphans⟩ := foldl_gatherOrphans_spec c.idIndex (pointsByFile points).items c.loadedPathIndex []
    nofun
  refine ⟨fun x g => (hix x g).trans (and_congr_right fun _ => ?_), horphans⟩
  constructor
  · intro h ids hids
    exact h (g, ids) (mem_items_iff.2 hids) rfl
  · rintro h ⟨g', ids⟩ hmem rfl
    exact h ids (mem_items_iff.1 hmem)

def orphanIds (c : Collection V B) (points : List (Point V B)) : List Str := (c.step1 points).2.map Orphan.id

theorem dropOrphans_spec (points : List (Point V B)) :
    Removes c (c.dropOrphans points) (c.orphanIds points) ∧
      (c.dropOrphans points).pathIndex = some (c.step1 points).1 ∧
      (c.dropOrphans points).savedPathIndex = c.savedPathIndex := by
  have hnoted := (c.step1_spec points).2
  obtain ⟨files, hunlink, hfiles⟩ := foldl_unlink (c.step1 points).2 { c with pathIndex := some (c.step1 points).1 }
  obtain ⟨idIndex, session, hevict, hidx, hsess⟩ := foldl_evict (c.step1 points).2
    { c with pathIndex := some (c.step1 points).1, files := files } fun o ho vf hvf =>
      Option.some.inj (hvf.symm.trans (hnoted o ho).1)
  have heq : c.dropOrphans points = { c with
      pathIndex := some (c.step1 points).1, files := files, idIndex := idIndex, session := session } := by
    simp only [dropOrphans, hunlink]
    exact hevict
  rw [heq]
  refine ⟨⟨fun vf p => ?_, hidx, hsess⟩, rfl, rfl⟩
  rw [hfiles]
  refine and_congr_right fun _ => ?_
  constructor
  · intro h id hid hvf
    obtain ⟨o, ho, rfl⟩ := mem_map.1 hid
    exact h o ho (Option.mem_unique (hnoted o ho).1 hvf)
  · intro h o ho hvf
    exact h o.id (mem_map_of_mem ho) (hvf ▸ (hnoted o ho).1)

/-! #### Deletions -/

theorem deletePoint_eq (removals : List (Str × Str)) {id : Str} {vf : FileKey}
    (hvf : c.idIndex.get? id = some vf) :
    deletePoint (c, removals) id =
      ({ c with
          files := c.files.erase vf
          idIndex := c.idIndex.erase id
          session := c.session.map (·.noteDeleted id) },
        if ((c.files.get? vf).map Point.path).getD [] = [] then removals
        else removals ++ [(((c.files.get? vf).map Point.path).getD [], id)]) := by
  simp only [deletePoint, hvf]

theorem foldl_deletePoint (ids : List Str) (c : Collection V B) (removals : List (Str × Str)) :
    ∃ files idIndex session, (ids.foldl deletePoint (c, removals)).1 =
        { c with files := files, idIndex := idIndex, session := session } ∧
      Removes c { c with files := files, idIndex := idIndex, session := session } ids := by
  induction ids generalizing c removals with
  | nil => exact ⟨c.files, c.idIndex, c.session, rfl, fun vf p => by simp, fun id vf => by simp, .nil _⟩
  | cons id ids ih =>
    rw [foldl_cons]
    cases hvf : c.idIndex.get? id with
    | none =>
      obtain ⟨files, idIndex, session, heq, hrem⟩ := ih c removals
      refine ⟨files, idIndex, session, by simpa only [deletePoint, hvf] using heq, fun vf p => ?_,
        fun id' vf => ?_, .cons_miss hvf hrem.session⟩
      · rw [hrem.files, forall_mem_cons]
        simp [hvf]
      · rw [hrem.idIndex, mem_cons]
        by_cases hid : id' = id
        · simp [hid, hvf]
        · simp [hid]
    | some vf =>
      rw [deletePoint_eq c removals hvf]
      obtain ⟨files, idIndex, session, heq, hrem⟩ := ih _ _
      refine ⟨files, idIndex, session, heq, fun vf' p => ?_, fun id' vf' => ?_,
        .cons_hit (by rw [hvf]; rfl) hrem.session⟩
      · rw [hrem.files, get?_erase_eq_some, forall_mem_cons, hvf]
        simp only [get?_erase]
        constructor
        · rintro ⟨⟨hne, hp⟩, hrest⟩
          refine ⟨hp, fun h => hne (Option.some.inj h).symm, fun id' hid' hvf' => hrest id' hid' ?_⟩
          rw [if_neg ?_]
          · exact hvf'
          · rintro rfl
            exact hne (Option.mem_unique hvf' hvf)
        · rintro ⟨hp, hne, hrest⟩
          refine ⟨⟨fun h => hne (h ▸ rfl), hp⟩, fun id' hid' hvf' => ?_⟩
          split at hvf'
          · cases hvf'
          · exact hrest id' hid' hvf'
      · rw [hrem.idIndex, get?_erase_eq_some, mem_cons]
        tauto

theorem deletePoints_spec (ids : List Str) :
    Removes c (c.deletePoints ids) ids ∧ (c.deletePoints ids).savedPathIndex = c.savedPathIndex ∧
      (c.deletePoints ids).todo = c.todo ∧
      (c.deletePoints ids).pathIndex = c.pathIndex.map fun ix =>
        (ids.foldl deletePoint (c, [])).2.foldl (fun ix r => ix.removePoint r.1 r.2) ix := by
  obtain ⟨files, idIndex, session, heq, hrem⟩ := foldl_deletePoint ids c []
  have hdel : c.deletePoints ids = { c with
      files := files, idIndex := idIndex, session := session
      pathIndex := c.pathIndex.map fun ix =>
        (ids.foldl deletePoint (c, [])).2.foldl (fun ix r => ix.removePoint r.1 r.2) ix } := by
    simp only [deletePoints, heq]
  rw [hdel]
  exact ⟨⟨hrem.files, hrem.idIndex, hrem.session⟩, rfl, rfl, rfl⟩

/-! #### Writes -/

theorem writePoint_files : (c.writePoint p vf).files = c.files.set vf p := by
  unfold writePoint registerPath
  split <;> rfl

theorem writePoint_idIndex : (c.writePoint p vf).idIndex = c.idIndex.set p.id vf := by
  unfold writePoint registerPath
  split <;> rfl

theorem writePoint_session :
    (c.writePoint p vf).session = c.session.map (·.noteWritten (c.idIndex.get? p.id).isSome p.id) := by
  unfold writePoint registerPath
  split <;> rfl

theorem mem_loadedPathIndex_registerPath {f x : Str} :
    x ∈ (c.registerPath p).loadedPathIndex.getPointIds f ↔ x ∈ c.loadedPathIndex.getPointIds f ∨
      c.pathIndex.isSome = true ∧ p.path ≠ [] ∧ f = p.path ∧ x = p.id := by
  unfold registerPath
  by_cases hpath : p.path = []
  · simp [hpath]
  · rw [if_neg hpath, loadedPathIndex, loadedPathIndex]
    cases c.pathIndex with
    | none => simp
    | some ix =>
      rw [Option.map_some, Option.getD_some, Option.getD_some, PathIndex.mem_addPoint]
      simp [hpath]

theorem writePoint_pathIndex :
    (c.writePoint p vf).pathIndex =
      if p.path = [] then c.pathIndex else c.pathIndex.map (·.addPoint p.path p.id) := by
  unfold writePoint registerPath
  split <;> rfl

end Collection

/-- What a step can do: drop ids, write the next point, refuse it, or delete ids. -/
theorem Collection.step_cases {L : Layout V} {c c' : Collection V B} {a : Act V B} (h : c.step L a = some c') :
    (∃ points, a = .upsert points ∧ c.todo = [] ∧ c' = { c.dropOrphans points with todo := points }) ∨
    (∃ p todo, a = .write ∧ c.todo = p :: todo ∧
      (L.vectorFile p = none ∧ c' = { c with todo := [] } ∨
        ∃ vf, L.vectorFile p = some vf ∧ c' = { c.writePoint p vf with todo := todo })) ∨
    ∃ ids, a = .delete ids ∧ c.todo = [] ∧ c' = c.deletePoints ids := by
  cases a <;> simp only [step] at h
  case upsert points =>
    split at h
    · rename_i htodo
      exact .inl ⟨points, rfl, isEmpty_iff.1 htodo, (Option.some.inj h).symm⟩
    · cases h
  case write =>
    split at h
    · cases h
    · rename_i p todo htodo
      refine .inr (.inl ⟨p, todo, rfl, htodo, ?_⟩)
      split at h
      · rename_i hvf
        exact .inl ⟨hvf, (Option.some.inj h).symm⟩
      · rename_i vf hvf
        exact .inr ⟨vf, hvf, (Option.some.inj h).symm⟩
  case delete ids =>
    split at h
    · rename_i htodo
      exact .inr (.inr ⟨ids, rfl, isEmpty_iff.1 htodo, (Option.some.inj h).symm⟩)
    · cases h

end CodeIndexer.Storage
