import CodeIndexer.Storage.IdIndex
import CodeIndexer.Storage.VectorStore

/-!
# One vector file for a point id

The directory of a vector file comes from the vector and its name from the id, so an id whose vector
changes can get a second file, and two ids can share one (`a/b` and `a_b`). `Placed` rules both out. Then
the id index and the vector files name each other, and a rebuild of the id index finds it again, but
for ids whose file `rebuild_from_vectors` passes over.
-/

namespace CodeIndexer.Storage

open PyText PurePath IdIndex List Dict

variable {V B : Type}

/-- Every id of the id index has one vector file, the one its entry names; every vector file has an id of
the id index; no two ids name one file. -/
structure OneFile (c : Collection V B) : Prop where
  one : ∀ id vf, c.idIndex.get? id = some vf →
    ∀ vf', (∃ p, c.files.get? vf' = some p ∧ p.id = id) ↔ vf' = vf
  indexed : ∀ vf p, c.files.get? vf = some p → (c.idIndex.get? p.id).isSome = true
  distinct : ∀ id id' vf, c.idIndex.get? id = some vf → c.idIndex.get? id' = some vf → id = id'

namespace OneFile

variable {c c' : Collection V B}

variable {vf : FileKey} {p : Point V B}

theorem named (h : OneFile c) {id : Str} (hid : c.idIndex.get? id = some vf) :
    ∃ p, c.files.get? vf = some p ∧ p.id = id := (h.one id vf hid vf).2 rfl

theorem owned (h : OneFile c) (hp : c.files.get? vf = some p) : c.idIndex.get? p.id = some vf := by
  obtain ⟨vf', hvf'⟩ := Option.isSome_iff_exists.1 (h.indexed vf p hp)
  rw [hvf', (h.one p.id vf' hvf' vf).1 ⟨p, hp, rfl⟩]

theorem intro (hnamed : ∀ id vf, c.idIndex.get? id = some vf → ∃ p, c.files.get? vf = some p ∧ p.id = id)
    (howned : ∀ vf p, c.files.get? vf = some p → c.idIndex.get? p.id = some vf) : OneFile c where
  one id vf hid vf' := by
    constructor
    · rintro ⟨p, hp, rfl⟩
      exact Option.mem_unique (howned vf' p hp) hid
    · rintro rfl
      exact hnamed id vf' hid
  indexed vf p hp := by
    rw [howned vf p hp]
    rfl
  distinct id id' vf hid hid' := by
    obtain ⟨p, hp, rfl⟩ := hnamed id vf hid
    obtain ⟨p', hp', rfl⟩ := hnamed id' vf hid'
    rw [Option.mem_unique hp hp']

theorem removes (h : OneFile c) {ids : List Str} (hrem : Removes c c' ids) : OneFile c' := by
  refine .intro (fun id vf hid => ?_) (fun vf p hp => ?_)
  · obtain ⟨hid, hmem⟩ := (hrem.idIndex id vf).1 hid
    obtain ⟨p, hp, rfl⟩ := h.named hid
    refine ⟨p, (hrem.files vf p).2 ⟨hp, fun id' hid' hvf => ?_⟩, rfl⟩
    exact hmem (h.distinct _ _ vf hid hvf ▸ hid')
  · obtain ⟨hp, hkept⟩ := (hrem.files vf p).1 hp
    exact (hrem.idIndex p.id vf).2 ⟨h.owned hp, fun hmem => hkept p.id hmem (h.owned hp)⟩

theorem writes (h : OneFile c)
    (hplaced : ∀ id vf', c.idIndex.get? id = some vf' → (id = p.id ↔ vf' = vf))
    (hfiles : c'.files = c.files.set vf p) (hidx : c'.idIndex = c.idIndex.set p.id vf) : OneFile c' := by
  refine .intro (fun id vf' hid => ?_) (fun vf' q hq => ?_)
  · rw [hidx, get?_set] at hid
    rw [hfiles]
    split at hid
    · rename_i heq
      cases hid
      exact ⟨p, get?_set_self _ _ _, heq.symm⟩
    · rename_i hne
      obtain ⟨q, hq, rfl⟩ := h.named hid
      exact ⟨q, (get?_set_of_ne _ _ fun hvf => hne ((hplaced _ _ hid).2 hvf)).trans hq, rfl⟩
  · rw [hfiles, get?_set] at hq
    rw [hidx]
    split at hq
    · rename_i heq
      cases hq
      rw [heq, get?_set_self]
    · rename_i hne
      have hid := h.owned hq
      rw [get?_set_of_ne _ _ fun heq => hne ((hplaced _ _ hid).1 heq)]
      exact hid

end OneFile

/-! ### The condition -/

/-- The next point goes to a vector file that an entry of the id index names if and only if it is the
entry of the point's id. -/
def Placed (L : Layout V) (c : Collection V B) : Act V B → Prop
  | .write => ∀ p ∈ c.todo.head?, ∀ vf ∈ L.vectorFile p, ∀ e ∈ c.idIndex.items, e.1 = p.id ↔ e.2 = vf
  | .upsert _ | .delete _ => True

instance (L : Layout V) (c : Collection V B) : (a : Act V B) → Decidable (Placed L c a)
  | .write => inferInstanceAs
      (Decidable (∀ p ∈ c.todo.head?, ∀ vf ∈ L.vectorFile p, ∀ e ∈ c.idIndex.items, e.1 = p.id ↔ e.2 = vf))
  | .upsert _ | .delete _ => .isTrue trivial

/-! ### The tree of vector files -/

/-- The path's names are those of directory entries, and the last one ends in `.json`. -/
structure WellNamed (vf : FileKey) : Prop where
  parts : ∀ seg ∈ vf, IsPart seg ∧ seg ≠ dotdot
  json : ".json" <:+ vf.getLastD []

def Layout.HashOk (L : Layout V) : Prop := ∀ hash ∈ L.hashPrefix, ∀ id, '/' ∉ hash id

variable {L : Layout V} {vf : FileKey}

theorem isPart_fileName (hL : L.HashOk) (id : Str) : IsPart (L.fileName id) ∧ L.fileName id ≠ dotdot := by
  have hv : ∃ rest, L.fileName id = 'v' :: rest := ⟨_, rfl⟩
  have hslash : '/' ∉ L.fileName id := by
    unfold Layout.fileName
    rw [mem_append, mem_append]
    rintro ((h | h) | h)
    · exact absurd h (by decide)
    · split at h
      · rename_i hash hhash
        exact hL hash hhash id h
      · obtain ⟨c, -, hc⟩ := mem_map.1 h
        split at hc
        · exact absurd hc (by decide)
        · rename_i hne
          exact hne hc
    · exact absurd h (by decide)
  obtain ⟨rest, hrest⟩ := hv
  refine ⟨⟨?_, ?_, hslash⟩, ?_⟩
  all_goals
    rw [hrest]
    simp [dotdot]

theorem wellNamed_vectorFile (hL : L.HashOk) {p : Point V B} (h : L.vectorFile p = some vf) : WellNamed vf := by
  obtain ⟨reduced, -, h⟩ := Option.bind_eq_some_iff.1 h
  obtain ⟨dir, hdir, rfl⟩ := Option.map_eq_some_iff.1 h
  refine ⟨fun seg hseg => ?_, by rw [getLastD_concat]; exact suffix_append _ _⟩
  rcases mem_append.1 hseg with hseg | hseg
  · exact isPart_of_mem_directory hdir seg hseg
  · rw [mem_singleton.1 hseg]
    exact isPart_fileName hL p.id

def vectorFileAt (vf : FileKey) (h : WellNamed vf) (id : Str) : VectorFile where
  relPath := ⟨.relative, vf, fun seg hseg => (h.parts seg hseg).1⟩
  doc := .object (some (.text id))
  relative := rfl
  inside := fun hdots => (h.parts _ hdots).2 rfl

def Collection.tree (c : Collection V B) (h : ∀ e ∈ c.files.items, WellNamed e.1) : List VectorFile :=
  c.files.items.attach.map fun e => vectorFileAt e.1.1 (h e.1 e.2) e.1.2.id

def scannedId (file : VectorFile) : Option Str :=
  if isSkipped file.relPath.name then none
  else match file.doc with
    | .object (some (.text id)) => if id = [] then none else some id
    | _ => none

theorem scanFile_eq {collectionPath : Path} {d : Dict Str Path} {file : VectorFile} {id : Str}
    (hdoc : file.doc = .object (some (.text id))) :
    scanFile collectionPath d file = some (match scannedId file with
      | none => d
      | some id => d.set id (collectionPath.join file.relPath)) := by
  unfold scanFile scannedId
  rw [hdoc]
  by_cases hskip : isSkipped file.relPath.name = true
  · simp [hskip]
  · by_cases hid : id = [] <;> simp [hskip, hid]

theorem foldlM_scanFile (collectionPath : Path) (tree : List VectorFile)
    (hdoc : ∀ file ∈ tree, ∃ id, file.doc = .object (some (.text id))) (d : Dict Str Path) :
    ∃ m, tree.foldlM (scanFile collectionPath) d = some m ∧ ∀ id, m.get? id =
      ((tree.filter (scannedId · = some id)).getLast?.map fun file => collectionPath.join file.relPath).or
        (d.get? id) := by
  induction tree generalizing d with
  | nil => exact ⟨d, rfl, fun id => rfl⟩
  | cons file tree ih =>
    obtain ⟨id₀, hid₀⟩ := hdoc file mem_cons_self
    rw [foldlM_cons, scanFile_eq hid₀]
    obtain ⟨m, hm, hget⟩ := ih (fun f hf => hdoc f (mem_cons_of_mem _ hf))
      (match scannedId file with
        | none => d
        | some id => d.set id (collectionPath.join file.relPath))
    refine ⟨m, hm, fun id => ?_⟩
    rw [hget]
    cases hscan : scannedId file with
    | none => rw [filter_cons_of_neg (by simp [hscan])]
    | some id' =>
      dsimp only
      rw [get?_set]
      by_cases hid : id = id'
      · subst hid
        rw [filter_cons_of_pos (by simp [hscan]), if_pos rfl, List.getLast?_cons]
        cases (tree.filter (scannedId · = some id)).getLast? <;> rfl
      · rw [filter_cons_of_neg (by simp [hscan, Ne.symm hid]), if_neg hid]

theorem scannedId_eq_some_iff {h : WellNamed vf} {id id' : Str} :
    scannedId (vectorFileAt vf h id) = some id' ↔
      id = id' ∧ id ≠ [] ∧ isSkipped (vf.getLastD []) = false := by
  have hname : (vectorFileAt vf h id).relPath.name = vf.getLastD [] := rfl
  rw [scannedId, hname]
  generalize vf.getLastD [] = name
  by_cases hskip : isSkipped name = true
  · simp [hskip]
  · by_cases hid : id = [] <;> simp [hskip, hid, vectorFileAt]

theorem join_vectorFileAt (collectionPath path : Path) (h : WellNamed vf) (id : Str) :
    collectionPath.join (vectorFileAt vf h id).relPath = path ↔
      path.root = collectionPath.root ∧ path.parts = collectionPath.parts ++ vf := by
  obtain ⟨root, parts, wf⟩ := path
  simp only [Path.join, vectorFileAt, PurePath.Path.mk.injEq]
  exact and_congr eq_comm eq_comm

namespace Collection

variable {c : Collection V B} {hnames : ∀ e ∈ c.files.items, WellNamed e.1}

theorem mem_tree {file : VectorFile} :
    file ∈ c.tree hnames ↔ ∃ vf p h, c.files.get? vf = some p ∧ file = vectorFileAt vf h p.id := by
  rw [tree, mem_map]
  constructor
  · rintro ⟨⟨⟨vf, p⟩, he⟩, -, rfl⟩
    exact ⟨vf, p, hnames _ he, mem_items_iff.1 he, rfl⟩
  · rintro ⟨vf, p, h, hp, rfl⟩
    exact ⟨⟨(vf, p), mem_items_iff.2 hp⟩, mem_attach _ _, rfl⟩

theorem scan_tree (hone : OneFile c) (collectionPath : Path) {tree : List VectorFile}
    (hperm : tree.Perm (c.tree hnames)) :
    ∃ m, (tree.filter isJson).foldlM (scanFile collectionPath) Dict.empty = some m ∧ ∀ id path,
      m.get? id = some path ↔ ∃ vf, c.idIndex.get? id = some vf ∧ id ≠ [] ∧
        isSkipped (vf.getLastD []) = false ∧
        path.root = collectionPath.root ∧ path.parts = collectionPath.parts ++ vf := by
  have hmem : ∀ file, file ∈ tree ↔ ∃ vf p h, c.files.get? vf = some p ∧ file = vectorFileAt vf h p.id :=
    fun file => hperm.mem_iff.trans mem_tree
  have hjson : tree.filter isJson = tree := by
    refine filter_eq_self.2 fun file hfile => ?_
    obtain ⟨vf, p, h, -, rfl⟩ := (hmem file).1 hfile
    exact decide_eq_true h.json
  have hdoc : ∀ file ∈ tree, ∃ id, file.doc = .object (some (.text id)) := by
    intro file hfile
    obtain ⟨vf, p, h, -, rfl⟩ := (hmem file).1 hfile
    exact ⟨p.id, rfl⟩
  obtain ⟨m, hm, hget⟩ := foldlM_scanFile collectionPath tree hdoc .empty
  refine ⟨m, hjson.symm ▸ hm, fun id path => ?_⟩
  rw [hget, get?_empty, Option.or_none, Option.map_eq_some_iff]
  constructor
  · rintro ⟨file, hlast, hpath⟩
    obtain ⟨hfile, hscan⟩ := mem_filter.1 (mem_of_getLast? hlast)
    obtain ⟨vf, p, h, hp, rfl⟩ := (hmem file).1 hfile
    obtain ⟨rfl, hid, hskip⟩ := scannedId_eq_some_iff.1 (of_decide_eq_true hscan)
    exact ⟨vf, hone.owned hp, hid, hskip, (join_vectorFileAt _ _ h _).1 hpath⟩
  · rintro ⟨vf, hvf, hid, hskip, hpath⟩
    obtain ⟨p, hp, rfl⟩ := hone.named hvf
    have h := hnames (vf, p) (mem_items_iff.2 hp)
    have hin : vectorFileAt vf h p.id ∈ tree.filter (scannedId · = some p.id) :=
      mem_filter.2 ⟨(hmem _).2 ⟨vf, p, h, hp, rfl⟩,
        decide_eq_true (scannedId_eq_some_iff.2 ⟨rfl, hid, hskip⟩)⟩
    -- Every other file that is entered under the id is the same file.
    obtain ⟨file, hlast⟩ : ∃ file, (tree.filter (scannedId · = some p.id)).getLast? = some file :=
      ⟨_, List.getLast?_eq_some_getLast (ne_nil_of_mem hin)⟩
    obtain ⟨hfile, hscan⟩ := mem_filter.1 (mem_of_getLast? hlast)
    obtain ⟨vf', p', h', hp', rfl⟩ := (hmem file).1 hfile
    obtain ⟨heq, -, -⟩ := scannedId_eq_some_iff.1 (of_decide_eq_true hscan)
    obtain rfl : vf' = vf := (hone.one p.id vf hvf vf').1 ⟨p', hp', heq⟩
    exact ⟨_, hlast, (join_vectorFileAt _ _ h' _).2 hpath⟩

end Collection

/-- The mapping is the id index, with the paths below the collection directory. -/
def Recovers (c : Collection V B) (collectionPath : Path) (m : Dict Str Path) : Prop :=
  ∀ id path, m.get? id = some path ↔ ∃ vf, c.idIndex.get? id = some vf ∧
    path.root = collectionPath.root ∧ path.parts = collectionPath.parts ++ vf

/-- Calls start on a collection whose id index and vector files name each other. -/
structure Consistent (c : Collection V B) : Prop where
  todo : c.todo = []
  one : OneFile c
  named : ∀ e ∈ c.files.items, WellNamed e.1

section Reachable

variable {L : Layout V} {c : Collection V B}

variable {a : Act V B} {c' : Collection V B}

theorem oneFile_of_step (h : OneFile c) (hplaced : Placed L c a) (hs : c.step L a = some c') : OneFile c' := by
  obtain ⟨points, rfl, -, rfl⟩ | ⟨p, todo, rfl, htodo, ⟨-, rfl⟩ | ⟨vf, hvf, rfl⟩⟩ | ⟨ids, rfl, -, rfl⟩ :=
    Collection.step_cases hs
  · have hrem := (c.dropOrphans_spec points).1
    exact h.removes ⟨hrem.files, hrem.idIndex, hrem.session⟩
  · exact ⟨h.one, h.indexed, h.distinct⟩
  · have hentries : ∀ id vf', c.idIndex.get? id = some vf' → (id = p.id ↔ vf' = vf) := fun id vf' hid =>
      hplaced p (by rw [htodo]; rfl) vf hvf (id, vf') (mem_items_iff.2 hid)
    exact h.writes hentries (c.writePoint_files p vf) (c.writePoint_idIndex p vf)
  · exact h.removes (c.deletePoints_spec ids).1

theorem wellNamed_of_step (hL : L.HashOk)
    (h : ∀ e ∈ c.files.items, WellNamed e.1) (hs : c.step L a = some c') :
    ∀ e ∈ c'.files.items, WellNamed e.1 := by
  have hold : ∀ {vf p}, c.files.get? vf = some p → WellNamed vf := fun hp => h _ (mem_items_iff.2 hp)
  rintro ⟨vf, q⟩ he
  have hq := mem_items_iff.1 he
  obtain ⟨points, rfl, -, rfl⟩ | ⟨p, todo, rfl, -, ⟨-, rfl⟩ | ⟨vf', hvf', rfl⟩⟩ | ⟨ids, rfl, -, rfl⟩ :=
    Collection.step_cases hs
  · exact hold (((c.dropOrphans_spec points).1.files vf q).1 hq).1
  · exact hold hq
  · rw [show ({ c.writePoint p vf' with todo := todo } : Collection V B).files = _ from c.writePoint_files p vf',
      get?_set] at hq
    split at hq
    · rename_i heq
      exact heq ▸ wellNamed_vectorFile hL hvf'
    · exact hold hq
  · exact hold (((c.deletePoints_spec ids).1.files vf q).1 hq).1

/-- After every call, and at every write, as long as points are placed well. The rebuild returns the id
index exactly when no id is empty and no vector file has a name that the scan passes over. -/
theorem one_file_per_id (hL : L.HashOk) (h : (collection L (Consistent (B := B))).Reachable (Placed L) c) :
    OneFile c ∧ ∃ hnames : ∀ e ∈ c.files.items, WellNamed e.1,
      ∀ (collectionPath : Path) (tree : List VectorFile), tree.Perm (c.tree hnames) →
        ∃ m, rebuildFromVectors collectionPath tree =
            (buildIdIndexToTemp collectionPath m).map (fun file => (m, file)) ∧
          (Recovers c collectionPath m ↔
            ∀ e ∈ c.idIndex.items, e.1 ≠ [] ∧ isSkipped (e.2.getLastD []) = false) := by
  have hinv : OneFile c ∧ ∀ e ∈ c.files.items, WellNamed e.1 := by
    refine h.invariant (I := fun c => OneFile c ∧ ∀ e ∈ c.files.items, WellNamed e.1) ?_ ?_
    · exact fun c hc => ⟨hc.one, hc.named⟩
    · exact fun c a c' hinv hplaced hs => ⟨oneFile_of_step hinv.1 hplaced hs, wellNamed_of_step hL hinv.2 hs⟩
  obtain ⟨hone, hnames⟩ := hinv
  refine ⟨hone, hnames, fun collectionPath tree hperm => ?_⟩
  obtain ⟨m, hm, hget⟩ := Collection.scan_tree hone collectionPath hperm
  refine ⟨m, ?_, ?_⟩
  · rw [rebuildFromVectors, hm]
    cases hfile : buildIdIndexToTemp collectionPath m <;> simp [hfile]
  constructor
  · rintro hrec ⟨id, vf⟩ he
    have hvf := mem_items_iff.1 he
    obtain ⟨p, hp, rfl⟩ := hone.named hvf
    have hwn := hnames (vf, p) (mem_items_iff.2 hp)
    have hpath := (join_vectorFileAt collectionPath _ hwn p.id).1 rfl
    obtain ⟨vf', hvf', hid, hskip, -, -⟩ := (hget p.id _).1 ((hrec p.id _).2 ⟨vf, hvf, hpath⟩)
    obtain rfl := Option.mem_unique hvf' hvf
    exact ⟨hid, hskip⟩
  · intro hids id path
    rw [hget]
    refine exists_congr fun vf => and_congr_right fun hvf => ?_
    obtain ⟨hid, hskip⟩ := hids (id, vf) (mem_items_iff.2 hvf)
    exact ⟨fun hpath => hpath.2.2, fun hpath => ⟨hid, hskip, hpath⟩⟩

end Reachable

theorem consistent_new : Consistent (Collection.new : Collection V B) :=
  ⟨rfl, .intro nofun nofun, nofun⟩

def onesLayout : Layout ℚ := ⟨fun x => some (List.replicate 64 x), -2, 2, none⟩

theorem onesLayout_hashOk : onesLayout.HashOk := nofun

def onePoint : Collection ℚ ℕ :=
  Collection.new.beginIndexing.writePoint ⟨"p1", 0, "a.py", 0⟩
    ["55", "55", "55", "55", "vector_p1.json"]

/-- Two points are written, the first is written again with a vector in its directory, the second is
deleted. -/
theorem one_file_per_id_after_update_and_delete :
    ∃ c : Collection ℚ ℕ, (collection onesLayout Consistent).Reachable (Placed onesLayout) c ∧
      c.idIndex.items = [("p1".toList, ["55".toList, "55".toList, "55".toList, "55".toList, "vector_p1.json".toList])] ∧
      OneFile c ∧ ∃ hnames : ∀ e ∈ c.files.items, WellNamed e.1,
        ∀ (collectionPath : Path) (tree : List VectorFile), tree.Perm (c.tree hnames) →
          ∃ m, rebuildFromVectors collectionPath tree =
            (buildIdIndexToTemp collectionPath m).map (fun file => (m, file)) ∧ Recovers c collectionPath m := by
  refine TransitionSystem.exists_of_run_and .new
    [.upsert [⟨"p1", 0, "a.py", 0⟩, ⟨"p2", 2, "a.py", 1⟩], .write, .write,
     .upsert [⟨"p1", 0, "b.py", 2⟩], .write, .delete ["p2"]] consistent_new
     (by decide +kernel) fun c hreach hitems => ?_
  obtain ⟨hone, hnames, hrebuild⟩ := one_file_per_id onesLayout_hashOk hreach
  refine ⟨hone, hnames, fun collectionPath tree hperm => ?_⟩
  obtain ⟨m, hm, hrec⟩ := hrebuild collectionPath tree hperm
  refine ⟨m, hm, hrec.2 ?_⟩
  rw [hitems]
  decide

/-- An id whose vector moves to another directory keeps its old file; `a/b` and `a_b` name one file. -/
theorem second_file_and_shared_file :
    (∃ c : Collection ℚ ℕ, (collection onesLayout Consistent).Reachable TransitionSystem.Any c ∧ c.todo = [] ∧
      c.files.items.map (fun e => (e.1, e.2.id)) =
        [(["55".toList, "55".toList, "55".toList, "55".toList, "vector_p1.json".toList], "p1".toList),
          (["ff".toList, "ff".toList, "ff".toList, "ff".toList, "vector_p1.json".toList], "p1".toList)] ∧
      ¬ OneFile c) ∧
    ∃ c : Collection ℚ ℕ, (collection onesLayout Consistent).Reachable TransitionSystem.Any c ∧ c.todo = [] ∧
      c.idIndex.get? "a/b" = c.idIndex.get? "a_b" ∧ ¬ OneFile c := by
  constructor
  · refine TransitionSystem.exists_of_run_and_and .new
      [.upsert [⟨"p1", 0, "a.py", 0⟩], .write, .upsert [⟨"p1", 2, "a.py", 1⟩], .write] consistent_new
      (by decide +kernel)
      fun c _ _ hfiles hone => ?_
    have hkey : ∀ vf, (vf, "p1".toList) ∈ c.files.items.map (fun e => (e.1, e.2.id)) →
        c.idIndex.get? "p1" = some vf := by
      intro vf hmem
      obtain ⟨⟨vf', p⟩, he, heq⟩ := mem_map.1 hmem
      obtain ⟨rfl, hid⟩ := Prod.mk.inj heq
      exact hid ▸ hone.owned (mem_items_iff.1 he)
    rw [hfiles] at hkey
    have := (hkey _ mem_cons_self).symm.trans (hkey _ (mem_cons_of_mem _ mem_cons_self))
    exact absurd (Option.some.inj this) (by decide)
  · refine TransitionSystem.exists_of_run_imp (fun c => c.todo = [] ∧
        c.idIndex.get? "a/b" = c.idIndex.get? "a_b" ∧ (c.idIndex.get? "a/b").isSome) .new
      [.upsert [⟨"a/b", 0, "a.py", 0⟩, ⟨"a_b", 0, "a.py", 1⟩], .write, .write] consistent_new (by decide +kernel)
      fun c _ ⟨htodo, heq, hsome⟩ => ⟨htodo, heq, fun hone => ?_⟩
    obtain ⟨vf, hvf⟩ := Option.isSome_iff_exists.1 hsome
    exact absurd (hone.distinct _ _ _ hvf (heq.symm.trans hvf)) (by decide)

end CodeIndexer.Storage
