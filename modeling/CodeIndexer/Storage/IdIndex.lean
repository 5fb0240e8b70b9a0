import CodeIndexer.Lib.ByteReader
import CodeIndexer.Lib.Dict
import CodeIndexer.Lib.PurePath

/-!
# The binary id index

`id_index.bin` maps point ids to vector files: a `uint32` entry count, then for each entry the id and
the path, each a `uint16` length and UTF-8 bytes. `save_index` and the encoder inside
`rebuild_from_vectors` write it, `load_index` reads it. The decoder is run over what an encoder wrote
(`loadIndex_encodeIndex`), which leaves a fold over the mapping; the mappings that come back
unchanged are read off that fold.

A point id or path with a lone surrogate makes `str.encode` raise and is never written; here text is
made of `Char`s, which are not surrogates.
-/

namespace CodeIndexer.IdIndex

open PyText PurePath ByteReader List

def maxIndexEntries : ℕ := 10000000

def headerSize : ℕ := 4

inductive Context
  | entryCountHeader
  | idLength
  | idString
  | pathLength
  | pathString
deriving DecidableEq

def Context.text : Context → String
  | .entryCountHeader => "entry-count header"
  | .idLength => "ID length"
  | .idString => "ID string"
  | .pathLength => "path length"
  | .pathString => "path string"

inductive CorruptIDIndexError
  | zeroBytes
  | tooSmall (fileSize : ℕ)
  | entryCount (numEntries : ℕ)
  | truncated (context : Context)
  | invalidUtf8 (context : Context)
  | absolutePath (context : Context) (pathStr : Str)
  | escapes (context : Context) (pathStr : Str)
deriving DecidableEq

def CorruptIDIndexError.message (repr : Str → String) : CorruptIDIndexError → String
  | .zeroBytes => "id_index.bin is zero bytes (interrupted write)"
  | .tooSmall fileSize => s!"id_index.bin too small for entry-count header ({fileSize} bytes)"
  | .entryCount numEntries =>
    s!"id_index.bin has unreasonable entry count: {numEntries} (max {maxIndexEntries})"
  | .truncated context => s!"id_index.bin truncated: EOF reading {context.text}"
  | .invalidUtf8 context => s!"id_index.bin corrupt: invalid UTF-8 in {context.text}"
  | .absolutePath context pathStr =>
    s!"id_index.bin corrupt: {context.text} is an absolute path: {repr pathStr}"
  | .escapes context pathStr =>
    s!"id_index.bin corrupt: {context.text} escapes collection directory: {repr pathStr}"

abbrev Load := Reader CorruptIDIndexError

/-! ### Decoder -/

variable (context : Context) (collectionPath : Path) (idIndex : Dict Str Path)

def readU16 : Load ℕ := readUInt 2 (.truncated context)

def readU32 : Load ℕ := readUInt 4 (.truncated context)

def readUtf8String (length : ℕ) (context : Context) : Load Str := do
  let raw ← readExact length (.truncated context)
  match decode raw with
  | some s => return s
  | none => throw (.invalidUtf8 context)

def dotdot : Str := ['.', '.']

/-- `Path(*p.parts)` rebuilds a relative `p` as it is, so `normalised` is `p` and the third error,
for a path that cannot be rebuilt, is never raised. -/
def safeRelativePath (pathStr : Str) (context : Context) : Except CorruptIDIndexError Path :=
  let p := parse pathStr
  if p.isAbsolute then .error (.absolutePath context pathStr)
  else if dotdot ∈ p.parts then .error (.escapes context pathStr)
  else .ok p

def loadEntry : Load (Dict Str Path) := do
  let idLen ← readU16 .idLength
  let pointId ← readUtf8String idLen .idString
  let pathLen ← readU16 .pathLength
  let pathStr ← readUtf8String pathLen .pathString
  let safePath ← safeRelativePath pathStr .pathString
  return idIndex.set pointId (collectionPath.join safePath)

def loadEntries (collectionPath : Path) : ℕ → Dict Str Path → Load (Dict Str Path)
  | 0, idIndex => return idIndex
  | n + 1, idIndex => do loadEntries collectionPath n (← loadEntry collectionPath idIndex)

def loadIndex : Option Bytes → Except CorruptIDIndexError (Dict Str Path)
  | none => .ok Dict.empty
  | some file =>
    if file.length = 0 then .error .zeroBytes
    else if file.length < headerSize then .error (.tooSmall file.length)
    else do
      let (numEntries, body) ← (readU32 .entryCountHeader).run file
      if numEntries > maxIndexEntries then .error (.entryCount numEntries)
      else return ((← (loadEntries collectionPath numEntries Dict.empty).run body).1)

/-! ### Encoders -/

/-- The path an encoder stores: relative to the collection, or as it is when it is not below it. -/
def storedPath (filePath : Path) : Path :=
  match filePath.relativeTo collectionPath with
  | some relativePath => relativePath
  | none => filePath

def encodeEntry (entry : Str × Path) : Option Bytes := do
  let idBytes := encode entry.1
  let pathBytes := encode (storedPath collectionPath entry.2).str
  let idLen ← pack 2 idBytes.length
  let pathLen ← pack 2 pathBytes.length
  return idLen ++ (idBytes ++ (pathLen ++ pathBytes))

def encodeIndex : Option Bytes := do
  let header ← pack 4 idIndex.items.length
  let entries ← idIndex.items.mapM (encodeEntry collectionPath)
  return header ++ entries.flatten

/-- The file `save_index` publishes. It writes a side-car and renames it, so where it raises the old
file stays. -/
def saveIndex : Option Bytes :=
  encodeIndex collectionPath idIndex

def buildIdIndexToTemp : Option Bytes :=
  encodeIndex collectionPath idIndex

/-! ### Rebuilding from the vector files -/

inductive IdField
  | text (s : Str)
  | other

/-- What opening a vector file and `json.load` give: an error that is not caught (the file cannot be
opened or decoded), a `JSONDecodeError`, or a value with the field `id` where it has one. -/
inductive VectorDoc
  | unreadable
  | malformed
  | notObject
  | object (id : Option IdField)

/-- A file below the collection directory: directory entries are never `..`. -/
structure VectorFile where
  relPath : Path
  doc : VectorDoc
  relative : relPath.root = .relative
  inside : dotdot ∉ relPath.parts

def temporalBookkeepingFilenames : List Str :=
  ["temporal_structure.json", "temporal_progress.json", "temporal_meta.json"]

def isSkipped (name : Str) : Bool :=
  "collection_meta" <:+: name ∨ name = "id_index.bin" ∨ name ∈ temporalBookkeepingFilenames

def scanFile (file : VectorFile) : Option (Dict Str Path) :=
  if isSkipped file.relPath.name then some idIndex
  else match file.doc with
    | .unreadable => none
    | .object (some (.text pointId)) =>
      some (if pointId = [] then idIndex else idIndex.set pointId (collectionPath.join file.relPath))
    | _ => some idIndex

def isJson (file : VectorFile) : Bool := ".json" <:+ file.relPath.name

/-- `rebuild_from_vectors`: the mapping it returns and the file it publishes. -/
def rebuildFromVectors (tree : List VectorFile) :
    Option (Dict Str Path × Bytes) := do
  let idIndex ← (tree.filter isJson).foldlM (scanFile collectionPath) Dict.empty
  return (idIndex, ← buildIdIndexToTemp collectionPath idIndex)

/-! ### Decoding what an encoder wrote -/

theorem safeRelativePath_str (p : Path) (context : Context) :
    safeRelativePath p.str context =
      if p.isAbsolute then .error (.absolutePath context p.str)
      else if dotdot ∈ p.parts then .error (.escapes context p.str)
      else .ok p := by
  simp only [safeRelativePath, Path.parse_str]

theorem readU16_reads {n : ℕ} (context : Context) (h : n < 256 ^ 2) :
    Reads (readU16 context) (packLE 2 n) n := Reads.readUInt _ h

theorem readUtf8String_reads (s : Str) (context : Context) :
    Reads (readUtf8String (encode s).length context) (encode s) s := by
  intro rest
  unfold readUtf8String
  rw [(Reads.readExact _ rfl).bind_run, decode_encode]
  rfl

def reload (entry : Str × Path) :
    Except CorruptIDIndexError (Dict Str Path) := do
  let safePath ← safeRelativePath (storedPath collectionPath entry.2).str .pathString
  return idIndex.set entry.1 (collectionPath.join safePath)

variable {c : Path} {m d : Dict Str Path}

variable {e : Str × Path} {file : Bytes} {d' : Dict Str Path}

theorem loadEntry_encodeEntry {bs : Bytes} (h : encodeEntry c e = some bs) (rest : Bytes) :
    (loadEntry c d).run (bs ++ rest) = (reload c d e).map (·, rest) := by
  simp only [encodeEntry, Option.bind_eq_bind, Option.bind_eq_some_iff, pack_eq_some] at h
  obtain ⟨_, ⟨hid, rfl⟩, _, ⟨hpath, rfl⟩, h⟩ := h
  cases h
  unfold loadEntry
  simp only [append_assoc]
  rw [(readU16_reads _ hid).bind_run, (readUtf8String_reads _ _).bind_run,
    (readU16_reads _ hpath).bind_run, (readUtf8String_reads _ _).bind_run]
  unfold reload
  rcases safeRelativePath (storedPath c e.2).str .pathString with err | q <;> rfl

theorem loadEntries_encodeEntry (items : List (Str × Path)) :
    ∀ {d : Dict Str Path} {bss : List Bytes}, items.mapM (encodeEntry c) = some bss →
      ∀ rest, (loadEntries c items.length d).run (bss.flatten ++ rest) =
        (items.foldlM (reload c) d).map (·, rest) := by
  induction items with
  | nil =>
    intro d bss h rest
    cases h
    rfl
  | cons e items ih =>
    intro d bss h rest
    simp only [mapM_cons, Option.bind_eq_bind, Option.bind_eq_some_iff] at h
    obtain ⟨bs, he, bss, hitems, h⟩ := h
    cases h
    rw [flatten_cons, append_assoc, length_cons, loadEntries, StateT.run_bind,
      loadEntry_encodeEntry he, foldlM_cons]
    rcases reload c d e with err | d'
    · rfl
    · exact ih hitems rest

theorem loadIndex_encodeIndex (h : encodeIndex c m = some file) :
    loadIndex c (some file) =
      if m.items.length > maxIndexEntries then .error (.entryCount m.items.length)
      else m.items.foldlM (reload c) Dict.empty := by
  simp only [encodeIndex, Option.bind_eq_bind, Option.bind_eq_some_iff, pack_eq_some] at h
  obtain ⟨_, ⟨hlen, rfl⟩, bss, hitems, h⟩ := h
  cases h
  have hsize : 4 ≤ (packLE 4 m.items.length ++ bss.flatten).length := by
    rw [length_append, length_packLE]
    omega
  have hhead : (readU32 .entryCountHeader).run (packLE 4 m.items.length ++ bss.flatten) =
      .ok (m.items.length, bss.flatten) := Reads.readUInt _ hlen _
  have hbody := loadEntries_encodeEntry m.items (d := Dict.empty) hitems []
  rw [append_nil] at hbody
  rw [loadIndex, if_neg (by omega), if_neg (by unfold headerSize; omega), hhead]
  show (if m.items.length > maxIndexEntries then _ else _) = _
  rw [hbody]
  split
  · rfl
  · rcases m.items.foldlM (reload c) Dict.empty with err | d' <;> rfl

/-! ### Which mappings come back -/

/-- The decoder accepts the path the encoder stores for `p`. -/
def Accepted (c p : Path) : Prop :=
  (storedPath c p).root = .relative ∧ dotdot ∉ (storedPath c p).parts

/-- `p` lies below the collection and does not leave it on the way. -/
def Below (c p : Path) : Prop := ∃ rel, p.relativeTo c = some rel ∧ dotdot ∉ rel.parts

theorem reload_eq_ok_iff : reload c d e = .ok d' ↔ Accepted c e.2 ∧ d.set e.1 (c.join (storedPath c e.2)) = d' := by
  unfold reload
  rw [safeRelativePath_str]
  by_cases habs : (storedPath c e.2).isAbsolute
  · rw [if_pos habs]
    refine iff_of_false nofun ?_
    rintro ⟨⟨hrel, -⟩, -⟩
    rw [Path.isAbsolute_eq_false.2 hrel] at habs
    cases habs
  · rw [if_neg habs]
    rw [Bool.not_eq_true, Path.isAbsolute_eq_false] at habs
    by_cases hdot : dotdot ∈ (storedPath c e.2).parts
    · rw [if_pos hdot]
      exact iff_of_false nofun fun h => h.1.2 hdot
    · rw [if_neg hdot]
      constructor
      · intro h
        exact ⟨⟨habs, hdot⟩, Except.ok.inj h⟩
      · rintro ⟨-, rfl⟩
        rfl

theorem foldlM_reload_eq_ok_iff (items : List (Str × Path)) :
    ∀ {d d' : Dict Str Path}, (d.items.map Prod.fst ++ items.map Prod.fst).Nodup →
      (items.foldlM (reload c) d = .ok d' ↔ (∀ e ∈ items, Accepted c e.2) ∧
        d'.items = d.items ++ items.map fun e => (e.1, c.join (storedPath c e.2))) := by
  induction items with
  | nil =>
    intro d d' _
    rw [foldlM_nil, map_nil, append_nil]
    constructor
    · intro h
      exact ⟨nofun, congrArg Dict.items (Except.ok.inj h).symm⟩
    · rintro ⟨-, h⟩
      exact congrArg Except.ok (Dict.ext h.symm)
  | cons e items ih =>
    intro d d' hnodup
    have hfresh : e.1 ∉ d.items.map Prod.fst := fun h =>
      (disjoint_of_nodup_append hnodup) h mem_cons_self
    have hset := Dict.set_items_of_not_mem (c.join (storedPath c e.2)) hfresh
    have hnext : ((d.set e.1 (c.join (storedPath c e.2))).items.map Prod.fst ++
        items.map Prod.fst).Nodup := by
      rw [hset, map_append, append_assoc]
      exact hnodup
    rw [foldlM_cons, forall_mem_cons, map_cons]
    constructor
    · intro h
      rcases hr : reload c d e with err | d₁
      · rw [hr] at h
        cases h
      · rw [hr] at h
        obtain ⟨hacc, rfl⟩ := reload_eq_ok_iff.1 hr
        obtain ⟨hall, hitems⟩ := (ih hnext).1 h
        rw [hset, append_assoc] at hitems
        exact ⟨⟨hacc, hall⟩, hitems⟩
    · rintro ⟨⟨hacc, hall⟩, hitems⟩
      rw [reload_eq_ok_iff.2 ⟨hacc, rfl⟩]
      refine (ih hnext).2 ⟨hall, ?_⟩
      rw [hset, append_assoc]
      exact hitems

theorem below_iff {p : Path} : Below c p ↔ Accepted c p ∧ c.join (storedPath c p) = p := by
  unfold Below Accepted storedPath
  rcases hrel : p.relativeTo c with _ | rel
  · refine iff_of_false (by rintro ⟨_, h, -⟩; cases h) ?_
    -- a relative path that `c / p` leaves alone is relative to `c`
    rintro ⟨⟨hroot, -⟩, hjoin⟩
    have := Path.relativeTo_eq_some_iff.2 ⟨hroot, hjoin⟩
    rw [hrel] at this
    cases this
  · obtain ⟨hroot, hjoin⟩ := Path.relativeTo_eq_some_iff.1 hrel
    constructor
    · rintro ⟨_, h, hdot⟩
      cases h
      exact ⟨⟨hroot, hdot⟩, hjoin⟩
    · rintro ⟨⟨-, hdot⟩, -⟩
      exact ⟨rel, rfl, hdot⟩

theorem loadIndex_encodeIndex_eq_iff (h : encodeIndex c m = some file) :
    loadIndex c (some file) = .ok m ↔
      m.items.length ≤ maxIndexEntries ∧ ∀ e ∈ m.items, Below c e.2 := by
  rw [loadIndex_encodeIndex h]
  by_cases hlen : m.items.length > maxIndexEntries
  · rw [if_pos hlen]
    exact iff_of_false nofun fun h => absurd h.1 (not_le_of_gt hlen)
  · rw [if_neg hlen, foldlM_reload_eq_ok_iff (d := Dict.empty) m.items m.nodup]
    constructor
    · rintro ⟨hacc, hitems⟩
      refine ⟨not_lt.1 hlen, fun e he => below_iff.2 ⟨hacc e he, ?_⟩⟩
      have hfix := map_inj_left.1 (hitems.symm.trans (map_id _).symm) e he
      exact congrArg Prod.snd hfix
    · rintro ⟨-, hall⟩
      refine ⟨fun e he => (below_iff.1 (hall e he)).1, Eq.symm ?_⟩
      refine (map_inj_left.2 fun e he => ?_).trans (map_id m.items)
      exact Prod.ext rfl (below_iff.1 (hall e he)).2

/-! ### The two encoders -/

theorem scanFile_below {file : VectorFile} (h : scanFile c d file = some d')
    (hd : ∀ e ∈ d.items, Below c e.2) : ∀ e ∈ d'.items, Below c e.2 := by
  unfold scanFile at h
  split at h
  · cases h
    exact hd
  · split at h <;> cases h
    · split
      · exact hd
      · intro e he
        rcases Dict.mem_set_items he with rfl | he
        · exact ⟨file.relPath, Path.relativeTo_eq_some_iff.2 ⟨file.relative, rfl⟩, file.inside⟩
        · exact hd e he
    · exact hd

theorem foldlM_scanFile_below (tree : List VectorFile) :
    ∀ {d d' : Dict Str Path}, tree.foldlM (scanFile c) d = some d' → (∀ e ∈ d.items, Below c e.2) →
      ∀ e ∈ d'.items, Below c e.2 := by
  induction tree with
  | nil =>
    intro d d' h hd
    cases h
    exact hd
  | cons file tree ih =>
    intro d d' h hd
    simp only [foldlM_cons, Option.bind_eq_bind, Option.bind_eq_some_iff] at h
    obtain ⟨d₁, hfile, h⟩ := h
    exact ih h (scanFile_below hfile hd)

theorem rebuildFromVectors_eq_some {tree : List VectorFile}
    (h : rebuildFromVectors c tree = some (m, file)) :
    encodeIndex c m = some file ∧ ∀ e ∈ m.items, Below c e.2 := by
  simp only [rebuildFromVectors, Option.bind_eq_bind, Option.bind_eq_some_iff] at h
  obtain ⟨m', hscan, file', hfile, h⟩ := h
  obtain ⟨rfl, rfl⟩ := Prod.mk.inj (Option.some.inj h)
  exact ⟨hfile, foldlM_scanFile_below _ hscan nofun⟩

/-- A saved mapping is loaded back exactly when it has at most ten million entries and every path is
below the collection, without `..` on the way; what `rebuild_from_vectors` publishes is loaded back
exactly when it has at most ten million entries. -/
theorem loadIndex_round_trip_iff (c : Path) :
    (∀ (m : Dict Str Path) (file : Bytes), saveIndex c m = some file →
      (loadIndex c (some file) = .ok m ↔
        m.items.length ≤ maxIndexEntries ∧ ∀ e ∈ m.items, Below c e.2)) ∧
    (∀ (tree : List VectorFile) (m : Dict Str Path) (file : Bytes),
      rebuildFromVectors c tree = some (m, file) →
      (loadIndex c (some file) = .ok m ↔ m.items.length ≤ maxIndexEntries)) := by
  constructor
  · intro m file h
    exact loadIndex_encodeIndex_eq_iff h
  · intro tree m file h
    obtain ⟨hfile, hbelow⟩ := rebuildFromVectors_eq_some h
    rw [loadIndex_encodeIndex_eq_iff hfile]
    exact and_iff_left hbelow

def sampleCollection : Path := parse "/repo/coll"

def sampleFile : VectorFile where
  relPath := parse "a/v.json"
  doc := .object (some (.text "p1"))
  relative := by decide
  inside := by decide

/-- One vector file below the collection, written by either encoder. -/
theorem loadIndex_round_trip_sample :
    let m := Dict.empty.set "p1".toList (parse "/repo/coll/a/v.json".toList)
    ∃ file, saveIndex sampleCollection m = some file ∧
      rebuildFromVectors sampleCollection [sampleFile] = some (m, file) ∧
      loadIndex sampleCollection (some file) = .ok m := by
  intro m
  have hsome : (saveIndex sampleCollection m).isSome := by decide +kernel
  obtain ⟨file, hfile⟩ := Option.isSome_iff_exists.1 hsome
  have hscan : ([sampleFile].filter isJson).foldlM (scanFile sampleCollection) Dict.empty = some m := by
    decide +kernel
  have hrebuild : rebuildFromVectors sampleCollection [sampleFile] = some (m, file) := by
    rw [rebuildFromVectors, hscan]
    show ((buildIdIndexToTemp sampleCollection m).bind fun file => some (m, file)) = _
    rw [show buildIdIndexToTemp sampleCollection m = some file from hfile]
    rfl
  exact ⟨file, hfile, hrebuild, ((loadIndex_round_trip_iff sampleCollection).2 _ _ _ hrebuild).2 (by decide)⟩

/-- `save_index` publishes an absolute path outside the collection; `load_index` rejects the file. -/
theorem loadIndex_rejects_saved_absolute :
    let m := Dict.empty.set "p1".toList (parse "/elsewhere/v.json".toList)
    ∃ file, saveIndex sampleCollection m = some file ∧
      loadIndex sampleCollection (some file) =
        .error (.absolutePath .pathString "/elsewhere/v.json".toList) := by
  intro m
  have hsome : (saveIndex sampleCollection m).isSome := by decide +kernel
  obtain ⟨file, hfile⟩ := Option.isSome_iff_exists.1 hsome
  refine ⟨file, hfile, ?_⟩
  rw [loadIndex_encodeIndex hfile]
  have hstored : (storedPath sampleCollection (parse "/elsewhere/v.json")).str =
      "/elsewhere/v.json".toList := by decide +kernel
  have hitems : m.items = [("p1".toList, parse "/elsewhere/v.json")] := by decide +kernel
  have habs : (parse "/elsewhere/v.json").isAbsolute = true := by decide +kernel
  rw [if_neg (by decide), hitems, foldlM_cons]
  unfold reload
  rw [hstored, safeRelativePath, if_pos habs]
  rfl

end CodeIndexer.IdIndex
