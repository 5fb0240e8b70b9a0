import CodeIndexer.Storage.HnswIndex

/-!
# The HNSW index on disk

The index file `hnsw_index.bin` and the key `hnsw_index` of `collection_meta.json` with the label table, the
staleness flag and the marks of a filtered rebuild. A rebuild or an incremental update writes the file and
then the metadata; here both have been written (`LabelTable` takes the two apart). A rebuild that finds no
vectors writes no index file: a filtered one empties the label table, and of the others only one that is
not to clear the staleness flag publishes the empty index, or raises if there were vector files.

Index parameters, sizes, dates and the rebuild uuid are left out.
-/

namespace CodeIndexer.Storage

open PyText

variable {V B : Type}

structure Filtered where
  visibleCount : ℕ
  totalOnDisk : ℕ
  currentBranch : Option Str
deriving DecidableEq

structure HnswMeta where
  vectorCount : ℕ
  idMapping : Dict ℕ Str
  isStale : Option Bool
  filtered : Option Filtered

structure HnswDisk (V : Type) where
  bin : Option (Dict ℕ (Option V))
  info : Option HnswMeta

structure Visible where
  files : List Str
  currentBranch : Option Str

namespace HnswDisk

variable (d : HnswDisk V)

def loadIdMapping : Dict ℕ Str := (d.info.map HnswMeta.idMapping).getD .empty

def hnsw : Option (Hnsw V) := d.bin.map fun elements => ⟨elements, d.loadIdMapping⟩

def writeStaleFlag (isStale : Bool) : HnswDisk V :=
  { d with info := d.info.map fun info => { info with isStale := some isStale } }

def markStale : HnswDisk V := d.writeStaleFlag true

/-- `_update_metadata`. Unless it is cleared, the staleness flag stays as it was, and is set on new metadata. -/
def updateMetadata (vectorCount : ℕ) (idMapping : Dict ℕ Str) (filtered : Option Filtered)
    (clearStale : Bool) : HnswDisk V :=
  { d with info := some {
      vectorCount := vectorCount
      idMapping := idMapping
      isStale := some (if clearStale then false else (d.info.bind HnswMeta.isStale).getD true)
      filtered := filtered } }

def publishEmptyRebuildState : HnswDisk V :=
  { d with bin := none }.updateMetadata 0 .empty none false

section Rebuild

variable (fits : V → Bool) (hiddenBranches : B → List Str)

def kept (files : List (Option (Point V B))) (visibleFiles : Option (List Str)) (currentBranch : Option Str) :
    List (Point V B) :=
  files.reduceOption.filter fun p => fits p.vector &&
    match visibleFiles, currentBranch with
    | some visible, _ => p.path ∈ visible
    | none, some branch => branch ∉ hiddenBranches p.body
    | none, none => true

/-- `rebuild_from_vectors` over the vector files, none for one that cannot be read; `fits` says that a vector has the
collection's dimension. None if it raises. -/
def rebuild (d : HnswDisk V) (files : List (Option (Point V B))) (visibleFiles : Option (List Str))
    (currentBranch : Option Str) (clearStale : Bool) : Option (HnswDisk V) :=
  let kept := kept fits hiddenBranches files visibleFiles currentBranch
  let filtered := visibleFiles.map fun _ => (⟨kept.length, files.length, currentBranch⟩ : Filtered)
  match kept with
  | [] =>
    if visibleFiles.isSome then some (d.updateMetadata 0 .empty filtered clearStale)
    else if clearStale then some d
    else if files.isEmpty then some d.publishEmptyRebuildState
    else none
  | kept =>
    let H := Hnsw.ofPoints kept
    some ({ d with bin := some H.elements }.updateMetadata kept.length H.labelToId filtered clearStale)

/-- The rebuild where every file can be read, and no branch is given without the visible files. -/
def rebuildFromVectors (d : HnswDisk V) (points : List (Point V B)) (visible : Option Visible) (clearStale : Bool) :
    Option (HnswDisk V) :=
  d.rebuild fits (fun _ => []) (points.map some) (visible.map Visible.files) (visible.bind Visible.currentBranch)
    clearStale

end Rebuild

def saveIncrementalUpdate (w : Working V) (clearStale : Bool) : HnswDisk V :=
  { d with bin := some w.elements }.updateMetadata w.idToLabel.items.length w.labelToId none clearStale

end HnswDisk

/-- What became of an incremental update: there was no index to update, it raised, or it was saved. -/
inductive Incremental (V : Type)
  | noIndex
  | raised
  | saved (d : HnswDisk V)

def Collection.applyIncremental (c : Collection V B) (d : HnswDisk V) (ch : Changes) (clearStale : Bool) :
    Incremental V :=
  match d.hnsw with
  | none => .noIndex
  | some H =>
    match c.applyChanges ch H.loadForIncrementalUpdate with
    | none => .raised
    | some w => .saved (d.saveIncrementalUpdate w clearStale)

def Collection.points (c : Collection V B) : List (Point V B) := c.files.items.map Prod.snd

end CodeIndexer.Storage
