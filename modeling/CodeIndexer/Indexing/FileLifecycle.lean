import CodeIndexer.Storage.BranchIsolation

/-!
# Indexing one file

`_process_file_clean_lifecycle` splits the chunks of a file into those with images, which go to a collection of
their own, and the others. Of these it reuses the stored vector for every chunk whose text hash is stored
under its chunk index, and has the rest embedded in batches. The embedded chunks get their positions in that
rest as chunk indexes, the reused ones keep theirs, and one `upsert_points` writes both. A point's id is
derived from the project, the file's hash and the chunk index.

The collection for chunks with images, the full text index, progress reports, slots and the time stamps, file
sizes and git fields of a payload are left out. A file is indexed by one thread at a time.
-/

namespace CodeIndexer.Indexing

open PyText Storage

/-- The two hash functions, as far as they are used: different inputs have different digests, and a digest
is written without a slash. -/
structure Digests where
  md5 : List UInt8 → Str
  sha256 : List UInt8 → Str
  md5_injective : Function.Injective md5
  sha256_injective : Function.Injective sha256
  md5_hex : ∀ bs, '/' ∉ md5 bs

/-- The embedding provider; an embedding is never empty. -/
structure Provider (F : Type) where
  countTokens : Str → ℕ
  tokenLimit : ℕ
  embed : Str → List F
  embed_ne_nil : ∀ text, embed text ≠ []

structure Chunk where
  text : Str
  chunkIndex : ℕ
  totalChunks : ℕ
  lineStart : ℕ
  lineEnd : ℕ
  images : List Str
deriving DecidableEq

abbrev Chunks := { chunks : List Chunk // chunks.map Chunk.chunkIndex = List.range chunks.length }

def Chunk.imageFree (chunk : Chunk) : Bool := chunk.images.isEmpty

structure Payload where
  content : Str
  language : Str
  chunkIndex : ℕ
  totalChunks : ℕ
  projectId : Str
  fileHash : Str
  lineStart : ℕ
  lineEnd : ℕ
  uniqueKey : Str
  contentHash : Str
deriving DecidableEq

inductive Reply (F : Type)
  | notStarted
  | failed
  | embeddings (vectors : List (List F))

variable {F : Type}

/-- One call. `lookup` says whether the stored hashes are looked up: the metadata name the collection, and the
lookup does not raise. `order` is the order in which a set of point ids is iterated. `reply` gives one
embedding for a text, in order. -/
structure Call (P : Provider F) where
  path : Str
  language : Str
  projectId : Str
  fileHash : Str
  chunks : Chunks
  vanished : Bool
  lookup : Bool
  order : List Str → List Str
  reply : List Str → Reply F
  path_ne_nil : path ≠ []
  order_perm : ∀ ids, (order ids).Perm ids
  reply_eq : ∀ batch vectors, reply batch = .embeddings vectors → vectors = batch.map P.embed

inductive Error
  | vanished
  | cancelled
  | noBatches
  | batchFailed
  | countMismatch
  | writeFailed
deriving DecidableEq

inductive Result
  | success (chunksProcessed : ℕ)
  | failure (error : Error)
deriving DecidableEq

/-! ### The vector store -/

def getPoint {V B : Type} (c : Collection V B) (id : Str) : Option (Point V B) :=
  (c.idIndex.get? id).bind fun vectorFile => c.files.get? vectorFile

def writePoints {V B : Type} (L : Layout V) : Collection V B → List (Point V B) → Collection V B × Bool
  | c, [] => (c, true)
  | c, p :: points =>
    match L.vectorFile p with
    | none => (c, false)
    | some vectorFile => writePoints L (c.writePoint p vectorFile) points

def upsertPoints {V B : Type} (L : Layout V) (c : Collection V B) (points : List (Point V B)) :
    Collection V B × Bool := writePoints L (c.dropOrphans points) points

abbrev Store (F : Type) := Collection (List F) Payload

def loadPathIndex (c : Store F) : Store F := { c with pathIndex := some c.loadedPathIndex }

/-- `get_existing_content_hashes`: hash and vector for a chunk index; of two points with one chunk index the
last counts. -/
def existingContentHashes (order : List Str → List Str) (c : Store F) (path : Str) : Dict ℕ (Str × List F) :=
  (order (c.loadedPathIndex.getPointIds path)).foldl (fun result id =>
    match getPoint c id with
    | none => result
    | some p => if p.body.contentHash = [] then result
        else result.set p.body.chunkIndex (p.body.contentHash, p.vector)) .empty

/-! ### One call -/

def batches (P : Provider F) : List Str → ℕ → List Str → List (List Str)
  | batch, _, [] => if batch = [] then [] else [batch]
  | batch, tokens, text :: texts =>
    if P.tokenLimit < tokens + P.countTokens text ∧ batch ≠ [] then
      batch :: batches P [text] (P.countTokens text) texts
    else batches P (batch ++ [text]) (tokens + P.countTokens text) texts

def collect (reply : List Str → Reply F) : List (List Str) → Option (List (List F))
  | [] => some []
  | batch :: batches =>
    match reply batch with
    | .embeddings [] | .failed | .notStarted => none
    | .embeddings vectors => (collect reply batches).map (vectors ++ ·)

def Reply.isNotStarted : Reply F → Bool
  | .notStarted => true
  | _ => false

def uniqueKey (projectId fileHash : Str) (chunkIndex : ℕ) : Str :=
  projectId ++ '_' :: (fileHash ++ '_' :: natStr chunkIndex)

namespace Call

variable {P : Provider F}

variable (call : Call P) (H : Digests) (c : Store F)

def pointId (chunkIndex : ℕ) : Str :=
  H.md5 (encode (uniqueKey call.projectId call.fileHash chunkIndex))

def createVectorPoint (chunk : Chunk) (vector : List F) : Point (List F) Payload where
  id := call.pointId H chunk.chunkIndex
  vector := vector
  path := call.path
  body := {
    content := chunk.text
    language := call.language
    chunkIndex := chunk.chunkIndex
    totalChunks := chunk.totalChunks
    projectId := call.projectId
    fileHash := call.fileHash
    lineStart := chunk.lineStart
    lineEnd := chunk.lineEnd
    uniqueKey := uniqueKey call.projectId call.fileHash chunk.chunkIndex
    contentHash := H.sha256 (encode chunk.text) }

def regular : List Chunk := call.chunks.1.filter Chunk.imageFree

def existing : Dict ℕ (Str × List F) :=
  if call.lookup then existingContentHashes call.order c call.path else .empty

def reused (chunk : Chunk) : Option (List F) :=
  match (call.existing c).get? chunk.chunkIndex with
  | some (hash, vector) => if hash = H.sha256 (encode chunk.text) then some vector else none
  | none => none

def cachedPoints : List (Point (List F) Payload) :=
  call.regular.filterMap fun chunk => (call.reused H c chunk).map (call.createVectorPoint H chunk)

def uncached : List Chunk :=
  call.regular.filter fun chunk => (call.reused H c chunk).isNone

def embeddedPoints (filePoints : List (Chunk × List F)) : List (Point (List F) Payload) :=
  filePoints.mapIdx fun i e =>
    call.createVectorPoint H { e.1 with chunkIndex := i, totalChunks := filePoints.length } e.2

def process (L : Layout (List F)) (H : Digests) (c : Store F) : Store F × Result :=
  if call.vanished then (c, .failure .vanished)
  else if call.chunks.1 = [] then (c, .success 0)
  else
    let cachedPoints := call.cachedPoints H c
    let uncached := call.uncached H c
    let multimodal := call.chunks.1.filter fun chunk => !chunk.imageFree
    let c := if call.lookup then loadPathIndex c else c
    let batches := batches P [] 0 (uncached.map Chunk.text)
    if batches.any fun batch => (call.reply batch).isNotStarted then (c, .failure .cancelled)
    else if batches = [] ∧ multimodal = [] ∧ cachedPoints = [] then (c, .failure .noBatches)
    else match collect call.reply batches with
      | none => (c, .failure .batchFailed)
      | some embeddings =>
        if embeddings.length ≠ uncached.length then (c, .failure .countMismatch)
        else
          let filePoints := (uncached.zip embeddings).filter fun e => !e.2.isEmpty
          if filePoints = [] ∧ cachedPoints = [] then (c, .success 0)
          else match upsertPoints L c (call.embeddedPoints H filePoints ++ cachedPoints) with
            | (c, true) => (c, .success filePoints.length)
            | (c, false) => (c, .failure .writeFailed)

end Call

/-! ### Runs -/

inductive Act (P : Provider F)
  | beginIndexing
  | process (call : Call P)
  | delete (ids : List Str)
  | endIndexing (d : HnswDisk (List F)) (didFilteredRebuild : Bool) (o : EndOptions)

def store (L : Layout (List F)) (H : Digests) (P : Provider F) (fits : List F → Bool) :
    TransitionSystem (Store F) (Act P) where
  init c := c = .new
  step c
    | .beginIndexing => some c.beginIndexing
    | .process call => some (call.process L H c).1
    | .delete ids => some (c.deletePoints ids)
    | .endIndexing d didFilteredRebuild o => some (c.endIndexing fits didFilteredRebuild d o).2.1

end CodeIndexer.Indexing
