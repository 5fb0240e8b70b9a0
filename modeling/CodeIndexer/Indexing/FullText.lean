import CodeIndexer.Indexing.BranchChanges
import CodeIndexer.Indexing.Reindex

/-!
# The full-text index (services/tantivy_index_manager.py and the runs that fill it)

While a file is indexed, a document is added for every chunk that was embedded anew. None is added for a chunk whose
vector is reused, and none is removed: `delete_document` is called for the files that branch isolation hides, and for
no others. So the documents of a file follow it if the chunks it reuses are all those it had when it was indexed last;
a chunk that was edited, and a file that is empty now, keep their old documents.

Documents are counted from the moment they are added: a run commits them when it ends. The files on disk do not
change while a run reads them.
-/

namespace CodeIndexer.FullText

open PyText Storage Indexing TransitionSystem Function List

variable {F : Type} {P : Provider F}

/-! ### Documents -/

/-- What Tantivy makes of an index that is created where one exists, and of a path that is parsed as a query: it raises,
or gives a query for the `path` of a document. -/
structure Tantivy where
  startsEmpty : Bool
  parseQuery : Str → Option (Str → Bool)

def Tantivy.hits (T : Tantivy) (filePath path : Str) : Bool := (T.parseQuery filePath).any fun query => query path

structure Document where
  path : Str
  content : Str
  contentRaw : Str
  identifiers : Str
  lineStart : ℕ
  lineEnd : ℕ
  language : Str
deriving DecidableEq

def Document.view (d : Document) : Str × ℕ × ℕ := (d.contentRaw, d.lineStart, d.lineEnd)

def lines (chunk : Chunk) : Str × ℕ × ℕ := (chunk.text, chunk.lineStart, chunk.lineEnd)

def documentsOf (docs : List Document) (path : Str) : List (Str × ℕ × ℕ) :=
  (docs.filter (·.path = path)).map Document.view

def filePoints (call : Call P) (H : Digests) (c : Store F) : List (Chunk × List F) :=
  match collect call.reply (batches P [] 0 ((call.uncached H c).map Chunk.text)) with
  | none => []
  | some embeddings => ((call.uncached H c).zip embeddings).filter fun e => !e.2.isEmpty

def document (call : Call P) (chunk : Chunk) : Document where
  path := call.path
  content := chunk.text
  contentRaw := chunk.text
  identifiers := [' '].intercalate (split chunk.text)
  lineStart := chunk.lineStart
  lineEnd := chunk.lineEnd
  language := call.language

def documents (call : Call P) (H : Digests) (c : Store F) (raises : ℕ → Bool) : List Document :=
  ((filePoints call H c).zipIdx.filter fun e => !raises e.2).map fun e => document call e.1.1

/-- If the path cannot be parsed, nothing is deleted. -/
def deleteDocument (T : Tantivy) (docs : List Document) (filePath : Str) : List Document :=
  match T.parseQuery filePath with
  | none => docs
  | some query => docs.filter fun d => !query d.path

/-! ### Runs -/

/-- The ways `smart_index` takes. The first three are full: forced, because the configuration has changed, and because
no earlier index is found. -/
inductive Mode
  | forced
  | changedConfiguration
  | noPreviousIndex
  | incremental (deletedFiles : List Str)
  | branchChange (unchangedFiles : List Str)
  | resume
  | reconcile
deriving DecidableEq

namespace Mode

def isFull : Mode → Bool
  | .forced | .changedConfiguration | .noPreviousIndex => true
  | .incremental _ | .branchChange _ | .resume | .reconcile => false

def skipsMissing : Mode → Bool
  | .branchChange _ | .resume | .reconcile => true
  | .forced | .changedConfiguration | .noPreviousIndex | .incremental _ => false

def passesIndex : Mode → Bool
  | .noPreviousIndex | .reconcile => false
  | .forced | .changedConfiguration | .incremental _ | .branchChange _ | .resume => true

end Mode

structure Run where
  mode : Mode
  gitAvailable : Bool
  selected : List Str
  todo : List Str
  failed : Bool

/-- Whether documents of hidden files are deleted. An incremental run that finds nothing to do returns before that. -/
def Run.isolates (r : Run) : Bool :=
  match r.mode with
  | .forced | .changedConfiguration => r.gitAvailable
  | .incremental deletedFiles => r.gitAvailable && !(r.selected.isEmpty && deletedFiles.isEmpty)
  | .branchChange _ => true
  | .noPreviousIndex | .resume | .reconcile => false

/-- `disk` is what the last run found, `indexed` what each file was when it was indexed last, and `failed` whether the
last run failed, was cancelled, or had files that failed. -/
structure State (F : Type) where
  store : Store F
  docs : List Document
  disk : Dict Str Chunks
  indexed : Dict Str Chunks
  run : Option Run
  failed : Bool

inductive Act (P : Provider F)
  | start (mode : Mode) (gitAvailable : Bool) (disk : Dict Str Chunks) (selected : List Str)
  | process (call : Call P) (raises : ℕ → Bool)
  | finish (d : HnswDisk (List F)) (didFilteredRebuild : Bool) (o : EndOptions)
  | cancel

namespace State

variable (s : State F)

def found : List Str := s.disk.items.map Prod.fst

def contentPoint (p : Point (List F) Payload) : Point (List F) (Fields Payload) :=
  ⟨p.id, p.vector, p.path, ⟨some "content", none, p.body⟩⟩

def filesToHide (project : Project) (r : Run) : List Str :=
  project.filesToHide (s.store.points.map contentPoint) <|
    match r.mode with
    | .branchChange unchangedFiles => r.selected ++ unchangedFiles
    | _ => s.found

def start (T : Tantivy) (mode : Mode) (gitAvailable : Bool) (disk : Dict Str Chunks) (selected : List Str) : State F :=
  let files := if mode.isFull then disk.items.map Prod.fst else selected
  { store := (if mode.isFull then .new else s.store).beginIndexing
    docs := if mode = .forced ∧ T.startsEmpty = true then [] else s.docs
    disk := disk
    indexed := if mode.isFull then .empty else s.indexed
    run := some ⟨mode, gitAvailable, files,
      files.filter fun f => !mode.skipsMissing || f ∈ disk.items.map Prod.fst, false⟩
    failed := false }

def process (L : Layout (List F)) (H : Digests) (r : Run) (call : Call P) (raises : ℕ → Bool) : State F :=
  let r := { r with todo := r.todo.filter (· ≠ call.path) }
  match call.process L H s.store with
  | (c, .success _) =>
    { s with
      store := c
      docs := if r.mode.passesIndex then s.docs ++ documents call H s.store raises else s.docs
      indexed := s.indexed.set call.path call.chunks
      run := some r }
  | (c, .failure _) => { s with store := c, run := some { r with failed := true } }

def finish (T : Tantivy) (project : Project) (r : Run) (c : Store F) : State F :=
  { s with
    store := c
    docs := if r.isolates then (s.filesToHide project r).foldl (deleteDocument T) s.docs else s.docs
    indexed := ((s.indexed.items.filter fun e => e.1 ∉ s.found).map Prod.fst).foldl Dict.erase s.indexed
    run := none
    failed := r.failed }

end State

/-- Runs one after another. A full run without files raises, and a run is finished when no file is left. -/
def fullText (L : Layout (List F)) (H : Digests) (P : Provider F) (T : Tantivy) (project : Project)
    (fits : List F → Bool) : TransitionSystem (State F) (Act P) where
  init s := s = ⟨.new, [], .empty, .empty, none, false⟩
  step s
    | .start mode gitAvailable disk selected =>
      match s.run with
      | none => some (s.start T mode gitAvailable disk selected)
      | some _ => none
    | .process call raises =>
      match s.run with
      | none => none
      | some r =>
        if call.path ∈ r.todo ∧ (call.vanished = false → s.disk.get? call.path = some call.chunks) then
          some (s.process L H r call raises)
        else none
    | .finish d didFilteredRebuild o =>
      match s.run with
      | none => none
      | some r =>
        if r.todo = [] ∧ (r.mode.isFull = true → r.selected ≠ []) then
          some (s.finish T project r (s.store.endIndexing fits didFilteredRebuild d o).2.1)
        else none
    | .cancel =>
      match s.run with
      | none => none
      | some _ => some { s with run := none, failed := true }

namespace State

def expected (chunks : Option Chunks) : List (Str × ℕ × ℕ) :=
  chunks.elim [] fun chunks => (chunks.1.filter Chunk.imageFree).map lines

/-- The documents of every path are those of the chunks of the file on disk. -/
def Follows (s : State F) : Prop := ∀ path, (documentsOf s.docs path).Perm (expected (s.disk.get? path))

/-- What has to hold before a step. A run is given the files that are not indexed as they are; a full run starts with
no document. The chunks that a file reuses are those it had when it was indexed last, and no document of the others is
refused. When a run ends, the files that are gone and had chunks are hidden, their paths are queries that find them, and
no query for a hidden file finds a file that is there. -/
def Tracks (H : Digests) (T : Tantivy) (project : Project) (s : State F) : Act P → Prop
  | .start mode _ disk selected =>
    mode.passesIndex = true ∧ (mode.isFull = true → s.docs = [] ∨ mode = .forced ∧ T.startsEmpty = true) ∧
      (mode.isFull = false → ∀ e ∈ disk.items, e.1 ∉ selected → s.indexed.get? e.1 = some e.2)
  | .process call raises =>
    (expected (s.indexed.get? call.path)).Perm
        ((call.regular.filter fun chunk => (call.reused H s.store chunk).isSome).map lines) ∧
      ∀ i < call.regular.length, raises i = false
  | .finish .. => ∀ r ∈ s.run, ∀ e ∈ s.indexed.items, expected (some e.2) ≠ [] →
      (e.1 ∉ s.found → r.isolates = true ∧ e.1 ∈ s.filesToHide project r ∧ T.hits e.1 e.1 = true) ∧
      (e.1 ∈ s.found → r.isolates = true → ∀ f ∈ s.filesToHide project r, T.hits f e.1 = false)
  | .cancel => True

instance {H : Digests} {T : Tantivy} {project : Project} {s : State F} : (a : Act P) →
    Decidable (s.Tracks H T project a)
  | .start .. => inferInstanceAs (Decidable (_ ∧ _ ∧ _))
  | .process .. => inferInstanceAs (Decidable (_ ∧ _))
  | .finish .. => inferInstanceAs (Decidable (∀ _ ∈ s.run, _))
  | .cancel => .isTrue trivial

end State

/-! ### What the parts do -/

section Parts

variable {L : Layout (List F)} {H : Digests} {T : Tantivy} {c : Store F} {call : Call P}

variable {n : ℕ} {raises : ℕ → Bool}

theorem map_fst_filePoints (hok : (call.process L H c).2 = .success n) :
    (filePoints call H c).map Prod.fst = call.uncached H c := by
  unfold filePoints
  cases hcollect : collect call.reply (batches P [] 0 ((call.uncached H c).map Chunk.text)) with
  | some embeddings =>
    dsimp only
    rw [collect_eq call.reply_eq hcollect, flatten_batches, nil_append, Call.filter_zip_embed, map_map]
    exact map_id _
  | none =>
    unfold Call.process at hok
    split at hok
    · cases hok
    · split at hok
      · -- Without chunks nothing is embedded.
        rename_i hnil
        rw [Call.uncached, Call.regular, hnil] at hcollect
        cases hcollect
      · dsimp only at hok
        split at hok
        · cases hok
        · split at hok
          · cases hok
          · rw [hcollect] at hok
            cases hok

theorem vanished_eq_false (hok : (call.process L H c).2 = .success n) : call.vanished = false := by
  unfold Call.process at hok
  split at hok
  · cases hok
  · rename_i hthere
    exact Bool.eq_false_iff.2 hthere

theorem path_of_mem_documents {d : Document} (hd : d ∈ documents call H c raises) : d.path = call.path := by
  obtain ⟨e, -, rfl⟩ := mem_map.1 hd
  rfl

theorem map_view_documents (hok : (call.process L H c).2 = .success n)
    (hraises : ∀ i < call.regular.length, raises i = false) :
    (documents call H c raises).map Document.view = (call.uncached H c).map lines := by
  have hfst := map_fst_filePoints hok
  have hlen : (filePoints call H c).length ≤ call.regular.length := by
    rw [← length_map Prod.fst, hfst]
    exact length_filter_le _ _
  have hall : ((filePoints call H c).zipIdx.filter fun e => !raises e.2) = (filePoints call H c).zipIdx := by
    refine filter_eq_self.2 fun e he => ?_
    rw [hraises e.2 ((snd_lt_of_mem_zipIdx he).trans_le (by omega))]
    rfl
  calc (documents call H c raises).map Document.view
      = ((filePoints call H c).zipIdx.map Prod.fst).map fun e => lines e.1 := by
        rw [documents, hall, map_map, map_map]
        rfl
    _ = ((filePoints call H c).map Prod.fst).map lines := by
        rw [zipIdx_map_fst, map_map]
        rfl
    _ = (call.uncached H c).map lines := by rw [hfst]

theorem documentsOf_append (docs docs' : List Document) (path : Str) :
    documentsOf (docs ++ docs') path = documentsOf docs path ++ documentsOf docs' path := by
  rw [documentsOf, filter_append, map_append]
  rfl

theorem documentsOf_onePath {docs : List Document} {f : Str} (hdocs : ∀ d ∈ docs, d.path = f) (path : Str) :
    documentsOf docs path = if path = f then docs.map Document.view else [] := by
  rw [documentsOf]
  split
  · rename_i heq
    rw [filter_eq_self.2 fun d hd => decide_eq_true ((hdocs d hd).trans heq.symm)]
  · rename_i hne
    rw [filter_eq_nil_iff.2 fun d hd hpath => hne ((of_decide_eq_true hpath).symm.trans (hdocs d hd))]
    rfl

theorem documentsOf_filter (docs : List Document) (found : List Str) (path : Str) :
    documentsOf (docs.filter fun d => d.path ∈ found) path = if path ∈ found then documentsOf docs path else [] := by
  rw [documentsOf, documentsOf, filter_filter]
  split
  · rename_i hfound
    refine congrArg _ (filter_congr fun d _ => ?_)
    by_cases hpath : d.path = path
    · rw [hpath, decide_eq_true hfound, Bool.and_true]
    · rw [decide_eq_false hpath, Bool.false_and]
  · rename_i hgone
    rw [filter_eq_nil_iff.2 fun d _ hd => hgone ?_]
    · rfl
    · obtain ⟨hpath, hfound⟩ := Bool.and_eq_true_iff.1 hd
      exact of_decide_eq_true hpath ▸ of_decide_eq_true hfound

theorem foldl_deleteDocument (files : List Str) (docs : List Document) :
    files.foldl (deleteDocument T) docs = docs.filter fun d => files.all fun f => !T.hits f d.path := by
  induction files generalizing docs with
  | nil => simp
  | cons f files ih =>
    have hone : deleteDocument T docs f = docs.filter fun d => !T.hits f d.path := by
      unfold deleteDocument Tantivy.hits
      cases T.parseQuery f with
      | none => simp
      | some query => rfl
    rw [foldl_cons, ih, hone, filter_filter]
    refine filter_congr fun d _ => ?_
    rw [all_cons, Bool.and_comm]

theorem perm_regular (call : Call P) (H : Digests) (c : Store F) :
    (((call.regular.filter fun chunk => (call.reused H c chunk).isSome).map lines) ++
      (call.uncached H c).map lines).Perm (call.regular.map lines) := by
  rw [← map_append]
  refine List.Perm.map lines ?_
  have hnew : call.uncached H c = call.regular.filter fun chunk => !(call.reused H c chunk).isSome := by
    rw [Call.uncached]
    refine filter_congr fun chunk _ => ?_
    rw [Option.not_isSome]
  rw [hnew]
  exact filter_append_perm _ _

end Parts

/-! ### The documents follow the files -/

namespace State

def pending (s : State F) : List Str := s.run.elim [] Run.todo

def hasFailed (s : State F) : Bool := s.run.elim s.failed Run.failed

/-- The documents are those of the files as they were indexed last. As long as no file has failed, a file that is not
left to the run was indexed as it is, and between runs no other file counts as indexed. -/
structure Tracked (s : State F) : Prop where
  passes : ∀ r ∈ s.run, r.mode.passesIndex = true
  docs : ∀ path, (documentsOf s.docs path).Perm (expected (s.indexed.get? path))
  fresh : s.hasFailed = false → ∀ path ∈ s.found, path ∉ s.pending → s.indexed.get? path = s.disk.get? path
  gone : s.run = none → s.failed = false → ∀ path ∉ s.found, s.indexed.get? path = none

variable {L : Layout (List F)} {H : Digests} {T : Tantivy} {project : Project} {s : State F} {r : Run}

variable {path : Str}

theorem mem_found : path ∈ s.found ↔ ∃ chunks, s.disk.get? path = some chunks := by
  rw [found, mem_map]
  constructor
  · rintro ⟨⟨path, chunks⟩, he, rfl⟩
    exact ⟨chunks, Dict.mem_items_iff.1 he⟩
  · rintro ⟨chunks, hget⟩
    exact ⟨(path, chunks), Dict.mem_items_iff.2 hget, rfl⟩

theorem Tracked.follows (h : s.Tracked) (hidle : s.run = none) (hok : s.failed = false) : s.Follows := by
  intro path
  have hdocs := h.docs path
  by_cases hfound : path ∈ s.found
  · have hfresh := h.fresh (by rw [hasFailed, hidle]; exact hok) path hfound
      (by rw [pending, hidle]; exact not_mem_nil)
    rwa [hfresh] at hdocs
  · rw [h.gone hidle hok path hfound] at hdocs
    have hnone : s.disk.get? path = none :=
      Option.eq_none_iff_forall_ne_some.2 fun chunks hget => hfound (mem_found.2 ⟨chunks, hget⟩)
    rwa [hnone]

theorem Tracked.start (h : s.Tracked) {mode : Mode} {gitAvailable : Bool} {disk : Dict Str Chunks}
    {selected : List Str} (ha : s.Tracks H T project (.start mode gitAvailable disk selected : Act P)) :
    (s.start T mode gitAvailable disk selected).Tracked := by
  obtain ⟨hpasses, hfull, hselected⟩ := ha
  refine ⟨fun r hr => ?_, fun path => ?_, fun _ path hpath htodo => ?_, fun hrun => ?_⟩
  · cases hr
    exact hpasses
  · cases hmode : mode.isFull with
    | true =>
      have hnil : (s.start T mode gitAvailable disk selected).docs = [] := by
        unfold State.start
        dsimp only
        split
        · rfl
        · rename_i hkept
          exact (hfull hmode).resolve_right hkept
      rw [hnil, show (s.start T mode gitAvailable disk selected).indexed = .empty by
        simp only [State.start, hmode, if_true]]
      exact .refl _
    | false =>
      have hforced : ¬ (mode = .forced ∧ T.startsEmpty = true) := by
        rintro ⟨rfl, -⟩
        cases hmode
      have hdocs := h.docs path
      rwa [show (s.start T mode gitAvailable disk selected).docs = s.docs from if_neg hforced,
        show (s.start T mode gitAvailable disk selected).indexed = s.indexed by
          simp only [State.start, hmode, Bool.false_eq_true, if_false]]
  · obtain ⟨chunks, hget⟩ := mem_found.1 hpath
    have hskipped : path ∉ if mode.isFull then disk.items.map Prod.fst else selected := by
      intro hmem
      refine htodo (mem_filter.2 ⟨hmem, Bool.or_eq_true_iff.2 (.inr ?_)⟩)
      exact decide_eq_true hpath
    cases hmode : mode.isFull with
    | true =>
      rw [hmode] at hskipped
      exact absurd hpath hskipped
    | false =>
      rw [hmode] at hskipped
      have hindexed := hselected hmode (path, chunks) (Dict.mem_items_iff.2 hget) hskipped
      rw [hget, ← hindexed]
      simp only [State.start, hmode, Bool.false_eq_true, if_false]
  · cases hrun

theorem Tracked.process (h : s.Tracked) {call : Call P} {raises : ℕ → Bool} (hr : s.run = some r)
    (hdisk : call.vanished = false → s.disk.get? call.path = some call.chunks)
    (ha : s.Tracks H T project (.process call raises)) :
    (s.process L H r call raises).Tracked := by
  obtain ⟨hreused, hraises⟩ := ha
  have hpasses := h.passes r hr
  have hfresh : ∀ path ∈ s.found, path ∉ r.todo → r.failed = false → s.indexed.get? path = s.disk.get? path := by
    intro path hpath htodo hok
    exact h.fresh (by rw [hasFailed, hr]; exact hok) path hpath (by rw [pending, hr]; exact htodo)
  unfold State.process
  cases hres : call.process L H s.store with
  | mk c result =>
    cases result with
    | success n =>
      have hok : (call.process L H s.store).2 = .success n := by rw [hres]
      refine ⟨fun r' hr' => ?_, fun path => ?_, fun hok' path hpath htodo => ?_, fun hrun => ?_⟩
      · cases hr'
        exact hpasses
      · simp only [hpasses, if_true, documentsOf_append]
        rw [documentsOf_onePath (fun d hd => path_of_mem_documents hd)]
        by_cases hpath : path = call.path
        · subst hpath
          rw [if_pos rfl, map_view_documents hok hraises, Dict.get?_set_self]
          exact (((h.docs call.path).trans hreused).append_right _).trans (perm_regular call H s.store)
        · rw [if_neg hpath, append_nil, Dict.get?_set_of_ne _ _ hpath]
          exact h.docs path
      · by_cases hcall : path = call.path
        · subst hcall
          exact (Dict.get?_set_self ..).trans (hdisk (vanished_eq_false hok)).symm
        · rw [show s.disk.get? path = s.indexed.get? path from (hfresh path hpath (fun hmem => htodo ?_) hok').symm]
          · exact Dict.get?_set_of_ne _ _ hcall
          · exact mem_filter.2 ⟨hmem, decide_eq_true hcall⟩
      · cases hrun
    | failure e =>
      refine ⟨fun r' hr' => ?_, h.docs, fun hok => ?_, fun hrun => ?_⟩
      · cases hr'
        exact hpasses
      · cases hok
      · cases hrun

/-- A document is of a file that had chunks when it was indexed last. -/
theorem Tracked.exists_indexed (h : s.Tracked) {d : Document} (hd : d ∈ s.docs) :
    ∃ e ∈ s.indexed.items, e.1 = d.path ∧ expected (some e.2) ≠ [] := by
  have hmem : d.view ∈ expected (s.indexed.get? d.path) :=
    (h.docs d.path).mem_iff.1 (mem_map_of_mem (mem_filter.2 ⟨hd, decide_eq_true rfl⟩))
  cases hget : s.indexed.get? d.path with
  | none =>
    rw [hget] at hmem
    cases hmem
  | some chunks =>
    rw [hget] at hmem
    exact ⟨(d.path, chunks), Dict.mem_items_iff.2 hget, rfl, ne_nil_of_mem hmem⟩

theorem get?_indexed_finish (c : Store F) (path : Str) :
    (s.finish T project r c).indexed.get? path = if path ∈ s.found then s.indexed.get? path else none := by
  refine Option.ext fun chunks => ?_
  rw [← Dict.mem_items_iff, State.finish, Dict.mem_foldl_erase_filter, Dict.mem_items_iff]
  by_cases hfound : path ∈ s.found <;> simp [hfound]

section Finish

variable {c : Store F} (ha : ∀ e ∈ s.indexed.items, expected (some e.2) ≠ [] →
  (e.1 ∉ s.found → r.isolates = true ∧ e.1 ∈ s.filesToHide project r ∧ T.hits e.1 e.1 = true) ∧
  (e.1 ∈ s.found → r.isolates = true → ∀ f ∈ s.filesToHide project r, T.hits f e.1 = false))

include ha

theorem Tracked.docs_finish (h : s.Tracked) :
    (s.finish T project r c).docs = s.docs.filter fun d => d.path ∈ s.found := by
  have hone : ∀ d ∈ s.docs,
      (d.path ∉ s.found → r.isolates = true ∧ d.path ∈ s.filesToHide project r ∧ T.hits d.path d.path = true) ∧
      (d.path ∈ s.found → r.isolates = true → ∀ f ∈ s.filesToHide project r, T.hits f d.path = false) := by
    intro d hd
    obtain ⟨e, he, hpath, hchunks⟩ := h.exists_indexed hd
    exact hpath ▸ ha e he hchunks
  unfold State.finish
  dsimp only
  split
  · rename_i hisolates
    rw [foldl_deleteDocument]
    refine filter_congr fun d hd => ?_
    obtain ⟨hgone, hkept⟩ := hone d hd
    by_cases hfound : d.path ∈ s.found
    · rw [decide_eq_true hfound, all_eq_true]
      intro f hf
      rw [hkept hfound hisolates f hf]
      rfl
    · obtain ⟨-, hhidden, hhit⟩ := hgone hfound
      rw [decide_eq_false hfound, all_eq_false]
      exact ⟨d.path, hhidden, by rw [hhit]; exact Bool.noConfusion⟩
  · rename_i hisolates
    refine (filter_eq_self.2 fun d hd => decide_eq_true ?_).symm
    by_contra hgone
    exact hisolates ((hone d hd).1 hgone).1

theorem Tracked.finish (h : s.Tracked) (hr : s.run = some r) (htodo : r.todo = []) :
    (s.finish T project r c).Tracked := by
  refine ⟨fun r' hr' => ?_, fun path => ?_, fun hok path hpath _ => ?_, fun _ _ path hgone => ?_⟩
  · cases hr'
  · rw [h.docs_finish ha, documentsOf_filter, get?_indexed_finish]
    split
    · exact h.docs path
    · exact .refl _
  · have hfound : path ∈ s.found := hpath
    rw [get?_indexed_finish, if_pos hfound]
    refine h.fresh ?_ path hfound ?_
    · rw [hasFailed, hr]
      exact hok
    · rw [pending, hr, Option.elim_some, htodo]
      exact not_mem_nil
  · exact (get?_indexed_finish c path).trans (if_neg hgone)

end Finish

theorem Tracked.of_reachable {fits : List F → Bool}
    (h : (fullText L H P T project fits).Reachable (Tracks H T project) s) : s.Tracked := by
  refine h.invariant (I := Tracked) (fun s hs => ?_) fun s a s' htracked ha hs => ?_
  · obtain rfl := hs
    refine ⟨fun r hr => ?_, fun path => .refl _, fun _ path hpath => ?_, fun _ _ _ _ => rfl⟩
    · cases hr
    · cases hpath
  · cases a with
    | start mode gitAvailable disk selected =>
      dsimp only [fullText] at hs
      split at hs <;> cases hs
      exact htracked.start ha
    | process call raises =>
      dsimp only [fullText] at hs
      split at hs
      · cases hs
      · rename_i r hr
        split at hs
        · rename_i hguard
          cases hs
          exact htracked.process hr hguard.2 ha
        · cases hs
    | finish d didFilteredRebuild o =>
      dsimp only [fullText] at hs
      split at hs
      · cases hs
      · rename_i r hr
        split at hs
        · rename_i hguard
          cases hs
          exact htracked.finish (ha r hr) hr hguard.1
        · cases hs
    | cancel =>
      dsimp only [fullText] at hs
      split at hs <;> cases hs
      refine ⟨fun r hr => ?_, htracked.docs, fun hok => ?_, fun _ hok => ?_⟩
      · cases hr
      · cases hok
      · cases hok

def exactTantivy : Tantivy := ⟨true, fun filePath => some fun path => path = filePath⟩

def filesA (texts : List Str) : Dict Str Chunks := Dict.empty.set "a.py" (textChunks texts)

def filesAB (texts texts' : List Str) : Dict Str Chunks := (filesA texts).set "b.py" (textChunks texts')

def finishRun : Act lengthProvider := .finish ⟨none, none⟩ false ⟨true, false, true⟩

def forcedRun : List (Act lengthProvider) :=
  [.start .forced true (filesAB ["a"] ["x"]) [], .process (fileCall "h1" ["a"]) fun _ => false,
    .process (otherCall "h2" ["x"]) fun _ => false, finishRun]

theorem not_follows (h : (documentsOf s.docs path).length ≠ (expected (s.disk.get? path)).length) : ¬ s.Follows :=
  fun hfollows => h (hfollows path).length_eq

end State

end CodeIndexer.FullText
