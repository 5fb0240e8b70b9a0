import CodeIndexer.Indexing.Reindex
import CodeIndexer.Indexing.Visibility

/-!
# Chunks with images

`_process_file_clean_lifecycle` embeds a chunk with images together with its valid images and writes it to a
collection of its own, by an `upsert_points` for this one point. `upsert_points` takes the points of a call for
all points of their file and drops the others, so only the last chunk stays.

`valid` says of an image that it is not remote, exists and lies in the codebase; every request for an
embedding is answered.
-/

namespace CodeIndexer.Indexing

open PyText Storage List

structure MultimodalClient (F : Type) where
  valid : Str → Bool
  embed : Str → List Str → List F

variable {F : Type} {L : Layout (List F)} {H : Digests} {P : Provider F} {M : MultimodalClient F} {c : Store F}
  {call : Call P}

namespace Call

def multimodalPoint (call : Call P) (H : Digests) (M : MultimodalClient F) (chunk : Chunk) : Point (List F) Payload :=
  call.createVectorPoint H { chunk with totalChunks := 1 } (M.embed chunk.text (chunk.images.filter M.valid))

/-- The loop over the chunks with images; it goes on after an `upsert_points` that raises. -/
def processMultimodal (call : Call P) (L : Layout (List F)) (H : Digests) (M : MultimodalClient F) (c : Store F) :
    Store F :=
  (call.chunks.1.filter fun chunk => !chunk.imageFree).foldl (fun c chunk =>
    if chunk.images.filter M.valid ≠ [] then (upsertPoints L c [call.multimodalPoint H M chunk]).1 else c) c

/-- The chunks with a valid image. -/
def illustrated (call : Call P) (M : MultimodalClient F) : List Chunk :=
  call.chunks.1.filter fun chunk => chunk.images.filter M.valid ≠ []

def multimodalPoints (call : Call P) (H : Digests) (M : MultimodalClient F) : List (Point (List F) Payload) :=
  (call.illustrated M).map (call.multimodalPoint H M)

theorem processMultimodal_eq : call.processMultimodal L H M c =
    (call.multimodalPoints H M).foldl (fun c p => (upsertPoints L c [p]).1) c := by
  rw [processMultimodal, multimodalPoints, illustrated, foldl_map, foldl_filter, foldl_filter]
  congr
  funext c chunk
  cases hfree : chunk.imageFree with
  | true => simp [isEmpty_iff.1 hfree]
  | false => simp

theorem path_of_mem_multimodalPoints {p : Point (List F) Payload} (hp : p ∈ call.multimodalPoints H M) :
    p.path = call.path := by
  obtain ⟨chunk, -, rfl⟩ := mem_map.1 hp
  rfl

theorem nodup_multimodalPoints : ((call.multimodalPoints H M).map Point.id).Nodup := by
  have hindexes : ((call.illustrated M).map Chunk.chunkIndex).Nodup :=
    List.Nodup.sublist (filter_sublist.map Chunk.chunkIndex) (call.chunks.2 ▸ nodup_range)
  have hids := hindexes.map (f := call.pointId H) fun i j => pointId_inj
  rw [map_map] at hids
  rw [multimodalPoints, map_map]
  exact hids

end Call

/-- The stored points of the file are in step, and the given ones can be written: each has a place, which is that of
the file's stored point with the same id, if there is one, and no other file is listed with its id. -/
structure Ready (L : Layout (List F)) (f : Str) (c : Store F) (points : List (Point (List F) Payload)) : Prop where
  inStep : FileInStep L c f
  placed : ∀ p ∈ points, ∃ vf, L.vectorFile p = some vf ∧
    ∀ vf' q, c.files.get? vf' = some q → q.path = f → q.id = p.id → vf' = vf
  sole : ∀ p ∈ points, ∀ g, p.id ∈ c.loadedPathIndex.getPointIds g → g = f

/-- Nothing is stored or listed for the file, and the ids of its points are new. -/
theorem ready_of_new {f : Str} {points : List (Point (List F) Payload)}
    (hfiles : ∀ e ∈ c.files.items, e.2.path ≠ f) (hplaced : ∀ p ∈ points, (L.vectorFile p).isSome = true)
    (hlisted : ∀ e ∈ c.loadedPathIndex.items, e.1 ≠ f ∧ ∀ p ∈ points, p.id ∉ e.2) : Ready L f c points := by
  have hnone : ∀ vf q, c.files.get? vf = some q → q.path ≠ f := fun vf q hq => hfiles (vf, q) (Dict.mem_items_iff.2 hq)
  refine ⟨⟨fun vf q hq hpath => absurd hpath (hnone vf q hq), fun vf q hq hpath => absurd hpath (hnone vf q hq),
    fun id hid => ?_⟩, fun p hp => ?_, fun p hp g hg => ?_⟩
  · obtain ⟨ids, hitem, -⟩ := PathIndex.exists_mem_items hid
    exact absurd rfl (hlisted _ hitem).1
  · obtain ⟨vf, hvf⟩ := Option.isSome_iff_exists.1 (hplaced p hp)
    exact ⟨vf, hvf, fun vf' q hq hpath => absurd hpath (hnone vf' q hq)⟩
  · obtain ⟨ids, hitem, hmem⟩ := PathIndex.exists_mem_items hg
    exact absurd hmem ((hlisted _ hitem).2 p hp)

namespace Ready

variable {f : Str} {p last : Point (List F) Payload} {points : List (Point (List F) Payload)}

/-- After an upsert the file has this one point. -/
theorem upsert (h : Ready L f c (p :: points)) (hf : f ≠ []) (hpath : p.path = f)
    (hnew : p.id ∉ points.map Point.id) : Ready L f (upsertPoints L c [p]).1 points ∧
      ∃ vf, L.vectorFile p = some vf ∧
        ∀ vf' q, (upsertPoints L c [p]).1.files.get? vf' = some q ∧ q.path = f ↔ vf' = vf ∧ q = p := by
  obtain ⟨vf, hvf, hplace⟩ := h.placed p mem_cons_self
  obtain ⟨c', hup, hstep, hfiles, -⟩ := h.inStep.upsert_one hf hpath hvf (h.sole p mem_cons_self) hplace
  have hone : ∀ vf' q, c'.files.get? vf' = some q ∧ q.path = f ↔ vf' = vf ∧ q = p := by
    intro vf' q
    rw [hfiles]
    constructor
    · rintro ⟨hq | hq, hqpath⟩
      · exact hq
      · exact absurd hqpath hq.2.2
    · rintro ⟨rfl, rfl⟩
      exact ⟨.inl ⟨rfl, rfl⟩, hpath⟩
  have hlisted : ∀ x g, x ∈ (upsertPoints L c [p]).1.loadedPathIndex.getPointIds g →
      x ∈ c.loadedPathIndex.getPointIds g ∨ x = p.id := fun x g hx =>
    (listed_of_upsertPoints (forall_mem_singleton.2 (hpath ▸ hf)) hx).imp_right mem_singleton.1
  rw [hup] at hlisted ⊢
  refine ⟨⟨hstep, fun q hq => ?_, fun q hq g hg => ?_⟩, vf, hvf, hone⟩
  · obtain ⟨vfq, hvfq, -⟩ := h.placed q (mem_cons_of_mem p hq)
    refine ⟨vfq, hvfq, fun vf' r hr hrpath hid => ?_⟩
    obtain ⟨-, rfl⟩ := (hone vf' r).1 ⟨hr, hrpath⟩
    exact absurd (hid ▸ mem_map_of_mem hq) hnew
  · rcases hlisted q.id g hg with hg | hid
    · exact h.sole q (mem_cons_of_mem p hq) g hg
    · exact absurd (hid ▸ mem_map_of_mem hq) hnew

/-- Of the points written one at a time, the last one stays. -/
theorem foldl_files (h : Ready L f c points) (hf : f ≠ []) (hpaths : ∀ p ∈ points, p.path = f)
    (hnodup : (points.map Point.id).Nodup) (hlast : points.getLast? = some last) :
    ∃ vf, ∀ vf' q, (points.foldl (fun c p => (upsertPoints L c [p]).1) c).files.get? vf' = some q ∧ q.path = f ↔
      vf' = vf ∧ q = last := by
  induction points generalizing c with
  | nil => cases hlast
  | cons p points ih =>
    obtain ⟨hnew, hnodup⟩ := nodup_cons.1 hnodup
    obtain ⟨hready, vf, -, hone⟩ := h.upsert hf (hpaths p mem_cons_self) hnew
    cases points with
    | nil =>
      cases hlast
      exact ⟨vf, hone⟩
    | cons p' points =>
      rw [getLast?_cons_cons] at hlast
      exact ih hready (fun q hq => hpaths q (mem_cons_of_mem p hq)) hnodup hlast

theorem held_foldl (h : Ready L f c points) (hf : f ≠ []) (hpaths : ∀ p ∈ points, p.path = f)
    (hnodup : (points.map Point.id).Nodup) (hlast : points.getLast? = some last) :
    held (points.foldl (fun c p => (upsertPoints L c [p]).1) c) f = [last] := by
  obtain ⟨vf, hone⟩ := h.foldl_files hf hpaths hnodup hlast
  obtain ⟨hget, hpath⟩ := (hone vf last).2 ⟨rfl, rfl⟩
  rw [held, Dict.filter_items_eq_singleton (Dict.mem_items_iff.2 hget) (decide_eq_true hpath), map_singleton]
  rintro ⟨vf', q⟩ hitem hq
  obtain ⟨rfl, rfl⟩ := (hone vf' q).1 ⟨Dict.mem_items_iff.1 hitem, of_decide_eq_true hq⟩
  rfl

end Ready

/-- The collection holds one point for each chunk with a valid image, and no other for the file, if and only if
there is one such chunk, or none and the file had no point before. -/
theorem multimodal_chunks_kept_iff (call : Call P) (h : Ready L call.path c (call.multimodalPoints H M)) :
    ((held (call.processMultimodal L H M c) call.path).map fun p => (p.body.content, p.body.chunkIndex)).Perm
        ((call.illustrated M).map fun chunk => (chunk.text, chunk.chunkIndex)) ↔
      (call.illustrated M).length = 1 ∨ call.illustrated M = [] ∧ held c call.path = [] := by
  rw [Call.processMultimodal_eq]
  cases hlast : (call.illustrated M).getLast? with
  | none =>
    have hnil := getLast?_eq_none_iff.1 hlast
    simp [Call.multimodalPoints, hnil]
  | some chunk =>
    have hlast' : (call.multimodalPoints H M).getLast? = some (call.multimodalPoint H M chunk) := by
      rw [Call.multimodalPoints, getLast?_map, hlast]
      rfl
    rw [h.held_foldl call.path_ne_nil (fun p => Call.path_of_mem_multimodalPoints) Call.nodup_multimodalPoints hlast']
    constructor
    · intro hperm
      have hlen := hperm.length_eq
      rw [length_map, length_map] at hlen
      exact .inl hlen.symm
    · rintro (hone | ⟨hnil, -⟩)
      · obtain ⟨a, ha⟩ := length_eq_one_iff.1 hone
        rw [ha] at hlast ⊢
        cases hlast
        exact .refl _
      · rw [hnil] at hlast
        cases hlast

/-! ### A file of chunks with one image each -/

def pictureClient : MultimodalClient ℚ := ⟨fun _ => true, fun _ images => [images.length]⟩

def pictureCall (n : ℕ) : Call lengthProvider :=
  { fileCall "h" [] with
    chunks := ⟨(List.range n).map fun i => ⟨"text", i, n, i + 1, i + 1, ["a.png"]⟩, by simp [Function.comp_def]⟩ }

/-- The collection with two pictures of `b.py`, of which one is left. -/
def otherPictures : Store ℚ :=
  Call.processMultimodal { otherCall "k" [] with chunks := (pictureCall 2).chunks } headLayout plainDigests
    pictureClient .new

theorem multimodal_chunks_kept_beside :
    otherPictures.files.items.length = 1 ∧
    ((held ((pictureCall 1).processMultimodal headLayout plainDigests pictureClient otherPictures) "a.py").map
      fun p => (p.body.content, p.body.chunkIndex)).Perm [("text".toList, 0)] := by
  refine ⟨by decide +kernel, (multimodal_chunks_kept_iff (c := otherPictures) (pictureCall 1) ?_).2 (.inl rfl)⟩
  exact ready_of_new (by decide +kernel) (by decide +kernel) (by decide +kernel)

/-- The second chunk's `upsert_points` removes the first chunk's point. -/
theorem multimodal_chunk_lost :
    ((pictureCall 2).illustrated pictureClient).length = 2 ∧
      (held ((pictureCall 2).processMultimodal headLayout plainDigests pictureClient .new) "a.py").map
        (fun p => p.body.chunkIndex) = [1] := by
  decide +kernel

end CodeIndexer.Indexing
