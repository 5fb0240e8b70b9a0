import CodeIndexer.Indexing.CleanStore

/-!
# When re-indexing leaves exactly the file's chunks

The chunks that are embedded anew are numbered from 0 in a list of their own. They keep their chunk indexes
if and only if no chunk that is reused or has images comes before one of them (`InOrder`); otherwise two
chunks get one point id, or a chunk gets another's index. A file without image-free chunks is not written
at all, so its old points stay. A vector file whose id is used again for another embedding stays as well
(`SameFile`), and so does one whose id another source file shares (`Unshared`).
-/

namespace CodeIndexer.Indexing

open PyText Storage TransitionSystem List

/-! ### Numbered lists -/

section Numbered

variable {α : Type*} {index : α → ℕ} {l : List α} {p : α → Bool}

section

variable (h : l.map index = List.range l.length)
include h

theorem eq_of_index_eq {a b : α} (ha : a ∈ l) (hb : b ∈ l) (hab : index a = index b) : a = b :=
  inj_on_of_nodup_map (h ▸ nodup_range) ha hb hab

theorem index_lt_of_closed
    (hclosed : ∀ a ∈ l, ∀ b ∈ l, index a < index b → p b = true → p a = true) {b : α} (hb : b ∈ l.filter p) :
    index b < (l.filter p).length := by
  obtain ⟨hbl, hbp⟩ := mem_filter.1 hb
  have hsub : List.range (index b + 1) ⊆ (l.filter p).map index := by
    intro k hk
    have hk : k ≤ index b := Nat.lt_succ_iff.1 (mem_range.1 hk)
    have hlt : index b < l.length := mem_range.1 (h ▸ mem_map_of_mem hbl)
    obtain ⟨a, ha, rfl⟩ := mem_map.1 (h ▸ mem_range.2 (Nat.lt_of_le_of_lt hk hlt) : k ∈ l.map index)
    refine mem_map_of_mem (mem_filter.2 ⟨ha, ?_⟩)
    rcases Nat.lt_or_eq_of_le hk with hlt | heq
    · exact hclosed a ha b hbl hlt hbp
    · rwa [eq_of_index_eq h ha hbl heq]
  have hlen := (nodup_range.subperm hsub).length_le
  rw [length_range, length_map] at hlen
  exact hlen

theorem filter_map_eq_range (hlt : ∀ b ∈ l.filter p, index b < (l.filter p).length) :
    (l.filter p).map index = List.range (l.filter p).length := by
  have hsub : ((l.filter p).map index).Sublist (List.range l.length) := h ▸ filter_sublist.map index
  have hperm : ((l.filter p).map index).Perm (List.range (l.filter p).length) := by
    refine ((nodup_range.sublist hsub).subperm fun k hk => ?_).perm_of_length_le (by simp)
    obtain ⟨b, hb, rfl⟩ := mem_map.1 hk
    exact mem_range.2 (hlt b hb)
  exact hperm.eq_of_pairwise (fun a b _ _ hab hba => absurd hba (Nat.lt_asymm hab))
    (pairwise_lt_range.sublist hsub) pairwise_lt_range

theorem closed_of_filter_map_eq_range (hrange : (l.filter p).map index = List.range (l.filter p).length) :
    ∀ a ∈ l, ∀ b ∈ l, index a < index b → p b = true → p a = true := by
  intro a ha b hb hab hbp
  have hblt : index b < (l.filter p).length :=
    mem_range.1 (hrange ▸ mem_map_of_mem (mem_filter.2 ⟨hb, hbp⟩))
  obtain ⟨a', ha', heq⟩ := mem_map.1
    (hrange ▸ mem_range.2 (hab.trans hblt) : index a ∈ (l.filter p).map index)
  obtain ⟨ha'l, ha'p⟩ := mem_filter.1 ha'
  rwa [← eq_of_index_eq h ha'l ha heq]

end

end Numbered

variable {F : Type} {L : Layout (List F)} {H : Digests} {P : Provider F} {c c' : Store F}

/-! ### The points of the current chunks -/

def held (c : Store F) (path : Str) : List (Point (List F) Payload) :=
  (c.files.items.filter fun e => e.2.path = path).map Prod.snd

def view (p : Point (List F) Payload) : Str × ℕ × ℕ × ℕ × List F :=
  (p.body.contentHash, p.body.chunkIndex, p.body.lineStart, p.body.lineEnd, p.vector)

def Chunk.view (H : Digests) (P : Provider F) (chunk : Chunk) : Str × ℕ × ℕ × ℕ × List F :=
  (H.sha256 (encode chunk.text), chunk.chunkIndex, chunk.lineStart, chunk.lineEnd, P.embed chunk.text)

namespace Call

variable (call : Call P)

/-- The points held for the file are those of its image-free chunks, one for each. -/
def Exact (H : Digests) (c : Store F) : Prop :=
  ((held c call.path).map Indexing.view).Perm (call.regular.map (Chunk.view H P))

def isNew (H : Digests) (c : Store F) (chunk : Chunk) : Bool :=
  chunk.imageFree && (call.reused H c chunk).isNone

/-- No chunk that is reused or has images comes before one that is embedded anew. -/
def InOrder (H : Digests) (c : Store F) : Prop :=
  ∀ a ∈ call.chunks.1, ∀ b ∈ call.chunks.1, a.chunkIndex < b.chunkIndex →
    call.isNew H c b = true → call.isNew H c a = true

/-- A vector file of the source file whose id an image-free chunk gets is where that chunk's embedding puts it. -/
def SameFile (L : Layout (List F)) (H : Digests) (c : Store F) : Prop :=
  ∀ e ∈ c.files.items, e.2.path = call.path → ∀ chunk ∈ call.regular, e.2.id = call.pointId H chunk.chunkIndex →
    L.vectorFile (call.createVectorPoint H chunk (P.embed chunk.text)) = some e.1

def Unshared (H : Digests) (c : Store F) : Prop :=
  ∀ e ∈ c.loadedPathIndex.items, e.1 ≠ call.path → ∀ chunk ∈ call.regular, call.pointId H chunk.chunkIndex ∉ e.2

instance (call : Call P) : Decidable (call.InOrder H c) := inferInstanceAs (Decidable (∀ _ ∈ _, _))
instance (call : Call P) : Decidable (call.SameFile L H c) := inferInstanceAs (Decidable (∀ _ ∈ _, _))
instance (call : Call P) : Decidable (call.Unshared H c) := inferInstanceAs (Decidable (∀ _ ∈ _, _))

end Call

/-- Earlier calls were in order and shared no id with another file or embedding. -/
def Orderly (L : Layout (List F)) (H : Digests) (c : Store F) : Act P → Prop
  | .process call => call.InOrder H c ∧ call.SameFile L H c ∧ call.Unshared H c
  | .beginIndexing | .delete _ | .endIndexing .. => True

instance : (a : Act P) → Decidable (Orderly L H c a)
  | .process _ => inferInstanceAs (Decidable (_ ∧ _ ∧ _))
  | .beginIndexing | .delete _ | .endIndexing .. => .isTrue trivial

variable {path : Str}

theorem mem_held {p : Point (List F) Payload} : p ∈ held c path ↔ ∃ vf, c.files.get? vf = some p ∧ p.path = path := by
  rw [held, mem_map]
  constructor
  · rintro ⟨⟨vf, q⟩, he, rfl⟩
    obtain ⟨hitem, hpath⟩ := mem_filter.1 he
    exact ⟨vf, Dict.mem_items_iff.1 hitem, of_decide_eq_true hpath⟩
  · rintro ⟨vf, hp, hpath⟩
    exact ⟨(vf, p), mem_filter.2 ⟨Dict.mem_items_iff.2 hp, decide_eq_true hpath⟩, rfl⟩

theorem nodup_held_iff : ((held c path).map view).Nodup ↔
    ∀ vf vf' p p', c.files.get? vf = some p → p.path = path → c.files.get? vf' = some p' → p'.path = path →
      view p = view p' → vf = vf' := by
  have hitems : (c.files.items.filter fun e => e.2.path = path).Nodup :=
    (List.Nodup.of_map Prod.fst c.files.nodup).filter _
  have hmem {vf : FileKey} {p : Point (List F) Payload} (hp : c.files.get? vf = some p) (hpath : p.path = path) :
      (vf, p) ∈ c.files.items.filter fun e => e.2.path = path :=
    mem_filter.2 ⟨Dict.mem_items_iff.2 hp, decide_eq_true hpath⟩
  rw [held, map_map]
  constructor
  · intro h vf vf' p p' hp hpath hp' hpath' hview
    exact congrArg Prod.fst (inj_on_of_nodup_map h (hmem hp hpath) (hmem hp' hpath') hview)
  · intro h
    refine hitems.map_on fun e he e' he' hview => ?_
    obtain ⟨he, hpath⟩ := mem_filter.1 he
    obtain ⟨he', hpath'⟩ := mem_filter.1 he'
    have hp := Dict.mem_items_iff.1 he
    have hp' := Dict.mem_items_iff.1 he'
    have hvf := h e.1 e'.1 e.2 e'.2 hp (of_decide_eq_true hpath) hp' (of_decide_eq_true hpath') hview
    refine Prod.ext hvf (Option.some.inj ?_)
    rw [← hp, ← hp', hvf]

/-! ### What a call writes -/

theorem flatten_batches (P : Provider F) (batch : List Str) (tokens : ℕ) (texts : List Str) :
    (batches P batch tokens texts).flatten = batch ++ texts := by
  induction texts generalizing batch tokens with
  | nil =>
    unfold batches
    split
    · rename_i hnil
      simp [hnil]
    · simp
  | cons text texts ih =>
    unfold batches
    split <;> simp [ih]

theorem collect_eq {embed : Str → List F} {reply : List Str → Reply F}
    (hreply : ∀ batch vectors, reply batch = .embeddings vectors → vectors = batch.map embed) {bs : List (List Str)}
    {vectors : List (List F)} (h : collect reply bs = some vectors) : vectors = bs.flatten.map embed := by
  induction bs generalizing vectors with
  | nil =>
    cases h
    rfl
  | cons batch bs ih =>
    rw [collect] at h
    split at h
    · cases h
    · cases h
    · cases h
    · rename_i vs _ hvs
      obtain ⟨rest, hrest, rfl⟩ := Option.map_eq_some_iff.1 h
      rw [hreply batch vs hvs, ih hrest, flatten_cons, map_append]

theorem existingContentHashes_spec {order : List Str → List Str} {i : ℕ} {hash : Str} {vector : List F}
    (h : (existingContentHashes order c path).get? i = some (hash, vector)) :
    ∃ vf p, c.files.get? vf = some p ∧ p.body.contentHash = hash ∧ p.vector = vector := by
  unfold existingContentHashes at h
  generalize order (c.loadedPathIndex.getPointIds path) = ids at h
  induction ids using List.reverseRecOn with
  | nil => cases h
  | append_singleton ids id ih =>
    rw [foldl_concat] at h
    split at h
    · exact ih h
    · rename_i p hp
      split at h
      · exact ih h
      · rw [Dict.get?_set] at h
        split at h
        · obtain ⟨rfl, rfl⟩ := Prod.mk.inj (Option.some.inj h)
          obtain ⟨vf, -, hvf⟩ := Option.bind_eq_some_iff.1 hp
          exact ⟨vf, p, hvf, rfl, rfl⟩
        · exact ih h

namespace Call

variable {call : Call P}

def newPoints (call : Call P) (H : Digests) (c : Store F) : List (Point (List F) Payload) :=
  call.embeddedPoints H ((call.uncached H c).map fun chunk => (chunk, P.embed chunk.text)) ++ call.cachedPoints H c

theorem uncached_eq (call : Call P) (H : Digests) (c : Store F) :
    call.uncached H c = call.chunks.1.filter (call.isNew H c) := by
  rw [uncached, regular, filter_filter]
  refine filter_congr fun chunk _ => ?_
  rw [isNew, Bool.and_comm]

variable {chunk a b : Chunk} {p : Point (List F) Payload}

theorem mem_regular : chunk ∈ call.regular ↔ chunk ∈ call.chunks.1 ∧ chunk.imageFree = true :=
  mem_filter

theorem mem_uncached : chunk ∈ call.uncached H c ↔ chunk ∈ call.regular ∧ call.reused H c chunk = none := by
  rw [uncached, mem_filter, Option.isNone_iff_eq_none]

theorem mem_cachedPoints : p ∈ call.cachedPoints H c ↔
    ∃ chunk ∈ call.regular, ∃ vector, call.reused H c chunk = some vector ∧
      call.createVectorPoint H chunk vector = p := by
  simp only [cachedPoints, mem_filterMap, Option.map_eq_some_iff]

theorem reused_eq (h : Clean L H P c) {vector : List F} (hr : call.reused H c chunk = some vector) :
    vector = P.embed chunk.text := by
  unfold reused at hr
  split at hr
  · rename_i hash v hget
    split at hr
    · rename_i hhash
      cases hr
      unfold existing at hget
      split at hget
      · obtain ⟨vf, p, hp, hstored, rfl⟩ := existingContentHashes_spec hget
        obtain ⟨text, htext, hvector⟩ := (h.made vf p hp).text
        have heq := encode_injective (H.sha256_injective (htext.symm.trans (hstored.trans hhash)))
        rw [hvector, heq]
      · cases hget
    · cases hr
  · cases hr

theorem filter_zip_embed (P : Provider F) (chunks : List Chunk) :
    (chunks.zip ((chunks.map Chunk.text).map P.embed)).filter (fun e => !e.2.isEmpty) =
      chunks.map fun chunk => (chunk, P.embed chunk.text) := by
  induction chunks with
  | nil => rfl
  | cons chunk chunks ih =>
    have hne : (P.embed chunk.text).isEmpty = false := isEmpty_eq_false_iff.2 (P.embed_ne_nil _)
    simp [hne, ← ih]

theorem regular_eq_nil (huncached : call.uncached H c = []) (hcached : call.cachedPoints H c = []) :
    call.regular = [] := by
  refine eq_nil_iff_forall_not_mem.2 fun chunk hmem => ?_
  cases hreused : call.reused H c chunk with
  | none =>
    have huncached' := mem_uncached.2 ⟨hmem, hreused⟩
    rw [huncached] at huncached'
    cases huncached'
  | some vector =>
    have hcached' := mem_cachedPoints.2 ⟨chunk, hmem, vector, hreused, rfl⟩
    rw [hcached] at hcached'
    cases hcached'

theorem process_cases (call : Call P) (L : Layout (List F)) (H : Digests) (c : Store F) :
    ∃ c₁ : Store F, c₁.files = c.files ∧ c₁.idIndex = c.idIndex ∧ c₁.loadedPathIndex = c.loadedPathIndex ∧
      ((call.process L H c).1 = c₁ ∧ (∀ n, (call.process L H c).2 = .success n → call.regular = []) ∨
        call.newPoints H c ≠ [] ∧ (call.process L H c).1 = (upsertPoints L c₁ (call.newPoints H c)).1 ∧
          ∀ n, (call.process L H c).2 = .success n → (upsertPoints L c₁ (call.newPoints H c)).2 = true) := by
  obtain ⟨c₁, hc₁, hsame⟩ : ∃ c₁ : Store F, c₁ = (if call.lookup then loadPathIndex c else c) ∧
      c₁.files = c.files ∧ c₁.idIndex = c.idIndex ∧ c₁.loadedPathIndex = c.loadedPathIndex := by
    refine ⟨_, rfl, ?_⟩
    split <;> exact ⟨rfl, rfl, rfl⟩
  generalize hr : call.process L H c = r
  unfold process at hr
  rw [← hc₁] at hr
  split at hr
  · subst hr
    exact ⟨c, rfl, rfl, rfl, .inl ⟨rfl, nofun⟩⟩
  split at hr
  · rename_i hnil
    subst hr
    exact ⟨c, rfl, rfl, rfl, .inl ⟨rfl, fun _ _ => by rw [regular, hnil]; rfl⟩⟩
  refine ⟨c₁, hsame.1, hsame.2.1, hsame.2.2, ?_⟩
  dsimp only at hr
  split at hr
  · subst hr
    exact .inl ⟨rfl, nofun⟩
  split at hr
  · subst hr
    exact .inl ⟨rfl, nofun⟩
  split at hr
  · subst hr
    exact .inl ⟨rfl, nofun⟩
  rename_i embeddings hcollect
  split at hr
  · subst hr
    exact .inl ⟨rfl, nofun⟩
  -- All texts were embedded, in their order.
  have hfile : ((call.uncached H c).zip embeddings).filter (fun e => !e.2.isEmpty) =
      (call.uncached H c).map fun chunk => (chunk, P.embed chunk.text) := by
    rw [collect_eq call.reply_eq hcollect, flatten_batches, nil_append, filter_zip_embed]
  rw [hfile] at hr
  split at hr
  · rename_i hnothing
    subst hr
    refine .inl ⟨rfl, fun _ _ => ?_⟩
    exact regular_eq_nil (map_eq_nil_iff.1 hnothing.1) hnothing.2
  · rename_i hsome
    have hne : call.newPoints H c ≠ [] := by
      intro hnil
      obtain ⟨hembedded, hcached⟩ := append_eq_nil_iff.1 hnil
      exact hsome ⟨mapIdx_eq_nil_iff.1 hembedded, hcached⟩
    have hpoints : call.embeddedPoints H ((call.uncached H c).map fun chunk => (chunk, P.embed chunk.text)) ++
        call.cachedPoints H c = call.newPoints H c := rfl
    rw [hpoints] at hr
    split at hr
    · rename_i c₂ hup
      subst hr
      exact .inr ⟨hne, by rw [hup], fun _ _ => by rw [hup]⟩
    · rename_i c₂ hup
      subst hr
      exact .inr ⟨hne, by rw [hup], nofun⟩

/-! #### The points of a call -/

theorem mem_newPoints : p ∈ call.newPoints H c ↔
    (∃ (i : ℕ) (hi : i < (call.uncached H c).length), call.createVectorPoint H
      { (call.uncached H c)[i] with chunkIndex := i, totalChunks := (call.uncached H c).length }
      (P.embed (call.uncached H c)[i].text) = p) ∨
    ∃ chunk ∈ call.regular, ∃ vector, call.reused H c chunk = some vector ∧
      call.createVectorPoint H chunk vector = p := by
  rw [newPoints, mem_append, mem_cachedPoints, embeddedPoints, mem_mapIdx]
  refine or_congr_left ?_
  simp only [length_map, getElem_map]

theorem made_of_mem_newPoints (h : Clean L H P c) (hp : p ∈ call.newPoints H c) :
    Made H P p ∧ p.path = call.path ∧ p.id = call.pointId H p.body.chunkIndex := by
  rcases mem_newPoints.1 hp with ⟨i, hi, rfl⟩ | ⟨chunk, hchunk, vector, hvector, rfl⟩
  · exact ⟨⟨call.path_ne_nil, rfl, _, rfl, rfl⟩, rfl, rfl⟩
  · exact ⟨⟨call.path_ne_nil, rfl, _, rfl, reused_eq h hvector⟩, rfl, rfl⟩

theorem chunkIndex_of_mem_newPoints (hp : p ∈ call.newPoints H c) :
    p.body.chunkIndex < (call.uncached H c).length ∨
      ∃ chunk ∈ call.regular, call.reused H c chunk ≠ none ∧ p.body.chunkIndex = chunk.chunkIndex := by
  rcases mem_newPoints.1 hp with ⟨i, hi, rfl⟩ | ⟨chunk, hchunk, vector, hvector, rfl⟩
  · exact .inl hi
  · exact .inr ⟨chunk, hchunk, by rw [hvector]; nofun, rfl⟩

theorem pointId_inj {i j : ℕ} (h : call.pointId H i = call.pointId H j) : i = j := pointId_chunkIndex h

theorem eq_of_chunkIndex_eq (ha : a ∈ call.regular) (hb : b ∈ call.regular) (h : a.chunkIndex = b.chunkIndex) : a = b :=
  eq_of_index_eq call.chunks.2 (mem_regular.1 ha).1 (mem_regular.1 hb).1 h

theorem nodup_map_view (call : Call P) : (call.regular.map (Chunk.view H P)).Nodup := by
  refine List.Nodup.map_on (fun a ha b hb hab => ?_) ?_
  · exact eq_of_chunkIndex_eq ha hb (congrArg (fun v => v.2.1) hab)
  · exact List.Nodup.filter _ (List.Nodup.of_map Chunk.chunkIndex (call.chunks.2 ▸ nodup_range))

structure Represents (call : Call P) (H : Digests) (chunk : Chunk) (p : Point (List F) Payload) : Prop where
  id : p.id = call.pointId H chunk.chunkIndex
  view : Indexing.view p = chunk.view H P

theorem Represents.vectorFile (h : call.Represents H chunk p) :
    L.vectorFile p = L.vectorFile (call.createVectorPoint H chunk (P.embed chunk.text)) := by
  have hvector : p.vector = P.embed chunk.text := congrArg (fun v => v.2.2.2.2) h.view
  rw [Layout.vectorFile, Layout.vectorFile, hvector, h.id]
  rfl

theorem Represents.chunk_eq {q : Point (List F) Payload} (hp : call.Represents H a p)
    (hq : call.Represents H b q) (ha : a ∈ call.regular) (hb : b ∈ call.regular) (hid : p.id = q.id) : a = b :=
  eq_of_chunkIndex_eq ha hb (pointId_inj (hp.id.symm.trans (hid.trans hq.id)))

section InOrder

variable (h : Clean L H P c) (hrange : (call.uncached H c).map Chunk.chunkIndex = List.range (call.uncached H c).length)

include hrange in
theorem chunkIndex_uncached {i : ℕ} (hi : i < (call.uncached H c).length) : (call.uncached H c)[i].chunkIndex = i := by
  have hget := congrArg (·[i]?) hrange
  simpa [hi] using hget

include h hrange in
theorem represents_of_mem_newPoints {p : Point (List F) Payload} (hp : p ∈ call.newPoints H c) :
    ∃ chunk ∈ call.regular, call.Represents H chunk p := by
  rcases mem_newPoints.1 hp with ⟨i, hi, rfl⟩ | ⟨chunk, hchunk, vector, hvector, rfl⟩
  · have hindex := chunkIndex_uncached hrange hi
    refine ⟨(call.uncached H c)[i], (mem_uncached.1 (getElem_mem hi)).1, ?_, ?_⟩
    · rw [hindex]
      rfl
    · simp only [Indexing.view, Chunk.view, createVectorPoint, hindex]
  · obtain rfl := reused_eq h hvector
    exact ⟨chunk, hchunk, rfl, rfl⟩

include h hrange in
theorem exists_represents {chunk : Chunk} (hchunk : chunk ∈ call.regular) :
    ∃ p ∈ call.newPoints H c, call.Represents H chunk p := by
  cases hreused : call.reused H c chunk with
  | none =>
    obtain ⟨i, hi, hget⟩ := mem_iff_getElem.1 (mem_uncached.2 ⟨hchunk, hreused⟩)
    have hindex := chunkIndex_uncached hrange hi
    refine ⟨_, mem_newPoints.2 (.inl ⟨i, hi, rfl⟩), ?_, ?_⟩
    · rw [← hget, hindex]
      rfl
    · rw [← hget]
      simp only [Indexing.view, Chunk.view, createVectorPoint, hindex]
  | some vector =>
    obtain rfl := reused_eq h hreused
    exact ⟨_, mem_newPoints.2 (.inr ⟨chunk, hchunk, _, hreused, rfl⟩), rfl, rfl⟩

theorem cachedPoints_chunkIndex_sublist (call : Call P) (H : Digests) (c : Store F) :
    ((call.cachedPoints H c).map fun p => p.body.chunkIndex).Sublist (call.regular.map Chunk.chunkIndex) := by
  unfold cachedPoints
  induction call.regular with
  | nil => exact .slnil
  | cons chunk chunks ih =>
    cases hreused : call.reused H c chunk with
    | none =>
      rw [filterMap_cons_none (by rw [hreused]; rfl)]
      exact ih.cons _
    | some vector =>
      rw [filterMap_cons_some (by rw [hreused]; rfl)]
      exact ih.cons_cons _

include hrange in
theorem nodup_newPoints : ((call.newPoints H c).map Point.id).Nodup := by
  have hindexes : ((call.newPoints H c).map fun p => p.body.chunkIndex).Nodup := by
    have hembedded : (call.embeddedPoints H ((call.uncached H c).map fun chunk => (chunk, P.embed chunk.text))).map
        (fun p => p.body.chunkIndex) = List.range (call.uncached H c).length := by
      refine ext_getElem (by simp [embeddedPoints]) fun i h₁ h₂ => ?_
      simp [embeddedPoints, createVectorPoint]
    have hcached : ((call.cachedPoints H c).map fun p => p.body.chunkIndex).Nodup := by
      refine List.Nodup.sublist (cachedPoints_chunkIndex_sublist call H c) ?_
      exact List.Nodup.sublist (filter_sublist.map _) (call.chunks.2 ▸ nodup_range)
    rw [newPoints, map_append, hembedded, nodup_append]
    refine ⟨nodup_range, hcached, ?_⟩
    rintro i hi j hj rfl
    -- A reused chunk has no number of the chunks embedded anew.
    obtain ⟨p, hp, hpi⟩ := mem_map.1 hj
    obtain ⟨chunk, hchunk, vector, hvector, rfl⟩ := mem_cachedPoints.1 hp
    obtain ⟨b, hb, hbi⟩ := mem_map.1 (hrange ▸ hi)
    obtain ⟨hbr, hbnone⟩ := mem_uncached.1 hb
    obtain rfl := eq_of_chunkIndex_eq hbr hchunk (hbi.trans hpi.symm)
    exact absurd (hbnone.symm.trans hvector) nofun
  have hids : (call.newPoints H c).map Point.id =
      ((call.newPoints H c).map fun p => p.body.chunkIndex).map (call.pointId H) := by
    rw [map_map]
    refine map_congr_left fun p hp => ?_
    rcases mem_newPoints.1 hp with ⟨i, hi, rfl⟩ | ⟨chunk, hchunk, vector, hvector, rfl⟩ <;> rfl
  rw [hids]
  exact hindexes.map fun i j => pointId_inj

end InOrder

theorem inOrder_iff : call.InOrder H c ↔ ∀ chunk ∈ call.uncached H c,
    chunk.chunkIndex < (call.uncached H c).length := by
  rw [uncached_eq]
  constructor
  · exact fun horder chunk => index_lt_of_closed call.chunks.2 horder
  · exact fun hlt => closed_of_filter_map_eq_range call.chunks.2 (filter_map_eq_range call.chunks.2 hlt)

theorem InOrder.range (horder : call.InOrder H c) :
    (call.uncached H c).map Chunk.chunkIndex = List.range (call.uncached H c).length := by
  have hlt := inOrder_iff.1 horder
  rw [uncached_eq] at hlt ⊢
  exact filter_map_eq_range call.chunks.2 hlt

/-! ### What a call leaves -/

/-- A vector file of the source file is that of a new point, or an old one with the id of a new point that no
new point goes to. -/
structure Leaves (call : Call P) (L : Layout (List F)) (H : Digests) (c c' : Store F) : Prop where
  after : ∀ vf q, c'.files.get? vf = some q → q.path = call.path →
    (q ∈ call.newPoints H c ∧ L.vectorFile q = some vf) ∨
    (c.files.get? vf = some q ∧ q.id ∈ (call.newPoints H c).map Point.id ∧
      ∀ p ∈ call.newPoints H c, L.vectorFile p ≠ some vf)
  written : ∀ p ∈ call.newPoints H c, ∃ vf q, L.vectorFile p = some vf ∧ c'.files.get? vf = some q ∧
    q ∈ call.newPoints H c ∧ L.vectorFile q = some vf
  kept : ∀ vf q, c.files.get? vf = some q → q.id ∈ (call.newPoints H c).map Point.id →
    (∀ p ∈ call.newPoints H c, L.vectorFile p ≠ some vf) → c'.files.get? vf = some q

theorem leaves_of_upsert (h : Clean L H P c) {c₁ : Store F} (hclean : Clean L H P c₁) (hfiles : c₁.files = c.files)
    (hne : call.newPoints H c ≠ []) (hup : upsertPoints L c₁ (call.newPoints H c) = (c', true)) :
    call.Leaves L H c c' := by
  have hpath : ∀ p ∈ call.newPoints H c, p.path = call.path := fun p hp => (made_of_mem_newPoints h hp).2.1
  obtain ⟨hafter, hwritten, hkept⟩ := writePoints_files hup
  have hdrop {vf : FileKey} {q : Point (List F) Payload} :
      (c₁.dropOrphans (call.newPoints H c)).files.get? vf = some q ↔
        c₁.files.get? vf = some q ∧ (q.path = call.path → q.id ∈ (call.newPoints H c).map Point.id) :=
    hclean.dropOrphans_files hne call.path_ne_nil hpath
  refine ⟨fun vf q hq hqpath => ?_, hwritten, fun vf q hq hid hother => ?_⟩
  · refine (hafter vf q hq).imp_right fun hold => ?_
    obtain ⟨hq, hid⟩ := hdrop.1 hold.1
    exact ⟨hfiles ▸ hq, hid hqpath, hold.2⟩
  · exact hkept vf q (hdrop.2 ⟨hfiles ▸ hq, fun _ => hid⟩) hother

namespace Leaves

section

variable (hl : call.Leaves L H c c')
include hl

theorem inOrder (h : Clean L H P c) (hexact : call.Exact H c') : call.InOrder H c := by
  refine inOrder_iff.2 fun b hb => ?_
  obtain ⟨hbr, hbnone⟩ := mem_uncached.1 hb
  obtain ⟨q, hq, hview⟩ := mem_map.1 (hexact.mem_iff.2 (mem_map_of_mem hbr))
  obtain ⟨vf, hq, hqpath⟩ := mem_held.1 hq
  have hindex : q.body.chunkIndex = b.chunkIndex := congrArg (fun v => v.2.1) hview
  -- The point that has the index of `b` is a new one, or has the id of a new one.
  obtain ⟨p, hp, hpindex⟩ : ∃ p ∈ call.newPoints H c, p.body.chunkIndex = b.chunkIndex := by
    rcases hl.after vf q hq hqpath with ⟨hmem, -⟩ | ⟨hold, hid, -⟩
    · exact ⟨q, hmem, hindex⟩
    · obtain ⟨p, hp, hpid⟩ := mem_map.1 hid
      refine ⟨p, hp, ?_⟩
      rw [(made_of_mem_newPoints h hp).2.2, (h.made vf q hold).id] at hpid
      exact (pointId_chunkIndex hpid).trans hindex
  rcases chunkIndex_of_mem_newPoints hp with hlt | ⟨chunk, hchunk, hreused, heq⟩
  · exact hpindex ▸ hlt
  · obtain rfl := eq_of_chunkIndex_eq hchunk hbr (heq.symm.trans hpindex)
    exact absurd hbnone hreused

theorem exists_file (hL : L.hashPrefix = none) (h : Clean L H P c)
    (horder : call.InOrder H c) {chunk : Chunk} (hchunk : chunk ∈ call.regular) :
    ∃ vf q, L.vectorFile (call.createVectorPoint H chunk (P.embed chunk.text)) = some vf ∧
      c'.files.get? vf = some q ∧ q.path = call.path ∧ call.Represents H chunk q := by
  obtain ⟨p, hp, hrep⟩ := exists_represents h horder.range hchunk
  obtain ⟨vf, q, hpvf, hq, hmem, hqvf⟩ := hl.written p hp
  obtain ⟨hqmade, hqpath, -⟩ := made_of_mem_newPoints h hmem
  obtain ⟨chunk', hchunk', hrep'⟩ := represents_of_mem_newPoints h horder.range hmem
  -- The last point written there need not be `p`, but it has the id of `p`.
  have hid := hqmade.id_eq (made_of_mem_newPoints h hp).1 hL hqvf hpvf
  obtain rfl := hrep'.chunk_eq hrep hchunk' hchunk hid
  exact ⟨vf, q, hrep.vectorFile ▸ hpvf, hq, hqpath, hrep'⟩

theorem sameFile (hL : L.hashPrefix = none) (h : Clean L H P c)
    (horder : call.InOrder H c) (hexact : call.Exact H c') : call.SameFile L H c := by
  rintro ⟨vf, q⟩ he hqpath chunk hchunk hid
  have hq := Dict.mem_items_iff.1 he
  obtain ⟨vf', p', hvf', hp', hp'path, hrep'⟩ := hl.exists_file hL h horder hchunk
  rw [hvf']
  by_contra hne
  -- The old file stays next to the one of the new point, and both carry the same chunk.
  have hstays : c'.files.get? vf = some q := by
    obtain ⟨p, hp, hrep⟩ := exists_represents h horder.range hchunk
    refine hl.kept vf q hq (mem_map.2 ⟨p, hp, hrep.id.trans hid.symm⟩) fun p₁ hp₁ hp₁vf => ?_
    obtain ⟨chunk₁, hchunk₁, hrep₁⟩ := represents_of_mem_newPoints h horder.range hp₁
    have hid₁ := (made_of_mem_newPoints h hp₁).1.id_eq (h.made vf q hq) hL hp₁vf (h.located vf q hq)
    obtain rfl := hrep₁.chunk_eq hrep hchunk₁ hchunk (hid₁.trans (hid.trans hrep.id.symm))
    rw [hrep₁.vectorFile] at hp₁vf
    exact hne (hvf'.symm.trans hp₁vf)
  obtain ⟨chunk₂, hchunk₂, hview⟩ := mem_map.1
    (hexact.mem_iff.1 (mem_map_of_mem (mem_held.2 ⟨vf, hstays, hqpath⟩)))
  have hindex : chunk₂.chunkIndex = chunk.chunkIndex := by
    have hq₂ : q.body.chunkIndex = chunk₂.chunkIndex := congrArg (fun v => v.2.1) hview.symm
    rw [← hq₂]
    rw [(h.made vf q hq).id] at hid
    exact pointId_chunkIndex hid
  obtain rfl := eq_of_chunkIndex_eq hchunk₂ hchunk hindex
  have hvf := nodup_held_iff.1 (hexact.nodup_iff.2 (nodup_map_view call)) vf' vf p' q hp' hp'path hstays hqpath
    (hrep'.view.trans hview)
  exact hne (congrArg some hvf)

end

theorem exact (hl : call.Leaves L H c c') (hL : L.hashPrefix = none) (h : Clean L H P c) (horder : call.InOrder H c)
    (hsame : call.SameFile L H c) : call.Exact H c' := by
  -- Every vector file of the source file is that of a new point.
  have hnew {vf : FileKey} {q : Point (List F) Payload} (hq : c'.files.get? vf = some q) (hqpath : q.path = call.path) :
      ∃ chunk ∈ call.regular, call.Represents H chunk q ∧ L.vectorFile q = some vf := by
    rcases hl.after vf q hq hqpath with ⟨hmem, hvf⟩ | ⟨hold, hid, hother⟩
    · obtain ⟨chunk, hchunk, hrep⟩ := represents_of_mem_newPoints h horder.range hmem
      exact ⟨chunk, hchunk, hrep, hvf⟩
    · obtain ⟨p, hp, hpid⟩ := mem_map.1 hid
      obtain ⟨chunk, hchunk, hrep⟩ := represents_of_mem_newPoints h horder.range hp
      refine absurd ?_ (hother p hp)
      rw [hrep.vectorFile]
      exact hsame (vf, q) (Dict.mem_items_iff.2 hold) hqpath chunk hchunk (hpid.symm.trans hrep.id)
  refine (perm_ext_iff_of_nodup (nodup_held_iff.2 ?_) (nodup_map_view call)).2 fun v => ?_
  · intro vf vf' q q' hq hqpath hq' hqpath' hview
    obtain ⟨chunk, hchunk, hrep, hvf⟩ := hnew hq hqpath
    obtain ⟨chunk', hchunk', hrep', hvf'⟩ := hnew hq' hqpath'
    have hindex := congrArg (fun v => v.2.1) (hrep.view.symm.trans (hview.trans hrep'.view))
    obtain rfl := eq_of_chunkIndex_eq hchunk hchunk' hindex
    rw [hrep.vectorFile] at hvf
    rw [hrep'.vectorFile] at hvf'
    exact Option.mem_unique hvf hvf'
  · rw [mem_map, mem_map]
    constructor
    · rintro ⟨q, hq, rfl⟩
      obtain ⟨vf, hq, hqpath⟩ := mem_held.1 hq
      obtain ⟨chunk, hchunk, hrep, -⟩ := hnew hq hqpath
      exact ⟨chunk, hchunk, hrep.view.symm⟩
    · rintro ⟨chunk, hchunk, rfl⟩
      obtain ⟨vf, q, -, hq, hqpath, hrep⟩ := hl.exists_file hL h horder hchunk
      exact ⟨q, mem_held.2 ⟨vf, hq, hqpath⟩, hrep.view⟩

end Leaves

end Call

/-! ### Runs -/

theorem Clean.process (h : Clean L H P c) (hL : L.hashPrefix = none) {call : Call P}
    (horderly : Orderly L H c (.process call)) : Clean L H P (call.process L H c).1 := by
  obtain ⟨horder, hsame, hunshared⟩ := horderly
  obtain ⟨c₁, hfiles, hidx, hix, ⟨hr, -⟩ | ⟨hne, hr, -⟩⟩ := call.process_cases L H c
  · rw [hr]
    exact h.congr hfiles hidx hix
  have h₁ : Clean L H P c₁ := h.congr hfiles hidx hix
  have hpath : ∀ p ∈ call.newPoints H c, p.path = call.path := fun p hp => (Call.made_of_mem_newPoints h hp).2.1
  have hsole : ∀ chunk ∈ call.regular, ∀ f, call.pointId H chunk.chunkIndex ∈ c.loadedPathIndex.getPointIds f →
      f = call.path := by
    intro chunk hchunk f hf
    obtain ⟨ids, hitem, hmem⟩ := PathIndex.exists_mem_items hf
    by_contra hfne
    exact hunshared (f, ids) hitem hfne chunk hchunk hmem
  rw [hr]
  refine h₁.upsertPoints hL hne call.path_ne_nil hpath (fun p hp => ?_) (Call.nodup_newPoints horder.range)
  obtain ⟨chunk, hchunk, hrep⟩ := Call.represents_of_mem_newPoints h horder.range hp
  refine ⟨(Call.made_of_mem_newPoints h hp).1, fun f hf => ?_, fun vf q hq hid => ?_⟩
  · rw [hix, hrep.id] at hf
    rw [hpath p hp]
    exact hsole chunk hchunk f hf
  · rw [hfiles] at hq
    rw [hrep.id] at hid
    have hqpath := hsole chunk hchunk q.path (hid ▸ h.listed vf q hq)
    rw [hrep.vectorFile]
    exact hsame (vf, q) (Dict.mem_items_iff.2 hq) hqpath chunk hchunk hid

theorem Clean.of_reachable (hL : L.hashPrefix = none) {fits : List F → Bool}
    (h : (store L H P fits).Reachable (Orderly L H) c) : Clean L H P c := by
  refine h.invariant (I := Clean L H P) (fun c hc => ?_) fun c a c' hclean horderly hs => ?_
  · obtain rfl := hc
    exact Clean.new
  · cases a with
    | beginIndexing =>
      cases hs
      exact hclean.congr rfl rfl rfl
    | process call =>
      cases hs
      exact hclean.process hL horderly
    | delete ids =>
      cases hs
      exact hclean.deletePoints ids
    | endIndexing d flag o =>
      cases hs
      exact hclean.endIndexing fits flag d o

/-- After earlier calls in order, a call that succeeds leaves exactly the points of the file's image-free chunks
if and only if it is in order, no old vector file stays under one of its ids, and, if it has no such chunk,
nothing was stored for the file. -/
theorem reindexed_exactly_iff (hL : L.hashPrefix = none) {fits : List F → Bool}
    (h : (store L H P fits).Reachable (Orderly L H) c) (call : Call P) {n : ℕ}
    (hok : (call.process L H c).2 = .success n) :
    call.Exact H (call.process L H c).1 ↔
      call.InOrder H c ∧ call.SameFile L H c ∧ (call.regular = [] → held c call.path = []) := by
  have hclean := Clean.of_reachable hL h
  obtain ⟨c₁, hfiles, hidx, hix, ⟨hr, hnone⟩ | ⟨hne, hr, hwritten⟩⟩ := call.process_cases L H c
  · have hregular := hnone n hok
    have hheld : held (call.process L H c).1 call.path = held c call.path := by
      rw [hr, held, held, hfiles]
    rw [Call.Exact, hheld, hregular, map_nil, perm_nil, map_eq_nil_iff]
    refine ⟨fun hnil => ⟨fun a ha b hb hab hnew => ?_, ?_, fun _ => hnil⟩, fun hcond => hcond.2.2 rfl⟩
    · have hb : b ∈ call.regular := Call.mem_regular.2 ⟨hb, (Bool.and_eq_true_iff.1 hnew).1⟩
      rw [hregular] at hb
      cases hb
    · rintro e he hpath chunk hchunk
      rw [hregular] at hchunk
      cases hchunk
  · have hup : upsertPoints L c₁ (call.newPoints H c) = ((call.process L H c).1, true) :=
      Prod.ext hr.symm (hwritten n hok)
    have hleaves := Call.leaves_of_upsert hclean (hclean.congr hfiles hidx hix) hfiles hne hup
    constructor
    · intro hexact
      have horder := hleaves.inOrder hclean hexact
      refine ⟨horder, hleaves.sameFile hL hclean horder hexact, fun hregular => ?_⟩
      obtain ⟨p, hp⟩ := exists_mem_of_ne_nil _ hne
      obtain ⟨chunk, hchunk, -⟩ := Call.represents_of_mem_newPoints hclean horder.range hp
      rw [hregular] at hchunk
      cases hchunk
    · rintro ⟨horder, hsame, -⟩
      exact hleaves.exact hL hclean horder hsame

/-! ### A file of two chunks -/

def spell (bs : List UInt8) : Str := bs.map fun b => Char.ofNat (b.toNat + 256)

theorem toNat_spelled (b : UInt8) : (Char.ofNat (b.toNat + 256)).toNat = b.toNat + 256 := by
  have hlt := b.toNat_lt
  have hvalid : (b.toNat + 256).isValidChar := .inl (by omega)
  rw [Char.ofNat, dif_pos hvalid]
  rfl

theorem spell_injective : Function.Injective spell := by
  refine map_injective_iff.2 fun a b hab => ?_
  have hnat := congrArg Char.toNat hab
  rw [toNat_spelled, toNat_spelled] at hnat
  exact UInt8.toNat_inj.1 (by omega)

theorem slash_not_mem_spell (bs : List UInt8) : '/' ∉ spell bs := by
  intro hslash
  obtain ⟨b, -, hb⟩ := mem_map.1 hslash
  have hnat := congrArg Char.toNat hb
  rw [toNat_spelled, show '/'.toNat = 47 from rfl] at hnat
  omega

def plainDigests : Digests := ⟨spell, spell, spell_injective, spell_injective, slash_not_mem_spell⟩

def lengthProvider : Provider ℚ := ⟨List.length, 100, fun text => [text.length], nofun⟩

def headLayout : Layout (List ℚ) := ⟨fun v => v.head?.map (List.replicate 64), -2, 2, none⟩

def textChunks (texts : List Str) : Chunks :=
  ⟨texts.mapIdx fun i text => ⟨text, i, texts.length, i + 1, i + 1, []⟩,
    ext_getElem (by simp) fun i _ _ => by simp⟩

def fileCall (fileHash : Str) (texts : List Str) : Call lengthProvider where
  path := "a.py"
  language := "py"
  projectId := "p"
  fileHash := fileHash
  chunks := textChunks texts
  vanished := false
  lookup := true
  order := id
  reply batch := .embeddings (batch.map lengthProvider.embed)
  path_ne_nil := by decide
  order_perm ids := .refl ids
  reply_eq _ _ h := (Reply.embeddings.inj h).symm

def otherCall (fileHash : Str) (texts : List Str) : Call lengthProvider :=
  { fileCall fileHash texts with path := "b.py", path_ne_nil := by decide }

def firstRun : List (Act lengthProvider) :=
  [.beginIndexing, .process (fileCall "h1" ["a", "bb"]), .endIndexing ⟨none, none⟩ false ⟨true, false, true⟩]

/-- The first chunk is edited, the second reused. -/
theorem reindexed_exactly_after_first_chunk_edited : ∃ c : Store ℚ,
    (store headLayout plainDigests lengthProvider fun _ => true).Reachable (Orderly headLayout plainDigests) c ∧
      ((fileCall "h2" ["ccc", "bb"]).process headLayout plainDigests c).2 = .success 1 ∧
      (fileCall "h2" ["ccc", "bb"]).Exact plainDigests
        ((fileCall "h2" ["ccc", "bb"]).process headLayout plainDigests c).1 := by
  exact exists_of_run_imp (fun c => (fileCall "h2" ["ccc", "bb"]).InOrder plainDigests c ∧
      (fileCall "h2" ["ccc", "bb"]).SameFile headLayout plainDigests c ∧
      ((fileCall "h2" ["ccc", "bb"]).process headLayout plainDigests c).2 = .success 1) Collection.new firstRun rfl
    (by decide +kernel) fun c hreach ⟨horder, hsame, hok⟩ =>
    ⟨hok, (reindexed_exactly_iff rfl hreach _ hok).2 ⟨horder, hsame, nofun⟩⟩

/-- The second chunk is edited, the first reused: both get chunk index 0 and one id. -/
theorem edited_second_chunk_loses_its_index : ∃ c : Store ℚ,
    (store headLayout plainDigests lengthProvider fun _ => true).Reachable Any c ∧
      ((fileCall "h2" ["a", "ccc"]).process headLayout plainDigests c).2 = .success 1 ∧
      (held ((fileCall "h2" ["a", "ccc"]).process headLayout plainDigests c).1 "a.py").map
        (fun p => (p.body.content, p.body.chunkIndex)) = [("ccc".toList, 0), ("a".toList, 0)] ∧
      ¬ (fileCall "h2" ["a", "ccc"]).Exact plainDigests
        ((fileCall "h2" ["a", "ccc"]).process headLayout plainDigests c).1 := by
  refine exists_of_run_and_and Collection.new firstRun rfl (by decide +kernel) fun c _ _ hheld hexact => ?_
  have hindexes := hexact.map fun v => v.2.1
  rw [map_map, map_map] at hindexes
  have hzero : ((held ((fileCall "h2" ["a", "ccc"]).process headLayout plainDigests c).1
      "a.py").map fun p => p.body.chunkIndex) = [0, 0] := by
    have hsnd := congrArg (List.map Prod.snd) hheld
    rwa [map_map] at hsnd
  have hperm : [0, 0].Perm [0, 1] := hzero ▸ hindexes
  exact absurd hperm (by decide)

end CodeIndexer.Indexing
