import CodeIndexer.Storage.VectorStore

/-!
# The HNSW index of a collection

The index file holds vectors under integer labels, some of them marked as deleted, and
`collection_meta.json` holds the table from labels to point ids. Of hnswlib it is assumed that
`mark_deleted` hides a label, that it raises for a label the index does not have, and that adding a
vector under a label makes the label live with that vector. `Working` is what an incremental update works
on between `load_for_incremental_update` and `save_incremental_update`.
-/

namespace CodeIndexer.Storage

open PyText List Dict

variable {V B : Type}

/-- An element of a label that is marked as deleted has no vector. -/
structure Hnsw (V : Type) where
  elements : Dict ℕ (Option V)
  labelToId : Dict ℕ Str

variable (c : Collection V B) (H : Hnsw V)

/-- A search can return `id` with the vector `v`. -/
def Hnsw.Finds (id : Str) (v : V) : Prop :=
  ∃ label, H.labelToId.get? label = some id ∧ H.elements.get? label = some (some v)

structure Working (V : Type) where
  elements : Dict ℕ (Option V)
  idToLabel : Dict Str ℕ
  labelToId : Dict ℕ Str
  nextLabel : ℕ

def reverseMapping (labelToId : Dict ℕ Str) : Dict Str ℕ :=
  labelToId.items.foldl (fun d e => d.set e.2 e.1) .empty

def nextLabelOf (labelToId : Dict ℕ Str) : ℕ := labelToId.items.foldl (fun n e => max n (e.1 + 1)) 0

def Hnsw.loadForIncrementalUpdate : Working V :=
  ⟨H.elements, reverseMapping H.labelToId, H.labelToId, nextLabelOf H.labelToId⟩

namespace Working

def markDeleted (w : Working V) (label : ℕ) : Option (Dict ℕ (Option V)) :=
  (w.elements.get? label).map fun _ => w.elements.set label none

def addOrUpdateVector (w : Working V) (pointId : Str) (vector : V) : Option (Working V) :=
  match w.idToLabel.get? pointId with
  | some label => (w.markDeleted label).map fun elements =>
      { w with elements := elements.set label (some vector) }
  | none => some {
      elements := w.elements.set w.nextLabel (some vector)
      idToLabel := w.idToLabel.set pointId w.nextLabel
      labelToId := w.labelToId.set w.nextLabel pointId
      nextLabel := w.nextLabel + 1 }

def removeVector (w : Working V) (pointId : Str) : Option (Working V) :=
  match w.idToLabel.get? pointId with
  | some label => (w.markDeleted label).map fun elements =>
      { w with
        elements := elements
        idToLabel := w.idToLabel.erase pointId
        labelToId := w.labelToId.erase label }
  | none => some w

def saveIncrementalUpdate (w : Working V) : Hnsw V := ⟨w.elements, w.labelToId⟩

end Working

def Collection.pointOf (id : Str) : Option (Point V B) :=
  (c.idIndex.get? id).bind c.files.get?

/-- One round of the loop over additions and updates; an id without a vector file is skipped. -/
def Collection.applyWritten (w : Working V) (id : Str) : Option (Working V) :=
  match c.pointOf id with
  | none => some w
  | some p => w.addOrUpdateVector id p.vector

def Collection.applyChanges (ch : Changes) (w : Working V) : Option (Working V) := do
  let effectiveAdded := ch.added.filter (· ∉ ch.deleted)
  let effectiveUpdated := ch.updated.filter (· ∉ ch.deleted)
  let w ← (effectiveAdded ++ effectiveUpdated).dedup.foldlM c.applyWritten w
  ch.deleted.foldlM Working.removeVector w

def Collection.applyIncrementalHnswBatchUpdate (ch : Changes) : Option (Hnsw V) :=
  (c.applyChanges ch H.loadForIncrementalUpdate).map Working.saveIncrementalUpdate

/-- The index that `rebuild_from_vectors` builds: the vectors under the labels 0, 1, and so on. -/
def Hnsw.ofPoints (points : List (Point V B)) : Hnsw V :=
  points.zipIdx.foldl (fun H e => ⟨H.elements.set e.2 (some e.1.vector), H.labelToId.set e.2 e.1.id⟩)
    ⟨.empty, .empty⟩

/-! ### Incremental updates, id by id -/

namespace Working

/-- The two tables are inverse to each other, labels are below the next one, and a label of the table is
a live element. -/
structure Ok (w : Working V) : Prop where
  inverse : ∀ id label, w.idToLabel.get? id = some label ↔ w.labelToId.get? label = some id
  below : ∀ label id, w.labelToId.get? label = some id → label < w.nextLabel
  live : ∀ label id, w.labelToId.get? label = some id → ∃ v, w.elements.get? label = some (some v)

def lookup (w : Working V) (id : Str) : Option V := (w.idToLabel.get? id).bind fun label => (w.elements.get? label).join

variable {w : Working V}

theorem lookup_eq_some_iff (h : w.Ok) {id : Str} {v : V} :
    w.lookup id = some v ↔ w.saveIncrementalUpdate.Finds id v := by
  rw [lookup, Option.bind_eq_some_iff]
  refine exists_congr fun label => ?_
  rw [h.inverse, Option.join_eq_some_iff]
  rfl

theorem Ok.label_unique (h : w.Ok) {id id' : Str} {label : ℕ} (hid : w.idToLabel.get? id = some label)
    (hid' : w.idToLabel.get? id' = some label) : id = id' :=
  Option.mem_unique ((h.inverse id label).1 hid) ((h.inverse id' label).1 hid')

theorem addOrUpdateVector_spec (h : w.Ok) (id : Str) (v : V) :
    ∃ w', w.addOrUpdateVector id v = some w' ∧ w'.Ok ∧
      ∀ x, w'.lookup x = if x = id then some v else w.lookup x := by
  cases hlabel : w.idToLabel.get? id with
  | some label =>
    obtain ⟨v₀, hv₀⟩ := h.live label id ((h.inverse id label).1 hlabel)
    refine ⟨{ w with elements := (w.elements.set label none).set label (some v) }, ?_,
      ⟨h.inverse, h.below, fun l x hl => ?_⟩, fun x => ?_⟩
    · simp [addOrUpdateVector, hlabel, markDeleted, hv₀]
    · rw [get?_set, get?_set]
      split
      · exact ⟨v, rfl⟩
      · exact h.live l x hl
    · by_cases hx : x = id
      · subst hx
        simp [lookup, hlabel, get?_set_self]
      · rw [if_neg hx, lookup, lookup]
        cases hl : w.idToLabel.get? x with
        | none => rfl
        | some l =>
          have hne : l ≠ label := fun he => hx (h.label_unique hl (he ▸ hlabel))
          simp [get?_set_of_ne _ _ hne]
  | none =>
    have hfresh : ∀ x, w.labelToId.get? w.nextLabel ≠ some x := fun x hx =>
      lt_irrefl _ (h.below _ x hx)
    refine ⟨⟨w.elements.set w.nextLabel (some v), w.idToLabel.set id w.nextLabel, w.labelToId.set w.nextLabel id,
        w.nextLabel + 1⟩, by simp only [addOrUpdateVector, hlabel],
      ⟨fun x l => ?_, fun l x hl => ?_, fun l x hl => ?_⟩, fun x => ?_⟩
    · rw [get?_set, get?_set]
      by_cases hx : x = id
      · subst hx
        by_cases hl : l = w.nextLabel
        · simp [hl]
        · have : w.labelToId.get? l ≠ some x := by
            rw [Ne, ← h.inverse, hlabel]
            exact (Option.some_ne_none l).symm
          simp [hl, Ne.symm hl, this]
      · by_cases hl : l = w.nextLabel
        · subst hl
          have : w.idToLabel.get? x ≠ some w.nextLabel := fun hget => hfresh x ((h.inverse _ _).1 hget)
          simp [hx, Ne.symm hx, this]
        · simp [hx, hl, h.inverse]
    · rw [get?_set] at hl
      split at hl
      · rename_i heq
        exact heq ▸ Nat.lt_succ_self _
      · exact Nat.lt_succ_of_lt (h.below l x hl)
    · rw [get?_set] at hl ⊢
      split at hl
      · rename_i heq
        exact ⟨v, if_pos heq⟩
      · rename_i hne
        rw [if_neg hne]
        exact h.live l x hl
    · by_cases hx : x = id
      · simp [lookup, hx, get?_set_self]
      · rw [if_neg hx, lookup, lookup]
        rw [get?_set_of_ne _ _ hx]
        cases hl : w.idToLabel.get? x with
        | none => rfl
        | some l =>
          have hne : l ≠ w.nextLabel := fun he => hfresh x (he ▸ (h.inverse _ _).1 hl)
          simp [get?_set_of_ne _ _ hne]

theorem removeVector_spec (h : w.Ok) (id : Str) :
    ∃ w', w.removeVector id = some w' ∧ w'.Ok ∧ ∀ x, w'.lookup x = if x = id then none else w.lookup x := by
  cases hlabel : w.idToLabel.get? id with
  | none =>
    refine ⟨w, by simp only [removeVector, hlabel], h, fun x => ?_⟩
    split
    · rename_i hx
      simp [lookup, hx, hlabel]
    · rfl
  | some label =>
    obtain ⟨v₀, hv₀⟩ := h.live label id ((h.inverse id label).1 hlabel)
    have hback := (h.inverse id label).1 hlabel
    refine ⟨⟨w.elements.set label none, w.idToLabel.erase id, w.labelToId.erase label, w.nextLabel⟩,
      by simp only [removeVector, hlabel, markDeleted, hv₀, Option.map_some],
      ⟨fun x l => ?_, fun l x hl => ?_, fun l x hl => ?_⟩, fun x => ?_⟩
    · rw [get?_erase_eq_some, get?_erase_eq_some, h.inverse]
      constructor
      · rintro ⟨hx, hl⟩
        exact ⟨fun he => hx (Option.some.inj (hl.symm.trans (he ▸ hback))), hl⟩
      · rintro ⟨hne, hl⟩
        exact ⟨fun he => hne (Option.some.inj (((h.inverse x l).2 hl).symm.trans (he ▸ hlabel))), hl⟩
    · exact h.below l x (get?_erase_eq_some.1 hl).2
    · obtain ⟨hne, hl⟩ := get?_erase_eq_some.1 hl
      rw [get?_set_of_ne _ _ hne]
      exact h.live l x hl
    · rw [lookup, lookup]
      rw [get?_erase]
      by_cases hx : x = id
      · simp [hx]
      · rw [if_neg hx, if_neg hx]
        cases hl : w.idToLabel.get? x with
        | none => rfl
        | some l =>
          have hne : l ≠ label := fun he => hx (h.label_unique hl (he ▸ hlabel))
          simp [get?_set_of_ne _ _ hne]

theorem foldlM_removeVector (ids : List Str) (h : w.Ok) :
    ∃ w', ids.foldlM removeVector w = some w' ∧ w'.Ok ∧
      ∀ x, w'.lookup x = if x ∈ ids then none else w.lookup x := by
  induction ids generalizing w with
  | nil => exact ⟨w, rfl, h, fun x => rfl⟩
  | cons id ids ih =>
    obtain ⟨w₁, hw₁, hok₁, hlook₁⟩ := removeVector_spec h id
    obtain ⟨w₂, hw₂, hok₂, hlook₂⟩ := ih hok₁
    refine ⟨w₂, by rw [foldlM_cons, hw₁]; exact hw₂, hok₂, fun x => ?_⟩
    rw [hlook₂, hlook₁]
    by_cases hx : x = id <;> simp [hx]

theorem foldlM_applyWritten (c : Collection V B) (ids : List Str) (h : w.Ok) :
    ∃ w', ids.foldlM c.applyWritten w = some w' ∧ w'.Ok ∧
      ∀ x, w'.lookup x = if x ∈ ids ∧ (c.pointOf x).isSome then (c.pointOf x).map Point.vector else w.lookup x := by
  induction ids generalizing w with
  | nil => exact ⟨w, rfl, h, fun x => by simp⟩
  | cons id ids ih =>
    cases hp : c.pointOf id with
    | none =>
      obtain ⟨w₂, hw₂, hok₂, hlook₂⟩ := ih h
      refine ⟨w₂, ?_, hok₂, fun x => ?_⟩
      · rw [foldlM_cons, Collection.applyWritten, hp]
        exact hw₂
      · rw [hlook₂]
        by_cases hx : x = id
        · simp [hx, hp]
        · simp [hx]
    | some p =>
      obtain ⟨w₁, hw₁, hok₁, hlook₁⟩ := addOrUpdateVector_spec h id p.vector
      obtain ⟨w₂, hw₂, hok₂, hlook₂⟩ := ih hok₁
      refine ⟨w₂, ?_, hok₂, fun x => ?_⟩
      · rw [foldlM_cons, Collection.applyWritten, hp]
        show (w.addOrUpdateVector id p.vector).bind _ = _
        rw [hw₁]
        exact hw₂
      · rw [hlook₂, hlook₁]
        by_cases hx : x = id
        · simp [hx, hp]
        · simp [hx]

end Working

structure Hnsw.Ok (H : Hnsw V) : Prop where
  distinct : (H.labelToId.items.map Prod.snd).Nodup
  live : ∀ label id, H.labelToId.get? label = some id → ∃ v, H.elements.get? label = some (some v)

theorem get?_reverseMapping {d : Dict ℕ Str} (hnodup : (d.items.map Prod.snd).Nodup) {id : Str} {label : ℕ} :
    (reverseMapping d).get? id = some label ↔ d.get? label = some id := by
  rw [← mem_items_iff, ← mem_items_iff, reverseMapping, foldl_set_items (fun _ _ _ => rfl) hnodup, mem_map]
  constructor
  · rintro ⟨e, he, heq⟩
    cases heq
    exact he
  · exact fun h => ⟨_, h, rfl⟩

theorem lt_foldl_max (items : List (ℕ × Str)) (n : ℕ) :
    n ≤ items.foldl (fun n e => max n (e.1 + 1)) n ∧
      ∀ e ∈ items, e.1 < items.foldl (fun n e => max n (e.1 + 1)) n := by
  induction items generalizing n with
  | nil => exact ⟨le_refl n, nofun⟩
  | cons e items ih =>
    obtain ⟨hle, hlt⟩ := ih (max n (e.1 + 1))
    refine ⟨(le_max_left _ _).trans hle, ?_⟩
    rintro e' he'
    rcases mem_cons.1 he' with rfl | he'
    · exact (le_max_right n (e'.1 + 1)).trans hle
    · exact hlt e' he'

theorem Hnsw.Ok.load {H : Hnsw V} (h : H.Ok) : H.loadForIncrementalUpdate.Ok where
  inverse _ _ := get?_reverseMapping h.distinct
  below label id hl := (lt_foldl_max _ 0).2 (label, id) (mem_items_iff.2 hl)
  live := h.live

theorem Hnsw.lookup_load {H : Hnsw V} (h : H.Ok) {id : Str} {v : V} :
    H.loadForIncrementalUpdate.lookup id = some v ↔ H.Finds id v := Working.lookup_eq_some_iff h.load

theorem Collection.applyIncrementalHnswBatchUpdate_spec {H : Hnsw V} (h : H.Ok) (ch : Changes) :
    ∃ H', c.applyIncrementalHnswBatchUpdate H ch = some H' ∧ ∀ id v, H'.Finds id v ↔
      id ∉ ch.deleted ∧ if (id ∈ ch.added ∨ id ∈ ch.updated) ∧ (c.pointOf id).isSome = true then
        (c.pointOf id).map Point.vector = some v else H.Finds id v := by
  obtain ⟨w₁, hw₁, hok₁, hlook₁⟩ := Working.foldlM_applyWritten c
    (ch.added.filter (· ∉ ch.deleted) ++ ch.updated.filter (· ∉ ch.deleted)).dedup h.load
  obtain ⟨w₂, hw₂, hok₂, hlook₂⟩ := Working.foldlM_removeVector ch.deleted hok₁
  refine ⟨w₂.saveIncrementalUpdate, ?_, fun id v => ?_⟩
  · simp only [applyIncrementalHnswBatchUpdate, applyChanges, hw₁, hw₂, Option.bind_eq_bind, Option.bind_some,
      Option.map_some]
  · rw [← Working.lookup_eq_some_iff hok₂, hlook₂]
    by_cases hdel : id ∈ ch.deleted
    · simp [hdel]
    · rw [if_neg hdel, hlook₁, ← Hnsw.lookup_load h]
      have hmem : id ∈ (ch.added.filter (· ∉ ch.deleted) ++ ch.updated.filter (· ∉ ch.deleted)).dedup ↔
          id ∈ ch.added ∨ id ∈ ch.updated := by simp [hdel]
      simp only [hmem]
      split <;> simp [hdel]

/-! ### Rebuilds -/

variable (points : List (Point V B))

theorem foldl_ofPoints (k : ℕ) (H : Hnsw V) (label : ℕ) :
    ((points.zipIdx k).foldl (fun H e => ⟨H.elements.set e.2 (some e.1.vector), H.labelToId.set e.2 e.1.id⟩)
        H : Hnsw V).elements.get? label =
      (if k ≤ label ∧ label < k + points.length then (points[label - k]?).map fun p => some p.vector
        else H.elements.get? label) ∧
    ((points.zipIdx k).foldl (fun H e => ⟨H.elements.set e.2 (some e.1.vector), H.labelToId.set e.2 e.1.id⟩)
        H : Hnsw V).labelToId.get? label =
      (if k ≤ label ∧ label < k + points.length then (points[label - k]?).map Point.id
        else H.labelToId.get? label) := by
  induction points generalizing k H with
  | nil => simp
  | cons p points ih =>
    rw [zipIdx_cons, foldl_cons]
    obtain ⟨he, hl⟩ := ih (k + 1) ⟨H.elements.set k (some p.vector), H.labelToId.set k p.id⟩
    rw [he, hl]
    simp only [length_cons, get?_set]
    by_cases hk : label = k
    · subst hk
      have hin : label ≤ label ∧ label < label + (points.length + 1) := by omega
      simp [hin]
    · by_cases hin : k + 1 ≤ label ∧ label < k + 1 + points.length
      · have h₂ : k ≤ label ∧ label < k + (points.length + 1) := by omega
        have hidx : label - k = (label - (k + 1)) + 1 := by omega
        rw [if_pos hin, if_pos h₂, if_pos hin, if_pos h₂, hidx, List.getElem?_cons_succ]
        exact ⟨rfl, rfl⟩
      · have h₂ : ¬ (k ≤ label ∧ label < k + (points.length + 1)) := by omega
        simp only [if_neg hin, if_neg h₂, if_neg hk, and_self]

theorem Hnsw.get?_ofPoints (label : ℕ) :
    (ofPoints points).elements.get? label = points[label]?.map (fun p => some p.vector) ∧
      (ofPoints points).labelToId.get? label = points[label]?.map Point.id := by
  obtain ⟨he, hl⟩ := foldl_ofPoints points 0 (⟨.empty, .empty⟩ : Hnsw V) label
  rw [ofPoints, he, hl]
  by_cases hlt : label < points.length
  · simp [hlt]
  · simp [hlt, get?_empty]

theorem Hnsw.finds_ofPoints (id : Str) (v : V) :
    (Hnsw.ofPoints points).Finds id v ↔ ∃ p ∈ points, p.id = id ∧ p.vector = v := by
  constructor
  · rintro ⟨label, hid, hv⟩
    rw [(get?_ofPoints points label).2] at hid
    obtain ⟨p, hp, rfl⟩ := Option.map_eq_some_iff.1 hid
    rw [(get?_ofPoints points label).1, hp] at hv
    exact ⟨p, mem_of_getElem? hp, rfl, Option.some.inj (Option.some.inj hv)⟩
  · rintro ⟨p, hp, rfl, rfl⟩
    obtain ⟨label, hlabel⟩ := mem_iff_getElem?.1 hp
    refine ⟨label, ?_, ?_⟩
    · rw [(get?_ofPoints points label).2, hlabel]
      rfl
    · rw [(get?_ofPoints points label).1, hlabel]
      rfl

end CodeIndexer.Storage
