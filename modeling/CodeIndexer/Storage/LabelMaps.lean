import CodeIndexer.Lib.Transition
import CodeIndexer.Storage.HnswDisk

/-!
# The label maps over sessions

Any sequence of `load_for_incremental_update`, `add_or_update_vector`, `remove_vector` and `save_incremental_update` on
an index that was built from distinct ids; `vector_count` is the `len(id_to_label)` that every caller passes. A load
takes `next_label` from the labels that are left, so a freed label is given away again while the index still has it,
marked as deleted.
-/

namespace CodeIndexer.Storage.LabelMaps

open PyText TransitionSystem List

variable {V B : Type}

structure State (V : Type) where
  disk : HnswDisk V
  session : Option (Working V)

inductive Act (V : Type)
  | load
  | add (pointId : Str) (vector : V)
  | remove (pointId : Str)
  | save (clearStale : Bool)

def State.step (s : State V) : Act V → Option (State V)
  | .load => s.disk.hnsw.map fun H => { s with session := some H.loadForIncrementalUpdate }
  | .add id v => (s.session.bind (·.addOrUpdateVector id v)).map fun w => { s with session := some w }
  | .remove id => (s.session.bind (·.removeVector id)).map fun w => { s with session := some w }
  | .save clearStale => s.session.map fun w => { s with disk := s.disk.saveIncrementalUpdate w clearStale }

/-- `rebuild_from_vectors` over files with distinct ids, some of which it indexes. -/
def State.Built (B : Type) (s : State V) : Prop :=
  ∃ (fits : V → Bool) (d : HnswDisk V) (points : List (Point V B)) (visible : Option Visible) (clearStale : Bool),
    (points.map Point.id).Nodup ∧ (∃ p ∈ points, (fits p.vector && visible.all fun v => p.path ∈ v.files) = true) ∧
      d.rebuildFromVectors fits points visible clearStale = some s.disk ∧ s.session = none

def labelMaps (V B : Type) : TransitionSystem (State V) (Act V) := ⟨State.Built B, State.step⟩

def SameLabels (elements : Dict ℕ (Option V)) (labelToId : Dict ℕ Str) : Prop :=
  ∀ label, (∃ v, elements.get? label = some (some v)) ↔ ∃ id, labelToId.get? label = some id

structure Bijective (w : Working V) : Prop where
  inverse : ∀ id label, w.idToLabel.get? id = some label ↔ w.labelToId.get? label = some id
  below : ∀ label id, w.labelToId.get? label = some id → label < w.nextLabel
  live : SameLabels w.elements w.labelToId

/-- The metadata has the live labels, under distinct ids, and counts them. -/
structure Counted (elements : Dict ℕ (Option V)) (info : HnswMeta) : Prop where
  live : SameLabels elements info.idMapping
  distinct : (info.idMapping.items.map Prod.snd).Nodup
  count : info.vectorCount = elements.items.countP fun e => e.2.isSome

structure State.Consistent (s : State V) : Prop where
  session : ∀ w, s.session = some w → Bijective w
  disk : ∃ elements info, s.disk.bin = some elements ∧ s.disk.info = some info ∧ Counted elements info

theorem SameLabels.count {elements : Dict ℕ (Option V)} {labelToId : Dict ℕ Str} (h : SameLabels elements labelToId) :
    (elements.items.countP fun e => e.2.isSome) = labelToId.items.length := by
  have hperm : ((elements.items.filter fun e => e.2.isSome).map Prod.fst).Perm (labelToId.items.map Prod.fst) := by
    refine (perm_ext_iff_of_nodup (elements.nodup.sublist (filter_sublist.map _)) labelToId.nodup).mpr fun label => ?_
    have hlabel := h label
    simp only [← Dict.mem_items_iff] at hlabel
    simp only [mem_map, mem_filter, Prod.exists, Option.isSome_iff_exists]
    constructor
    · rintro ⟨_, _, ⟨hmem, v, rfl⟩, rfl⟩
      obtain ⟨id, hid⟩ := hlabel.mp ⟨v, hmem⟩
      exact ⟨_, id, hid, rfl⟩
    · rintro ⟨_, id, hid, rfl⟩
      obtain ⟨v, hv⟩ := hlabel.mpr ⟨id, hid⟩
      exact ⟨_, _, ⟨hv, v, rfl⟩, rfl⟩
  rw [countP_eq_length_filter]
  simpa using hperm.length_eq

namespace Bijective
variable {w w' : Working V}

theorem ok (h : Bijective w) : w.Ok := ⟨h.inverse, h.below, fun label id hid => (h.live label).mpr ⟨id, hid⟩⟩

theorem of_ok (h : w.Ok) (hlive : ∀ label v, w.elements.get? label = some (some v) →
    ∃ id, w.labelToId.get? label = some id) :
    Bijective w :=
  ⟨h.inverse, h.below, fun label => ⟨fun ⟨v, hv⟩ => hlive label v hv, fun ⟨id, hid⟩ => h.live label id hid⟩⟩

theorem items_perm (h : Bijective w) : w.labelToId.items.Perm (w.idToLabel.items.map Prod.swap) := by
  refine (perm_ext_iff_of_nodup (.of_map _ w.labelToId.nodup)
    ((List.Nodup.of_map _ w.idToLabel.nodup).map Prod.swap_injective)).mpr fun e => ?_
  obtain ⟨label, id⟩ := e
  have hinverse := h.inverse id label
  rw [← Dict.mem_items_iff, ← Dict.mem_items_iff] at hinverse
  simp [← hinverse]

theorem counted (h : Bijective w) (d : HnswDisk V) (clearStale : Bool) :
    ∃ elements info, (d.saveIncrementalUpdate w clearStale).bin = some elements ∧
      (d.saveIncrementalUpdate w clearStale).info = some info ∧ Counted elements info := by
  refine ⟨_, _, rfl, rfl, h.live, ?_, ?_⟩
  · rw [(h.items_perm.map Prod.snd).nodup_iff, map_map]
    exact w.idToLabel.nodup
  · rw [h.live.count, h.items_perm.length_eq, length_map]

theorem addOrUpdateVector (h : Bijective w) (id : Str) (v : V) :
    ∃ w', w.addOrUpdateVector id v = some w' ∧ Bijective w' := by
  obtain ⟨w', hw, hok, -⟩ := Working.addOrUpdateVector_spec h.ok id v
  refine ⟨w', hw, of_ok hok fun label u hu => ?_⟩
  cases hid : w.idToLabel.get? id with
  | some l =>
    simp only [Working.addOrUpdateVector, hid, Working.markDeleted, Option.map_map, Option.map_eq_some_iff] at hw
    obtain ⟨_, -, rfl⟩ := hw
    simp only [Function.comp_apply, Dict.get?_set] at hu ⊢
    split_ifs at hu with hl
    · exact ⟨id, hl ▸ (h.inverse id l).mp hid⟩
    · exact (h.live label).mp ⟨u, hu⟩
  | none =>
    simp only [Working.addOrUpdateVector, hid, Option.some.injEq] at hw
    subst hw
    simp only [Dict.get?_set] at hu ⊢
    split_ifs at hu ⊢ with hl
    · exact ⟨id, rfl⟩
    · exact (h.live label).mp ⟨u, hu⟩

theorem removeVector (h : Bijective w) (id : Str) : ∃ w', w.removeVector id = some w' ∧ Bijective w' := by
  obtain ⟨w', hw, hok, -⟩ := Working.removeVector_spec h.ok id
  refine ⟨w', hw, of_ok hok fun label u hu => ?_⟩
  cases hid : w.idToLabel.get? id with
  | some l =>
    simp only [Working.removeVector, hid, Working.markDeleted, Option.map_map, Option.map_eq_some_iff] at hw
    obtain ⟨_, -, rfl⟩ := hw
    simp only [Function.comp_apply, Dict.get?_set, Dict.get?_erase] at hu ⊢
    by_cases hl : label = l
    · simp [hl] at hu
    · rw [if_neg hl] at hu ⊢
      exact (h.live label).mp ⟨u, hu⟩
  | none =>
    simp only [Working.removeVector, hid, Option.some.injEq] at hw
    exact hw ▸ (h.live label).mp ⟨u, hw ▸ hu⟩

end Bijective

theorem Counted.load {elements : Dict ℕ (Option V)} {info : HnswMeta} (h : Counted elements info) :
    Bijective (⟨elements, info.idMapping⟩ : Hnsw V).loadForIncrementalUpdate :=
  .of_ok (Hnsw.Ok.load ⟨h.distinct, fun label id hid => (h.live label).mpr ⟨id, hid⟩⟩) fun label v hv =>
    (h.live label).mp ⟨v, hv⟩

namespace State
variable {s s' : State V}

theorem Consistent.edit (h : s.Consistent) {f : Working V → Option (Working V)} {w' : Working V}
    (hf : ∀ w, Bijective w → ∃ w', f w = some w' ∧ Bijective w') (hs : s.session.bind f = some w') :
    Consistent { s with session := some w' } := by
  obtain ⟨w, hw, hfw⟩ := Option.bind_eq_some_iff.mp hs
  obtain ⟨w₁, hw₁, hok⟩ := hf w (h.session w hw)
  obtain rfl : w₁ = w' := Option.mem_unique hw₁ hfw
  exact ⟨fun w₂ hw₂ => Option.some.inj hw₂ ▸ hok, h.disk⟩

theorem Consistent.step (h : s.Consistent) {a : Act V} (hs : s.step a = some s') : s'.Consistent := by
  cases a with
  | load =>
    obtain ⟨elements, info, hbin, hinfo, hcounted⟩ := h.disk
    obtain ⟨H, hH, rfl⟩ := Option.map_eq_some_iff.mp hs
    simp only [HnswDisk.hnsw, hbin, HnswDisk.loadIdMapping, hinfo, Option.map_some, Option.getD_some,
      Option.some.injEq] at hH
    refine ⟨fun w hw => ?_, h.disk⟩
    rw [← Option.some.inj hw, ← hH]
    exact hcounted.load
  | add id v =>
    obtain ⟨w', hw', rfl⟩ := Option.map_eq_some_iff.mp hs
    exact h.edit (fun w hw => hw.addOrUpdateVector id v) hw'
  | remove id =>
    obtain ⟨w', hw', rfl⟩ := Option.map_eq_some_iff.mp hs
    exact h.edit (fun w hw => hw.removeVector id) hw'
  | save clearStale =>
    obtain ⟨w, hw, rfl⟩ := Option.map_eq_some_iff.mp hs
    exact ⟨h.session, (h.session w hw).counted s.disk clearStale⟩

end State

theorem counted_ofPoints {points : List (Point V B)} (hnodup : (points.map Point.id).Nodup) (isStale : Option Bool)
    (filtered : Option Filtered) :
    Counted (Hnsw.ofPoints points).elements ⟨points.length, (Hnsw.ofPoints points).labelToId, isStale, filtered⟩ := by
  have hlabels : SameLabels (Hnsw.ofPoints points).elements (Hnsw.ofPoints points).labelToId := by
    intro label
    rw [(Hnsw.get?_ofPoints points label).1, (Hnsw.get?_ofPoints points label).2]
    cases points[label]? <;> simp
  have hkeys : ((Hnsw.ofPoints points).labelToId.items.map Prod.fst).Perm (List.range points.length) := by
    refine (perm_ext_iff_of_nodup (Dict.nodup _) nodup_range).mpr fun label => ?_
    rw [← not_iff_not, ← Dict.get?_eq_none_iff, (Hnsw.get?_ofPoints points label).2]
    simp
  refine ⟨hlabels, ?_, ?_⟩
  · refine List.Nodup.map_on ?_ (.of_map _ (Dict.nodup _))
    rintro ⟨l, id⟩ hl ⟨l', _⟩ hl' rfl
    rw [Dict.mem_items_iff, (Hnsw.get?_ofPoints points _).2, ← List.getElem?_map] at hl hl'
    have hlt : l < (points.map Point.id).length := (List.getElem?_eq_some_iff.mp hl).1
    rw [(List.getElem?_inj hlt hnodup).mp (hl.trans hl'.symm)]
  · rw [hlabels.count]
    simpa using hkeys.length_eq.symm

theorem State.Built.consistent {s : State V} (h : s.Built B) : s.Consistent := by
  obtain ⟨fits, d, points, visible, clearStale, hnodup, ⟨p, hp, hfits⟩, hbuilt, hnone⟩ := h
  refine ⟨by simp [hnone], ?_⟩
  have hpoints : (points.map some).reduceOption = points := by
    simp [reduceOption]
  unfold HnswDisk.rebuildFromVectors HnswDisk.rebuild HnswDisk.kept at hbuilt
  rw [hpoints] at hbuilt
  dsimp only at hbuilt
  split at hbuilt
  · rename_i hnil
    refine absurd ?_ (filter_eq_nil_iff.mp hnil p hp)
    cases visible <;> simpa using hfits
  · rw [← Option.some.inj hbuilt]
    exact ⟨_, _, rfl, rfl, counted_ofPoints (hnodup.sublist (filter_sublist.map _)) _ _⟩

/-- In every session of every run the maps are inverse to each other and have the live labels, and what is saved
counts them. -/
theorem bijection_kept {s : State V} (h : (labelMaps V B).Reachable Any s) : s.Consistent :=
  h.invariant (fun _ => State.Built.consistent) fun _ _ _ hs _ hstep => hs.step hstep

def onePoint : State ℕ := ⟨⟨some (Hnsw.ofPoints [(⟨"p", 1, [], ()⟩ : Point ℕ Unit)]).elements,
  some ⟨1, (Hnsw.ofPoints [(⟨"p", 1, [], ()⟩ : Point ℕ Unit)]).labelToId, some false, none⟩⟩, none⟩

/-- The label 0 of `p` is freed, and after a reload it is that of `q`. -/
theorem bijection_kept_reused : ∃ s, (labelMaps ℕ Unit).Reachable Any s ∧
    s.session.map (·.labelToId.items) = some [(0, ['q'])] ∧ s.Consistent := by
  have hinit : (labelMaps ℕ Unit).init onePoint :=
    ⟨fun _ => true, ⟨none, none⟩, [⟨"p", 1, [], ()⟩], none, true, by decide, by simp, rfl, rfl⟩
  exact exists_of_run_and onePoint [.load, .remove "p", .save true, .load, .add "q" 2, .save true] hinit
    (by decide +kernel) fun s hs _ => bijection_kept hs

end CodeIndexer.Storage.LabelMaps
