import CodeIndexer.Storage.HnswIndex
import CodeIndexer.Storage.OneFile

/-!
# Incremental update at the end of an indexing session

A session keeps three sets of ids, in which the order of its calls is lost. An id that was removed and then
written again is both written and deleted, and the incremental update drops it. As long as points are
placed well, that is the only difference to a rebuild: the updated index finds every id of the id index
with its last vector exactly when no deleted id is in the id index.
-/

namespace CodeIndexer.Storage

open PyText TransitionSystem Function

variable {V B : Type}

/-! ### The point of an id -/

namespace OneFile

variable {c c' : Collection V B}

theorem pointOf_eq_some_iff (h : OneFile c) {id : Str} {p : Point V B} :
    c.pointOf id = some p ↔ ∃ vf, c.files.get? vf = some p ∧ p.id = id := by
  rw [Collection.pointOf, Option.bind_eq_some_iff]
  constructor
  · rintro ⟨vf, hid, hp⟩
    obtain ⟨q, hq, rfl⟩ := h.named hid
    exact ⟨vf, hp, by rw [Option.mem_unique hp hq]⟩
  · rintro ⟨vf, hp, rfl⟩
    exact ⟨vf, h.owned hp, hp⟩

theorem pointOf_isSome_iff (h : OneFile c) {id : Str} :
    (c.pointOf id).isSome = true ↔ (c.idIndex.get? id).isSome = true := by
  rw [Option.isSome_iff_exists, Option.isSome_iff_exists]
  constructor
  · rintro ⟨p, hp⟩
    obtain ⟨vf, hid, -⟩ := Option.bind_eq_some_iff.1 hp
    exact ⟨vf, hid⟩
  · rintro ⟨vf, hid⟩
    obtain ⟨p, hp, rfl⟩ := h.named hid
    exact ⟨p, h.pointOf_eq_some_iff.2 ⟨vf, hp, rfl⟩⟩

theorem finds_ofPoints (h : OneFile c) (id : Str) (v : V) :
    (Hnsw.ofPoints (c.files.items.map Prod.snd)).Finds id v ↔ (c.pointOf id).map Point.vector = some v := by
  rw [Hnsw.finds_ofPoints, Option.map_eq_some_iff]
  constructor
  · rintro ⟨p, hp, rfl, rfl⟩
    obtain ⟨⟨vf, q⟩, he, rfl⟩ := List.mem_map.1 hp
    exact ⟨q, h.pointOf_eq_some_iff.2 ⟨vf, Dict.mem_items_iff.1 he, rfl⟩, rfl⟩
  · rintro ⟨p, hp, rfl⟩
    obtain ⟨vf, hget, rfl⟩ := h.pointOf_eq_some_iff.1 hp
    exact ⟨p, List.mem_map.2 ⟨(vf, p), Dict.mem_items_iff.2 hget, rfl⟩, rfl, rfl⟩

theorem pointOf_removes (h : OneFile c) {ids : List Str} (hrem : Removes c c' ids) (id : Str) :
    c'.pointOf id = if id ∈ ids then none else c.pointOf id := by
  refine Option.ext fun p => ?_
  rw [(h.removes hrem).pointOf_eq_some_iff]
  constructor
  · rintro ⟨vf, hp, rfl⟩
    obtain ⟨hp, hkept⟩ := (hrem.files vf p).1 hp
    have hmem : p.id ∉ ids := fun hmem => hkept p.id hmem (h.owned hp)
    rw [if_neg hmem]
    exact h.pointOf_eq_some_iff.2 ⟨vf, hp, rfl⟩
  · intro hp
    split at hp
    · cases hp
    · rename_i hmem
      obtain ⟨vf, hget, rfl⟩ := h.pointOf_eq_some_iff.1 hp
      refine ⟨vf, (hrem.files vf p).2 ⟨hget, fun id hid hvf => ?_⟩, rfl⟩
      exact hmem (h.distinct _ _ vf (h.owned hget) hvf ▸ hid)

end OneFile

theorem Collection.pointOf_writePoint {c c' : Collection V B} {p : Point V B} {vf : FileKey}
    (hplaced : ∀ id vf', c.idIndex.get? id = some vf' → (id = p.id ↔ vf' = vf))
    (hfiles : c'.files = c.files.set vf p) (hidx : c'.idIndex = c.idIndex.set p.id vf) (id : Str) :
    c'.pointOf id = if id = p.id then some p else c.pointOf id := by
  rw [Collection.pointOf, hidx, hfiles, Dict.get?_set]
  split
  · exact Dict.get?_set_self _ _ _
  · rename_i hne
    rw [Collection.pointOf]
    cases hid : c.idIndex.get? id with
    | none => rfl
    | some vf' => exact Dict.get?_set_of_ne _ _ fun heq => hne ((hplaced id vf' hid).2 heq)

/-! ### Sessions -/

/-- A collection in a session; `last` is the vector that an id was last upserted with. -/
structure Session (V B : Type) where
  coll : Collection V B
  last : Str → Option V

def Collection.written (L : Layout V) (c : Collection V B) : Act V B → Option (Point V B)
  | .write => c.todo.head?.filter fun p => (L.vectorFile p).isSome
  | .upsert _ | .delete _ => none

def Session.step (L : Layout V) (s : Session V B) (a : Act V B) : Option (Session V B) :=
  (s.coll.step L a).map fun c => ⟨c, match s.coll.written L a with
    | some p => update s.last p.id (some p.vector)
    | none => s.last⟩

def Session.start (c₀ : Collection V B) : Session V B :=
  ⟨c₀.beginIndexing, fun id => (c₀.pointOf id).map Point.vector⟩

def session (L : Layout V) (c₀ : Collection V B) : TransitionSystem (Session V B) (Act V B) where
  init s := s = .start c₀
  step := Session.step L

variable {existed : Bool} {ch : Changes} {id x : Str}

theorem Changes.mem_noteWritten_added :
    id ∈ (ch.noteWritten existed x).added ↔ existed = false ∧ id = x ∨ id ∈ ch.added := by
  cases existed <;> simp [noteWritten]

theorem Changes.mem_noteWritten_updated :
    id ∈ (ch.noteWritten existed x).updated ↔ existed = true ∧ id = x ∨ id ∈ ch.updated := by
  cases existed <;> simp [noteWritten]

theorem Changes.noteWritten_deleted : (ch.noteWritten existed x).deleted = ch.deleted := by
  cases existed <;> rfl

/-- A session knows which ids it may have changed, and has not lost one it wrote and did not delete. -/
structure Session.Inv (c₀ : Collection V B) (s : Session V B) : Prop where
  one : OneFile s.coll
  last : ∀ id p, s.coll.pointOf id = some p → s.last id = some p.vector
  changes : ∃ ch, s.coll.session = some ch ∧
    (∀ id, id ∉ ch.added → id ∉ ch.updated → id ∉ ch.deleted → s.coll.pointOf id = c₀.pointOf id) ∧
    ∀ id, id ∈ ch.added ∨ id ∈ ch.updated → id ∉ ch.deleted → (s.coll.pointOf id).isSome = true

namespace Session.Inv

variable {L : Layout V} {c₀ : Collection V B} {s : Session V B}

theorem start (h : OneFile c₀) : Session.Inv c₀ (.start c₀) where
  one := ⟨h.one, h.indexed, h.distinct⟩
  last id p hp := by
    have hp₀ : c₀.pointOf id = some p := hp
    exact congrArg (Option.map Point.vector) hp₀
  changes := ⟨.empty, rfl, fun _ _ _ _ => rfl, fun id hid => absurd hid (by simp [Changes.empty])⟩

variable {c : Collection V B}

theorem removes (h : Session.Inv c₀ s) {ids : List Str} (hrem : Removes s.coll c ids) : Session.Inv c₀ ⟨c, s.last⟩ := by
  have hpoint := h.one.pointOf_removes hrem
  obtain ⟨ch, hch, huntouched, hwritten⟩ := h.changes
  obtain ⟨ch', hch', hadd, hupd, hdel⟩ : Changes.Removes s.coll.idIndex ids (some ch) c.session :=
    hch ▸ hrem.session
  refine ⟨h.one.removes hrem, fun id p hp => ?_, ch', hch', fun id h₁ h₂ h₃ => ?_, fun id hid h₃ => ?_⟩
  · replace hp := (hpoint id).symm.trans hp
    split at hp
    · cases hp
    · exact h.last id p hp
  · rw [hdel, not_or, not_and] at h₃
    have hold := huntouched id (hadd ▸ h₁) (hupd ▸ h₂) h₃.1
    refine (hpoint id).trans ?_
    split
    · -- An id that was not indexed has no point to lose.
      rename_i hmem
      rw [← hold]
      have := h₃.2 hmem
      rw [← h.one.pointOf_isSome_iff, Option.not_isSome_iff_eq_none] at this
      exact this.symm
    · exact hold
  · rw [hdel, not_or, not_and] at h₃
    have hsome := hwritten id (by rwa [hadd, hupd] at hid) h₃.1
    show (c.pointOf id).isSome = true
    rw [hpoint id]
    split
    · rename_i hmem
      exact absurd (h.one.pointOf_isSome_iff.1 hsome) (h₃.2 hmem)
    · exact hsome

theorem writes (h : Session.Inv c₀ s) {p : Point V B} {vf : FileKey}
    (hplaced : ∀ id vf', s.coll.idIndex.get? id = some vf' → (id = p.id ↔ vf' = vf))
    (hfiles : c.files = s.coll.files.set vf p) (hidx : c.idIndex = s.coll.idIndex.set p.id vf)
    (hsess : c.session = s.coll.session.map (·.noteWritten (s.coll.idIndex.get? p.id).isSome p.id)) :
    Session.Inv c₀ ⟨c, update s.last p.id (some p.vector)⟩ := by
  have hpoint := Collection.pointOf_writePoint hplaced hfiles hidx
  obtain ⟨ch, hch, huntouched, hwritten⟩ := h.changes
  rw [hch] at hsess
  refine ⟨h.one.writes hplaced hfiles hidx, fun id q hq => ?_, _, hsess, fun id h₁ h₂ h₃ => ?_,
    fun id hid h₃ => ?_⟩
  · replace hq := (hpoint id).symm.trans hq
    dsimp only
    split at hq
    · rename_i heq
      cases hq
      rw [heq, update_self]
    · rename_i hne
      rw [update_of_ne hne]
      exact h.last id q hq
  · rw [Changes.mem_noteWritten_added] at h₁
    rw [Changes.mem_noteWritten_updated] at h₂
    rw [Changes.noteWritten_deleted] at h₃
    refine (hpoint id).trans ?_
    have hid : id ≠ p.id := by
      rintro rfl
      cases hexisted : (s.coll.idIndex.get? p.id).isSome with
      | true => exact h₂ (.inl ⟨hexisted, rfl⟩)
      | false => exact h₁ (.inl ⟨hexisted, rfl⟩)
    rw [if_neg hid]
    exact huntouched id (fun hmem => h₁ (.inr hmem)) (fun hmem => h₂ (.inr hmem)) h₃
  · rw [Changes.mem_noteWritten_added, Changes.mem_noteWritten_updated] at hid
    rw [Changes.noteWritten_deleted] at h₃
    show (c.pointOf id).isSome = true
    rw [hpoint id]
    split
    · rfl
    · rename_i hne
      refine hwritten id ?_ h₃
      rcases hid with (⟨-, heq⟩ | hmem) | (⟨-, heq⟩ | hmem)
      · exact absurd heq hne
      · exact .inl hmem
      · exact absurd heq hne
      · exact .inr hmem

theorem step (h : Session.Inv c₀ s) {s' : Session V B} {a : Act V B} (hplaced : Placed L s.coll a)
    (hs : s.step L a = some s') : Session.Inv c₀ s' := by
  obtain ⟨c, hc, rfl⟩ := Option.map_eq_some_iff.1 hs
  obtain ⟨points, rfl, -, rfl⟩ | ⟨p, todo, rfl, htodo, ⟨hvf, rfl⟩ | ⟨vf, hvf, rfl⟩⟩ | ⟨ids, rfl, -, rfl⟩ :=
    Collection.step_cases hc
  · have hrem := (s.coll.dropOrphans_spec points).1
    exact h.removes ⟨hrem.files, hrem.idIndex, hrem.session⟩
  · have hwritten : s.coll.written L .write = none := by simp [Collection.written, htodo, hvf]
    rw [hwritten]
    exact ⟨⟨h.one.one, h.one.indexed, h.one.distinct⟩, h.last, h.changes⟩
  · have hwritten : s.coll.written L .write = some p := by simp [Collection.written, htodo, hvf]
    rw [hwritten]
    have hentries : ∀ id vf', s.coll.idIndex.get? id = some vf' → (id = p.id ↔ vf' = vf) := fun id vf' hid =>
      hplaced p (by rw [htodo]; rfl) vf hvf (id, vf') (Dict.mem_items_iff.2 hid)
    exact h.writes hentries (s.coll.writePoint_files p vf) (s.coll.writePoint_idIndex p vf)
      (s.coll.writePoint_session p vf)
  · exact h.removes (s.coll.deletePoints_spec ids).1

end Session.Inv

/-- The index finds every id of the id index with the vector it was last upserted with, and nothing else. -/
def InStep (s : Session V B) (H : Hnsw V) : Prop :=
  ∀ id v, H.Finds id v ↔ (s.coll.idIndex.get? id).isSome = true ∧ s.last id = some v

/-- A session starts on a collection whose id index, vector files and HNSW index have the same ids. Then
the incremental update at any later moment is in step exactly when no deleted id is in the id index, and a
rebuild from the vector files always is. -/
theorem incremental_update_in_step_iff {L : Layout V} {c₀ : Collection V B} (hc₀ : OneFile c₀) {H₀ : Hnsw V}
    (hH₀ : H₀.Ok) (hsync : ∀ id v, H₀.Finds id v ↔ (c₀.pointOf id).map Point.vector = some v)
    {s : Session V B} (h : (session L c₀).Reachable (fun s a => Placed L s.coll a) s) :
    ∃ ch H, s.coll.session = some ch ∧ s.coll.applyIncrementalHnswBatchUpdate H₀ ch = some H ∧
      (InStep s H ↔ ∀ id ∈ ch.deleted, s.coll.idIndex.get? id = none) ∧
      InStep s (Hnsw.ofPoints (s.coll.files.items.map Prod.snd)) := by
  have hinv : Session.Inv c₀ s := by
    refine h.invariant ?_ fun s a s' hinv hplaced hs => hinv.step hplaced hs
    rintro s rfl
    exact .start hc₀
  obtain ⟨ch, hch, huntouched, hwritten⟩ := hinv.changes
  obtain ⟨H, hH, hfinds⟩ := s.coll.applyIncrementalHnswBatchUpdate_spec hH₀ ch
  -- The last vector of an indexed id is the one of its point.
  have hcurrent : ∀ id v, (s.coll.idIndex.get? id).isSome = true ∧ s.last id = some v ↔
      (s.coll.pointOf id).map Point.vector = some v := by
    intro id v
    rw [← hinv.one.pointOf_isSome_iff]
    cases hp : s.coll.pointOf id with
    | none => simp
    | some p => simp [hinv.last id p hp]
  refine ⟨ch, H, hch, hH, ⟨fun hstep id hid => ?_, fun hdel id v => ?_⟩, fun id v => ?_⟩
  · -- A deleted id is not found, so it is not indexed.
    rw [← Option.not_isSome_iff_eq_none, ← hinv.one.pointOf_isSome_iff]
    intro hsome
    obtain ⟨p, hp⟩ := Option.isSome_iff_exists.1 hsome
    have := (hstep id p.vector).2 ((hcurrent id p.vector).2 (by rw [hp]; rfl))
    exact ((hfinds id p.vector).1 this).1 hid
  · rw [hcurrent, hfinds]
    by_cases hid : id ∈ ch.deleted
    · have hnone : s.coll.pointOf id = none := by
        rw [← Option.not_isSome_iff_eq_none, hinv.one.pointOf_isSome_iff, hdel id hid]
        nofun
      simp [hid, hnone]
    · by_cases hw : id ∈ ch.added ∨ id ∈ ch.updated
      · simp [hid, hw, hwritten id hw hid]
      · obtain ⟨h₁, h₂⟩ := not_or.1 hw
        simp [hid, hw, hsync, huntouched id h₁ h₂ hid]
  · rw [hcurrent, hinv.one.finds_ofPoints]

theorem oneFile_onePoint : OneFile onePoint :=
  consistent_new.one.writes (fun _ _ h => nomatch h) rfl rfl

def onePointIndex : Hnsw ℚ := Hnsw.ofPoints (onePoint.files.items.map Prod.snd)

theorem onePointIndex_ok : onePointIndex.Ok where
  distinct := by decide
  live label id h := by
    have hmem : (label, id) ∈ [(0, "p1".toList)] := Dict.mem_items_iff.2 h
    obtain ⟨rfl, -⟩ := Prod.mk.inj (List.mem_singleton.1 hmem)
    exact ⟨0, rfl⟩

/-- A session that writes the point again, adds another and deletes the first. -/
theorem in_step_after_update_add_and_delete :
    ∃ s : Session ℚ ℕ, (session onesLayout onePoint).Reachable (fun s a => Placed onesLayout s.coll a) s ∧
      s.coll.idIndex.items.map Prod.fst = ["p2".toList] ∧
      ∃ ch H, s.coll.session = some ch ∧ s.coll.applyIncrementalHnswBatchUpdate onePointIndex ch = some H ∧
        InStep s H := by
  refine exists_of_run_imp (fun s => s.coll.idIndex.items.map Prod.fst = ["p2".toList] ∧
      s.coll.session.map Changes.deleted = some ["p1".toList]) (.start onePoint)
    [.upsert [⟨"p1", 0, "a.py", 1⟩, ⟨"p2", 2, "a.py", 2⟩], .write, .write, .delete ["p1"]] rfl (by decide +kernel)
    fun s hreach ⟨hids, hdel⟩ => ?_
  obtain ⟨ch, H, hch, hH, hiff, -⟩ := incremental_update_in_step_iff oneFile_onePoint onePointIndex_ok
    oneFile_onePoint.finds_ofPoints hreach
  refine ⟨hids, ch, H, hch, hH, hiff.2 fun id hid => ?_⟩
  rw [hch] at hdel
  rw [Option.some.inj hdel] at hid
  rw [List.mem_singleton.1 hid, ← Option.not_isSome_iff_eq_none, Option.isSome_iff_exists]
  rintro ⟨vf, hvf⟩
  have hmem : "p1".toList ∈ s.coll.idIndex.items.map Prod.fst := List.mem_map_of_mem (Dict.mem_items_iff.2 hvf)
  rw [hids] at hmem
  exact absurd hmem (by decide)

/-- In one session the file `a.py` loses the point to `b.py`. The point is in the id index and has its
vector file, and the updated index does not find it. -/
theorem moved_point_not_found :
    ∃ (s : Session ℚ ℕ) (ch : Changes) (H : Hnsw ℚ),
      (session onesLayout onePoint).Reachable (fun s a => Placed onesLayout s.coll a) s ∧
      s.coll.todo = [] ∧ s.coll.session = some ch ∧
      s.coll.applyIncrementalHnswBatchUpdate onePointIndex ch = some H ∧
      (s.coll.idIndex.get? "p1").isSome = true ∧ s.last "p1" = some 0 ∧
      (∀ v, ¬ H.Finds "p1" v) ∧ ¬ InStep s H := by
  obtain ⟨s, hreach, htodo, hdel, hid, hlast⟩ := exists_of_run_mem (M := session onesLayout onePoint)
    (C := fun s a => Placed onesLayout s.coll a) (P := fun s => s.coll.todo = [] ∧
      s.coll.session.map Changes.deleted = some ["p1".toList] ∧ (s.coll.idIndex.get? "p1").isSome ∧
      s.last "p1" = some 0)
    (.start onePoint) [.upsert [⟨"p2", 2, "a.py", 1⟩], .write, .upsert [⟨"p1", 0, "b.py", 2⟩], .write] rfl
    (by decide +kernel)
  obtain ⟨ch, hch, hdel⟩ := Option.map_eq_some_iff.1 hdel
  obtain ⟨H, hH, hfinds⟩ := s.coll.applyIncrementalHnswBatchUpdate_spec onePointIndex_ok ch
  have hlost : ∀ v, ¬ H.Finds "p1" v := by
    intro v hv
    refine ((hfinds _ v).1 hv).1 ?_
    rw [hdel]
    exact List.mem_singleton_self _
  exact ⟨s, ch, H, hreach, htodo, hch, hH, hid, hlast, hlost, fun hstep => hlost 0 ((hstep _ 0).2 ⟨hid, hlast⟩)⟩

end CodeIndexer.Storage
