import CodeIndexer.Storage.OneFile

/-!
# Which source files own a point

A point id can be listed for several source files, but its vector file records only the path it was last
written with. `delete_points` takes the id out of the path index for that one path, and only if the path
index is in memory, so the other owners keep an id that is gone. Upserts keep the path index truthful by
themselves; `CleanDelete` says when a deletion does. `Ownership` remembers for every source file the ids
its last `upsert_points` listed.
-/

namespace CodeIndexer.Storage

open PyText TransitionSystem List

variable {V B : Type}

/-! ### The groups of a call -/

theorem pointsByFile_spec (points : List (Point V B)) (f : Str) :
    (∀ ids, (pointsByFile points).get? f = some ids →
      f ≠ [] ∧ ∀ x, x ∈ ids ↔ ∃ p ∈ points, p.path = f ∧ p.id = x) ∧
    ((pointsByFile points).get? f = none → f ≠ [] → ∀ p ∈ points, p.path ≠ f) := by
  have hf (groups : Dict Str (List Str)) (p : Point V B) :
      (if p.path = [] then groups else groups.set p.path ((groups.get? p.path).getD [] ++ [p.id])) =
        (if p.path = [] then none else some p.path).elim groups fun f =>
          groups.set f ((groups.get? f).getD [] ++ [p.id]) := by
    split <;> rfl
  have hgroup (p : Point V B) : (if p.path = [] then none else some p.path) = some f ↔ f ≠ [] ∧ p.path = f := by
    split <;> grind
  rw [pointsByFile, Dict.get?_foldl_append hf]
  simp only [hgroup]
  constructor
  · intro ids hids
    split at hids
    · cases hids
    · rename_i hne
      cases hids
      obtain ⟨p, hp⟩ := exists_mem_of_ne_nil _ hne
      have hf : f ≠ [] := (of_decide_eq_true (mem_filter.1 hp).2).1
      exact ⟨hf, fun x => by simp [hf, and_assoc]⟩
  · intro hids hf p hp hpath
    split at hids
    · rename_i hnil
      simpa [hf, hpath] using filter_eq_nil_iff.1 hnil p hp
    · cases hids

/-! ### The path index after a deletion -/

theorem PathIndex.mem_foldl_removePoints (removals : List (Str × Str)) {ix : PathIndex} {g x : Str} :
    x ∈ (removals.foldl (fun ix r => ix.removePoint r.1 r.2) ix).getPointIds g ↔
      x ∈ ix.getPointIds g ∧ (g, x) ∉ removals := by
  induction removals generalizing ix with
  | nil => simp
  | cons r removals ih =>
    rw [foldl_cons, ih, mem_removePoint, mem_cons, not_or, Prod.ext_iff, and_assoc]

namespace Collection

def removals (c : Collection V B) (ids : List Str) : List (Str × Str) := (ids.foldl deletePoint (c, [])).2

theorem foldl_deletePoint_removals (ids : List Str) (c : Collection V B) (removals : List (Str × Str)) :
    (∀ r ∈ removals, r ∈ (ids.foldl deletePoint (c, removals)).2) ∧
    (∀ r ∈ (ids.foldl deletePoint (c, removals)).2, r ∈ removals ∨ r.2 ∈ ids) ∧
    ∀ id ∈ ids, ∀ vf p, c.idIndex.get? id = some vf → c.files.get? vf = some p → p.path ≠ [] →
      (∀ id' ∈ ids, c.idIndex.get? id' = some vf → id' = id) →
      (p.path, id) ∈ (ids.foldl deletePoint (c, removals)).2 := by
  induction ids generalizing c removals with
  | nil => exact ⟨fun r hr => hr, fun r hr => .inl hr, nofun⟩
  | cons id ids ih =>
    rw [foldl_cons]
    cases hvf : c.idIndex.get? id with
    | none =>
      have hskip : deletePoint (c, removals) id = (c, removals) := by simp only [deletePoint, hvf]
      rw [hskip]
      obtain ⟨hkeep, hnew, hhit⟩ := ih c removals
      refine ⟨hkeep, fun r hr => (hnew r hr).imp_right (mem_cons_of_mem _), ?_⟩
      intro x hx vf p hxvf hp hpath honly
      rcases mem_cons.1 hx with rfl | hx
      · cases hvf.symm.trans hxvf
      · exact hhit x hx vf p hxvf hp hpath fun y hy => honly y (mem_cons_of_mem _ hy)
    | some vf₀ =>
      rw [deletePoint_eq c removals hvf]
      obtain ⟨hkeep, hnew, hhit⟩ := ih { c with
          files := c.files.erase vf₀
          idIndex := c.idIndex.erase id
          session := c.session.map (·.noteDeleted id) }
        (if ((c.files.get? vf₀).map Point.path).getD [] = [] then removals
          else removals ++ [(((c.files.get? vf₀).map Point.path).getD [], id)])
      refine ⟨fun r hr => hkeep r ?_, fun r hr => ?_, ?_⟩
      · split
        · exact hr
        · exact mem_append_left _ hr
      · rcases hnew r hr with hr | hr
        · split at hr
          · exact .inl hr
          · rcases mem_append.1 hr with hr | hr
            · exact .inl hr
            · rw [mem_singleton.1 hr]
              exact .inr mem_cons_self
        · exact .inr (mem_cons_of_mem _ hr)
      · intro x hx vf p hxvf hp hpath honly
        by_cases hxid : x = id
        · subst hxid
          obtain rfl := Option.mem_unique hvf hxvf
          refine hkeep _ ?_
          simp [hp, hpath]
        · -- The id that is deleted first names another file, so the later one keeps its file.
          have hne : vf ≠ vf₀ := by
            rintro rfl
            exact hxid (honly id mem_cons_self hvf).symm
          refine hhit x ((mem_cons.1 hx).resolve_left hxid) vf p ?_ ?_ hpath fun y hy hyvf => ?_
          · exact Dict.get?_erase_eq_some.2 ⟨hxid, hxvf⟩
          · exact Dict.get?_erase_eq_some.2 ⟨hne, hp⟩
          · exact honly y (mem_cons_of_mem _ hy) (Dict.get?_erase_eq_some.1 hyvf).2

theorem mem_loadedPathIndex_deletePoints (c : Collection V B) (ids : List Str) {f x : Str} :
    x ∈ (c.deletePoints ids).loadedPathIndex.getPointIds f ↔ x ∈ c.loadedPathIndex.getPointIds f ∧
      ¬ (c.pathIndex.isSome = true ∧ (f, x) ∈ c.removals ids) := by
  obtain ⟨-, hsaved, -, hix⟩ := c.deletePoints_spec ids
  rw [loadedPathIndex, loadedPathIndex, hix, hsaved]
  cases c.pathIndex with
  | none => simp
  | some ix =>
    rw [Option.map_some, Option.getD_some, Option.getD_some, PathIndex.mem_foldl_removePoints, removals]
    simp

def raises (L : Layout V) (c : Collection V B) : Bool := c.todo.head?.any fun p => (L.vectorFile p).isNone

end Collection

/-! ### Runs -/

def Truthful (c : Collection V B) : Prop :=
  ∀ f x, x ∈ c.loadedPathIndex.getPointIds f → (c.idIndex.get? x).isSome = true

/-- Every owner of an id that a deletion is for is the path in the id's vector file, no other id of the call
names that file, and the path index is in memory. -/
def CleanDelete (c : Collection V B) : Act V B → Prop
  | .delete ids => ∀ id ∈ ids, ∀ e ∈ c.idIndex.items, e.1 = id → ∀ g ∈ c.loadedPathIndex.items, id ∈ g.2 →
      c.pathIndex.isSome = true ∧ g.1 ≠ [] ∧ (c.files.get? e.2).map Point.path = some g.1 ∧
        ∀ id' ∈ ids, c.idIndex.get? id' = some e.2 → id' = id
  | .upsert _ | .write => True

instance (c : Collection V B) (a : Act V B) : Decidable (CleanDelete c a) :=
  match a with
  | .delete _ => inferInstanceAs (Decidable (∀ _ ∈ _, _))
  | .upsert _ | .write => .isTrue trivial

theorem PathIndex.exists_mem_items {ix : PathIndex} {f x : Str} (h : x ∈ ix.getPointIds f) :
    ∃ ids, (f, ids) ∈ ix.items ∧ x ∈ ids := by
  rw [getPointIds] at h
  cases hget : Dict.get? ix f with
  | none => rw [hget] at h; cases h
  | some ids => exact ⟨ids, Dict.mem_items_iff.2 hget, by rwa [hget] at h⟩

theorem truthful_of_step {L : Layout V} {c c' : Collection V B} {a : Act V B} (h : Truthful c)
    (hclean : CleanDelete c a) (hs : c.step L a = some c') : Truthful c' := by
  obtain ⟨points, rfl, -, rfl⟩ | ⟨p, todo, rfl, -, ⟨-, rfl⟩ | ⟨vf, -, rfl⟩⟩ | ⟨ids, rfl, -, rfl⟩ :=
    Collection.step_cases hs
  · intro f x hx
    obtain ⟨hrem, hix, -⟩ := c.dropOrphans_spec points
    obtain ⟨hlisted, horphans⟩ := c.step1_spec points
    have hx : x ∈ (c.step1 points).1.getPointIds f := by
      rwa [Collection.loadedPathIndex, show Collection.pathIndex { c.dropOrphans points with todo := points } =
        some (c.step1 points).1 from hix] at hx
    obtain ⟨vf, hvf⟩ := Option.isSome_iff_exists.1 (h f x ((hlisted x f).1 hx).1)
    refine Option.isSome_iff_exists.2 ⟨vf, (hrem.idIndex x vf).2 ⟨hvf, fun hmem => ?_⟩⟩
    obtain ⟨o, ho, rfl⟩ := mem_map.1 hmem
    exact (horphans o ho).2 f hx
  · exact h
  · intro f x hx
    show (Dict.get? (c.writePoint p vf).idIndex x).isSome = true
    rw [c.writePoint_idIndex, Dict.get?_set]
    split
    · rfl
    · rename_i hne
      rcases (((c.writeFile p vf).registerId p vf).mem_loadedPathIndex_registerPath p).1 hx with hx | ⟨-, -, -, hid⟩
      · exact h f x hx
      · exact absurd hid hne
  · intro f x hx
    obtain ⟨hx, hkept⟩ := (c.mem_loadedPathIndex_deletePoints ids).1 hx
    obtain ⟨vf, hvf⟩ := Option.isSome_iff_exists.1 (h f x hx)
    refine Option.isSome_iff_exists.2 ⟨vf, ((c.deletePoints_spec ids).1.idIndex x vf).2 ⟨hvf, fun hmem => hkept ?_⟩⟩
    obtain ⟨listed, hlisted, hxl⟩ := PathIndex.exists_mem_items hx
    obtain ⟨hloaded, hne, hpath, honly⟩ := hclean x hmem (x, vf) (Dict.mem_items_iff.2 hvf) rfl (f, listed) hlisted hxl
    obtain ⟨p, hp, rfl⟩ := Option.map_eq_some_iff.1 hpath
    exact ⟨hloaded, (Collection.foldl_deletePoint_removals ids c []).2.2 x hmem vf p hvf hp hne honly⟩

/-- A collection, and for a source file the ids that its last upsert listed; nothing if one of them was
deleted since, or if the call raised before it had written them all. -/
structure Ownership (V B : Type) where
  coll : Collection V B
  listed : Str → Option (List Str)

def Ownership.step (L : Layout V) (s : Ownership V B) (a : Act V B) : Option (Ownership V B) :=
  (s.coll.step L a).map fun c => ⟨c, match a with
    | .upsert points => fun f => ((pointsByFile points).get? f).or (s.listed f)
    | .write => fun f => if s.coll.raises L ∧ ∃ p ∈ s.coll.todo, p.path = f then none else s.listed f
    | .delete ids => fun f => (s.listed f).filter fun S => S.all (· ∉ ids)⟩

def ownership (L : Layout V) : TransitionSystem (Ownership V B) (Act V B) where
  init s := s.coll.todo = [] ∧ Truthful s.coll ∧ s.listed = fun _ => none
  step := Ownership.step L

structure Listed (s : Ownership V B) : Prop where
  loaded : s.coll.todo ≠ [] → s.coll.pathIndex.isSome = true
  listed : ∀ f S, s.listed f = some S → f ≠ [] ∧ ∀ x, x ∈ S ↔
    x ∈ s.coll.loadedPathIndex.getPointIds f ∨ ∃ p ∈ s.coll.todo, p.path = f ∧ p.id = x

namespace Listed

variable {L : Layout V} {s : Ownership V B} {c : Collection V B}

theorem upsert (h : Listed s) (htodo : s.coll.todo = []) (points : List (Point V B))
    (hix : c.pathIndex = some (s.coll.step1 points).1) (hc : c.todo = points) :
    Listed ⟨c, fun f => ((pointsByFile points).get? f).or (s.listed f)⟩ := by
  refine ⟨fun _ => by rw [hix]; rfl, fun f S hS => ?_⟩
  have hkept : ∀ x, x ∈ c.loadedPathIndex.getPointIds f ↔ x ∈ s.coll.loadedPathIndex.getPointIds f ∧
      ∀ ids, (pointsByFile points).get? f = some ids → x ∈ ids := by
    intro x
    rw [Collection.loadedPathIndex, hix]
    exact (s.coll.step1_spec points).1 x f
  dsimp only at hS ⊢
  simp only [hkept, hc]
  cases hgroup : (pointsByFile points).get? f with
  | some ids =>
    rw [hgroup, Option.some_or] at hS
    obtain rfl := Option.some.inj hS
    obtain ⟨hf, hmem⟩ := (pointsByFile_spec points f).1 ids hgroup
    refine ⟨hf, fun x => ?_⟩
    rw [← hmem]
    refine ⟨.inr, ?_⟩
    rintro (⟨-, hx⟩ | hx)
    · exact hx ids rfl
    · exact hx
  | none =>
    rw [hgroup, Option.none_or] at hS
    obtain ⟨hf, hmem⟩ := h.listed f S hS
    refine ⟨hf, fun x => ?_⟩
    have hnone := (pointsByFile_spec points f).2 hgroup hf
    rw [hmem, htodo]
    constructor
    · rintro (hx | ⟨p, hp, -⟩)
      · refine .inl ⟨hx, fun ids hids => ?_⟩
        cases hids
      · cases hp
    · rintro (⟨hx, -⟩ | ⟨p, hp, hpf, -⟩)
      · exact .inl hx
      · exact absurd hpf (hnone p hp)

theorem raise (h : Listed s) (hix : c.loadedPathIndex = s.coll.loadedPathIndex) (hc : c.todo = []) :
    Listed ⟨c, fun f => if ∃ p ∈ s.coll.todo, p.path = f then none else s.listed f⟩ := by
  refine ⟨fun hne => absurd hc hne, fun f S hS => ?_⟩
  dsimp only at hS ⊢
  rw [hix, hc]
  split at hS
  · cases hS
  · rename_i hno
    obtain ⟨hf, hmem⟩ := h.listed f S hS
    refine ⟨hf, fun x => (hmem x).trans ⟨?_, ?_⟩⟩
    · rintro (hx | ⟨p, hp, hpf, -⟩)
      · exact .inl hx
      · exact absurd ⟨p, hp, hpf⟩ hno
    · rintro (hx | ⟨p, hp, -⟩)
      · exact .inl hx
      · cases hp

theorem write (h : Listed s) {p : Point V B} {todo : List (Point V B)} (htodo : s.coll.todo = p :: todo)
    (vf : FileKey) : Listed ⟨{ s.coll.writePoint p vf with todo := todo }, s.listed⟩ := by
  have hmemory := h.loaded (by rw [htodo]; nofun)
  refine ⟨fun _ => ?_, fun f S hS => ?_⟩
  · show (s.coll.writePoint p vf).pathIndex.isSome = true
    rw [s.coll.writePoint_pathIndex]
    split
    · exact hmemory
    · rw [Option.isSome_map]
      exact hmemory
  · obtain ⟨hf, hmem⟩ := h.listed f S hS
    refine ⟨hf, fun x => ?_⟩
    -- The written point moves from the points to write to the path index.
    have hwritten := ((s.coll.writeFile p vf).registerId p vf).mem_loadedPathIndex_registerPath p (f := f) (x := x)
    refine (hmem x).trans (Iff.trans ?_ (or_congr_left hwritten.symm))
    rw [htodo]
    constructor
    · rintro (hx | ⟨q, hq, rfl, rfl⟩)
      · exact .inl (.inl hx)
      · rcases mem_cons.1 hq with rfl | hq
        · exact .inl (.inr ⟨hmemory, hf, rfl, rfl⟩)
        · exact .inr ⟨q, hq, rfl, rfl⟩
    · rintro ((hx | ⟨-, -, rfl, rfl⟩) | ⟨q, hq, hqf⟩)
      · exact .inl hx
      · exact .inr ⟨p, mem_cons_self, rfl, rfl⟩
      · exact .inr ⟨q, mem_cons_of_mem _ hq, hqf⟩

theorem delete (h : Listed s) (htodo : s.coll.todo = []) (ids : List Str) :
    Listed ⟨s.coll.deletePoints ids, fun f => (s.listed f).filter fun S => S.all (· ∉ ids)⟩ := by
  have htodo' : (s.coll.deletePoints ids).todo = [] := (s.coll.deletePoints_spec ids).2.2.1.trans htodo
  refine ⟨fun hne => absurd htodo' hne, fun f S hS => ?_⟩
  obtain ⟨hS, hdisjoint⟩ := Option.filter_eq_some_iff.1 hS
  obtain ⟨hf, hmem⟩ := h.listed f S hS
  refine ⟨hf, fun x => ?_⟩
  dsimp only
  rw [s.coll.mem_loadedPathIndex_deletePoints, htodo', hmem, htodo]
  refine or_congr_left (iff_self_and.2 fun hx hremoved => ?_)
  have hxS := (hmem x).2 (.inl hx)
  have hxids : x ∈ ids := ((Collection.foldl_deletePoint_removals ids s.coll []).2.1 _ hremoved.2).resolve_left nofun
  exact of_decide_eq_true (all_eq_true.1 hdisjoint x hxS) hxids

theorem step (h : Listed s) {s' : Ownership V B} {a : Act V B} (hs : s.step L a = some s') : Listed s' := by
  obtain ⟨c, hc, rfl⟩ := Option.map_eq_some_iff.1 hs
  obtain ⟨points, rfl, htodo, rfl⟩ | ⟨p, todo, rfl, htodo, ⟨hvf, rfl⟩ | ⟨vf, hvf, rfl⟩⟩ | ⟨ids, rfl, htodo, rfl⟩ :=
    Collection.step_cases hc
  · exact h.upsert htodo points (s.coll.dropOrphans_spec points).2.1 rfl
  · have hraise : s.coll.raises L = true := by simp [Collection.raises, htodo, hvf]
    simp only [hraise, true_and]
    exact h.raise rfl rfl
  · have hraise : s.coll.raises L = false := by simp [Collection.raises, htodo, hvf]
    simp only [hraise, Bool.false_eq_true, false_and, if_false]
    exact h.write htodo vf
  · exact h.delete htodo ids

end Listed

/-- Every listed id is indexed as long as deletions are clean. Whatever is deleted, a source file lists
after every call the ids of its last upsert. -/
theorem ownership_truthful (L : Layout V) :
    (∀ s : Ownership V B, (ownership L).Reachable (fun s a => CleanDelete s.coll a) s → Truthful s.coll) ∧
    ∀ s : Ownership V B, (ownership L).Reachable Any s → s.coll.todo = [] →
      ∀ f S, s.listed f = some S → ∀ x, x ∈ s.coll.loadedPathIndex.getPointIds f ↔ x ∈ S := by
  constructor
  · intro s h
    refine h.invariant (I := fun s => Truthful s.coll) ?_ ?_
    · rintro s ⟨-, htruthful, -⟩
      exact htruthful
    intro s a s' htruthful hclean hs
    obtain ⟨c, hc, rfl⟩ := Option.map_eq_some_iff.1 hs
    exact truthful_of_step htruthful hclean hc
  · intro s h htodo f S hS x
    have hlisted : Listed s := by
      refine h.invariant ?_ fun s a s' hlisted _ hs => hlisted.step hs
      rintro s ⟨hidle, -, hnone⟩
      refine ⟨fun hne => absurd hidle hne, fun f S hS => ?_⟩
      rw [hnone] at hS
      cases hS
    rw [(hlisted.listed f S hS).2 x, htodo]
    simp

theorem ownership_init_new {L : Layout V} :
    (ownership L).init (⟨.new, fun _ => none⟩ : Ownership V B) := ⟨rfl, nofun, rfl⟩

/-- The files `a.py` and `b.py` share `p1`; `a.py` drops it, and it is deleted. -/
theorem truthful_after_shared_point_deleted :
    ∃ s : Ownership ℚ ℕ, (ownership onesLayout).Reachable (fun s a => CleanDelete s.coll a) s ∧
      s.coll.idIndex.items.map Prod.fst = ["p2".toList] ∧ Truthful s.coll ∧
      ∀ x, x ∈ s.coll.loadedPathIndex.getPointIds "a.py" ↔ x ∈ ["p2".toList] := by
  obtain ⟨htruthful, hlast⟩ := ownership_truthful (B := ℕ) onesLayout
  refine exists_of_run_imp (fun s => s.coll.idIndex.items.map Prod.fst = ["p2".toList] ∧ s.coll.todo = [] ∧
      s.listed "a.py" = some ["p2".toList]) ⟨.new, fun _ => none⟩
    [.upsert [⟨"p1", 0, "a.py", 0⟩, ⟨"p2", 2, "a.py", 1⟩], .write, .write,
     .upsert [⟨"p1", 0, "b.py", 0⟩], .write, .upsert [⟨"p2", 2, "a.py", 1⟩], .write,
     .delete ["p1"]] ownership_init_new (by decide +kernel) fun s hreach ⟨hids, htodo, hlisted⟩ => ?_
  have hany := hreach.mono fun _ _ _ => trivial
  exact ⟨hids, htruthful s hreach, hlast s hany htodo _ _ hlisted⟩

def pathIndexOnDisk : Collection ℚ ℕ :=
  { onePoint with
    pathIndex := none
    savedPathIndex := onePoint.loadedPathIndex }

/-- Two ways for an id to stay listed after its deletion: a file that shared it with the last writer, and a
path index that is still on disk. -/
theorem deleted_point_still_listed :
    (∃ s : Ownership ℚ ℕ, (ownership onesLayout).Reachable Any s ∧ s.coll.todo = [] ∧
      "p1".toList ∈ s.coll.loadedPathIndex.getPointIds "a.py" ∧
      s.coll.idIndex.get? "p1" = none ∧ ¬ Truthful s.coll) ∧
    ∃ s : Ownership ℚ ℕ, (ownership onesLayout).Reachable Any s ∧ s.coll.todo = [] ∧
      s.coll.pathIndex = none ∧ "p1".toList ∈ s.coll.loadedPathIndex.getPointIds "a.py" ∧
      s.coll.idIndex.get? "p1" = none ∧ ¬ Truthful s.coll := by
  have hnot : ∀ s : Ownership ℚ ℕ, "p1".toList ∈ s.coll.loadedPathIndex.getPointIds "a.py" →
      s.coll.idIndex.get? "p1" = none → ¬ Truthful s.coll := by
    intro s hlisted hnone h
    have hsome := h _ _ hlisted
    rw [hnone] at hsome
    cases hsome
  constructor
  · exact exists_of_run_imp (fun s => s.coll.todo = [] ∧
        "p1".toList ∈ s.coll.loadedPathIndex.getPointIds "a.py" ∧ s.coll.idIndex.get? "p1" = none) ⟨.new, fun _ => none⟩
      [.upsert [⟨"p1", 0, "a.py", 0⟩], .write, .upsert [⟨"p1", 0, "b.py", 0⟩], .write, .delete ["p1"]]
      ownership_init_new (by decide +kernel) fun s _ ⟨htodo, hmem, hnone⟩ => ⟨htodo, hmem, hnone, hnot s hmem hnone⟩
  · have hinit : (ownership onesLayout).init (⟨pathIndexOnDisk, fun _ => none⟩ : Ownership ℚ ℕ) := by
      refine ⟨rfl, fun f x hx => ?_, rfl⟩
      obtain hx | ⟨-, rfl⟩ := PathIndex.mem_addPoint.1 hx
      · cases hx
      · rfl
    exact exists_of_run_imp (fun s => s.coll.todo = [] ∧ s.coll.pathIndex = none ∧
        "p1".toList ∈ s.coll.loadedPathIndex.getPointIds "a.py" ∧ s.coll.idIndex.get? "p1" = none) _
        [.delete ["p1"]] hinit
      (by decide +kernel) fun s _ ⟨htodo, hix, hmem, hnone⟩ => ⟨htodo, hix, hmem, hnone, hnot s hmem hnone⟩

end CodeIndexer.Storage
