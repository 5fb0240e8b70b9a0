import CodeIndexer.Storage.HnswDisk
import CodeIndexer.Storage.OneFile

/-!
# The marker of a filtered rebuild

`rebuild_hnsw_filtered` sets one flag of the store, and the next `end_indexing` that does not force a full
rebuild consumes it and leaves the HNSW index of its collection alone, whichever collection that is. So the
marker does its work when that call is the one for the filtered collection (`Isolated`); otherwise another
collection loses its update, and the filtered index is overwritten later.
-/

namespace CodeIndexer.Storage

open PyText Function

variable {K V B : Type}

structure EndOptions where
  skipHnswRebuild : Bool
  forceFullRebuild : Bool
  clearStale : Bool

def Changes.any (ch : Changes) : Bool := ch.added ≠ [] || ch.updated ≠ [] || ch.deleted ≠ []

namespace Collection

/-- The two indexes that `end_indexing` saves last; of these the path index is modelled. -/
def saveIndexes (c : Collection V B) : Collection V B := { c with savedPathIndex := c.loadedPathIndex }

/-- The part of `end_indexing` for a collection without an incremental update: the marker, the collection and
its index on disk afterwards. -/
def fallback (fits : V → Bool) (didFilteredRebuild : Bool) (c : Collection V B) (d : HnswDisk V) (o : EndOptions) :
    Bool × Collection V B × HnswDisk V :=
  if didFilteredRebuild then (false, c.saveIndexes, d)
  else if o.skipHnswRebuild then (false, c.saveIndexes, d.markStale)
  else match d.rebuildFromVectors fits c.points none o.clearStale with
    | none => (false, c, d)
    | some d => (false, c.saveIndexes, d)

/-- `end_indexing`: the marker, the collection and its index on disk afterwards. If it raises, these are as
they were at that point. -/
def endIndexing (fits : V → Bool) (didFilteredRebuild : Bool) (c : Collection V B) (d : HnswDisk V)
    (o : EndOptions) : Bool × Collection V B × HnswDisk V :=
  let closed := { c with session := none }
  if o.forceFullRebuild then
    -- The marker is neither read nor reset: it may belong to another collection.
    match d.rebuildFromVectors fits c.points none o.clearStale with
    | none => (didFilteredRebuild, closed, d)
    | some d => (didFilteredRebuild, closed.saveIndexes, d)
  else if didFilteredRebuild then (false, closed.saveIndexes, d)
  else match c.session with
    | none => c.fallback fits didFilteredRebuild d o
    | some ch =>
      if ch.any && !o.skipHnswRebuild then
        match c.applyIncremental d ch o.clearStale with
        | .raised => (didFilteredRebuild, c, d)
        | .saved d => (didFilteredRebuild, closed.saveIndexes, d)
        | .noIndex => closed.fallback fits didFilteredRebuild d o
      else c.fallback fits didFilteredRebuild d o

variable {fits : V → Bool} {c : Collection V B} {d : HnswDisk V} {o : EndOptions}

theorem endIndexing_forced (ho : o.forceFullRebuild = true) (flag : Bool) :
    (c.endIndexing fits flag d o).1 = flag ∧
      (c.endIndexing fits flag d o).2 = (c.endIndexing fits false d o).2 := by
  simp only [endIndexing, ho, if_true]
  split <;> exact ⟨rfl, rfl⟩

theorem fallback_flag (flag : Bool) : (c.fallback fits flag d o).1 = false := by
  unfold fallback
  split
  · rfl
  · split
    · rfl
    · split <;> rfl

theorem endIndexing_flag (ho : o.forceFullRebuild = false) (flag : Bool) : (c.endIndexing fits flag d o).1 = false := by
  simp only [endIndexing, ho, Bool.false_eq_true, if_false]
  split
  · rfl
  · rename_i hflag
    replace hflag : flag = false := Bool.eq_false_iff.2 hflag
    split
    · exact fallback_flag flag
    · split
      · split
        · exact hflag
        · exact hflag
        · exact fallback_flag flag
      · exact fallback_flag flag

theorem endIndexing_marked (ho : o.forceFullRebuild = false) : (c.endIndexing fits true d o).2.2 = d := by
  simp [endIndexing, ho]

end Collection

/-- The store: its collections, their HNSW indexes on disk, and `_branch_isolation_did_filtered_rebuild`. -/
structure VectorStore (K V B : Type) where
  coll : K → Collection V B
  disk : K → HnswDisk V
  didFilteredRebuild : Bool

inductive StoreCall (K V B : Type)
  | beginIndexing (k : K)
  | points (k : K) (a : Act V B)
  | endIndexing (k : K) (o : EndOptions)

namespace StoreCall

def target : StoreCall K V B → K
  | .beginIndexing k | .points k _ | .endIndexing k _ => k

def isEnd : StoreCall K V B → Bool
  | .endIndexing .. => true
  | _ => false

def effect (L : Layout V) (fits : V → Bool) (flag : Bool) (c : Collection V B) (d : HnswDisk V) :
    StoreCall K V B → Bool × Collection V B × HnswDisk V
  | .beginIndexing _ => (flag, c.beginIndexing, d)
  | .points _ a => (flag, (c.step L a).getD c, d)
  | .endIndexing _ o => c.endIndexing fits flag d o

end StoreCall

namespace VectorStore

variable [DecidableEq K]

def exec (L : Layout V) (fits : V → Bool) (s : VectorStore K V B) (call : StoreCall K V B) : VectorStore K V B :=
  let (flag, c, d) := call.effect L fits s.didFilteredRebuild (s.coll call.target) (s.disk call.target)
  ⟨update s.coll call.target c, update s.disk call.target d, flag⟩

def rebuildHnswFiltered (fits : V → Bool) (s : VectorStore K V B) (k : K) (visible : Visible) : VectorStore K V B :=
  match (s.disk k).rebuildFromVectors fits (s.coll k).points (some visible) true with
  | none => s
  | some d => { s with disk := update s.disk k d, didFilteredRebuild := true }

end VectorStore

variable [DecidableEq K]

/-- The first `end_indexing` that does not force a rebuild is the one of `A`, and `A` has no other. -/
def Isolated (A : K) : List (StoreCall K V B) → Prop
  | [] => True
  | .endIndexing k o :: calls =>
    if k = A then o.forceFullRebuild = false ∧ ∀ call ∈ calls, call.target = A → call.isEnd = false
    else o.forceFullRebuild = true ∧ Isolated A calls
  | _ :: calls => Isolated A calls

namespace VectorStore

variable {L : Layout V} {fits : V → Bool} {A : K}

/-- Two stores with the same collections and indexes but for `A`. -/
structure SameBut (A : K) (s s' : VectorStore K V B) : Prop where
  coll : ∀ k, k ≠ A → s.coll k = s'.coll k
  disk : ∀ k, k ≠ A → s.disk k = s'.disk k

variable {call : StoreCall K V B} {s s' : VectorStore K V B} {calls : List (StoreCall K V B)}

theorem SameBut.exec (h : SameBut A s s')
    (hflag : call.target ≠ A → ∀ c d, (call.effect L fits s.didFilteredRebuild c d).2 =
      (call.effect L fits s'.didFilteredRebuild c d).2) :
    SameBut A (s.exec L fits call) (s'.exec L fits call) := by
  have heffect : call.target ≠ A →
      (call.effect L fits s.didFilteredRebuild (s.coll call.target) (s.disk call.target)).2 =
        (call.effect L fits s'.didFilteredRebuild (s'.coll call.target) (s'.disk call.target)).2 := by
    intro hcall
    rw [h.coll _ hcall, h.disk _ hcall]
    exact hflag hcall _ _
  constructor
  · intro k hk
    by_cases hkt : k = call.target
    · subst hkt
      simp only [VectorStore.exec, update_self, heffect hk]
    · simp only [VectorStore.exec, update_of_ne hkt]
      exact h.coll k hk
  · intro k hk
    by_cases hkt : k = call.target
    · subst hkt
      simp only [VectorStore.exec, update_self, heffect hk]
    · simp only [VectorStore.exec, update_of_ne hkt]
      exact h.disk k hk

theorem exec_flag (s : VectorStore K V B) (call : StoreCall K V B) : (s.exec L fits call).didFilteredRebuild =
    (call.effect L fits s.didFilteredRebuild (s.coll call.target) (s.disk call.target)).1 := rfl

theorem exec_flag_of_not_end (s : VectorStore K V B) (h : call.isEnd = false) :
    (s.exec L fits call).didFilteredRebuild = s.didFilteredRebuild := by
  cases call with
  | beginIndexing k => rfl
  | points k a => rfl
  | endIndexing k o => cases h

theorem exec_disk (s : VectorStore K V B)
    (h : ∀ o, call = .endIndexing A o → s.didFilteredRebuild = true ∧ o.forceFullRebuild = false) :
    (s.exec L fits call).disk A = s.disk A := by
  by_cases ht : A = call.target
  · subst ht
    refine (update_self _ _ _).trans ?_
    cases call with
    | beginIndexing k => rfl
    | points k a => rfl
    | endIndexing k o =>
      obtain ⟨hflag, hforce⟩ := h o rfl
      rw [hflag]
      exact Collection.endIndexing_marked hforce
  · exact update_of_ne ht _ _

theorem run_unmarked
    (hcalls : ∀ call ∈ calls, call.target = A → call.isEnd = false)
    (h : SameBut A s s') (hflag : s.didFilteredRebuild = s'.didFilteredRebuild) :
    SameBut A (calls.foldl (exec L fits) s) (calls.foldl (exec L fits) s') ∧
      (calls.foldl (exec L fits) s).disk A = s.disk A := by
  induction calls generalizing s s' with
  | nil => exact ⟨h, rfl⟩
  | cons call calls ih =>
    obtain ⟨hcall, hcalls⟩ := List.forall_mem_cons.1 hcalls
    have hflag' : (s.exec L fits call).didFilteredRebuild = (s'.exec L fits call).didFilteredRebuild := by
      by_cases ht : call.target = A
      · rw [exec_flag_of_not_end _ (hcall ht), exec_flag_of_not_end _ (hcall ht), hflag]
      · rw [exec_flag, exec_flag, h.coll _ ht, h.disk _ ht, hflag]
    obtain ⟨hsame, hdisk⟩ := ih hcalls (h.exec fun _ c d => by rw [hflag]) hflag'
    refine ⟨hsame, hdisk.trans (exec_disk s fun o ho => ?_)⟩
    subst ho
    exact absurd (hcall rfl) nofun

theorem run_marked (hcalls : Isolated A calls)
    (h : SameBut A s s') (hflag : s.didFilteredRebuild = true) :
    SameBut A (calls.foldl (exec L fits) s) (calls.foldl (exec L fits) s') ∧
      (calls.foldl (exec L fits) s).disk A = s.disk A := by
  induction calls generalizing s s' with
  | nil => exact ⟨h, rfl⟩
  | cons call calls ih =>
    cases call with
    | beginIndexing k =>
      have hstep : SameBut A (s.exec L fits (.beginIndexing k)) (s'.exec L fits (.beginIndexing k)) :=
        h.exec fun _ c d => rfl
      obtain ⟨hsame, hdisk⟩ := ih hcalls hstep hflag
      exact ⟨hsame, hdisk.trans (exec_disk s nofun)⟩
    | points k a =>
      have hstep : SameBut A (s.exec L fits (.points k a)) (s'.exec L fits (.points k a)) :=
        h.exec fun _ c d => rfl
      obtain ⟨hsame, hdisk⟩ := ih hcalls hstep hflag
      exact ⟨hsame, hdisk.trans (exec_disk s nofun)⟩
    | endIndexing k o =>
      rw [Isolated] at hcalls
      split at hcalls
      · -- The call of `A`: the marker is consumed here, and would be gone without the filtered rebuild too.
        rename_i hk
        subst hk
        obtain ⟨hforce, hlast⟩ := hcalls
        have hflag' : ∀ s : VectorStore K V B,
            (s.exec L fits (.endIndexing k o)).didFilteredRebuild = false := fun s =>
          Collection.endIndexing_flag hforce _
        have hstep : SameBut k (s.exec L fits (.endIndexing k o)) (s'.exec L fits (.endIndexing k o)) :=
          h.exec fun hne => absurd rfl hne
        obtain ⟨hsame, hdisk⟩ := run_unmarked hlast hstep ((hflag' s).trans (hflag' s').symm)
        refine ⟨hsame, hdisk.trans (exec_disk s ?_)⟩
        rintro o' ⟨⟩
        exact ⟨hflag, hforce⟩
      · rename_i hk
        obtain ⟨hforce, hrest⟩ := hcalls
        have hforced (c : Collection V B) (d : HnswDisk V) (flag : Bool) : (c.endIndexing fits flag d o).1 = flag ∧
            (c.endIndexing fits flag d o).2 = (c.endIndexing fits false d o).2 :=
          Collection.endIndexing_forced hforce flag
        have hstep : SameBut A (s.exec L fits (.endIndexing k o)) (s'.exec L fits (.endIndexing k o)) :=
          h.exec fun _ c d => (hforced c d _).2.trans (hforced c d _).2.symm
        obtain ⟨hsame, hdisk⟩ := ih hrest hstep ((hforced _ _ _).1.trans hflag)
        refine ⟨hsame, hdisk.trans (exec_disk s ?_)⟩
        rintro o' ⟨⟩
        exact absurd rfl hk

end VectorStore

theorem HnswDisk.rebuildFromVectors_visible (fits : V → Bool) (d : HnswDisk V) (points : List (Point V B))
    (visible : Visible) (clearStale : Bool) :
    (d.rebuildFromVectors fits points (some visible) clearStale).isSome = true := by
  unfold rebuildFromVectors rebuild
  dsimp only
  split <;> rfl

open VectorStore in
/-- After a filtered rebuild of `A` and any isolated calls, the other collections and their indexes are as
without the filtered rebuild, and the index of `A` is the one it published. -/
theorem filtered_rebuild_isolated (L : Layout V) (fits : V → Bool) (s : VectorStore K V B) (A : K)
    (visible : Visible) {calls : List (StoreCall K V B)} (hcalls : Isolated A calls) :
    (∀ k, k ≠ A → (calls.foldl (exec L fits) (s.rebuildHnswFiltered fits A visible)).disk k =
      (calls.foldl (exec L fits) s).disk k) ∧
    (calls.foldl (exec L fits) (s.rebuildHnswFiltered fits A visible)).disk A =
      (s.rebuildHnswFiltered fits A visible).disk A := by
  obtain ⟨d, hd⟩ := Option.isSome_iff_exists.1
    ((s.disk A).rebuildFromVectors_visible fits (s.coll A).points visible true)
  have hrebuild : s.rebuildHnswFiltered fits A visible =
      { s with disk := update s.disk A d, didFilteredRebuild := true } := by
    simp only [rebuildHnswFiltered, hd]
  have hsame : SameBut A (s.rebuildHnswFiltered fits A visible) s := by
    rw [hrebuild]
    exact ⟨fun k _ => rfl, fun k hk => update_of_ne hk _ _⟩
  have hrun : SameBut A (calls.foldl (exec L fits) (s.rebuildHnswFiltered fits A visible))
      (calls.foldl (exec L fits) s) ∧ _ := run_marked hcalls hsame (by rw [hrebuild])
  exact ⟨hrun.1.disk, hrun.2⟩

def HnswDisk.ids (d : HnswDisk V) : Option (List Str) := d.hnsw.map fun H => H.labelToId.items.map Prod.snd

/-- Two collections, each in a session in which two points have been written, and without an index. -/
def twoSessions : VectorStore Bool ℚ ℕ where
  coll _ := onePoint.writePoint ⟨"p2", 2, "b.py", 1⟩
    ["ff", "ff", "ff", "ff", "vector_p2.json"]
  disk _ := ⟨none, none⟩
  didFilteredRebuild := false

def plainEnd : EndOptions := ⟨false, false, true⟩

open VectorStore in
/-- The filtered collection ends its session first, then the other one. -/
theorem isolated_when_filtered_collection_ends_first :
    ∃ s : VectorStore Bool ℚ ℕ, s = [StoreCall.endIndexing true plainEnd, .endIndexing false plainEnd].foldl
        (exec onesLayout fun _ => true) (twoSessions.rebuildHnswFiltered (fun _ => true) true ⟨["a.py"], none⟩) ∧
      (s.disk true).ids = some ["p1".toList] ∧ (s.disk false).ids = some ["p1".toList, "p2".toList] ∧
      (∀ k, k ≠ true → s.disk k = ([StoreCall.endIndexing true plainEnd, .endIndexing false plainEnd].foldl
        (exec onesLayout fun _ => true) twoSessions).disk k) ∧
      s.disk true = (twoSessions.rebuildHnswFiltered (fun _ => true) true ⟨["a.py"], none⟩).disk true := by
  refine ⟨_, rfl, by decide +kernel, by decide +kernel, ?_⟩
  refine filtered_rebuild_isolated onesLayout (fun _ => true) twoSessions true ⟨["a.py"], none⟩ ?_
  exact ⟨rfl, fun call hcall ht => by
    rw [List.mem_singleton.1 hcall] at ht
    cases ht⟩

open VectorStore in
/-- The other collection ends its session first: it gets no index, and the hidden point of the filtered
collection is back after its own call. -/
theorem marker_consumed_by_other_collection :
    ∃ s s' : VectorStore Bool ℚ ℕ,
      s = [StoreCall.endIndexing false plainEnd, .endIndexing true plainEnd].foldl (exec onesLayout fun _ => true)
        (twoSessions.rebuildHnswFiltered (fun _ => true) true ⟨["a.py"], none⟩) ∧
      s' = [StoreCall.endIndexing false plainEnd, .endIndexing true plainEnd].foldl (exec onesLayout fun _ => true)
        twoSessions ∧
      (s.disk false).ids = none ∧ (s'.disk false).ids = some ["p1".toList, "p2".toList] ∧
      (s.disk true).ids = some ["p1".toList, "p2".toList] ∧
      ((twoSessions.rebuildHnswFiltered (fun _ => true) true ⟨["a.py"], none⟩).disk true).ids =
        some ["p1".toList] :=
  ⟨_, _, rfl, rfl, by decide +kernel, by decide +kernel, by decide +kernel, by decide +kernel⟩

end CodeIndexer.Storage
