import CodeIndexer.Temporal.FreshShard
import CodeIndexer.Temporal.StrayVectors

/-!
# The scan of a shard, on its files and on its points

The runs on a shard (`Barrier`) know a vector file as a place and a point, and read off `missing` and `strays` what
`reconcile_shard` returns and deletes. `reconcile_shard` itself (`Strays`) reads the point ids of the files in the
directory. Where the files carry the ids of the points, under a project id without a colon, the two agree: the commits
returned are those of `missing`, and what is left of the directory is what is left of the points.
-/

namespace CodeIndexer.Temporal.Barrier

open PyText PurePath IdIndex Strays List

/-! ### The points of a list of files -/

section Scan

variable {C D : Type} [DecidableEq C] {files : List (File C D)}

theorem get?_scan (files : List (File C D)) (p : Point C) :
    (scan files).get? p = (files.reverse.find? fun f => f.2 = p).map Prod.fst := by
  induction files using List.reverseRecOn with
  | nil => rfl
  | append_singleton files f ih =>
    rw [scan_append_singleton, Dict.get?_set, reverse_append, reverse_singleton, singleton_append, find?_cons]
    by_cases hp : f.2 = p
    · simp [hp]
    · simp [hp, Ne.symm hp, ih]

theorem pointsOf_ne_nil_iff {c : C} : pointsOf files c ≠ [] ↔ ∃ f ∈ files, f.2.1 = c := by
  constructor
  · intro hne
    obtain ⟨f, hf⟩ := exists_mem_of_ne_nil _ hne
    obtain ⟨hget, hc⟩ := mem_pointsOf_iff.1 hf
    exact ⟨f, mem_of_get?_scan hget, hc⟩
  · rintro ⟨f, hf, rfl⟩
    obtain ⟨d, hd⟩ := exists_get?_scan ⟨f.1, hf⟩
    exact ne_nil_of_mem (a := (d, f.2)) (mem_pointsOf_iff.2 ⟨hd, rfl⟩)

end Scan

/-! ### Files and points -/

/-- The vector file lies at the place of `f` and has the id of its point. -/
def Encodes (project : Str) (file : VectorFile) (f : File CommitInfo Path) : Prop :=
  file.relPath = f.1 ∧ pointIdOf file = some (buildPointId project f.2.1.hash f.2.2)

/-- The directory holds the vector files of the shard, and the metadata its completion marks. -/
structure Stored (project : Str) (dir : ShardDir) (completed : List Str) (s : Shard CommitInfo Path) : Prop where
  colon : ':' ∉ project
  files : Forall₂ (Encodes project) dir.files s.files
  completed : ∀ c, c ∈ s.completed ↔ c.hash ∈ completed

variable {project : Str} {dir : ShardDir} {completed : List Str} {s : Shard CommitInfo Path}

theorem commitOf_point (hcolon : ':' ∉ project) (p : Point CommitInfo) :
    commitOf (buildPointId project p.1.hash p.2) = some p.1.hash := by
  rw [commitOf_buildPointId p.1.hex, if_neg hcolon]

theorem buildPointId_inj (hcolon : ':' ∉ project) {p q : Point CommitInfo} :
    buildPointId project p.1.hash p.2 = buildPointId project q.1.hash q.2 ↔ p = q := by
  constructor
  · intro h
    obtain ⟨⟨hash, hex⟩, j⟩ := p
    obtain ⟨⟨hash', hex'⟩, j'⟩ := q
    have hcommit := congrArg commitOf h
    rw [commitOf_point hcolon, commitOf_point hcolon] at hcommit
    obtain rfl : hash = hash' := Option.some.inj hcommit
    simp only [buildPointId, append_cancel_left_eq, cons.injEq, true_and] at h
    rw [natStr_injective h]
  · rintro rfl
    rfl

theorem Encodes.plain_iff {file : VectorFile} {f : File CommitInfo Path} (h : Encodes project file f)
    (hcolon : ':' ∉ project) (c : CommitInfo) :
    (∃ pointId ∈ pointIdOf file, Plain pointId c.hash) ↔ f.2.1 = c := by
  simp only [h.2, Option.mem_def, Option.some.injEq, exists_eq_left', ← commitOf_eq_some_iff c.hex,
    commitOf_point hcolon]
  obtain ⟨path, ⟨hash, hex⟩, j⟩ := f
  obtain ⟨hash', hex'⟩ := c
  exact (CommitInfo.mk.injEq hash hex hash' hex').to_iff.symm

theorem encodes_find? {l : List VectorFile} {u : List (File CommitInfo Path)} (hcolon : ':' ∉ project)
    (h : Forall₂ (Encodes project) l u) (p : Point CommitInfo) :
    (l.find? fun file => pointIdOf file = some (buildPointId project p.1.hash p.2)).map VectorFile.relPath =
      (u.find? fun f => f.2 = p).map Prod.fst := by
  induction h with
  | nil => rfl
  | cons hf _ ih =>
    rw [find?_cons, find?_cons, hf.2]
    simp only [Option.some.injEq, buildPointId_inj hcolon]
    split
    · exact congrArg some hf.1
    · exact ih

namespace Stored

variable (h : Stored project dir completed s)
include h

theorem get?_scan (p : Point CommitInfo) : (scan s.files).get? p =
    (lastWith dir.files (buildPointId project p.1.hash p.2)).map VectorFile.relPath := by
  rw [Barrier.get?_scan, lastWith, encodes_find? h.colon (rel_reverse h.files)]

theorem found_iff (c : CommitInfo) : Strays.Found dir c.hash ↔ pointsOf s.files c ≠ [] := by
  rw [pointsOf_ne_nil_iff, Strays.Found]
  have hfiles := h.files
  generalize dir.files = l, s.files = u at hfiles
  induction hfiles with
  | nil => simp
  | cons hf _ ih =>
    rw [exists_mem_cons_iff, exists_mem_cons_iff]
    exact or_congr (hf.plain_iff h.colon c) ih

theorem stray_iff {file : VectorFile} {f : File CommitInfo Path} (hfile : file ∈ dir.files)
    (hf : Encodes project file f) (commits : List CommitInfo) :
    Stray dir completed commits file ↔ f ∈ strays s commits := by
  rw [Barrier.strays, mem_flatMap]
  refine exists_congr fun c => and_congr_right fun _ => ?_
  by_cases hdone : c ∈ s.completed
  · rw [if_pos hdone]
    exact iff_of_false (fun hstray => hstray.1 ((h.completed c).1 hdone)) not_mem_nil
  · rw [if_neg hdone, and_iff_right (mt (h.completed c).2 hdone), mem_pointsOf_iff, h.get?_scan]
    constructor
    · rintro ⟨pointId, hcommit, hlast⟩
      obtain rfl := Option.mem_unique (lastWith_spec hlast).2 hf.2
      rw [hlast]
      exact ⟨congrArg some hf.1, (hf.plain_iff h.colon c).1 ⟨_, hf.2, (commitOf_eq_some_iff c.hex).1 hcommit⟩⟩
    · rintro ⟨hget, rfl⟩
      obtain ⟨last, hlast, hpath⟩ := Option.map_eq_some_iff.1 hget
      -- No other file of the directory lies at the place of `f`.
      obtain rfl := inj_on_of_nodup_map dir.nodup (lastWith_spec hlast).1 hfile (hpath.trans hf.1.symm)
      exact ⟨_, commitOf_point h.colon f.2, hlast⟩

/-- `reconcile_shard` on the directory returns the commits that `missing` has, and leaves the files that `strays` does
not have. -/
theorem reconcileShard {env : Env} {commits returned : List CommitInfo} {left : List VectorFile} (hne : commits ≠ [])
    (hrun : reconcileShard env dir true completed commits = some (returned, left)) :
    returned = missing s commits ∧
      Forall₂ (Encodes project) left (s.files.filter fun f => f ∉ strays s commits) := by
  classical
  obtain ⟨hreturned, hleft⟩ := reconcileShard_eq hne hrun
  constructor
  · rw [hreturned, missing]
    refine filter_congr fun c _ => decide_eq_decide.2 ?_
    rw [h.found_iff, ← h.completed, not_and_or, not_not]
  · rw [hleft]
    have hfiles := (forall₂_and_left (p := (· ∈ dir.files)) _ _).2 ⟨fun file hfile => hfile, h.files⟩
    refine (rel_filter (fun file f hf => ?_) hfiles).imp fun _ _ hf => hf.2
    simp only [decide_eq_true_iff]
    exact not_congr (h.stray_iff hf.1 hf.2 commits)

end Stored

end CodeIndexer.Temporal.Barrier
