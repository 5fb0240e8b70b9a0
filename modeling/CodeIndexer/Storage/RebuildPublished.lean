import CodeIndexer.Storage.HnswDisk

/-!
# What a rebuild publishes

`rebuild_from_vectors` over the vector files of the directory, malformed ones among them, with both filters: by the
visible files or, without them, by the branches a file is hidden for.
-/

namespace CodeIndexer.Storage.HnswDisk

open PyText List

variable {V B : Type} (fits : V → Bool) (hiddenBranches : B → List Str)

/-- A rebuild that returns publishes the number of the files it keeps and their ids in the order of the scan, one label
for each file; but an unfiltered rebuild that is to clear the staleness flag and keeps no file publishes nothing. -/
theorem rebuild_publishes (d d' : HnswDisk V) (files : List (Option (Point V B))) (visibleFiles : Option (List Str))
    (currentBranch : Option Str) (clearStale : Bool)
    (h : d.rebuild fits hiddenBranches files visibleFiles currentBranch clearStale = some d') :
    let kept := kept fits hiddenBranches files visibleFiles currentBranch
    if visibleFiles = none ∧ clearStale = true ∧ kept = [] then d' = d
    else ∃ info, d'.info = some info ∧ info.vectorCount = kept.length ∧
      ∀ label, info.idMapping.get? label = kept[label]?.map Point.id := by
  intro points
  unfold rebuild at h
  simp only at h
  split at h
  next hkept =>
    have hempty : points = [] := hkept
    split_ifs at h with hvisible hclear hfiles <;> cases h
    · rw [if_neg fun hnone => absurd hvisible (by rw [hnone.1]; exact Bool.false_ne_true), hempty]
      exact ⟨_, rfl, rfl, fun label => rfl⟩
    · rw [if_pos ⟨Option.not_isSome_iff_eq_none.mp hvisible, hclear, hempty⟩]
    · rw [if_neg fun hnone => hclear hnone.2.1, hempty]
      exact ⟨_, rfl, rfl, fun label => rfl⟩
  next hkept =>
    have hne : points ≠ [] := hkept
    cases h
    rw [if_neg fun hnone => hne hnone.2.2]
    exact ⟨_, rfl, rfl, fun label => (Hnsw.get?_ofPoints _ label).2⟩

/-- Two files of one id get two labels; and the metadata of an empty directory stays as they were. -/
theorem rebuild_differs : (∃ d' : HnswDisk Unit, rebuild (fun _ => true) (fun _ : Unit => []) ⟨none, none⟩
      [some ⟨"a", (), "f", ()⟩, some ⟨"a", (), "f", ()⟩] none none true = some d' ∧
      d'.info.map (fun info => (info.vectorCount, info.idMapping.items)) = some
        (2, [(0, "a".toList), (1, "a".toList)])) ∧
    rebuild (fun _ => true) (fun _ : Unit => []) ⟨none, some ⟨1, .set .empty 0 "a", none, none⟩⟩ [] none none true =
      some (⟨none, some ⟨1, .set .empty 0 "a", none, none⟩⟩ : HnswDisk Unit) :=
  ⟨⟨_, rfl, by decide +kernel⟩, rfl⟩

/-- One file is malformed, one hidden for the branch and one kept. -/
theorem rebuild_publishes_one : ∃ info : HnswMeta, info.vectorCount = 1 ∧ info.idMapping.get? 0 = some "b".toList := by
  have h := rebuild_publishes (fun _ => true) (fun b : Bool => if b then ["main"] else []) ⟨none, none⟩ _
    [none, some ⟨"a", (), "f", true⟩, some ⟨"b", (), "f", false⟩] none (some "main") true rfl
  obtain ⟨info, -, hcount, hmapping⟩ := h
  exact ⟨info, hcount, hmapping 0⟩

end CodeIndexer.Storage.HnswDisk
