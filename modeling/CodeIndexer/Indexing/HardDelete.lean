import CodeIndexer.Indexing.Reindex
import CodeIndexer.Indexing.Visibility

/-!
# Deleting a file of a project without git

`delete_by_filter` takes the name of the collection first and the filter second. Called that way it removes the
points of a path (`deleteByFilter_declared`). But `delete_file_branch_aware` and the reconciliation pass the filter
first: joining a path with it raises, the exception is caught, and nothing is deleted. So the points of a deleted
file stay, and those of a modified file go only if `upsert_points` drops them, which it does not if the file is
empty now.
-/

namespace CodeIndexer.Indexing

open PyText Storage TransitionSystem List

variable {V B : Type}

/-! ### The calls -/

abbrev Client (V B : Type) := Dict Str (Collection V B)

/-- The arguments of `delete_by_filter`, by position: as declared, or with the filter in the place of the name. The
filter is for one path. -/
inductive DeleteArgs
  | declared (collectionName filePath : Str)
  | filterFirst (filePath collectionName : Str)

def pointsToDelete (c : Collection V B) (filePath : Str) : List Str :=
  (scrollFile c filePath (fun _ => true) 10000).map Point.id

def deleteByFilter (client : Client V B) : DeleteArgs → Client V B × Bool
  | .declared collectionName filePath =>
    match client.get? collectionName with
    | none => (client, true)
    | some c =>
      (client.set collectionName ((openPathIndex c).deletePoints (pointsToDelete (openPathIndex c) filePath)), true)
  -- `collection_exists` joins the base path with the filter, which raises; the exception is caught.
  | .filterFirst _ _ => (client, false)

def deleteFileBranchAware (L : Layout V) (gitAware : Bool) (currentBranch : Option Str) (client : Client V (Fields B))
    (filePath collectionName : Str) : Client V (Fields B) × Bool :=
  if gitAware then
    match client.get? collectionName with
    | none => (client, (currentBranch.filter (· ≠ [])).isSome)
    | some c =>
      (client.set collectionName (softDelete L c filePath currentBranch).1, (softDelete L c filePath currentBranch).2)
  else deleteByFilter client (.filterFirst filePath collectionName)

/-- The clean-up of modified files before they are indexed again, and how many it reports. -/
def deleteModified (client : Client V B) (collectionName : Str) (modifiedRelativeFiles : List Str) : Client V B × ℕ :=
  modifiedRelativeFiles.foldl (fun (client, deletedCount) filePath =>
    match deleteByFilter client (.filterFirst filePath collectionName) with
    | (client, true) => (client, deletedCount + 1)
    | (client, false) => (client, deletedCount)) (client, 0)

theorem deleteModified_eq (client : Client V B) (collectionName : Str) (files : List Str) :
    deleteModified client collectionName files = (client, 0) := by
  unfold deleteModified
  induction files with
  | nil => rfl
  | cons filePath files ih => exact ih

/-! ### The filter in its place -/

def Deleted (filePath : Str) (c c' : Collection V B) : Prop :=
  ∀ vf p, c'.files.get? vf = some p ↔ c.files.get? vf = some p ∧ p.path ≠ filePath

section Declared

variable {L : Layout V} {c : Collection V B} {filePath : Str}

theorem mem_pointsToDelete (h : FileInStep L c filePath)
    (hfew : (c.files.items.filter fun e => e.2.path = filePath).length ≤ 10000) {id : Str} :
    id ∈ pointsToDelete c filePath ↔ ∃ vf p, c.files.get? vf = some p ∧ p.path = filePath ∧ p.id = id := by
  have hlen : (listedPoints c filePath fun _ => true).length ≤ 10000 := by
    refine le_trans ?_ hfew
    have hnodup := (h.nodup_listedPoints fun _ => true).of_map
    have hsub : (listedPoints c filePath fun _ => true) ⊆
        (c.files.items.filter fun e => e.2.path = filePath).map Prod.snd := by
      intro p hp
      obtain ⟨vf, hvf, hpath, -⟩ := h.mem_listedPoints.1 hp
      exact mem_map.2 ⟨(vf, p), mem_filter.2 ⟨Dict.mem_items_iff.2 hvf, decide_eq_true hpath⟩, rfl⟩
    simpa using (hnodup.subperm hsub).length_le
  rw [pointsToDelete, scrollFile, take_of_length_le hlen, mem_map]
  constructor
  · rintro ⟨p, hp, rfl⟩
    obtain ⟨vf, hvf, hpath, -⟩ := h.mem_listedPoints.1 hp
    exact ⟨vf, p, hvf, hpath, rfl⟩
  · rintro ⟨vf, p, hvf, hpath, rfl⟩
    exact ⟨p, h.mem_listedPoints.2 ⟨vf, hvf, hpath, rfl⟩, rfl⟩

/-- With its arguments as declared, the call deletes a file of up to 10000 points. -/
theorem deleteByFilter_declared {client : Client V B} {collectionName : Str}
    (hc : client.get? collectionName = some c) (h : FileInStep L c filePath)
    (hfew : (c.files.items.filter fun e => e.2.path = filePath).length ≤ 10000) :
    ∃ c', deleteByFilter client (.declared collectionName filePath) = (client.set collectionName c', true) ∧
      Deleted filePath c c' := by
  have hopen := h.openPathIndex
  have hfiles := openPathIndex_files c
  refine ⟨(openPathIndex c).deletePoints (pointsToDelete (openPathIndex c) filePath), ?_, fun vf p => ?_⟩
  · rw [deleteByFilter, hc]
  · rw [((openPathIndex c).deletePoints_spec _).1.files, hfiles]
    refine and_congr_right fun hp => ?_
    have hmem : ∀ id, id ∈ pointsToDelete (openPathIndex c) filePath ↔
        ∃ vf p, (openPathIndex c).files.get? vf = some p ∧ p.path = filePath ∧ p.id = id :=
      fun id => mem_pointsToDelete hopen (by rwa [hfiles])
    constructor
    · intro hkept hpath
      have hp := hfiles.symm ▸ hp
      exact hkept p.id ((hmem p.id).2 ⟨vf, p, hp, hpath, rfl⟩) (hopen.owned vf p hp hpath).1
    · intro hpath id hid hvf
      obtain ⟨vf', q, hq, hqpath, rfl⟩ := (hmem id).1 hid
      obtain rfl := Option.mem_unique hvf (hopen.owned vf' q hq hqpath).1
      rw [hfiles] at hq
      exact hpath (Option.mem_unique hp hq ▸ hqpath)

end Declared

/-! ### Modified files -/

section Replace

variable {F : Type} {L : Layout (List F)} {H : Digests} {P : Provider F} {c : Store F} {call : Call P}

/-- Every point of the file is stored under another hash of the same project. -/
def Call.Modified (call : Call P) (c : Store F) : Prop :=
  ∀ p ∈ held c call.path, p.body.projectId = call.projectId ∧ p.body.fileHash ≠ call.fileHash

/-- Every point of the file has the text of one of its image-free chunks, with its embedding. -/
def Call.OnlyNew (call : Call P) (c : Store F) : Prop :=
  ∀ p ∈ held c call.path, ∃ chunk ∈ call.regular, p.body.content = chunk.text ∧ p.vector = P.embed chunk.text

instance (call : Call P) (c : Store F) : Decidable (call.Modified c) := inferInstanceAs (Decidable (∀ _ ∈ _, _))

theorem uniqueKey_fileHash {projectId fileHash fileHash' : Str} {i j : ℕ}
    (h : uniqueKey projectId fileHash i = uniqueKey projectId fileHash' j) : fileHash = fileHash' := by
  obtain rfl := uniqueKey_chunkIndex h
  have htail := append_cancel_left h
  rw [List.cons.injEq] at htail
  exact append_cancel_right htail.2

theorem Call.Modified.id_ne (h : call.Modified c) (hclean : Clean L H P c) {vf : FileKey}
    {q : Point (List F) Payload} (hq : c.files.get? vf = some q) (hpath : q.path = call.path) (i : ℕ) :
    q.id ≠ call.pointId H i := by
  intro hid
  obtain ⟨hproject, hhash⟩ := h q (mem_held.2 ⟨vf, hq, hpath⟩)
  rw [(hclean.made vf q hq).id, Call.pointId, hproject] at hid
  exact hhash (uniqueKey_fileHash (encode_injective (H.md5_injective hid)))

theorem text_of_mem_newPoints (hclean : Clean L H P c) {p : Point (List F) Payload} (hp : p ∈ call.newPoints H c) :
    ∃ chunk ∈ call.regular, p.body.content = chunk.text ∧ p.vector = P.embed chunk.text := by
  rcases Call.mem_newPoints.1 hp with ⟨i, hi, rfl⟩ | ⟨chunk, hchunk, vector, hvector, rfl⟩
  · exact ⟨_, (Call.mem_uncached.1 (getElem_mem hi)).1, rfl, rfl⟩
  · exact ⟨chunk, hchunk, rfl, Call.reused_eq hclean hvector⟩

theorem onlyNew_process_iff (hclean : Clean L H P c) (hmod : call.Modified c) {n : ℕ}
    (hok : (call.process L H c).2 = .success n) :
    call.OnlyNew (call.process L H c).1 ↔ (call.regular = [] → held c call.path = []) := by
  obtain ⟨c₁, hfiles, hidx, hix, ⟨hr, hnone⟩ | ⟨hne, hr, hwritten⟩⟩ := call.process_cases L H c
  · have hregular := hnone n hok
    have hheld : held (call.process L H c).1 call.path = held c call.path := by
      rw [hr, held, held, hfiles]
    rw [Call.OnlyNew, hheld, hregular]
    constructor
    · intro honly _
      refine eq_nil_iff_forall_not_mem.2 fun p hp => ?_
      obtain ⟨chunk, hchunk, -⟩ := honly p hp
      cases hchunk
    · intro hnil p hp
      rw [hnil rfl] at hp
      cases hp
  · have hup : upsertPoints L c₁ (call.newPoints H c) = ((call.process L H c).1, true) :=
      Prod.ext hr.symm (hwritten n hok)
    have hleaves := Call.leaves_of_upsert hclean (hclean.congr hfiles hidx hix) hfiles hne hup
    constructor
    · intro _ hregular
      obtain ⟨p, hp⟩ := exists_mem_of_ne_nil _ hne
      obtain ⟨chunk, hchunk, -⟩ := text_of_mem_newPoints hclean hp
      rw [hregular] at hchunk
      cases hchunk
    · intro _ p hp
      obtain ⟨vf, hvf, hpath⟩ := mem_held.1 hp
      rcases hleaves.after vf p hvf hpath with ⟨hnew, -⟩ | ⟨hold, hid, -⟩
      · exact text_of_mem_newPoints hclean hnew
      · obtain ⟨q, hq, hqid⟩ := mem_map.1 hid
        obtain ⟨-, -, hqi⟩ := Call.made_of_mem_newPoints hclean hq
        exact absurd (hqid.symm.trans hqi) (hmod.id_ne hclean hold hpath _)

def reindexModified (L : Layout (List F)) (H : Digests) (client : Client (List F) Payload) (collectionName : Str)
    (modifiedRelativeFiles : List Str) (call : Call P) : Option (Store F × Result) :=
  ((deleteModified client collectionName modifiedRelativeFiles).1.get? collectionName).map (call.process L H)

end Replace

/-- Without git, a deleted file is gone if and only if it had no points, and after earlier calls in order only new
content is left of a modified file if and only if it had no points or has an image-free chunk now. -/
theorem old_content_gone_iff {F : Type} {L : Layout (List F)} {H : Digests} {P : Provider F} :
    (∀ (M : Layout V) (client : Client V (Fields B)) (collectionName filePath : Str) (currentBranch : Option Str)
      (c : Collection V (Fields B)), client.get? collectionName = some c →
      ((∃ c', (deleteFileBranchAware M false currentBranch client filePath collectionName).1.get? collectionName =
          some c' ∧ Deleted filePath c c') ↔ ∀ vf p, c.files.get? vf = some p → p.path ≠ filePath)) ∧
    ∀ (fits : List F → Bool) (client : Client (List F) Payload) (collectionName : Str) (modified : List Str)
      (c c' : Store F) (call : Call P) (n : ℕ), L.hashPrefix = none → client.get? collectionName = some c →
      (store L H P fits).Reachable (Orderly L H) c → call.Modified c →
      reindexModified L H client collectionName modified call = some (c', .success n) →
      (call.OnlyNew c' ↔ (call.regular = [] → held c call.path = [])) := by
  constructor
  · intro M client collectionName filePath currentBranch c hc
    have hsame : (deleteFileBranchAware M false currentBranch client filePath collectionName).1 = client := rfl
    rw [hsame, hc]
    constructor
    · rintro ⟨c', hc', hdel⟩ vf p hp
      cases hc'
      exact ((hdel vf p).1 hp).2
    · intro hnone
      exact ⟨c, rfl, fun vf p => ⟨fun hp => ⟨hp, hnone vf p hp⟩, And.left⟩⟩
  · intro fits client collectionName modified c c' call n hL hc hreach hmod hrun
    rw [reindexModified, deleteModified_eq, hc] at hrun
    have hprocess : call.process L H c = (c', .success n) := Option.some.inj hrun
    have hiff := onlyNew_process_iff (Clean.of_reachable hL hreach) hmod (congrArg Prod.snd hprocess)
    rwa [hprocess] at hiff

/-! ### One file -/

def clientOf (c : Collection V B) : Client V B := Dict.empty.set "c" c

/-- The point of the other file stays. -/
theorem deleteByFilter_declared_withShared :
    ∃ c', deleteByFilter (clientOf withShared) (.declared "c" "a.py") = ((clientOf withShared).set "c" c', true) ∧
      Deleted "a.py" withShared c' ∧ c'.files.items = [(chunkFile "q", sharedChunk "c.py")] := by
  obtain ⟨c', hrun, hdel⟩ := deleteByFilter_declared
    (rfl : (clientOf withShared).get? "c".toList = _) fileInStep_withShared
    (by decide +kernel)
  refine ⟨c', hrun, hdel, ?_⟩
  have hitems : ((deleteByFilter (clientOf withShared) (.declared "c" "a.py")).1.get? "c").map
    (fun c => c.files.items) =
      some [(chunkFile "q".toList, sharedChunk "c.py".toList)] := by decide +kernel
  rw [hrun] at hitems
  exact Option.some.inj hitems

/-- Both chunks of the file are replaced. -/
theorem old_content_gone_after_edit : ∃ c c' : Store ℚ,
    (store headLayout plainDigests lengthProvider fun _ => true).Reachable (Orderly headLayout plainDigests) c ∧
      reindexModified headLayout plainDigests (clientOf c) "c" ["a.py"]
        (fileCall "h2" ["ccc"]) = some (c', .success 1) ∧
      (fileCall "h2" ["ccc"]).OnlyNew c' := by
  obtain ⟨c, hreach, hmod, hview⟩ := exists_of_run_mem (M := store headLayout plainDigests lengthProvider fun _ => true)
    (C := Orderly headLayout plainDigests) (P := fun c => (fileCall "h2" ["ccc"]).Modified c ∧
      (reindexModified headLayout plainDigests (clientOf c) "c" ["a.py"] (fileCall "h2" ["ccc"])).map Prod.snd =
        some (.success 1)) Collection.new firstRun rfl (by decide +kernel)
  obtain ⟨⟨c', r⟩, hre, rfl⟩ := Option.map_eq_some_iff.1 hview
  refine ⟨c, c', hreach, hre, ?_⟩
  have hiff := (old_content_gone_iff (V := ℚ) (B := ℕ)).2 (fun _ => true) (clientOf c) "c" ["a.py"] c c'
    (fileCall "h2" ["ccc"]) 1 rfl rfl hreach hmod hre
  refine hiff.2 fun hnil => ?_
  exact absurd hnil (by decide)

/-- Deleting a file with one point reports failure and leaves the point; a file that is empty now keeps the points of
its old content. -/
theorem old_content_stays :
    (deleteFileBranchAware onesLayout false none (clientOf oneChunk) "a.py" "c").2 = false ∧
    (∀ c', (deleteFileBranchAware onesLayout false none (clientOf oneChunk) "a.py" "c").1.get? "c" =
      some c' → ¬ Deleted "a.py" oneChunk c') ∧
    ∃ c c' : Store ℚ,
      (store headLayout plainDigests lengthProvider fun _ => true).Reachable TransitionSystem.Any c ∧
        reindexModified headLayout plainDigests (clientOf c) "c" ["a.py".toList] (fileCall "h2" []) =
          some (c', .success 0) ∧
        (held c' "a.py".toList).map (fun p => p.body.content) = ["a".toList, "bb".toList] ∧
        ¬ (fileCall "h2" []).OnlyNew c' := by
  refine ⟨rfl, fun c' hc' hdel => ?_, ?_⟩
  · cases hc'
    have hp : oneChunk.files.get? (chunkFile "p1") = some (chunkPoint "p1" none) := by decide +kernel
    exact ((hdel _ _).1 hp).2 rfl
  · obtain ⟨c, hreach, hview⟩ := exists_of_run_mem (M := store headLayout plainDigests lengthProvider fun _ => true)
      (C := Any) (P := fun c => (reindexModified headLayout plainDigests (clientOf c) "c" ["a.py"]
      (fileCall "h2" [])).map
        (fun r => (r.2, (held r.1 "a.py").map fun p => p.body.content)) = some (.success 0, ["a".toList, "bb".toList]))
      Collection.new firstRun rfl (by decide +kernel)
    obtain ⟨⟨c', r⟩, hre, hview⟩ := Option.map_eq_some_iff.1 hview
    obtain ⟨rfl, hheld⟩ := Prod.mk.inj hview
    refine ⟨c, c', hreach, hre, hheld, fun honly => ?_⟩
    have hmem : "a".toList ∈ (held c' "a.py".toList).map fun p => p.body.content := by
      rw [hheld]
      exact mem_cons_self
    obtain ⟨p, hp, -⟩ := mem_map.1 hmem
    obtain ⟨chunk, hchunk, -⟩ := honly p hp
    cases hchunk

end CodeIndexer.Indexing
