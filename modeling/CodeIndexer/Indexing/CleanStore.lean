import CodeIndexer.Indexing.FileLifecycle
import CodeIndexer.Storage.Ownership

/-!
# Writing one file's points into a clean store

In a clean store every vector file is the one its id is indexed under, its id is listed for its source file
and for no other, and it was made by `_create_vector_point` (`Clean`). There the orphan clean-up of a call
with points of one source file leaves of that file's vector files those with an id of the call.
-/

namespace CodeIndexer.Indexing

open PyText Storage List

/-! ### Ids -/

theorem encode_injective : Function.Injective encode := by
  intro s t h
  have hdecode := congrArg decode h
  rwa [decode_encode, decode_encode, Option.some.injEq] at hdecode

theorem takeWhile_reverse_append {s t : Str} (ht : '_' ∉ t) :
    (s ++ '_' :: t).reverse.takeWhile (· ≠ '_') = t.reverse := by
  rw [reverse_append, reverse_cons, append_assoc, takeWhile_append_of_pos]
  · simp
  · intro c hc
    exact decide_eq_true fun he => ht (he ▸ mem_reverse.1 hc)

variable {projectId projectId' fileHash fileHash' : Str}

theorem uniqueKey_chunkIndex {i j : ℕ}
    (h : uniqueKey projectId fileHash i = uniqueKey projectId' fileHash' j) : i = j := by
  have hsplit (projectId fileHash : Str) (i : ℕ) :
      uniqueKey projectId fileHash i = (projectId ++ '_' :: fileHash) ++ '_' :: natStr i := by
    simp [uniqueKey]
  rw [hsplit, hsplit] at h
  have hdigits := congrArg (fun s : Str => s.reverse.takeWhile (· ≠ '_')) h
  rw [takeWhile_reverse_append (notMem_natStr rfl i), takeWhile_reverse_append (notMem_natStr rfl j)]
    at hdigits
  exact natStr_injective (reverse_injective hdigits)

theorem pointId_chunkIndex {H : Digests} {i j : ℕ}
    (h : H.md5 (encode (uniqueKey projectId fileHash i)) = H.md5 (encode (uniqueKey projectId' fileHash' j))) : i = j :=
  uniqueKey_chunkIndex (encode_injective (H.md5_injective h))

theorem fileName_injective {V : Type} {L : Layout V} (hL : L.hashPrefix = none) {x y : Str} (hx : '/' ∉ x)
    (hy : '/' ∉ y) (h : L.fileName x = L.fileName y) : x = y := by
  have hkeep {x : Str} (hx : '/' ∉ x) : (x.map fun c => if c = '/' then '_' else c) = x := by
    have hid : ∀ c ∈ x, (if c = '/' then '_' else c) = id c := by
      intro c hc
      have hne : c ≠ '/' := fun he => hx (he ▸ hc)
      simp only [hne, if_false, id_eq]
    rw [map_congr_left hid, map_id]
  unfold Layout.fileName at h
  rw [hL] at h
  have hmap := append_cancel_left (append_cancel_right h)
  rwa [hkeep hx, hkeep hy] at hmap

/-! ### Orphans of a call with one source file -/

section OnePath

variable {V B : Type} {points : List (Point V B)} {f : Str}

theorem pointsByFile_onePath (hne : points ≠ []) (hf : f ≠ []) (hpath : ∀ p ∈ points, p.path = f) :
    (pointsByFile points).items = [(f, points.map Point.id)] := by
  induction points using List.reverseRecOn with
  | nil => exact absurd rfl hne
  | append_singleton points p ih =>
    have hp : p.path = f := hpath p (mem_append_right _ (mem_singleton_self p))
    have hstep : pointsByFile (points ++ [p]) =
        (pointsByFile points).set f (((pointsByFile points).get? f).getD [] ++ [p.id]) := by
      rw [pointsByFile, foldl_concat, if_neg (hp ▸ hf), hp]
      rfl
    rw [hstep]
    by_cases hnil : points = []
    · subst hnil
      rfl
    · have hitems := ih hnil fun q hq => hpath q (mem_append_left _ hq)
      simp [Dict.set, Dict.get?, hitems, Dict.setItems]

theorem step1_onePath (c : Collection V B) (hne : points ≠ []) (hf : f ≠ []) (hpath : ∀ p ∈ points, p.path = f) :
    c.step1 points = gatherOrphans c.idIndex (c.loadedPathIndex, []) (f, points.map Point.id) := by
  rw [Collection.step1, pointsByFile_onePath hne hf hpath]
  rfl

theorem mem_orphanIds (c : Collection V B) (hne : points ≠ []) (hf : f ≠ []) (hpath : ∀ p ∈ points, p.path = f)
    {x : Str} : x ∈ c.orphanIds points ↔ x ∈ c.loadedPathIndex.getPointIds f ∧ x ∉ points.map Point.id ∧
      (∀ g, x ∈ c.loadedPathIndex.getPointIds g → g = f) ∧ (c.idIndex.get? x).isSome = true := by
  rw [Collection.orphanIds, step1_onePath c hne hf hpath]
  generalize points.map Point.id = ids
  have howner (hx : x ∉ ids) : PathIndex.hasOtherOwner
      (((c.loadedPathIndex.getPointIds f).filter (· ∉ ids)).foldl (fun ix id => ix.removePoint f id)
        c.loadedPathIndex) x = false ↔ ∀ g, x ∈ c.loadedPathIndex.getPointIds g → g = f := by
    rw [Bool.eq_false_iff, ne_eq, PathIndex.hasOtherOwner_iff]
    simp only [PathIndex.mem_foldl_removePoint, mem_filter, decide_eq_true_iff]
    constructor
    · intro h g hg
      by_contra hgf
      exact h ⟨g, hg, fun h' => hgf h'.1⟩
    · rintro h ⟨g, hg, hkept⟩
      obtain rfl := h g hg
      exact hkept ⟨rfl, hg, hx⟩
  simp only [gatherOrphans, nil_append, mem_map, mem_filterMap]
  constructor
  · rintro ⟨o, ⟨id, hid, ho⟩, rfl⟩
    obtain ⟨hlisted, hnew⟩ := mem_filter.1 hid
    split at ho
    · cases ho
    · rename_i hown
      obtain ⟨vf, hvf, rfl⟩ := Option.map_eq_some_iff.1 ho
      exact ⟨hlisted, of_decide_eq_true hnew, (howner (of_decide_eq_true hnew)).1 (Bool.eq_false_iff.2 hown),
        by rw [hvf]; rfl⟩
  · rintro ⟨hlisted, hnew, halone, hindexed⟩
    obtain ⟨vf, hvf⟩ := Option.isSome_iff_exists.1 hindexed
    refine ⟨⟨f, x, vf⟩, ⟨x, mem_filter.2 ⟨hlisted, decide_eq_true hnew⟩, ?_⟩, rfl⟩
    rw [(howner hnew).2 halone, hvf]
    rfl

variable {c : Collection V B} {L : Layout V}

theorem writePoints_kept {vf : FileKey} {q : Point V B}
    (hq : c.files.get? vf = some q) (hother : ∀ p ∈ points, L.vectorFile p ≠ some vf) :
    (writePoints L c points).1.files.get? vf = some q := by
  induction points generalizing c with
  | nil => exact hq
  | cons p points ih =>
    rw [writePoints]
    split
    · exact hq
    · rename_i vf₀ hvf₀
      refine ih ?_ fun p' hp' => hother p' (mem_cons_of_mem p hp')
      have hne : vf ≠ vf₀ := by
        rintro rfl
        exact hother p mem_cons_self hvf₀
      rw [c.writePoint_files, Dict.get?_set_of_ne _ _ hne]
      exact hq

theorem writePoints_files {c' : Collection V B} (h : writePoints L c points = (c', true)) :
    (∀ vf q, c'.files.get? vf = some q → (q ∈ points ∧ L.vectorFile q = some vf) ∨
      (c.files.get? vf = some q ∧ ∀ p ∈ points, L.vectorFile p ≠ some vf)) ∧
    (∀ p ∈ points, ∃ vf q, L.vectorFile p = some vf ∧ c'.files.get? vf = some q ∧ q ∈ points ∧
      L.vectorFile q = some vf) ∧
    ∀ vf q, c.files.get? vf = some q → (∀ p ∈ points, L.vectorFile p ≠ some vf) → c'.files.get? vf = some q := by
  induction points generalizing c with
  | nil =>
    obtain rfl := (Prod.mk.inj h).1
    exact ⟨fun vf q hq => .inr ⟨hq, nofun⟩, nofun, fun vf q hq _ => hq⟩
  | cons p points ih =>
    have hloop := h
    rw [writePoints] at h
    split at h
    · cases h
    · rename_i vf₀ hvf₀
      obtain ⟨hafter, hwritten, hkept⟩ := ih h
      have hset := c.writePoint_files p vf₀
      refine ⟨fun vf q hq => ?_, fun p' hp' => ?_, fun vf q hq hne => ?_⟩
      · rcases hafter vf q hq with ⟨hmem, hvf⟩ | ⟨hold, hne⟩
        · exact .inl ⟨mem_cons_of_mem p hmem, hvf⟩
        · rw [hset, Dict.get?_set] at hold
          split at hold
          · rename_i he
            cases hold
            exact .inl ⟨mem_cons_self, he ▸ hvf₀⟩
          · rename_i he
            refine .inr ⟨hold, fun p' hp' => ?_⟩
            rcases mem_cons.1 hp' with rfl | hp'
            · exact fun hvf => he (Option.mem_unique hvf hvf₀)
            · exact hne p' hp'
      · by_cases hlater : ∃ p'' ∈ points, L.vectorFile p'' = L.vectorFile p'
        · obtain ⟨p'', hp'', hvf⟩ := hlater
          obtain ⟨vf, q, hp''vf, hq, hmem, hqvf⟩ := hwritten p'' hp''
          exact ⟨vf, q, hvf ▸ hp''vf, hq, mem_cons_of_mem p hmem, hqvf⟩
        · -- No later point has the file, so the point is the first one and stays.
          obtain rfl : p' = p := (mem_cons.1 hp').resolve_right fun hmem => hlater ⟨p', hmem, rfl⟩
          refine ⟨vf₀, p', hvf₀, ?_, hp', hvf₀⟩
          refine hkept vf₀ p' ?_ fun p'' hp'' hvf => hlater ⟨p'', hp'', hvf.trans hvf₀.symm⟩
          rw [hset, Dict.get?_set_self]
      · have hstays := writePoints_kept hq hne
        rwa [hloop] at hstays

end OnePath

/-! ### Collections in step -/

section InStep

variable {V B : Type} {L : Layout V} {c c' : Collection V B}

/-- Every vector file is where its id is indexed and its vector puts it, and its id is listed for its own
source file and for no other. -/
structure InStep (L : Layout V) (c : Collection V B) : Prop where
  one : OneFile c
  located : ∀ vf p, c.files.get? vf = some p → L.vectorFile p = some vf
  listed : ∀ vf p, c.files.get? vf = some p → ∀ f, p.id ∈ c.loadedPathIndex.getPointIds f ↔ f = p.path ∧ f ≠ []

variable {p : Point V B} {f x : Str} {points : List (Point V B)}

theorem mem_loadedPathIndex_writePoint (hloaded : c.pathIndex.isSome = true)
    (hpath : p.path ≠ []) (vf : FileKey) :
    x ∈ (c.writePoint p vf).loadedPathIndex.getPointIds f ↔
      x ∈ c.loadedPathIndex.getPointIds f ∨ f = p.path ∧ x = p.id := by
  refine (((c.writeFile p vf).registerId p vf).mem_loadedPathIndex_registerPath p).trans (or_congr Iff.rfl ?_)
  exact ⟨fun h => h.2.2, fun h => ⟨hloaded, hpath, h⟩⟩

namespace InStep

section Drop

variable {points : List (Point V B)} {f : Str}

theorem dropOrphans_files (h : InStep L c) (hne : points ≠ []) (hf : f ≠ []) (hpath : ∀ p ∈ points, p.path = f)
    {vf : FileKey} {q : Point V B} : (c.dropOrphans points).files.get? vf = some q ↔
      c.files.get? vf = some q ∧ (q.path = f → q.id ∈ points.map Point.id) := by
  rw [(c.dropOrphans_spec points).1.files]
  refine and_congr_right fun hq => ?_
  have howned := h.one.owned hq
  have hlisted := h.listed vf q hq
  have horphan : (∀ id ∈ c.orphanIds points, c.idIndex.get? id ≠ some vf) ↔ q.id ∉ c.orphanIds points := by
    refine ⟨fun h' hmem => h' q.id hmem howned, fun h' id hid hvf => h' ?_⟩
    rwa [← h.one.distinct id q.id vf hvf howned]
  rw [horphan, mem_orphanIds c hne hf hpath, howned]
  constructor
  · intro h' hqf
    by_contra hnew
    exact h' ⟨(hlisted f).2 ⟨hqf.symm, hf⟩, hnew, fun g hg => ((hlisted g).1 hg).1.trans hqf, rfl⟩
  · rintro h' ⟨hmem, hnew, -, -⟩
    exact hnew (h' ((hlisted f).1 hmem).1.symm)

theorem dropOrphans (h : InStep L c) (hne : points ≠ []) (hf : f ≠ []) (hpath : ∀ p ∈ points, p.path = f) :
    InStep L (c.dropOrphans points) := by
  obtain ⟨hremoves, hix, -⟩ := c.dropOrphans_spec points
  have hloaded : (c.dropOrphans points).loadedPathIndex = (c.step1 points).1 := by
    rw [Collection.loadedPathIndex, hix]
    rfl
  refine ⟨h.one.removes hremoves, fun vf p hp => ?_, fun vf p hp g => ?_⟩
  · exact h.located vf p ((h.dropOrphans_files hne hf hpath).1 hp).1
  · obtain ⟨hp, hnew⟩ := (h.dropOrphans_files hne hf hpath).1 hp
    rw [hloaded, (c.step1_spec points).1, h.listed vf p hp]
    refine and_iff_left_of_imp fun hg ids hids => ?_
    have hgroup := Dict.mem_items_iff.2 hids
    rw [pointsByFile_onePath hne hf hpath] at hgroup
    obtain ⟨hgf, rfl⟩ := Prod.mk.inj (mem_singleton.1 hgroup)
    exact hnew (hg.1.symm.trans hgf)

end Drop

theorem writePoint (h : InStep L c) {p : Point V B} {vf : FileKey} (hvf : L.vectorFile p = some vf)
    (hplaced : ∀ id vf', c.idIndex.get? id = some vf' → (id = p.id ↔ vf' = vf)) (hpath : p.path ≠ [])
    (hsole : ∀ f, p.id ∈ c.loadedPathIndex.getPointIds f → f = p.path) (hloaded : c.pathIndex.isSome = true) :
    InStep L (c.writePoint p vf) := by
  refine ⟨h.one.writes hplaced (c.writePoint_files p vf) (c.writePoint_idIndex p vf), fun vf' q hq => ?_,
    fun vf' q hq f => ?_⟩
  · rw [c.writePoint_files, Dict.get?_set] at hq
    split at hq
    · rename_i heq
      cases hq
      rw [heq, hvf]
    · exact h.located vf' q hq
  · rw [mem_loadedPathIndex_writePoint hloaded hpath]
    rw [c.writePoint_files, Dict.get?_set] at hq
    split at hq
    · cases hq
      constructor
      · rintro (hf | ⟨hf, -⟩)
        · obtain rfl := hsole f hf
          exact ⟨rfl, hpath⟩
        · exact ⟨hf, hf ▸ hpath⟩
      · exact fun hf => .inr ⟨hf.1, rfl⟩
    · rename_i hne
      have hid : q.id ≠ p.id := fun hid => hne ((hplaced q.id vf' (h.one.owned hq)).1 hid)
      rw [h.listed vf' q hq f]
      simp [hid]

end InStep

theorem listed_of_writePoints (hpath : ∀ p ∈ points, p.path ≠ [])
    (hloaded : c.pathIndex.isSome = true)
    (hx : x ∈ (writePoints L c points).1.loadedPathIndex.getPointIds f) :
    x ∈ c.loadedPathIndex.getPointIds f ∨ x ∈ points.map Point.id := by
  induction points generalizing c with
  | nil => exact .inl hx
  | cons p points ih =>
    have hp := hpath p mem_cons_self
    rw [writePoints] at hx
    split at hx
    · exact .inl hx
    · rename_i vf _
      have hloaded' : (c.writePoint p vf).pathIndex.isSome = true := by
        rw [c.writePoint_pathIndex, if_neg hp, Option.isSome_map]
        exact hloaded
      rw [map_cons, mem_cons]
      rcases ih (fun q hq => hpath q (mem_cons_of_mem p hq)) hloaded' hx with hold | hnew
      · rcases (mem_loadedPathIndex_writePoint hloaded hp vf).1 hold with hold | ⟨-, hid⟩
        · exact .inl hold
        · exact .inr (.inl hid)
      · exact .inr (.inr hnew)

theorem listed_of_upsertPoints (hpath : ∀ p ∈ points, p.path ≠ [])
    (hx : x ∈ (upsertPoints L c points).1.loadedPathIndex.getPointIds f) :
    x ∈ c.loadedPathIndex.getPointIds f ∨ x ∈ points.map Point.id := by
  obtain ⟨-, hix, -⟩ := c.dropOrphans_spec points
  refine (listed_of_writePoints hpath (by rw [hix]; rfl) hx).imp_left fun hold => ?_
  rw [Collection.loadedPathIndex, hix, Option.getD_some, (c.step1_spec points).1] at hold
  exact hold.1

end InStep

/-! ### The end of a session -/

section EndIndexing

variable {V B : Type} (c : Collection V B) (fits : V → Bool) (flag : Bool) (d : HnswDisk V) (o : EndOptions)

theorem fallback_cases : (c.fallback fits flag d o).2.1 = c ∨ (c.fallback fits flag d o).2.1 = c.saveIndexes := by
  unfold Collection.fallback
  split
  · exact .inr rfl
  · split
    · exact .inr rfl
    · split
      · exact .inl rfl
      · exact .inr rfl

theorem endIndexing_cases : ∃ session, (c.endIndexing fits flag d o).2.1 = { c with session := session } ∨
    (c.endIndexing fits flag d o).2.1 = { c with session := session }.saveIndexes := by
  unfold Collection.endIndexing
  split
  · split
    · exact ⟨none, .inl rfl⟩
    · exact ⟨none, .inr rfl⟩
  · split
    · exact ⟨none, .inr rfl⟩
    · split
      · exact ⟨c.session, fallback_cases c fits flag d o⟩
      · split
        · split
          · exact ⟨c.session, .inl rfl⟩
          · exact ⟨none, .inr rfl⟩
          · exact ⟨none, fallback_cases { c with session := none } fits flag d o⟩
        · exact ⟨c.session, fallback_cases c fits flag d o⟩

end EndIndexing

/-! ### Clean stores -/

variable {F : Type} {L : Layout (List F)} {H : Digests} {P : Provider F}

/-- The point was made by `_create_vector_point`, from a text and its embedding. -/
structure Made (H : Digests) (P : Provider F) (p : Point (List F) Payload) : Prop where
  path : p.path ≠ []
  id : p.id = H.md5 (encode (uniqueKey p.body.projectId p.body.fileHash p.body.chunkIndex))
  text : ∃ text, p.body.contentHash = H.sha256 (encode text) ∧ p.vector = P.embed text

theorem Made.id_eq {p q : Point (List F) Payload} (hp : Made H P p) (hq : Made H P q) (hL : L.hashPrefix = none)
    {vf : FileKey} (hpvf : L.vectorFile p = some vf) (hqvf : L.vectorFile q = some vf) : p.id = q.id := by
  have hlast {p : Point (List F) Payload} (h : L.vectorFile p = some vf) :
      vf.getLast? = some (L.fileName p.id) := by
    obtain ⟨reduced, -, h⟩ := Option.bind_eq_some_iff.1 h
    obtain ⟨dir, -, rfl⟩ := Option.map_eq_some_iff.1 h
    exact List.getLast?_concat
  refine fileName_injective hL ?_ ?_ (Option.mem_unique (hlast hpvf) (hlast hqvf))
  · rw [hp.id]
    exact H.md5_hex _
  · rw [hq.id]
    exact H.md5_hex _

structure Clean (L : Layout (List F)) (H : Digests) (P : Provider F) (c : Store F) : Prop where
  one : OneFile c
  located : ∀ vf p, c.files.get? vf = some p → L.vectorFile p = some vf
  made : ∀ vf p, c.files.get? vf = some p → Made H P p
  listed : ∀ vf p, c.files.get? vf = some p → p.id ∈ c.loadedPathIndex.getPointIds p.path
  sole : ∀ x f g, x ∈ c.loadedPathIndex.getPointIds f → x ∈ c.loadedPathIndex.getPointIds g → f = g

namespace Clean

variable {c c' : Store F}

theorem new : Clean L H P (.new : Store F) := ⟨.intro nofun nofun, nofun, nofun, nofun, nofun⟩

theorem congr (h : Clean L H P c) (hfiles : c'.files = c.files) (hidx : c'.idIndex = c.idIndex)
    (hix : c'.loadedPathIndex = c.loadedPathIndex) : Clean L H P c' where
  one := .intro (by rw [hfiles, hidx]; exact fun _ _ => h.one.named)
    (by rw [hfiles, hidx]; exact fun _ _ => h.one.owned)
  located := by rw [hfiles]; exact h.located
  made := by rw [hfiles]; exact h.made
  listed := by rw [hfiles, hix]; exact h.listed
  sole := by rw [hix]; exact h.sole

theorem inStep (h : Clean L H P c) : InStep L c where
  one := h.one
  located := h.located
  listed vf p hp f := by
    have hlisted := h.listed vf p hp
    constructor
    · intro hf
      obtain rfl := h.sole p.id f p.path hf hlisted
      exact ⟨rfl, (h.made vf p hp).path⟩
    · rintro ⟨rfl, -⟩
      exact hlisted

section Drop

variable {points : List (Point (List F) Payload)} {f : Str}

theorem dropOrphans_files (h : Clean L H P c) (hne : points ≠ []) (hf : f ≠ []) (hpath : ∀ p ∈ points, p.path = f)
    {vf : FileKey} {q : Point (List F) Payload} : (c.dropOrphans points).files.get? vf = some q ↔
      c.files.get? vf = some q ∧ (q.path = f → q.id ∈ points.map Point.id) :=
  h.inStep.dropOrphans_files hne hf hpath

theorem dropOrphans (h : Clean L H P c) (hne : points ≠ []) (hf : f ≠ []) (hpath : ∀ p ∈ points, p.path = f) :
    Clean L H P (c.dropOrphans points) := by
  have hstep := h.inStep.dropOrphans hne hf hpath
  have hmade : ∀ vf p, (c.dropOrphans points).files.get? vf = some p → Made H P p := fun vf p hp =>
    h.made vf p ((h.dropOrphans_files hne hf hpath).1 hp).1
  have hloaded : (c.dropOrphans points).loadedPathIndex = (c.step1 points).1 := by
    rw [Collection.loadedPathIndex, (c.dropOrphans_spec points).2.1]
    rfl
  refine ⟨hstep.one, hstep.located, hmade, fun vf p hp => ?_, fun x f g hf hg => ?_⟩
  · exact (hstep.listed vf p hp p.path).2 ⟨rfl, (hmade vf p hp).path⟩
  · rw [hloaded, (c.step1_spec points).1] at hf hg
    exact h.sole x f g hf.1 hg.1

end Drop

/-- A point can be written: no other source file is listed with its id, and a vector file with its id is
the one it goes to. -/
structure Fits (L : Layout (List F)) (H : Digests) (P : Provider F) (c : Store F)
    (p : Point (List F) Payload) : Prop where
  made : Made H P p
  sole : ∀ f, p.id ∈ c.loadedPathIndex.getPointIds f → f = p.path
  same : ∀ vf q, c.files.get? vf = some q → q.id = p.id → L.vectorFile p = some vf

variable {p : Point (List F) Payload} {points : List (Point (List F) Payload)}

theorem Fits.writePoint {q : Point (List F) Payload} (h : Fits L H P c q) (hp : Made H P p)
    (hloaded : c.pathIndex.isSome = true) (hne : q.id ≠ p.id) (vf : FileKey) : Fits L H P (c.writePoint p vf) q where
  made := h.made
  sole f hf := by
    rcases (mem_loadedPathIndex_writePoint hloaded hp.path vf).1 hf with hf | ⟨-, hid⟩
    · exact h.sole f hf
    · exact absurd hid hne
  same vf' q' hq' hid := by
    rw [c.writePoint_files, Dict.get?_set] at hq'
    split at hq'
    · cases hq'
      exact absurd hid.symm hne
    · exact h.same vf' q' hq' hid

theorem writePoint (h : Clean L H P c) (hL : L.hashPrefix = none) {vf : FileKey}
    (hp : Fits L H P c p) (hvf : L.vectorFile p = some vf) (hloaded : c.pathIndex.isSome = true) :
    Clean L H P (c.writePoint p vf) := by
  have hplaced : ∀ id vf', c.idIndex.get? id = some vf' → (id = p.id ↔ vf' = vf) := by
    intro id vf' hid
    obtain ⟨q, hq, rfl⟩ := h.one.named hid
    constructor
    · intro he
      exact Option.mem_unique (hp.same vf' q hq he) hvf
    · rintro rfl
      exact (h.made _ q hq).id_eq hp.made hL (h.located _ q hq) hvf
  have hstep := h.inStep.writePoint hvf hplaced hp.made.path hp.sole hloaded
  have hmade : ∀ vf' q, (c.writePoint p vf).files.get? vf' = some q → Made H P q := by
    intro vf' q hq
    rw [c.writePoint_files, Dict.get?_set] at hq
    split at hq
    · cases hq
      exact hp.made
    · exact h.made vf' q hq
  refine ⟨hstep.one, hstep.located, hmade, fun vf' q hq => ?_, fun x f g hf hg => ?_⟩
  · exact (hstep.listed vf' q hq q.path).2 ⟨rfl, (hmade vf' q hq).path⟩
  · rw [mem_loadedPathIndex_writePoint hloaded hp.made.path] at hf hg
    rcases hf with hf | ⟨rfl, rfl⟩ <;> rcases hg with hg | ⟨rfl, hx⟩
    · exact h.sole x f g hf hg
    · exact hp.sole f (hx ▸ hf)
    · exact (hp.sole g hg).symm
    · rfl

theorem writePoints (h : Clean L H P c) (hL : L.hashPrefix = none)
    (hfits : ∀ p ∈ points, Fits L H P c p) (hnodup : (points.map Point.id).Nodup)
    (hloaded : c.pathIndex.isSome = true) : Clean L H P (writePoints L c points).1 := by
  induction points generalizing c with
  | nil => exact h
  | cons p points ih =>
    have hp := hfits p mem_cons_self
    obtain ⟨hnew, hnodup⟩ := nodup_cons.1 hnodup
    rw [Indexing.writePoints]
    split
    · exact h
    · rename_i vf hvf
      refine ih (h.writePoint hL hp hvf hloaded) (fun q hq => ?_) hnodup ?_
      · exact (hfits q (mem_cons_of_mem p hq)).writePoint hp.made hloaded
          (fun he => hnew (he ▸ mem_map_of_mem hq)) vf
      · rw [c.writePoint_pathIndex, if_neg hp.made.path, Option.isSome_map]
        exact hloaded

theorem upsertPoints (h : Clean L H P c) (hL : L.hashPrefix = none) {f : Str}
    (hne : points ≠ []) (hf : f ≠ []) (hpath : ∀ p ∈ points, p.path = f) (hfits : ∀ p ∈ points, Fits L H P c p)
    (hnodup : (points.map Point.id).Nodup) : Clean L H P (upsertPoints L c points).1 := by
  obtain ⟨-, hix, -⟩ := c.dropOrphans_spec points
  refine (h.dropOrphans hne hf hpath).writePoints hL (fun p hp => ?_) hnodup (by rw [hix]; rfl)
  -- The clean-up only takes vector files and listed ids away.
  refine ⟨(hfits p hp).made, fun g hg => ?_, fun vf q hq hid => ?_⟩
  · rw [Collection.loadedPathIndex, hix, Option.getD_some, (c.step1_spec points).1] at hg
    exact (hfits p hp).sole g hg.1
  · exact (hfits p hp).same vf q ((h.dropOrphans_files hne hf hpath).1 hq).1 hid

theorem deletePoints (h : Clean L H P c) (ids : List Str) : Clean L H P (c.deletePoints ids) := by
  have hremoves := (c.deletePoints_spec ids).1
  refine ⟨h.one.removes hremoves, fun vf p hp => ?_, fun vf p hp => ?_, fun vf p hp => ?_, fun x f g hf hg => ?_⟩
  · exact h.located vf p ((hremoves.files vf p).1 hp).1
  · exact h.made vf p ((hremoves.files vf p).1 hp).1
  · obtain ⟨hp, hkept⟩ := (hremoves.files vf p).1 hp
    refine (c.mem_loadedPathIndex_deletePoints ids).2 ⟨h.listed vf p hp, ?_⟩
    rintro ⟨-, hremoved⟩
    rcases (Collection.foldl_deletePoint_removals ids c []).2.1 _ hremoved with hnil | hmem
    · cases hnil
    · exact hkept p.id hmem (h.one.owned hp)
  · exact h.sole x f g ((c.mem_loadedPathIndex_deletePoints ids).1 hf).1
      ((c.mem_loadedPathIndex_deletePoints ids).1 hg).1

theorem saveIndexes (h : Clean L H P c) : Clean L H P c.saveIndexes := by
  refine h.congr rfl rfl ?_
  rw [Collection.saveIndexes, Collection.loadedPathIndex, Collection.loadedPathIndex]
  cases c.pathIndex <;> rfl

theorem endIndexing (h : Clean L H P c) (fits : List F → Bool) (flag : Bool) (d : HnswDisk (List F))
    (o : EndOptions) : Clean L H P (c.endIndexing fits flag d o).2.1 := by
  obtain ⟨session, hend | hend⟩ := endIndexing_cases c fits flag d o
  · rw [hend]
    exact h.congr rfl rfl rfl
  · rw [hend]
    exact (show Clean L H P { c with session := session } from h.congr rfl rfl rfl).saveIndexes

end Clean

end CodeIndexer.Indexing
