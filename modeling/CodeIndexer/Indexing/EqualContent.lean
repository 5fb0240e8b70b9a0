import CodeIndexer.Indexing.HardDelete

/-!
# Files with equal content

The id of a point is made of the project, the hash of the file's content and the number of the chunk. Two files
with the same content share their ids, and a vector file has room for one path. So the file that is indexed last
takes the points over, and the other one has none. As long as no file gets an id that another one is listed with,
every file keeps a point for each of its image-free chunks, whatever becomes of the other files.
-/

namespace CodeIndexer.Indexing

open PyText Storage TransitionSystem List

variable {F : Type} {L : Layout (List F)} {H : Digests} {P : Provider F}

/-! ### Runs -/

/-- A collection, and the files that are indexed, each with the call that indexed it last. -/
structure Library (P : Provider F) where
  store : Store F
  present : Dict Str (Call P)

inductive FileAct (P : Provider F)
  | beginIndexing
  | index (call : Call P)
  -- `delete_file_branch_aware` of a project without git.
  | delete (path : Str)
  -- `delete_by_filter` with its arguments as declared.
  | deletePoints (path : Str)
  -- Hiding, for which the points with these ids need another `hidden_branches`.
  | hide (path : Str) (ids : List Str)
  | endIndexing (d : HnswDisk (List F)) (didFilteredRebuild : Bool) (o : EndOptions)

/-- `_batch_update_points`, as far as a payload without `hidden_branches` shows it. -/
def rewritePoints (L : Layout (List F)) : Store F → List Str → Store F × Bool
  | c, [] => (c, true)
  | c, id :: ids =>
    match getPoint c id with
    | none => rewritePoints L c ids
    | some existing =>
      match upsertPoints L c [{ existing with id := id }] with
      | (c, true) => rewritePoints L c ids
      | (c, false) => (c, false)

namespace Library

def updateIds (c : Store F) (path : Str) (ids : List Str) : List Str :=
  ((scrollFile c path (fun _ => true) 1000).map Point.id).filter (· ∈ ids)

/-- A file is indexed from a call that succeeds until it is deleted, hidden, or a call fails. -/
def next (L : Layout (List F)) (H : Digests) (fits : List F → Bool) (s : Library P) : FileAct P → Library P
  | .beginIndexing => { s with store := s.store.beginIndexing }
  | .index call =>
    match call.process L H s.store with
    | (c, .success _) => ⟨c, s.present.set call.path call⟩
    | (c, .failure _) => ⟨c, s.present.erase call.path⟩
  -- The filter is passed in the place of the name, so that nothing is deleted.
  | .delete path => { s with present := s.present.erase path }
  | .deletePoints path =>
    let c := openPathIndex s.store
    ⟨c.deletePoints (pointsToDelete c path), s.present.erase path⟩
  | .hide path ids =>
    let c := openPathIndex s.store
    ⟨(rewritePoints L c (updateIds c path ids)).1, s.present.erase path⟩
  | .endIndexing d didFilteredRebuild o => { s with store := (s.store.endIndexing fits didFilteredRebuild d o).2.1 }

/-- Every image-free chunk of every indexed file has a point with the path of the file. -/
def Findable (H : Digests) (s : Library P) : Prop :=
  ∀ path call, s.present.get? path = some call → ∀ chunk ∈ call.regular,
    ∃ p ∈ held s.store path, view p = chunk.view H P

/-- No file gets an id that another file is listed with, and its chunks are in order. -/
def Unmixed (L : Layout (List F)) (H : Digests) (s : Library P) : FileAct P → Prop
  | .index call => Orderly L H s.store (.process call)
  | .beginIndexing | .delete _ | .deletePoints _ | .hide .. | .endIndexing .. => True

instance (s : Library P) : (a : FileAct P) → Decidable (s.Unmixed L H a)
  | .index call => inferInstanceAs (Decidable (Orderly L H s.store (.process call)))
  | .beginIndexing | .delete _ | .deletePoints _ | .hide .. | .endIndexing .. => .isTrue trivial

end Library

def library (L : Layout (List F)) (H : Digests) (P : Provider F) (fits : List F → Bool) :
    TransitionSystem (Library P) (FileAct P) where
  init s := s = ⟨.new, .empty⟩
  step s a := some (s.next L H fits a)

/-! ### What is left of the other files -/

def Spares (f : Str) (c c' : Store F) : Prop :=
  ∀ vf q, c.files.get? vf = some q → q.path ≠ f → c'.files.get? vf = some q

variable {f : Str} {c c' c'' : Store F}

theorem Spares.of_files_eq (h : c'.files = c.files) : Spares f c c' := by
  intro vf q hq _
  rw [h]
  exact hq

theorem Spares.trans (h : Spares f c c') (h' : Spares f c' c'') : Spares f c c'' := fun vf q hq hne =>
  h' vf q (h vf q hq hne) hne

theorem Spares.mem_held (h : Spares f c c') {path : Str} (hne : path ≠ f) {p : Point (List F) Payload}
    (hp : p ∈ held c path) : p ∈ held c' path := by
  obtain ⟨vf, hvf, hpath⟩ := Indexing.mem_held.1 hp
  exact Indexing.mem_held.2 ⟨vf, h vf p hvf (hpath ▸ hne), hpath⟩

namespace Clean

theorem fileInStep (h : Clean L H P c) (f : Str) : FileInStep L c f where
  owned vf p hp _ := ⟨h.one.owned hp, h.located vf p hp⟩
  listed vf p hp hpath g := by
    have hlisted := h.listed vf p hp
    rw [hpath] at hlisted
    constructor
    · exact fun hg => h.sole p.id g f hg hlisted
    · rintro rfl
      exact hlisted
  named id hid vf hvf := by
    obtain ⟨p, hp, rfl⟩ := h.one.named hvf
    exact ⟨p, hp, rfl, h.sole p.id p.path f (h.listed vf p hp) hid⟩

theorem openPathIndex (h : Clean L H P c) : Clean L H P (openPathIndex c) := by
  refine h.congr (openPathIndex_files c) (openPathIndex_idIndex c) ?_
  unfold Indexing.openPathIndex
  split
  · rename_i hnil
    -- Every point is listed, so that an index without an id is rebuilt from no vector files.
    have hempty : c.files.items = [] := by
      refine eq_nil_iff_forall_not_mem.2 fun e he => ?_
      obtain ⟨ids, hids, -⟩ := PathIndex.exists_mem_items (h.listed e.1 e.2 (Dict.mem_items_iff.1 he))
      rw [hnil] at hids
      cases hids
    rw [rebuildPathIndexFromDisk, hempty]
    rfl
  · rfl

variable {call : Call P} {vf : FileKey} {ids : List Str}

theorem spares_process (h : Clean L H P c) (hL : L.hashPrefix = none)
    (horderly : Orderly L H c (.process call)) : Spares call.path c (call.process L H c).1 := by
  obtain ⟨horder, -, hunshared⟩ := horderly
  obtain ⟨c₁, hfiles, hidx, hix, ⟨hr, -⟩ | ⟨hne, hr, -⟩⟩ := call.process_cases L H c
  · rw [hr]
    exact .of_files_eq hfiles
  intro vf q hq hqpath
  have hpath : ∀ p ∈ call.newPoints H c, p.path = call.path := fun p hp => (Call.made_of_mem_newPoints h hp).2.1
  rw [hr, Indexing.upsertPoints]
  refine writePoints_kept ?_ fun p hp hvf => hqpath ?_
  · refine ((h.congr hfiles hidx hix).dropOrphans_files hne call.path_ne_nil hpath).2 ⟨?_, fun he => absurd he hqpath⟩
    rw [hfiles]
    exact hq
  · obtain ⟨chunk, hchunk, hrep⟩ := Call.represents_of_mem_newPoints h horder.range hp
    have hid := (h.made vf q hq).id_eq (Call.made_of_mem_newPoints h hp).1 hL (h.located vf q hq) hvf
    obtain ⟨ids, hitem, hmem⟩ := PathIndex.exists_mem_items (h.listed vf q hq)
    by_contra hother
    refine hunshared (q.path, ids) hitem hother chunk hchunk ?_
    rwa [hid, hrep.id] at hmem

theorem exists_of_process (h : Clean L H P c) (hL : L.hashPrefix = none)
    (horder : call.InOrder H c) {n : ℕ} (hok : (call.process L H c).2 = .success n) {chunk : Chunk}
    (hchunk : chunk ∈ call.regular) : ∃ p ∈ held (call.process L H c).1 call.path, view p = chunk.view H P := by
  obtain ⟨c₁, hfiles, hidx, hix, ⟨-, hnone⟩ | ⟨hne, hr, hwritten⟩⟩ := call.process_cases L H c
  · rw [hnone n hok] at hchunk
    cases hchunk
  · have hup : Indexing.upsertPoints L c₁ (call.newPoints H c) = ((call.process L H c).1, true) :=
      Prod.ext hr.symm (hwritten n hok)
    have hleaves := Call.leaves_of_upsert h (h.congr hfiles hidx hix) hfiles hne hup
    obtain ⟨vf, q, -, hq, hqpath, hrep⟩ := hleaves.exists_file hL h horder hchunk
    exact ⟨q, mem_held.2 ⟨vf, hq, hqpath⟩, hrep.view⟩

theorem path_of_mem_scrollFile (h : Clean L H P c) {keeps : Point (List F) Payload → Bool} {limit : ℕ} {id : Str}
    (hid : id ∈ (scrollFile c f keeps limit).map Point.id) {q : Point (List F) Payload}
    (hq : c.files.get? vf = some q) (hqid : q.id = id) : q.path = f := by
  obtain ⟨p, hp, rfl⟩ := mem_map.1 hid
  obtain ⟨x, hx, hget⟩ := mem_filterMap.1 (mem_of_mem_take hp)
  have hlisted := mem_sortedIds.1 hx
  obtain ⟨vf', -, rfl, -⟩ := (h.fileInStep f).of_getPoint hlisted (Option.filter_eq_some_iff.1 hget).1
  rw [← hqid] at hlisted
  exact h.sole q.id q.path f (h.listed vf q hq) hlisted

theorem spares_deletePoints (h : Clean L H P c)
    (hids : ∀ id ∈ ids, ∀ vf q, c.files.get? vf = some q → q.id = id → q.path = f) :
    Spares f c (c.deletePoints ids) := by
  intro vf q hq hqpath
  refine ((c.deletePoints_spec ids).1.files vf q).2 ⟨hq, fun id hid hvf => hqpath ?_⟩
  refine hids id hid vf q hq ?_
  exact h.one.distinct q.id id vf (h.one.owned hq) hvf

theorem upsert_self (h : Clean L H P c) (hL : L.hashPrefix = none) {p : Point (List F) Payload}
    (hp : c.files.get? vf = some p) : ∃ c', Indexing.upsertPoints L c [p] = (c', true) ∧ Clean L H P c' ∧
      ∀ vf' q, c'.files.get? vf' = some q ↔
        vf' = vf ∧ q = p ∨ vf' ≠ vf ∧ c.files.get? vf' = some q ∧ q.path ≠ p.path := by
  have hmade := h.made vf p hp
  have hvf := h.located vf p hp
  obtain ⟨c', hup, -, hleft, -⟩ := (h.fileInStep p.path).upsert_replace hmade.path hp rfl rfl rfl hvf
  refine ⟨c', hup, ?_, hleft⟩
  have hne : [p] ≠ [] := cons_ne_nil _ _
  have hpaths : ∀ q ∈ [p], q.path = p.path := fun q hq => by rw [mem_singleton.1 hq]
  have hfits : ∀ q ∈ [p], Fits L H P c q := by
    intro q hq
    obtain rfl := mem_singleton.1 hq
    refine ⟨hmade, fun g hg => h.sole q.id g q.path hg (h.listed vf q hp), fun vf' q' hq' hid => ?_⟩
    have howned := h.one.owned hq'
    rw [hid] at howned
    rw [← Option.mem_unique (h.one.owned hp) howned]
    exact hvf
  have hclean := h.upsertPoints hL hne hmade.path hpaths hfits (nodup_singleton _)
  rwa [hup] at hclean

theorem rewritePoints (h : Clean L H P c) (hL : L.hashPrefix = none)
    (hids : ∀ id ∈ ids, ∀ vf q, c.files.get? vf = some q → q.id = id → q.path = f) :
    Clean L H P (rewritePoints L c ids).1 ∧ Spares f c (rewritePoints L c ids).1 := by
  induction ids generalizing c with
  | nil => exact ⟨h, .of_files_eq rfl⟩
  | cons id ids ih =>
    rw [Indexing.rewritePoints]
    split
    · exact ih h fun x hx => hids x (mem_cons_of_mem id hx)
    · rename_i p hget
      obtain ⟨vf, hvf, hp⟩ := Option.bind_eq_some_iff.1 hget
      obtain ⟨r, hr, rfl⟩ := h.one.named hvf
      obtain rfl := Option.mem_unique hp hr
      obtain ⟨c', hup, hclean, hleft⟩ := h.upsert_self hL hp
      have hpath := hids p.id mem_cons_self vf p hp rfl
      rw [show ({ p with id := p.id } : Point (List F) Payload) = p from rfl, hup]
      dsimp only
      have hsub : ∀ vf' q, c'.files.get? vf' = some q → c.files.get? vf' = some q := by
        intro vf' q hq
        rcases (hleft vf' q).1 hq with ⟨rfl, rfl⟩ | ⟨-, hold, -⟩
        · exact hp
        · exact hold
      have hspares : Spares f c c' := by
        intro vf' q hq hqpath
        refine (hleft vf' q).2 (.inr ⟨?_, hq, hpath.symm ▸ hqpath⟩)
        rintro rfl
        obtain rfl := Option.mem_unique hp hq
        exact hqpath hpath
      obtain ⟨hclean', hrest⟩ := ih hclean fun x hx vf' q hq => hids x (mem_cons_of_mem _ hx) vf' q (hsub vf' q hq)
      exact ⟨hclean', hspares.trans hrest⟩

end Clean

/-! ### All runs -/

namespace Library

variable {s : Library P}

theorem Findable.erase (h : s.Findable H) (hspares : Spares f s.store c) :
    (⟨c, s.present.erase f⟩ : Library P).Findable H := by
  intro path call hcall chunk hchunk
  obtain ⟨hne, hcall⟩ := Dict.get?_erase_eq_some.1 hcall
  obtain ⟨p, hp, hview⟩ := h path call hcall chunk hchunk
  exact ⟨p, hspares.mem_held hne hp, hview⟩

theorem Findable.set (h : s.Findable H) {call : Call P} (hspares : Spares call.path s.store c)
    (hnew : ∀ chunk ∈ call.regular, ∃ p ∈ held c call.path, view p = chunk.view H P) :
    (⟨c, s.present.set call.path call⟩ : Library P).Findable H := by
  intro path call' hcall chunk hchunk
  by_cases hne : path = call.path
  · subst hne
    rw [Dict.get?_set_self] at hcall
    cases hcall
    exact hnew chunk hchunk
  · rw [Dict.get?_set_of_ne _ _ hne] at hcall
    obtain ⟨p, hp, hview⟩ := h path call' hcall chunk hchunk
    exact ⟨p, hspares.mem_held hne hp, hview⟩

theorem Findable.congr (h : s.Findable H) (hfiles : c.files = s.store.files) :
    (⟨c, s.present⟩ : Library P).Findable H := by
  have hheld : ∀ path, held c path = held s.store path := by
    intro path
    rw [held, held, hfiles]
  intro path call hcall chunk hchunk
  rw [hheld]
  exact h path call hcall chunk hchunk

theorem next_findable (hL : L.hashPrefix = none) {fits : List F → Bool} {a : FileAct P}
    (h : Clean L H P s.store ∧ s.Findable H) (ha : s.Unmixed L H a) :
    Clean L H P (s.next L H fits a).store ∧ (s.next L H fits a).Findable H := by
  obtain ⟨hclean, hfind⟩ := h
  cases a with
  | beginIndexing => exact ⟨hclean.congr rfl rfl rfl, hfind.congr rfl⟩
  | index call =>
    have hclean' := hclean.process hL ha
    have hspares := hclean.spares_process hL ha
    have hnew := fun n => hclean.exists_of_process hL ha.1 (n := n)
    unfold next
    dsimp only
    generalize call.process L H s.store = r at hclean' hspares hnew ⊢
    obtain ⟨c, n | e⟩ := r
    · exact ⟨hclean', hfind.set hspares fun chunk hchunk => hnew n rfl hchunk⟩
    · exact ⟨hclean', hfind.erase hspares⟩
  | delete path => exact ⟨hclean, hfind.erase (.of_files_eq rfl)⟩
  | deletePoints path =>
    have hopen := hclean.openPathIndex
    have hspares : Spares path s.store (openPathIndex s.store) := .of_files_eq (openPathIndex_files s.store)
    refine ⟨hopen.deletePoints _, hfind.erase (hspares.trans (hopen.spares_deletePoints ?_))⟩
    exact fun id hid vf q hq hqid => hopen.path_of_mem_scrollFile hid hq hqid
  | hide path ids =>
    have hopen := hclean.openPathIndex
    have hspares : Spares path s.store (openPathIndex s.store) := .of_files_eq (openPathIndex_files s.store)
    have hids : ∀ id ∈ updateIds (openPathIndex s.store) path ids, ∀ vf q,
        (openPathIndex s.store).files.get? vf = some q → q.id = id → q.path = path :=
      fun id hid vf q hq hqid => hopen.path_of_mem_scrollFile (mem_filter.1 hid).1 hq hqid
    obtain ⟨hclean', hrest⟩ := hopen.rewritePoints hL hids
    exact ⟨hclean', hfind.erase (hspares.trans hrest)⟩
  | endIndexing d flag o =>
    refine ⟨hclean.endIndexing fits flag d o, hfind.congr ?_⟩
    obtain ⟨session, hend | hend⟩ := endIndexing_cases s.store fits flag d o
    · rw [hend]
    · rw [hend]
      rfl

/-- In every run in which no file gets an id that another one is listed with, every indexed file has a point with
its path for each of its image-free chunks. -/
theorem findable_of_reachable (hL : L.hashPrefix = none) {fits : List F → Bool}
    (h : (library L H P fits).Reachable (Unmixed L H) s) : s.Findable H := by
  have hinv : Clean L H P s.store ∧ s.Findable H := by
    refine h.invariant (I := fun s => Clean L H P s.store ∧ s.Findable H) (fun s hs => ?_) fun s a s' hinv ha hs => ?_
    · obtain rfl := hs
      refine ⟨Clean.new, fun path call hcall => ?_⟩
      cases hcall
    · cases hs
      exact next_findable hL hinv ha
  exact hinv.2

/-! ### Two files -/

/-- Files with different contents: one is indexed again, then the other is deleted. -/
theorem findable_after_delete : ∃ s : Library lengthProvider,
    (library headLayout plainDigests lengthProvider fun _ => true).Reachable (Unmixed headLayout plainDigests) s ∧
      s.present.items.map Prod.fst = ["a.py".toList] ∧
      (held s.store "a.py").map (fun p => p.body.content) = ["ccc".toList, "bb".toList] ∧
      s.Findable plainDigests := by
  exact exists_of_run_and_and ⟨.new, .empty⟩
    [.beginIndexing, .index (fileCall "h1" ["a", "bb"]), .index (otherCall "h2" ["a"]),
     .index (fileCall "h3" ["ccc", "bb"]), .deletePoints "b.py",
     .endIndexing ⟨none, none⟩ false ⟨true, false, true⟩] rfl (by decide +kernel)
    fun s hreach _ _ => findable_of_reachable rfl hreach

theorem not_findable {path : Str} (hcall : (s.present.get? path).any (fun call => !call.regular.isEmpty) = true)
    (hheld : (held s.store path).isEmpty = true) : ¬ s.Findable H := by
  intro h
  cases hget : s.present.get? path with
  | none =>
    rw [hget] at hcall
    cases hcall
  | some call =>
    rw [hget, Option.any_some, Bool.not_eq_true', isEmpty_eq_false_iff] at hcall
    obtain ⟨chunk, hchunk⟩ := exists_mem_of_ne_nil _ hcall
    obtain ⟨p, hp, -⟩ := h path call hget chunk hchunk
    rw [isEmpty_iff.1 hheld] at hp
    cases hp

/-- Files with the same content: the second takes over the point of the first, and when it is deleted, no point is
left for the first. -/
theorem twin_not_findable :
    (∃ s : Library lengthProvider, (library headLayout plainDigests lengthProvider fun _ => true).Reachable Any s ∧
        s.present.items.map Prod.fst = ["a.py".toList, "b.py".toList] ∧
        s.store.points.map Point.path = ["b.py".toList] ∧ ¬ s.Findable plainDigests) ∧
    ∃ s : Library lengthProvider,
      (library headLayout plainDigests lengthProvider fun _ => true).Reachable Any s ∧
        s.present.items.map Prod.fst = ["a.py".toList] ∧ s.store.points.map Point.path = [] ∧
        ¬ s.Findable plainDigests := by
  constructor
  · exact exists_of_run_imp (fun s => s.present.items.map Prod.fst = ["a.py".toList, "b.py".toList] ∧
        s.store.points.map Point.path = ["b.py".toList] ∧
        (s.present.get? "a.py").any (fun call => !call.regular.isEmpty) = true ∧ (held s.store "a.py").isEmpty = true)
      ⟨.new, .empty⟩ [.beginIndexing, .index (fileCall "h1" ["a"]), .index (otherCall "h1" ["a"])] rfl
        (by decide +kernel)
      fun s _ ⟨hpresent, hpaths, hcall, hheld⟩ => ⟨hpresent, hpaths, not_findable hcall hheld⟩
  · exact exists_of_run_imp (fun s => s.present.items.map Prod.fst = ["a.py".toList] ∧
      s.store.points.map Point.path = [] ∧
        (s.present.get? "a.py").any (fun call => !call.regular.isEmpty) = true ∧ (held s.store "a.py").isEmpty = true)
      ⟨.new, .empty⟩ [.beginIndexing, .index (fileCall "h1" ["a"]), .index (otherCall "h1" ["a"]),
        .deletePoints "b.py"] rfl
      (by decide +kernel) fun s _ ⟨hpresent, hpaths, hcall, hheld⟩ => ⟨hpresent, hpaths, not_findable hcall hheld⟩

end Library

end CodeIndexer.Indexing
