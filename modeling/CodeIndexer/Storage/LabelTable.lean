import CodeIndexer.Storage.HnswIndex

/-!
# Searches and the label table

A writer replaces `hnsw_index.bin` and then rewrites `id_mapping` in `collection_meta.json`; a search takes an
index, from the cache or from the file, and then reads `id_mapping`. Both pairs of steps can be torn apart. A
cached index is dropped when the file's mtime is newer than the one recorded after it was loaded.

An element of an index is here the point id its vector belongs to, so that an index says itself which id a
label had in it. `Orderly` is the order of steps under which no search mixes up two builds: then every
label a search gets is translated to that id, or to none.
-/

namespace CodeIndexer.Storage.LabelTable

open PyText TransitionSystem Function Dict

variable {T : Type}

/-- The labels of an index: the point a label's vector belongs to, or nothing if it is marked as deleted. -/
abbrev Labels := Dict ℕ (Option Str)

structure Bin where
  elements : Labels
  mtime : ℕ

structure CacheEntry where
  elements : Labels
  mtime : Option ℕ

inductive Edit
  | put (id : Str)
  | drop (id : Str)

def Edit.apply (w : Working Str) : Edit → Option (Working Str)
  | .put id => w.addOrUpdateVector id id
  | .drop id => w.removeVector id

def rebuilt (ids : List Str) : Hnsw Str := Hnsw.ofPoints (ids.map fun id => (⟨id, id, [], ()⟩ : Point Str Unit))

/-- Where a writer or a search stands. A writer has loaded the index it updates, has built an index and its
table, or has done its part with the file; a search has loaded the index and not yet recorded its mtime,
has its index, or has read the table. -/
inductive Stage
  | idle
  | opened (elements : Labels)
  | built (elements : Labels) (table : Dict ℕ Str)
  | swapped (table : Dict ℕ Str)
  | loading (elements : Labels)
  | holding (elements : Labels)
  | answered (elements : Labels) (table : Dict ℕ Str)

/-- `torn` says that the file was replaced or removed and no table has been written since, by a writer
that is about to write it or that has crashed. -/
structure Index (T : Type) where
  bin : Option Bin
  table : Dict ℕ Str
  cache : Option CacheEntry
  torn : Bool
  stage : T → Stage

/-- `swap` carries the mtime of the new file. `publishEmpty` and `clearTable` are the rebuilds that find no
vectors; `search` uses no cache. -/
inductive Act (T : Type)
  | rebuild (t : T) (ids : List Str)
  | openIndex (t : T)
  | edit (t : T) (edits : List Edit)
  | swap (t : T) (mtime : ℕ)
  | publishEmpty (t : T)
  | clearTable (t : T)
  | publishTable (t : T)
  | search (t : T)
  | lookup (t : T)
  | store (t : T)
  | translate (t : T)
  | leave (t : T)
  | evict

/-- The file is newer than the cached index; not so if one of the mtimes is not known. -/
def CacheEntry.outdated (entry : CacheEntry) (bin : Option Bin) : Bool :=
  match entry.mtime, bin with
  | some m, some b => m < b.mtime
  | _, _ => false

variable [DecidableEq T]

def Index.put (s : Index T) (t : T) (stage : Stage) : Index T := { s with stage := update s.stage t stage }

def Index.step (s : Index T) : Act T → Option (Index T)
  | .rebuild t ids =>
    match s.stage t with
    | .idle => some (s.put t (.built (rebuilt ids).elements (rebuilt ids).labelToId))
    | _ => none
  | .openIndex t =>
    match s.stage t, s.bin with
    | .idle, some b => some (s.put t (.opened b.elements))
    | _, _ => none
  | .edit t edits =>
    match s.stage t with
    | .opened elements =>
      let w := (⟨elements, s.table⟩ : Hnsw Str).loadForIncrementalUpdate
      match edits.foldlM Edit.apply w with
      | none => some (s.put t .idle)
      | some w => some (s.put t (.built w.elements w.labelToId))
    | _ => none
  | .swap t mtime =>
    match s.stage t with
    | .built elements table => some { s.put t (.swapped table) with bin := some ⟨elements, mtime⟩, torn := true }
    | _ => none
  | .publishEmpty t =>
    match s.stage t with
    | .idle => some { s.put t (.swapped .empty) with bin := none, torn := true }
    | _ => none
  | .clearTable t =>
    match s.stage t with
    | .idle => some (s.put t (.swapped .empty))
    | _ => none
  | .publishTable t =>
    match s.stage t with
    | .swapped table => some { s.put t .idle with table := table, torn := false }
    | _ => none
  | .search t =>
    match s.stage t, s.bin with
    | .idle, some b => some (s.put t (.holding b.elements))
    | _, _ => none
  | .lookup t =>
    match s.stage t with
    | .idle =>
      match s.cache.filter fun entry => !entry.outdated s.bin with
      | some entry => some (s.put t (.holding entry.elements))
      | none => s.bin.map fun b => { s.put t (.loading b.elements) with cache := none }
    | _ => none
  | .store t =>
    match s.stage t with
    | .loading elements =>
      some { s.put t (.holding elements) with cache := some ⟨elements, s.bin.map Bin.mtime⟩ }
    | _ => none
  | .translate t =>
    match s.stage t with
    | .holding elements => some (s.put t (.answered elements s.table))
    | _ => none
  | .leave t => some (s.put t .idle)
  | .evict => some { s with cache := none }

def Agrees (elements : Labels) (table : Dict ℕ Str) : Prop :=
  ∀ label x, elements.get? label = some (some x) → table.get? label = none ∨ table.get? label = some x

def Fits : Option Bin → Dict ℕ Str → Prop
  | some b, table => Agrees b.elements table
  | none, table => ∀ label, table.get? label = none

def index : TransitionSystem (Index T) (Act T) where
  init s := s.torn = false ∧ Fits s.bin s.table ∧ s.cache = none ∧ ∀ t, s.stage t = .idle
  step := Index.step

/-! ### Order -/

namespace Stage

def writes : Stage → Bool
  | .opened _ | .built .. | .swapped _ => true
  | _ => false

def loads : Stage → Bool
  | .loading _ => true
  | _ => false

def searches : Stage → Bool
  | .loading _ | .holding _ => true
  | _ => false

end Stage

/-- Writers come one after the other, and an incremental update does not start on a torn index; the file is
replaced or removed while no search is loading it, and gets an mtime above the cached one; the table is
written while no search has its index; a search takes its index while nothing is torn. -/
def Orderly (s : Index T) : Act T → Prop
  | .rebuild .. | .clearTable _ => ∀ t, (s.stage t).writes = false
  | .openIndex _ => (∀ t, (s.stage t).writes = false) ∧ s.torn = false
  | .swap _ mtime => (∀ t, (s.stage t).loads = false) ∧ ∀ entry ∈ s.cache, ∀ m ∈ entry.mtime, m < mtime
  | .publishEmpty _ => (∀ t, (s.stage t).writes = false) ∧ ∀ t, (s.stage t).loads = false
  | .publishTable _ => ∀ t, (s.stage t).searches = false
  | .search _ | .lookup _ => s.torn = false
  | .edit .. | .store _ | .translate _ | .leave _ | .evict => True

instance [Fintype T] (s : Index T) : (a : Act T) → Decidable (Orderly s a)
  | .rebuild .. | .clearTable _ => inferInstanceAs (Decidable (∀ t, (s.stage t).writes = false))
  | .openIndex _ => inferInstanceAs (Decidable ((∀ t, (s.stage t).writes = false) ∧ s.torn = false))
  | .swap _ mtime => inferInstanceAs (Decidable ((∀ t, (s.stage t).loads = false) ∧
      ∀ entry ∈ s.cache, ∀ m ∈ entry.mtime, m < mtime))
  | .publishEmpty _ => inferInstanceAs (Decidable ((∀ t, (s.stage t).writes = false) ∧ ∀ t, (s.stage t).loads = false))
  | .publishTable _ => inferInstanceAs (Decidable (∀ t, (s.stage t).searches = false))
  | .search _ | .lookup _ => inferInstanceAs (Decidable (s.torn = false))
  | .edit .. | .store _ | .translate _ | .leave _ | .evict => .isTrue trivial

/-! ### What the writers build -/

/-- The table of an update in progress agrees with its elements; an id's label has the id, and labels are
below the next one. -/
structure Sound (w : Working Str) : Prop where
  agrees : Agrees w.elements w.labelToId
  back : ∀ id label, w.idToLabel.get? id = some label → w.labelToId.get? label = some id
  below : ∀ label id, w.labelToId.get? label = some id → label < w.nextLabel

omit [DecidableEq T] in
theorem reverseMapping_back (table : Dict ℕ Str) (id : Str) (label : ℕ)
    (h : (reverseMapping table).get? id = some label) : table.get? label = some id := by
  obtain ⟨e, he, rfl, rfl⟩ := exists_of_get?_foldl_set h
  exact mem_items_iff.1 he

namespace Sound

variable {w w' : Working Str}

variable {table : Dict ℕ Str} {elements : Labels}

theorem load (h : Agrees elements table) :
    Sound (⟨elements, table⟩ : Hnsw Str).loadForIncrementalUpdate where
  agrees := h
  back := reverseMapping_back table
  below label id hl := (lt_foldl_max _ 0).2 (label, id) (mem_items_iff.2 hl)

theorem agrees_set (h : Agrees elements table) (label : ℕ) (id : Str) :
    Agrees (elements.set label (some id)) (table.set label id) := by
  intro l x hx
  rw [get?_set] at hx ⊢
  split at hx
  · rename_i hl
    rw [if_pos hl, Option.some.inj hx]
    exact .inr rfl
  · rename_i hl
    rw [if_neg hl]
    exact h l x hx

theorem agrees_markDeleted (h : Agrees elements table) (label : ℕ) : Agrees (elements.set label none) table := by
  intro l x hx
  rw [get?_set] at hx
  split at hx
  · cases Option.some.inj hx
  · exact h l x hx

theorem addOrUpdateVector (h : Sound w) {id : Str} (hw : w.addOrUpdateVector id id = some w') : Sound w' := by
  cases hlabel : w.idToLabel.get? id with
  | some label =>
    simp only [Working.addOrUpdateVector, hlabel, Working.markDeleted, Option.map_map,
      Option.map_eq_some_iff] at hw
    obtain ⟨_, -, rfl⟩ := hw
    refine ⟨fun l x hx => ?_, h.back, h.below⟩
    simp only [Function.comp_apply, get?_set] at hx
    split at hx
    · rename_i hl
      rw [← Option.some.inj (Option.some.inj hx), hl]
      exact .inr (h.back id label hlabel)
    · exact h.agrees l x hx
  | none =>
    simp only [Working.addOrUpdateVector, hlabel] at hw
    cases hw
    refine ⟨agrees_set h.agrees w.nextLabel id, fun id' label hid => ?_, fun label id' hl => ?_⟩
    · dsimp only at hid ⊢
      rw [get?_set] at hid ⊢
      split at hid
      · rename_i heq
        rw [if_pos (Option.some.inj hid).symm, heq]
      · have hback := h.back id' label hid
        rw [if_neg (h.below label id' hback).ne]
        exact hback
    · dsimp only at hl ⊢
      rw [get?_set] at hl
      split at hl
      · omega
      · have := h.below label id' hl
        omega

theorem removeVector (h : Sound w) {id : Str} (hw : w.removeVector id = some w') : Sound w' := by
  cases hlabel : w.idToLabel.get? id with
  | none =>
    simp only [Working.removeVector, hlabel] at hw
    cases hw
    exact h
  | some label =>
    simp only [Working.removeVector, hlabel, Working.markDeleted, Option.map_map, Option.map_eq_some_iff] at hw
    obtain ⟨_, -, rfl⟩ := hw
    refine ⟨fun l x hx => ?_, fun id' l hid => ?_, fun l x hl => h.below l x (get?_erase_eq_some.1 hl).2⟩
    · rcases agrees_markDeleted h.agrees label l x hx with hnone | hsome
      · exact .inl (by rw [Function.comp_apply, get?_erase, hnone, ite_self])
      · by_cases hl : l = label
        · exact .inl (by rw [Function.comp_apply, get?_erase, if_pos hl])
        · exact .inr (by rw [Function.comp_apply, get?_erase, if_neg hl, hsome])
    · obtain ⟨hne, hid⟩ := get?_erase_eq_some.1 hid
      have hback := h.back id' l hid
      refine get?_erase_eq_some.2 ⟨?_, hback⟩
      rintro rfl
      exact hne (Option.mem_unique hback (h.back id l hlabel))

theorem foldlM_apply (edits : List Edit) (h : Sound w) (hw : edits.foldlM Edit.apply w = some w') : Sound w' := by
  induction edits generalizing w with
  | nil =>
    cases hw
    exact h
  | cons e edits ih =>
    obtain ⟨w₁, hw₁, hw⟩ := Option.bind_eq_some_iff.1 hw
    refine ih ?_ hw
    cases e with
    | put id => exact h.addOrUpdateVector hw₁
    | drop id => exact h.removeVector hw₁

end Sound

omit [DecidableEq T] in
theorem agrees_rebuilt (ids : List Str) : Agrees (rebuilt ids).elements (rebuilt ids).labelToId := by
  intro label x hx
  rw [rebuilt, (Hnsw.get?_ofPoints _ label).1] at hx
  rw [rebuilt, (Hnsw.get?_ofPoints _ label).2]
  obtain ⟨p, hp, hpx⟩ := Option.map_eq_some_iff.1 hx
  rw [hp]
  rw [List.getElem?_map, Option.map_eq_some_iff] at hp
  obtain ⟨id, -, rfl⟩ := hp
  exact .inr hpx

/-! ### The invariant -/

/-- What a writer or a search may rely on where it stands. -/
def StageOk (s : Index T) : Stage → Prop
  | .idle => True
  | .opened elements => s.torn = false ∧ ∃ b, s.bin = some b ∧ b.elements = elements
  | .built elements table => Agrees elements table
  | .swapped table => Fits s.bin table
  | .loading elements => Agrees elements s.table ∧ ∃ b, s.bin = some b ∧ b.elements = elements
  | .holding elements => Agrees elements s.table
  | .answered elements table => Agrees elements table

def CacheOk (s : Index T) : Prop :=
  ∀ entry, s.cache = some entry →
    ∃ m, entry.mtime = some m ∧ ∀ b, s.bin = some b → b.mtime ≤ m → entry.elements = b.elements

structure Inv (s : Index T) : Prop where
  settled : s.torn = false → Fits s.bin s.table
  one : ∀ t t', (s.stage t).writes = true → (s.stage t').writes = true → t = t'
  stages : ∀ t, StageOk s (s.stage t)
  cached : CacheOk s

omit [DecidableEq T] in
theorem fits_empty (bin : Option Bin) : Fits bin .empty := by
  cases bin with
  | none => exact fun label => rfl
  | some b => exact fun label x _ => .inl rfl

namespace Inv

variable {s s' : Index T} {t : T} {stage : Stage}

omit [DecidableEq T] in
theorem agrees_bin (h : Inv s) (htorn : s.torn = false) {b : Bin} (hb : s.bin = some b) :
    Agrees b.elements s.table := by
  have hfits := h.settled htorn
  rwa [hb] at hfits

omit [DecidableEq T] in
theorem agrees_cached (h : Inv s) (htorn : s.torn = false) {entry : CacheEntry} (hentry : s.cache = some entry)
    (hfresh : entry.outdated s.bin = false) : Agrees entry.elements s.table := by
  obtain ⟨m, hm, hsame⟩ := h.cached entry hentry
  cases hb : s.bin with
  | none =>
    have hnone := h.settled htorn
    rw [hb] at hnone
    exact fun label x _ => .inl (hnone label)
  | some b =>
    simp only [CacheEntry.outdated, hm, hb, decide_eq_false_iff_not, Nat.not_lt] at hfresh
    rw [hsame b hb hfresh]
    exact h.agrees_bin htorn hb

/-- A step of `t`: what it leaves of the file, the table and the cache is in order, it does not become a second
writer, and the others can still rely on what they did. -/
theorem of_step (h : Inv s) (hs : s'.stage = update s.stage t stage)
    (hsettled : s'.torn = false → Fits s'.bin s'.table) (hcached : CacheOk s')
    (hone : stage.writes = true → ∀ t', t' ≠ t → (s.stage t').writes = false) (hstage : StageOk s' stage)
    (hothers : ∀ t', t' ≠ t → StageOk s (s.stage t') → StageOk s' (s.stage t')) : Inv s' := by
  have hself : s'.stage t = stage := by rw [hs, update_self]
  have hother : ∀ t', t' ≠ t → s'.stage t' = s.stage t' := fun t' ht => by rw [hs, update_of_ne ht]
  refine ⟨hsettled, fun t₁ t₂ h₁ h₂ => ?_, fun t' => ?_, hcached⟩
  · by_cases ht₁ : t₁ = t <;> by_cases ht₂ : t₂ = t
    · rw [ht₁, ht₂]
    · rw [ht₁, hself] at h₁
      rw [hother t₂ ht₂, hone h₁ t₂ ht₂] at h₂
      cases h₂
    · rw [ht₂, hself] at h₂
      rw [hother t₁ ht₁, hone h₂ t₁ ht₁] at h₁
      cases h₁
    · rw [hother t₁ ht₁] at h₁
      rw [hother t₂ ht₂] at h₂
      exact h.one t₁ t₂ h₁ h₂
  · by_cases ht : t' = t
    · rw [ht, hself]
      exact hstage
    · rw [hother t' ht]
      exact hothers t' ht (h.stages t')

theorem put (h : Inv s) (hone : stage.writes = true → ∀ t', t' ≠ t → (s.stage t').writes = false)
    (hstage : StageOk s stage) : Inv (s.put t stage) :=
  h.of_step rfl h.settled h.cached hone hstage fun _ _ hok => hok

omit [DecidableEq T] in
theorem alone (h : Inv s) (ht : (s.stage t).writes = true) : ∀ t', t' ≠ t → (s.stage t').writes = false :=
  fun t' hne => Bool.eq_false_iff.2 fun hw => hne (h.one t' t hw ht)

variable {table : Dict ℕ Str} {elements : Labels}

theorem replace (h : Inv s) {bin : Option Bin} (hfits : Fits bin table)
    (hloads : ∀ t', (s.stage t').loads = false) (hone : ∀ t', t' ≠ t → (s.stage t').writes = false)
    (hnewer : ∀ entry, s.cache = some entry → ∀ m, entry.mtime = some m → ∀ b, bin = some b → m < b.mtime) :
    Inv { s.put t (.swapped table) with bin := bin, torn := true } := by
  refine h.of_step rfl nofun (fun entry hentry => ?_) (fun _ => hone) hfits fun t' ht hok => ?_
  · obtain ⟨m, hm, -⟩ := h.cached entry hentry
    exact ⟨m, hm, fun b hb hle => absurd (hnewer entry hentry m hm b hb) (Nat.not_lt.2 hle)⟩
  · have hnowrite := hone t' ht
    have hnoload := hloads t'
    cases hst : s.stage t' with
    | opened e | swapped tbl => rw [hst] at hnowrite; cases hnowrite
    | loading e => rw [hst] at hnoload; cases hnoload
    | idle => trivial
    | built e tbl | holding e | answered e tbl => rwa [hst] at hok

theorem publish (h : Inv s) (hst : s.stage t = .swapped table)
    (hsearches : ∀ t', (s.stage t').searches = false) :
    Inv { s.put t .idle with table := table, torn := false } := by
  have hfits : Fits s.bin table := by
    have hok := h.stages t
    rwa [hst] at hok
  refine h.of_step rfl (fun _ => hfits) h.cached nofun trivial fun t' ht hok => ?_
  have hnowrite := h.alone (t := t) (by rw [hst]; rfl) t' ht
  have hnosearch := hsearches t'
  cases hst' : s.stage t' with
  | opened e | swapped tbl => rw [hst'] at hnowrite; cases hnowrite
  | loading e | holding e => rw [hst'] at hnosearch; cases hnosearch
  | idle => trivial
  | built e tbl | answered e tbl => rwa [hst'] at hok

theorem lookup (h : Inv s) (htorn : s.torn = false)
    (hs : (match s.cache.filter fun entry => !entry.outdated s.bin with
      | some entry => some (s.put t (.holding entry.elements))
      | none => s.bin.map fun b => { s.put t (.loading b.elements) with cache := none }) = some s') : Inv s' := by
  split at hs
  · rename_i entry hentry
    cases hs
    obtain ⟨hentry, hfresh⟩ := Option.filter_eq_some_iff.1 hentry
    exact h.put nofun (h.agrees_cached htorn hentry (Bool.not_eq_true' _ ▸ hfresh))
  · obtain ⟨b, hb, rfl⟩ := Option.map_eq_some_iff.1 hs
    exact h.of_step rfl h.settled nofun nofun ⟨h.agrees_bin htorn hb, b, hb, rfl⟩ fun _ _ hok => hok

theorem store (h : Inv s) (hst : s.stage t = .loading elements) :
    Inv { s.put t (.holding elements) with cache := some ⟨elements, s.bin.map Bin.mtime⟩ } := by
  have hok := h.stages t
  rw [hst] at hok
  obtain ⟨hagrees, b, hb, rfl⟩ := hok
  refine h.of_step rfl h.settled ?_ nofun hagrees fun _ _ hok => hok
  rintro entry ⟨⟩
  refine ⟨b.mtime, by rw [hb]; rfl, fun b' hb' _ => ?_⟩
  rw [Option.mem_unique hb hb']

theorem edit (h : Inv s) (hst : s.stage t = .opened elements) (edits : List Edit)
    (hs : (match edits.foldlM Edit.apply (⟨elements, s.table⟩ : Hnsw Str).loadForIncrementalUpdate with
      | none => some (s.put t .idle)
      | some w => some (s.put t (.built w.elements w.labelToId))) = some s') : Inv s' := by
  have hok := h.stages t
  rw [hst] at hok
  obtain ⟨htorn, b, hb, rfl⟩ := hok
  split at hs
  · cases hs
    exact h.put nofun trivial
  · rename_i w hw
    cases hs
    refine h.put (fun _ => h.alone (by rw [hst]; rfl)) ?_
    exact ((Sound.load (h.agrees_bin htorn hb)).foldlM_apply edits hw).agrees

theorem step (h : Inv s) {a : Act T} (horder : Orderly s a) (hs : s.step a = some s') : Inv s' := by
  cases a <;> simp only [Index.step] at hs
  case rebuild t ids =>
    split at hs <;> cases hs
    exact h.put (fun _ t' _ => horder t') (agrees_rebuilt ids)
  case openIndex t =>
    split at hs
    · rename_i b _ hb
      cases hs
      exact h.put (fun _ t' _ => horder.1 t') ⟨horder.2, b, hb, rfl⟩
    · cases hs
  case edit t edits =>
    split at hs
    · rename_i elements hst
      exact h.edit hst edits hs
    · cases hs
  case swap t mtime =>
    split at hs
    · rename_i elements table hst
      cases hs
      have hok := h.stages t
      rw [hst] at hok
      refine h.replace hok horder.1 (h.alone (by rw [hst]; rfl)) fun entry hentry m hm b hb => ?_
      rw [← Option.some.inj hb]
      exact horder.2 entry hentry m hm
    · cases hs
  case publishEmpty t =>
    split at hs <;> cases hs
    exact h.replace (fits_empty none) horder.2 (fun t' _ => horder.1 t') nofun
  case clearTable t =>
    split at hs <;> cases hs
    exact h.put (fun _ t' _ => horder t') (fits_empty s.bin)
  case publishTable t =>
    split at hs
    · rename_i table hst
      cases hs
      exact h.publish hst horder
    · cases hs
  case search t =>
    split at hs
    · rename_i b _ hb
      cases hs
      exact h.put nofun (h.agrees_bin horder hb)
    · cases hs
  case lookup t =>
    split at hs
    · exact h.lookup horder hs
    · cases hs
  case store t =>
    split at hs
    · rename_i elements hst
      cases hs
      exact h.store hst
    · cases hs
  case translate t =>
    split at hs
    · rename_i elements hst
      cases hs
      have hok := h.stages t
      rw [hst] at hok
      exact h.put nofun hok
    · cases hs
  case leave t =>
    cases hs
    exact h.put nofun trivial
  case evict =>
    cases hs
    exact ⟨h.settled, h.one, h.stages, nofun⟩

end Inv

/-- A search that has read the table has for every live label of its index the id the label has in that index,
or none. -/
theorem labels_translated {s : Index T} (h : index.Reachable Orderly s) {t : T} {elements : Labels}
    {table : Dict ℕ Str} (ht : s.stage t = .answered elements table) {label : ℕ} {x : Str}
    (hlabel : elements.get? label = some (some x)) : table.get? label = none ∨ table.get? label = some x := by
  have hinv : Inv s := by
    refine h.invariant ?_ fun s a s' hinv horder hs => hinv.step horder hs
    rintro s ⟨-, hfits, hcache, hidle⟩
    refine ⟨fun _ => hfits, fun t t' hw => ?_, fun t => ?_, fun entry hentry => ?_⟩
    · rw [hidle t] at hw
      cases hw
    · rw [hidle t]
      trivial
    · rw [hcache] at hentry
      cases hentry
  have hok := hinv.stages t
  rw [ht] at hok
  exact hok label x hlabel

def start : Index Bool := ⟨some ⟨(rebuilt ["p1"]).elements, 0⟩, (rebuilt ["p1"]).labelToId, none, false,
  fun _ => .idle⟩

theorem index_init_start : index.init start := ⟨rfl, agrees_rebuilt _, rfl, fun _ => rfl⟩

/-- What a search has for a label: its element in the index, and its entry in the table. -/
def Stage.answer (label : ℕ) : Stage → Option (Option (Option Str) × Option Str)
  | .answered elements table => some (elements.get? label, table.get? label)
  | _ => none

omit [DecidableEq T] in
theorem Stage.exists_of_answer {label : ℕ} {stage : Stage} {x y : Str}
    (h : stage.answer label = some (some (some x), some y)) : ∃ elements table,
      stage = .answered elements table ∧ elements.get? label = some (some x) ∧ table.get? label = some y := by
  cases stage with
  | answered elements table =>
    obtain ⟨hx, hy⟩ := Prod.mk.inj (Option.some.inj h)
    exact ⟨elements, table, rfl, hx, hy⟩
  | _ => cases h

/-- A search with its index from the cache reads the table after a writer has replaced the file and before it
writes the table; the next search loads the new file. -/
theorem labels_translated_around_update :
    ∃ (s : Index Bool) (elements : Labels) (table : Dict ℕ Str), index.Reachable Orderly s ∧
      s.stage true = .answered elements table ∧ elements.get? 1 = some (some "p2".toList) ∧
      (table.get? 1 = none ∨ table.get? 1 = some "p2".toList) := by
  obtain ⟨s, hreach, hanswer⟩ := exists_of_run_mem (C := Orderly)
    (P := fun s => (s.stage true).answer 1 = some (some (some "p2".toList), some "p2".toList)) start
    [.lookup true, .store true, .openIndex false, .edit false [.put "p2", .drop "p1"], .swap false 1, .translate true,
     .publishTable false, .leave true, .lookup true, .store true, .translate true] index_init_start (by decide +kernel)
  obtain ⟨elements, table, hst, hx, -⟩ := Stage.exists_of_answer hanswer
  exact ⟨s, elements, table, hreach, hst, hx, labels_translated hreach hst hx⟩

/-- A search takes its index before a rebuild and reads the table after it; and a search after a writer that
crashed between the file and the table. In both the label 0 gets the other point's id. -/
theorem labels_translated_with_other_table :
    (∃ (s : Index Bool) (elements : Labels) (table : Dict ℕ Str), index.Reachable Any s ∧
      s.stage true = .answered elements table ∧ elements.get? 0 = some (some "p1".toList) ∧
      table.get? 0 = some "p2".toList) ∧
    ∃ (s : Index Bool) (elements : Labels) (table : Dict ℕ Str), index.Reachable Any s ∧
      s.stage true = .answered elements table ∧ elements.get? 0 = some (some "p2".toList) ∧
      table.get? 0 = some "p1".toList := by
  constructor
  · obtain ⟨s, hreach, hanswer⟩ := exists_of_run_mem (C := Any)
      (P := fun s => (s.stage true).answer 0 = some (some (some "p1".toList), some "p2".toList)) start
      [.search true, .rebuild false ["p2"], .swap false 1, .publishTable false, .translate true] index_init_start
      (by decide +kernel)
    obtain ⟨elements, table, hst⟩ := Stage.exists_of_answer hanswer
    exact ⟨s, elements, table, hreach, hst⟩
  · obtain ⟨s, hreach, hanswer⟩ := exists_of_run_mem (C := Any)
      (P := fun s => (s.stage true).answer 0 = some (some (some "p2".toList), some "p1".toList)) start
      [.rebuild false ["p2"], .swap false 1, .leave false, .search true, .translate true] index_init_start
      (by decide +kernel)
    obtain ⟨elements, table, hst⟩ := Stage.exists_of_answer hanswer
    exact ⟨s, elements, table, hreach, hst⟩

end CodeIndexer.Storage.LabelTable
