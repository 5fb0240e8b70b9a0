import CodeIndexer.Lib.Pager

/-!
# Reading a whole collection page by page

The two loops over `scroll_points`: `_scroll_all_content_points` (services/smart_indexer.py) and
`_fetch_all_content_points` (services/high_throughput_processor.py), and the file walk of
`scroll_points` (storage/filesystem_vector_store.py) that they page through. A page of the walk is
cut before the filter is applied, so a page can be empty although later ones are not.
-/

namespace CodeIndexer.Indexing

open Pager List

section Loops

variable {ω α : Type}

def scrollLoop [DecidableEq ω] (scroll : Pager ω α) : ℕ → Option ω → List α → Option (List α)
  | 0, _, _ => none
  | fuel + 1, offset, allPoints =>
    let (points, nextOffset) := scroll offset
    if points.isEmpty then some allPoints
    else
      let allPoints := allPoints ++ points
      -- the offset is updated before the guard compares it with the new one
      let offset := nextOffset
      if offset.isNone then some allPoints
      else if nextOffset = offset then some allPoints
      else scrollLoop scroll fuel offset allPoints

def scrollAllContentPoints [DecidableEq ω] (scroll : Pager ω α) (fuel : ℕ) : Option (List α) :=
  scrollLoop scroll fuel none []

def fetchLoop [DecidableEq ω] (scroll : Pager ω α) : ℕ → Option ω → List α → Option (List α)
  | 0, _, _ => none
  | fuel + 1, offset, allPoints =>
    let (points, nextOffset) := scroll offset
    if points.isEmpty then some allPoints
    else
      let allPoints := allPoints ++ points
      if nextOffset.isSome ∧ nextOffset = offset then some allPoints
      else
        let offset := nextOffset
        if offset.isNone then some allPoints
        else fetchLoop scroll fuel offset allPoints

def fetchAllContentPoints [DecidableEq ω] (scroll : Pager ω α) (fuel : ℕ) : Option (List α) :=
  fetchLoop scroll fuel none []

variable {scroll : Pager ω α} {o : Option ω} {pages : List (List α)}

theorem scrollAll_returns [DecidableEq ω] (scroll : Pager ω α) :
    Returns (scrollAllContentPoints scroll) (scroll none).1 := by
  refine ⟨1, fun m hm => ?_⟩
  obtain ⟨fuel, rfl⟩ : ∃ fuel, m = fuel + 1 := ⟨m - 1, by omega⟩
  rcases hs : scroll none with ⟨points, next⟩
  cases points with
  | nil | cons p points => simp [scrollAllContentPoints, scrollLoop, hs]

def untilEmpty (pages : List (List α)) : List (List α) := pages.takeWhile fun page => !page.isEmpty

theorem untilEmpty_cons (page : List α) (pages : List (List α)) :
    (untilEmpty (page :: pages)).flatten = if page.isEmpty then [] else page ++ (untilEmpty pages).flatten := by
  cases page <;> simp [untilEmpty]

theorem fetchLoop_follows [DecidableEq ω] (h : Follows scroll o pages) (acc : List α) {fuel : ℕ}
    (hfuel : pages.length ≤ fuel) :
    fetchLoop scroll fuel o acc = some (acc ++ (untilEmpty pages).flatten) := by
  induction h generalizing acc fuel with
  | @last o page he =>
    obtain ⟨fuel, rfl⟩ : ∃ n, fuel = n + 1 := ⟨fuel - 1, by simp at hfuel; omega⟩
    rw [untilEmpty_cons]
    cases page with
    | nil => simp [fetchLoop, he]
    | cons p points => simp [fetchLoop, he, untilEmpty]
  | @next o page o' pages he hrest ih =>
    obtain ⟨fuel, rfl⟩ : ∃ n, fuel = n + 1 := ⟨fuel - 1, by simp at hfuel; omega⟩
    rw [untilEmpty_cons]
    cases page with
    | nil => simp [fetchLoop, he]
    | cons p points =>
      have hstuck : some o' ≠ o := ((Follows.next he hrest).not_stuck (by rw [he])).symm
      have htail := @ih (acc ++ p :: points) fuel (by simpa using hfuel)
      simp only [fetchLoop, he, isEmpty_cons, Bool.false_eq_true, ↓reduceIte, Option.isSome_some, hstuck,
        and_false, Option.isNone_some, htail, append_assoc]

theorem fetchAll_returns [DecidableEq ω] (h : Follows scroll none pages) :
    Returns (fetchAllContentPoints scroll) (untilEmpty pages).flatten :=
  ⟨pages.length, fun _ hm => fetchLoop_follows h [] hm⟩

end Loops

/-! ### Completeness -/

section Complete

variable {ω α : Type} {scroll : Pager ω α} {pages : List (List α)} {content : List α}

theorem perm_append_self_iff {l l' content : List α} (h : (l ++ l').Perm content) : l.Perm content ↔ l' = [] := by
  constructor
  · intro hl
    have hlen := (hl.trans h.symm).length_eq
    simpa using hlen
  · rintro rfl
    simpa using h

theorem scrollAll_complete_iff [DecidableEq ω] (hf : Follows scroll none pages) (hp : pages.flatten.Perm content) :
    (∃ r, Returns (scrollAllContentPoints scroll) r ∧ r.Perm content) ↔ pages.tail.flatten = [] := by
  rw [(scrollAll_returns scroll).exists_and_iff]
  cases hf with
  | last he | next he _ => exact perm_append_self_iff (by simpa [he] using hp)

theorem untilEmpty_append (pages : List (List α)) :
    (untilEmpty pages).flatten ++ (pages.dropWhile fun page => !page.isEmpty).flatten = pages.flatten := by
  rw [← flatten_append, untilEmpty, takeWhile_append_dropWhile]

theorem fetchAll_complete_iff [DecidableEq ω] (hf : Follows scroll none pages) (hp : pages.flatten.Perm content) :
    (∃ r, Returns (fetchAllContentPoints scroll) r ∧ r.Perm content) ↔
      (pages.dropWhile fun page => !page.isEmpty).flatten = [] := by
  rw [(fetchAll_returns hf).exists_and_iff]
  exact perm_append_self_iff (by rw [untilEmpty_append]; exact hp)

theorem dropWhile_flatten_of_tail {pages : List (List α)} (h : pages.tail.flatten = []) :
    (pages.dropWhile fun page => !page.isEmpty).flatten = [] := by
  cases pages with
  | nil => rfl
  | cons page pages =>
    have hsub : (pages.dropWhile fun page => !page.isEmpty).flatten = [] := by
      rw [flatten_eq_nil_iff] at h ⊢
      exact fun l hl => h l ((dropWhile_sublist _).mem hl)
    cases page with
    | nil => simpa using h
    | cons p ps => simpa using hsub

end Complete

/-! ### The file walk of `scroll_points` -/

section Walk

variable {κ α : Type}

abbrev VectorFile (κ α : Type) := κ × Option α

def startIdx [DecidableEq κ] (allFiles : List (VectorFile κ α)) : Option κ → ℕ
  | none => 0
  | some offset =>
    match allFiles.findIdx? fun f => f.1 = offset with
    | some i => i + 1
    | none => 0

def loadPoints (filterFunc : α → Bool) (files : List (VectorFile κ α)) : List α :=
  files.filterMap fun f => f.2.filter filterFunc

theorem loadPoints_append (filterFunc : α → Bool) (l l' : List (VectorFile κ α)) :
    loadPoints filterFunc (l ++ l') = loadPoints filterFunc l ++ loadPoints filterFunc l' :=
  filterMap_append

def scrollPoints [DecidableEq κ] (filterFunc : α → Bool) (limit : ℕ) (allFiles : List (VectorFile κ α)) :
    Pager κ α := fun offset =>
  let start := startIdx allFiles offset
  let pageFiles := (allFiles.drop start).take limit
  let nextOffset :=
    if pageFiles.length = limit ∧ start + limit < allFiles.length then pageFiles.getLast?.map Prod.fst else none
  (loadPoints filterFunc pageFiles, nextOffset)

variable [DecidableEq κ] {filterFunc : α → Bool} {limit : ℕ} {allFiles : List (VectorFile κ α)}

theorem startIdx_getElem (hnd : (allFiles.map Prod.fst).Nodup) {i : ℕ} (hi : i < allFiles.length) :
    startIdx allFiles (some allFiles[i].1) = i + 1 := by
  have hfind : allFiles.findIdx? (fun f => f.1 = allFiles[i].1) = some i := by
    rw [List.findIdx?_eq_some_iff_getElem]
    refine ⟨hi, by simp, fun j hj => ?_⟩
    have hne := nodup_iff_injective_get.1 hnd
    intro heq
    have := @hne ⟨j, by simp; omega⟩ ⟨i, by simpa using hi⟩ (by simpa using heq)
    simp at this
    omega
  simp [startIdx, hfind]

theorem scrollPoints_follows_from (hlimit : 0 < limit) (hnd : (allFiles.map Prod.fst).Nodup) (offset : Option κ) :
    ∃ pages, Follows (scrollPoints filterFunc limit allFiles) offset pages ∧
      pages.flatten = loadPoints filterFunc (allFiles.drop (startIdx allFiles offset)) := by
  generalize hn : allFiles.length - startIdx allFiles offset = n
  induction n using Nat.strong_induction_on generalizing offset with
  | _ n ih =>
    set start := startIdx allFiles offset with hstart
    by_cases hmore : start + limit < allFiles.length
    · have hlen : ((allFiles.drop start).take limit).length = limit := by simp; omega
      have hlast : ((allFiles.drop start).take limit).getLast?.map Prod.fst =
          some allFiles[start + limit - 1].1 := by
        rw [List.getLast?_eq_getElem?, hlen, List.getElem?_take_of_lt (by omega), List.getElem?_drop]
        rw [show start + (limit - 1) = start + limit - 1 by omega, List.getElem?_eq_getElem (by omega)]
        rfl
      have hscroll : scrollPoints filterFunc limit allFiles offset =
          (loadPoints filterFunc ((allFiles.drop start).take limit), some allFiles[start + limit - 1].1) := by
        simp only [scrollPoints, ← hstart, hlen, hmore, and_self, ↓reduceIte, hlast]
      have hidx : startIdx allFiles (some allFiles[start + limit - 1].1) = start + limit := by
        rw [startIdx_getElem hnd]
        omega
      obtain ⟨pages, hpages, hflat⟩ := ih (allFiles.length - (start + limit)) (by omega)
        (some allFiles[start + limit - 1].1) (by rw [hidx])
      refine ⟨_ :: pages, .next hscroll hpages, ?_⟩
      rw [flatten_cons, hflat, hidx, ← loadPoints_append, ← drop_drop, take_append_drop]
    · have hscroll : scrollPoints filterFunc limit allFiles offset =
          (loadPoints filterFunc ((allFiles.drop start).take limit), none) := by
        simp only [scrollPoints, ← hstart, hmore, and_false, ↓reduceIte]
      refine ⟨_, .last hscroll, ?_⟩
      rw [flatten_singleton, take_of_length_le (by simp; omega)]

theorem scrollPoints_follows (hlimit : 0 < limit) (hnd : (allFiles.map Prod.fst).Nodup) :
    ∃ pages, Follows (scrollPoints filterFunc limit allFiles) none pages ∧
      pages.flatten = loadPoints filterFunc allFiles :=
  scrollPoints_follows_from hlimit hnd none

/-- Over the file walk, `_scroll_all_content_points` returns what the first `limit` files hold. -/
theorem scrollAll_scrollPoints (filterFunc : α → Bool) (limit : ℕ) (allFiles : List (VectorFile κ α)) :
    Returns (scrollAllContentPoints (scrollPoints filterFunc limit allFiles))
      (loadPoints filterFunc (allFiles.take limit)) :=
  scrollAll_returns _

end Walk

end CodeIndexer.Indexing
