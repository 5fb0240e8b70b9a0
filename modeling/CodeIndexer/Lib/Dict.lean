import Mathlib

/-!
# Insertion-ordered dictionaries

A Python `dict` is its items in insertion order, with pairwise different keys. Assigning to a key
that is there keeps its position.
-/

@[ext] structure Dict (κ α : Type*) where
  items : List (κ × α)
  nodup : (items.map Prod.fst).Nodup

namespace Dict

open List

variable {κ α : Type*} [DecidableEq κ]

instance [DecidableEq α] : DecidableEq (Dict κ α) := fun d e =>
  decidable_of_iff (d.items = e.items) Dict.ext_iff.symm

def setItems (k : κ) (a : α) : List (κ × α) → List (κ × α)
  | [] => [(k, a)]
  | (k', a') :: l => if k' = k then (k, a) :: l else (k', a') :: setItems k a l

variable {l : List (κ × α)} {k k' : κ} {d : Dict κ α} {a b : α} {e : κ × α} {p : κ × α → Bool}

theorem setItems_of_not_mem (a : α) (hk : k ∉ l.map Prod.fst) : setItems k a l = l ++ [(k, a)] := by
  induction l with
  | nil => rfl
  | cons e l ih =>
    rw [map_cons, mem_cons, not_or] at hk
    rw [setItems, if_neg (Ne.symm hk.1), ih hk.2]
    rfl

theorem setItems_keys_of_mem (a : α) (hk : k ∈ l.map Prod.fst) : (setItems k a l).map Prod.fst = l.map Prod.fst := by
  induction l with
  | nil => cases hk
  | cons e l ih =>
    by_cases h : e.1 = k
    · simp [setItems, h]
    · rw [setItems, if_neg h, map_cons, map_cons, ih]
      exact (mem_cons.1 hk).resolve_left (Ne.symm h)

def empty : Dict κ α := ⟨[], nodup_nil⟩

/-- `d[k] = a`. -/
def set (d : Dict κ α) (k : κ) (a : α) : Dict κ α where
  items := setItems k a d.items
  nodup := by
    by_cases hk : k ∈ d.items.map Prod.fst
    · rw [setItems_keys_of_mem a hk]
      exact d.nodup
    · rw [setItems_of_not_mem a hk, map_append]
      refine nodup_append.2 ⟨d.nodup, nodup_singleton k, ?_⟩
      intro k₁ h₁ k₂ h₂ h
      have hk₂ : k₂ = k := mem_singleton.1 h₂
      exact hk (hk₂ ▸ h ▸ h₁)

theorem set_items_of_not_mem (a : α) (hk : k ∉ d.items.map Prod.fst) :
    (d.set k a).items = d.items ++ [(k, a)] := setItems_of_not_mem a hk

theorem mem_setItems (h : e ∈ setItems k a l) : e = (k, a) ∨ e ∈ l := by
  induction l with
  | nil => exact .inl (mem_singleton.1 h)
  | cons e' l ih =>
    unfold setItems at h
    split at h
    · rcases mem_cons.1 h with h | h
      · exact .inl h
      · exact .inr (mem_cons_of_mem _ h)
    · rcases mem_cons.1 h with h | h
      · exact .inr (h ▸ mem_cons_self)
      · exact (ih h).imp_right (mem_cons_of_mem _)

def get? (d : Dict κ α) (k : κ) : Option α := (d.items.find? fun e => e.1 = k).map Prod.snd

theorem get?_eq_none_iff : d.get? k = none ↔ k ∉ d.items.map Prod.fst := by
  rw [get?, Option.map_eq_none_iff, List.find?_eq_none]
  constructor
  · intro h hk
    obtain ⟨e, he, rfl⟩ := mem_map.1 hk
    exact h e he (decide_eq_true rfl)
  · intro hk e he h
    exact hk (mem_map.2 ⟨e, he, of_decide_eq_true h⟩)

/-- Whatever `d'` has under the key, `d` had it or it is excluded. -/
theorem get?_eq_none_of_imp {d' : Dict κ α} {P : α → Prop} (hnone : d.get? k = none)
    (h : ∀ a, d'.get? k = some a → d.get? k = some a ∨ P a) (hP : ∀ a, ¬P a) : d'.get? k = none := by
  refine Option.eq_none_iff_forall_ne_some.2 fun a ha => ?_
  rcases h a ha with hold | hnew
  · rw [hnone] at hold
    cases hold
  · exact hP a hnew

theorem find?_setItems (k : κ) (a : α) (l : List (κ × α)) (k' : κ) :
    ((setItems k a l).find? fun e => e.1 = k') =
      if k' = k then some (k, a) else l.find? fun e => e.1 = k' := by
  induction l with
  | nil =>
    by_cases h : k' = k
    · simp [setItems, h]
    · simp [setItems, h, Ne.symm h]
  | cons e l ih =>
    by_cases he : e.1 = k
    · by_cases h : k' = k
      · simp [setItems, he, h]
      · simp [setItems, he, h, Ne.symm h]
    · by_cases h' : e.1 = k'
      · have hne : k' ≠ k := fun h => he (h'.trans h)
        rw [setItems, if_neg he, if_neg hne, List.find?_cons_of_pos (by simpa using h'),
          List.find?_cons_of_pos (by simpa using h')]
      · simp only [setItems, if_neg he, List.find?_cons, decide_eq_false h', ih]

theorem get?_set (d : Dict κ α) (k : κ) (a : α) (k' : κ) :
    (d.set k a).get? k' = if k' = k then some a else d.get? k' := by
  rw [get?, set, find?_setItems]
  split <;> rfl

theorem get?_set_self (d : Dict κ α) (k : κ) (a : α) : (d.set k a).get? k = some a := by
  rw [get?_set, if_pos rfl]

theorem get?_set_of_ne (d : Dict κ α) (a : α) (h : k' ≠ k) : (d.set k a).get? k' = d.get? k' := by
  rw [get?_set, if_neg h]

theorem get?_empty (k : κ) : (empty : Dict κ α).get? k = none := rfl

theorem mem_items_iff : (k, a) ∈ d.items ↔ d.get? k = some a := by
  rw [get?, Option.map_eq_some_iff]
  constructor
  · intro h
    refine ⟨(k, a), ?_, rfl⟩
    -- The first item with the key is the only one.
    cases hfind : d.items.find? fun e => e.1 = k with
    | none => exact absurd (decide_eq_true rfl) (List.find?_eq_none.1 hfind _ h)
    | some e =>
      have hkey : e.1 = k := of_decide_eq_true (List.find?_some hfind :)
      rw [inj_on_of_nodup_map d.nodup (mem_of_find?_eq_some hfind) h hkey]
  · rintro ⟨e, he, rfl⟩
    obtain rfl : e.1 = k := of_decide_eq_true (List.find?_some he :)
    exact mem_of_find?_eq_some he

theorem items_eq_nil_of_get? (h : ∀ k, d.get? k = none) : d.items = [] := by
  refine eq_nil_iff_forall_not_mem.2 fun e he => ?_
  have hget : d.get? e.1 = some e.2 := mem_items_iff.1 he
  rw [h] at hget
  cases hget

/-- `del d[k]`, or nothing if the key is not there. -/
def erase (d : Dict κ α) (k : κ) : Dict κ α where
  items := d.items.filter fun e => e.1 ≠ k
  nodup := d.nodup.sublist (filter_sublist.map _)

theorem get?_erase (d : Dict κ α) (k k' : κ) : (d.erase k).get? k' = if k' = k then none else d.get? k' := by
  by_cases h : k' = k
  · subst h
    rw [if_pos rfl, get?_eq_none_iff]
    simp [erase]
  · rw [if_neg h]
    refine Option.ext fun a => ?_
    rw [← Option.mem_def, ← Option.mem_def, Option.mem_def, Option.mem_def, ← mem_items_iff, ← mem_items_iff]
    simp [erase, h]

theorem get?_erase_of_ne (d : Dict κ α) (h : k' ≠ k) : (d.erase k).get? k' = d.get? k' := by
  rw [get?_erase, if_neg h]

theorem get?_erase_eq_some : (d.erase k).get? k' = some a ↔ k' ≠ k ∧ d.get? k' = some a := by
  rw [get?_erase]
  split
  · rename_i h
    simp [h]
  · rename_i h
    simp [h]

theorem get?_foldl_erase_eq_some {ks : List κ} : (ks.foldl erase d).get? k = some a ↔ k ∉ ks ∧ d.get? k = some a := by
  induction ks generalizing d with
  | nil => simp
  | cons k' ks ih =>
    rw [foldl_cons, ih, get?_erase_eq_some, mem_cons, not_or]
    tauto

theorem mem_foldl_erase_filter :
    e ∈ (((d.items.filter p).map Prod.fst).foldl erase d).items ↔ e ∈ d.items ∧ p e = false := by
  have hkey : e ∈ d.items → (e.1 ∈ (d.items.filter p).map Prod.fst ↔ p e = true) := by
    intro he
    refine ⟨fun hmem => ?_, fun hp => mem_map.2 ⟨e, mem_filter.2 ⟨he, hp⟩, rfl⟩⟩
    obtain ⟨e', he', heq⟩ := mem_map.1 hmem
    rw [inj_on_of_nodup_map d.nodup he (mem_filter.1 he').1 heq.symm]
    exact (mem_filter.1 he').2
  rw [mem_items_iff, get?_foldl_erase_eq_some, ← mem_items_iff, and_comm]
  refine and_congr_right fun he => ?_
  rw [hkey he, Bool.not_eq_true]

theorem countP_items_set_of_none (h : d.get? k = none) (a : α) (p : κ × α → Bool) :
    (d.set k a).items.countP p = d.items.countP p + if p (k, a) then 1 else 0 := by
  rw [set_items_of_not_mem a (get?_eq_none_iff.1 h), countP_append, countP_singleton]

omit [DecidableEq κ] in
theorem filter_items_eq_singleton (hmem : e ∈ d.items)
    (hp : p e = true) (hone : ∀ e' ∈ d.items, p e' = true → e' = e) : d.items.filter p = [e] := by
  have hnodup : (d.items.filter p).Nodup := (List.Nodup.of_map Prod.fst d.nodup).filter p
  have hin : e ∈ d.items.filter p := mem_filter.2 ⟨hmem, hp⟩
  have hall : ∀ e' ∈ d.items.filter p, e' = e := fun e' he' => hone e' (mem_filter.1 he').1 (mem_filter.1 he').2
  cases hl : d.items.filter p with
  | nil =>
    rw [hl] at hin
    cases hin
  | cons e₁ l =>
    rw [hl] at hnodup hall
    obtain rfl := hall e₁ mem_cons_self
    have hnil : l = [] := by
      refine eq_nil_iff_forall_not_mem.2 fun e₂ he₂ => (nodup_cons.1 hnodup).1 ?_
      exact hall e₂ (mem_cons_of_mem _ he₂) ▸ he₂
    rw [hnil]

theorem perm_items_erase (h : d.get? k = some a) : d.items.Perm ((k, a) :: (d.erase k).items) := by
  have hone : (d.items.filter fun e => !decide (e.1 ≠ k)) = [(k, a)] := by
    refine filter_items_eq_singleton (mem_items_iff.2 h) (by simp) fun e he hkey => ?_
    exact inj_on_of_nodup_map d.nodup he (mem_items_iff.2 h) (by simpa using hkey)
  have hperm := filter_append_perm (fun e : κ × α => decide (e.1 ≠ k)) d.items
  rw [hone] at hperm
  exact hperm.symm.trans perm_append_comm

theorem perm_items_set (d : Dict κ α) (k : κ) (a : α) : (d.set k a).items.Perm ((k, a) :: (d.erase k).items) := by
  have hrest : ∀ l : List (κ × α), ((setItems k a l).filter fun e => decide (e.1 ≠ k)) =
      l.filter fun e => decide (e.1 ≠ k) := by
    intro l
    induction l with
    | nil => simp [setItems]
    | cons e l ih =>
      rw [setItems]
      split
      · rename_i heq
        simp [heq]
      · rename_i hne
        simp only [filter_cons, hne, ne_eq, not_false_eq_true, decide_true, if_true, ih]
  have hperm := perm_items_erase (get?_set_self d k a)
  rwa [show ((d.set k a).erase k).items = (d.erase k).items from hrest d.items] at hperm

theorem countP_items_erase (h : d.get? k = some a) (p : κ × α → Bool) :
    (d.erase k).items.countP p + (if p (k, a) then 1 else 0) = d.items.countP p := by
  rw [(perm_items_erase h).countP_eq, countP_cons]

theorem countP_items_set (h : d.get? k = some a) (b : α) (p : κ × α → Bool) :
    (d.set k b).items.countP p + (if p (k, a) then 1 else 0) = d.items.countP p + if p (k, b) then 1 else 0 := by
  rw [(perm_items_set d k b).countP_eq, countP_cons, ← countP_items_erase h]
  omega

/-- Assign the key, or delete it where there is no value. -/
def update (d : Dict κ α) (k : κ) : Option α → Dict κ α
  | none => d.erase k
  | some a => d.set k a

theorem get?_update (d : Dict κ α) (k : κ) (next : Option α) (k' : κ) :
    (d.update k next).get? k' = if k' = k then next else d.get? k' := by
  cases next with
  | none => exact get?_erase d k k'
  | some a => exact get?_set d k a k'

theorem get?_update_eq_some {next : Option α} :
    (d.update k next).get? k' = some b ↔ (k' = k ∧ next = some b) ∨ (k' ≠ k ∧ d.get? k' = some b) := by
  rw [get?_update]
  by_cases h : k' = k <;> simp [h]

theorem get?_set_eq_some : (d.set k a).get? k' = some b ↔ (k' = k ∧ a = b) ∨ (k' ≠ k ∧ d.get? k' = some b) := by
  rw [get?_set]
  by_cases h : k' = k <;> simp [h]

theorem countP_items_update (h : d.get? k = some a) (next : Option α) (p : α → Bool) :
    (d.update k next).items.countP (fun e => p e.2) + (if p a then 1 else 0) =
      d.items.countP (fun e => p e.2) + if next.any p then 1 else 0 := by
  cases next with
  | none => exact countP_items_erase h fun e => p e.2
  | some b => exact countP_items_set h b fun e => p e.2

theorem eq_of_countP_le_one {p : α → Bool} (h : d.items.countP (fun e => p e.2) ≤ 1) {a' : α}
    (hk : d.get? k = some a) (hp : p a = true) (hk' : d.get? k' = some a') (hp' : p a' = true) : k = k' := by
  by_contra hne
  have hcount := countP_items_erase hk fun e => p e.2
  rw [if_pos hp] at hcount
  have hpos : 0 < (d.erase k).items.countP fun e => p e.2 :=
    countP_pos_iff.2 ⟨(k', a'), mem_items_iff.2 (get?_erase_eq_some.2 ⟨Ne.symm hne, hk'⟩), hp'⟩
  omega

def updateWhere (d : Dict κ α) (p : α → Bool) (f : α → α) : Dict κ α where
  items := d.items.map fun e => (e.1, if p e.2 then f e.2 else e.2)
  nodup := by
    rw [map_map]
    exact d.nodup

omit [DecidableEq κ] in
theorem mem_updateWhere_items {p : α → Bool} {f : α → α} :
    (k, b) ∈ (d.updateWhere p f).items ↔ ∃ a, (k, a) ∈ d.items ∧ b = if p a then f a else a := by
  simp only [updateWhere, mem_map, Prod.mk.injEq, Prod.exists]
  constructor
  · rintro ⟨k', a, hmem, rfl, hb⟩
    exact ⟨a, hmem, hb.symm⟩
  · rintro ⟨a, hmem, hb⟩
    exact ⟨k, a, hmem, rfl, hb.symm⟩

theorem get?_updateWhere (d : Dict κ α) (p : α → Bool) (f : α → α) (k : κ) :
    (d.updateWhere p f).get? k = (d.get? k).map fun a => if p a then f a else a := by
  refine Option.ext fun b => ?_
  rw [← mem_items_iff, mem_updateWhere_items, Option.map_eq_some_iff]
  simp only [mem_items_iff, eq_comm]

def mapValues (d : Dict κ α) (f : κ → α → α) : Dict κ α where
  items := d.items.map fun e => (e.1, f e.1 e.2)
  nodup := by
    rw [map_map]
    exact d.nodup

theorem get?_mapValues (d : Dict κ α) (f : κ → α → α) (k : κ) : (d.mapValues f).get? k = (d.get? k).map (f k) := by
  refine Option.ext fun b => ?_
  rw [← mem_items_iff, Option.map_eq_some_iff]
  simp only [mapValues, mem_map, Prod.mk.injEq, Prod.exists, ← mem_items_iff]
  constructor
  · rintro ⟨k', a, hmem, rfl, hb⟩
    exact ⟨a, hmem, hb⟩
  · rintro ⟨a, hmem, hb⟩
    exact ⟨k, a, hmem, rfl, hb⟩

theorem mem_items_set : e ∈ (d.set k a).items ↔ e = (k, a) ∨ (e.1 ≠ k ∧ e ∈ d.items) := by
  obtain ⟨k', b⟩ := e
  rw [mem_items_iff, mem_items_iff, get?_set]
  by_cases hk : k' = k
  · simp [hk, eq_comm]
  · simp [hk]

theorem mem_set_items (h : e ∈ (d.set k a).items) :
    e = (k, a) ∨ e ∈ d.items := mem_setItems h

/-- A loop that assigns to a key it has not seen, over entries of different keys. -/
theorem foldl_set_items {β : Type*} {f : Dict κ α → β → Dict κ α} {key : β → κ} {value : β → α}
    (hf : ∀ d b, d.get? (key b) = none → f d b = d.set (key b) (value b)) {bs : List β} (h : (bs.map key).Nodup) :
    (bs.foldl f .empty).items = bs.map fun b => (key b, value b) := by
  induction bs using reverseRecOn with
  | nil => rfl
  | append_singleton bs b ih =>
    rw [map_append, nodup_append] at h
    have hitems := ih h.1
    have hkey : key b ∉ (bs.foldl f .empty).items.map Prod.fst := by
      rw [hitems, map_map]
      exact fun hmem => h.2.2 _ hmem _ (mem_singleton_self _) rfl
    rw [foldl_append, foldl_cons, foldl_nil, hf _ _ (get?_eq_none_iff.mpr hkey), set_items_of_not_mem _ hkey, hitems,
      map_append, map_singleton]

theorem exists_of_get?_foldl_set {β : Type*} {key : β → κ} {value : β → α} {bs : List β}
    (h : (bs.foldl (fun (d : Dict κ α) b => d.set (key b) (value b)) .empty).get? k = some a) :
    ∃ b ∈ bs, key b = k ∧ value b = a := by
  induction bs using reverseRecOn with
  | nil => cases h
  | append_singleton bs b ih =>
    rw [foldl_append, foldl_cons, foldl_nil, get?_set] at h
    split_ifs at h with hk
    · exact ⟨b, mem_append_right _ mem_cons_self, hk.symm, Option.some.inj h⟩
    · obtain ⟨b', hb', heq⟩ := ih h
      exact ⟨b', mem_append_left _ hb', heq⟩

/-- A loop that appends to the list of a key. -/
theorem get?_foldl_append {β γ : Type*} {f : Dict κ (List γ) → β → Dict κ (List γ)} {g : β → Option κ} {v : β → γ}
    (hf : ∀ d b, f d b = (g b).elim d fun k => d.set k ((d.get? k).getD [] ++ [v b])) (bs : List β) (k : κ) :
    (bs.foldl f .empty).get? k =
      if bs.filter (g · = some k) = [] then none else some ((bs.filter (g · = some k)).map v) := by
  induction bs using reverseRecOn with
  | nil => rfl
  | append_singleton bs b ih =>
    rw [foldl_append, foldl_cons, foldl_nil, hf, filter_append]
    cases hkey : g b with
    | none => simp [hkey, ih]
    | some k' =>
      rw [Option.elim_some, get?_set]
      by_cases hk : k = k'
      · subst hk
        rw [if_pos rfl, ih]
        cases bs.filter (g · = some k) <;> simp [hkey]
      · simp [hk, Ne.symm hk, hkey, ih]

end Dict
