import CodeIndexer.Lib.Dict

/-!
# Tables with a partial unique index

Rows under a primary key, and a unique index on part of a row: `key` is `none` for the rows that the index
leaves out. No two rows have the same index key, so a table in which they do cannot be built. The insert
statements differ in what they do with a row that is in the way.
-/

structure UniqueTable (κ α β : Type*) (key : α → Option β) [DecidableEq κ] where
  rows : Dict κ α
  unique : ∀ k a k' a' b, rows.get? k = some a → rows.get? k' = some a' → key a = some b → key a' = some b → k = k'

namespace UniqueTable

variable {κ α β : Type*} {key : α → Option β} [DecidableEq κ] [DecidableEq β]

def empty : UniqueTable κ α β key := ⟨Dict.empty, nofun⟩

def get? (t : UniqueTable κ α β key) (k : κ) : Option α := t.rows.get? k

/-- The rows under other primary keys with the index key of `a`. -/
def clashing (t : UniqueTable κ α β key) (k : κ) (a : α) : List κ :=
  (t.rows.items.filter fun e => decide (e.1 ≠ k ∧ (key e.2).isSome = true ∧ key e.2 = key a)).map Prod.fst

variable {t t' : UniqueTable κ α β key} {a : α} {k k' : κ}

theorem mem_clashing :
    k' ∈ t.clashing k a ↔ k' ≠ k ∧ ∃ a' b, t.get? k' = some a' ∧ key a' = some b ∧ key a = some b := by
  constructor
  · intro h
    obtain ⟨⟨k₁, a'⟩, he, rfl⟩ := List.mem_map.1 h
    obtain ⟨hmem, hclash⟩ := List.mem_filter.1 he
    obtain ⟨hne, hsome, heq⟩ := of_decide_eq_true hclash
    obtain ⟨b, hb⟩ := Option.isSome_iff_exists.1 hsome
    exact ⟨hne, a', b, Dict.mem_items_iff.1 hmem, hb, heq ▸ hb⟩
  · rintro ⟨hne, a', b, hget, hb, hb'⟩
    refine List.mem_map.2 ⟨(k', a'), List.mem_filter.2 ⟨Dict.mem_items_iff.2 hget, ?_⟩, rfl⟩
    refine decide_eq_true ⟨hne, ?_, hb.trans hb'.symm⟩
    rw [hb]
    rfl

theorem clashing_eq_nil_iff : t.clashing k a = [] ↔
    ∀ k' a' b, k' ≠ k → t.get? k' = some a' → key a' = some b → key a ≠ some b := by
  rw [List.eq_nil_iff_forall_not_mem]
  refine ⟨fun h k' a' b hne hget hb hb' => h k' (mem_clashing.2 ⟨hne, a', b, hget, hb, hb'⟩), fun h k' hk' => ?_⟩
  obtain ⟨hne, a', b, hget, hb, hb'⟩ := mem_clashing.1 hk'
  exact h k' a' b hne hget hb hb'

omit [DecidableEq β] in
theorem unique_set {rows : Dict κ α} (hrows : ∀ k a k' a' b, rows.get? k = some a → rows.get? k' = some a' →
    key a = some b → key a' = some b → k = k')
    (hclash : ∀ k' a' b, k' ≠ k → rows.get? k' = some a' → key a' = some b → key a ≠ some b) :
    ∀ k₁ a₁ k₂ a₂ b, (rows.set k a).get? k₁ = some a₁ → (rows.set k a).get? k₂ = some a₂ →
      key a₁ = some b → key a₂ = some b → k₁ = k₂ := by
  intro k₁ a₁ k₂ a₂ b h₁ h₂ hb₁ hb₂
  rw [Dict.get?_set] at h₁ h₂
  split_ifs at h₁ h₂ with heq₁ heq₂ heq₂
  · rw [heq₁, heq₂]
  · rw [← Option.some.inj h₁] at hb₁
    exact absurd hb₁ (hclash k₂ a₂ b heq₂ h₂ hb₂)
  · rw [← Option.some.inj h₂] at hb₂
    exact absurd hb₂ (hclash k₁ a₁ b heq₁ h₁ hb₁)
  · exact hrows k₁ a₁ k₂ a₂ b h₁ h₂ hb₁ hb₂

/-- `INSERT`, which fails on a violation. -/
def insert (t : UniqueTable κ α β key) (k : κ) (a : α) : Option (UniqueTable κ α β key) :=
  if h : t.get? k = none ∧ t.clashing k a = [] then
    some ⟨t.rows.set k a, unique_set t.unique (clashing_eq_nil_iff.1 h.2)⟩
  else none

/-- `INSERT OR IGNORE`. -/
def insertOrIgnore (t : UniqueTable κ α β key) (k : κ) (a : α) : UniqueTable κ α β key := (t.insert k a).getD t

/-- `INSERT … ON CONFLICT (primary key) DO NOTHING`. -/
def insertOnConflict (t : UniqueTable κ α β key) (k : κ) (a : α) : Option (UniqueTable κ α β key) :=
  if (t.get? k).isSome then some t else t.insert k a

def erase (t : UniqueTable κ α β key) (k : κ) : UniqueTable κ α β key where
  rows := t.rows.erase k
  unique k₁ a₁ k₂ a₂ b h₁ h₂ := t.unique k₁ a₁ k₂ a₂ b (Dict.get?_erase_eq_some.1 h₁).2 (Dict.get?_erase_eq_some.1 h₂).2

/-- `INSERT OR REPLACE`: the rows in the way are deleted. -/
def insertOrReplace (t : UniqueTable κ α β key) (k : κ) (a : α) : UniqueTable κ α β key where
  rows := ((t.clashing k a).foldl Dict.erase t.rows).set k a
  unique := by
    refine unique_set (fun k₁ a₁ k₂ a₂ b h₁ h₂ => ?_) fun k' a' b hne hget hb hb' => ?_
    · exact t.unique k₁ a₁ k₂ a₂ b (Dict.get?_foldl_erase_eq_some.1 h₁).2 (Dict.get?_foldl_erase_eq_some.1 h₂).2
    · obtain ⟨hnot, hold⟩ := Dict.get?_foldl_erase_eq_some.1 hget
      exact hnot (mem_clashing.2 ⟨hne, a', b, hold, hb, hb'⟩)

/-- `UPDATE … WHERE` on the primary key, which fails if the new row clashes with another one. -/
def modify (t : UniqueTable κ α β key) (k : κ) (f : α → α) : UniqueTable κ α β key :=
  match t.get? k with
  | none => t
  | some a => if h : t.clashing k (f a) = [] then
      ⟨t.rows.set k (f a), unique_set t.unique (clashing_eq_nil_iff.1 h)⟩ else t

theorem get?_insert (h : t.insert k a = some t') (k' : κ) : t'.get? k' = if k' = k then some a else t.get? k' := by
  rw [insert] at h
  split_ifs at h with hfree
  cases h
  exact Dict.get?_set t.rows k a k'

theorem insert_of_clashing_eq_nil (hget : t.get? k = none)
    (hclash : t.clashing k a = []) : ∃ t', t.insert k a = some t' := by
  rw [insert, dif_pos ⟨hget, hclash⟩]
  exact ⟨_, rfl⟩

theorem isSome_insert (h : t.insert k a = some t')
    (hk' : k' = k ∨ (t.get? k').isSome = true) : (t'.get? k').isSome = true := by
  rw [get?_insert h]
  split_ifs with heq
  · rfl
  · exact hk'.resolve_left heq

theorem isSome_insertOrIgnore (hclash : t.clashing k a = [])
    (hk' : k' = k ∨ (t.get? k').isSome = true) : ((t.insertOrIgnore k a).get? k').isSome = true := by
  rw [insertOrIgnore]
  cases hget : t.get? k with
  | none =>
    obtain ⟨t', ht'⟩ := insert_of_clashing_eq_nil hget hclash
    rw [ht']
    exact isSome_insert ht' hk'
  | some a' =>
    have hnone : t.insert k a = none := by
      rw [insert, dif_neg]
      rintro ⟨hnone, -⟩
      rw [hget] at hnone
      cases hnone
    rw [hnone]
    rcases hk' with rfl | hk'
    · exact Option.isSome_iff_exists.2 ⟨a', hget⟩
    · exact hk'

theorem isSome_insertOnConflict (h : t.insertOnConflict k a = some t')
    (hk' : k' = k ∨ (t.get? k').isSome = true) : (t'.get? k').isSome = true := by
  rw [insertOnConflict] at h
  split_ifs at h with hsome
  · cases h
    rcases hk' with rfl | hk'
    · exact hsome
    · exact hk'
  · exact isSome_insert h hk'

theorem isSome_insertOrReplace (hclash : t.clashing k a = [])
    (hk' : k' = k ∨ (t.get? k').isSome = true) : ((t.insertOrReplace k a).get? k').isSome = true := by
  have hrows : ((t.clashing k a).foldl Dict.erase t.rows).set k a = t.rows.set k a := by
    rw [hclash]
    rfl
  have hget : (t.insertOrReplace k a).get? k' = (t.rows.set k a).get? k' := congrArg (fun d => Dict.get? d k') hrows
  rw [hget, Dict.get?_set]
  split_ifs with heq
  · rfl
  · exact hk'.resolve_left heq

theorem get?_insertOrIgnore_of_ne (t : UniqueTable κ α β key) (a : α) (hne : k' ≠ k) :
    (t.insertOrIgnore k a).get? k' = t.get? k' := by
  rw [insertOrIgnore]
  cases hinsert : t.insert k a with
  | none => rfl
  | some t' =>
    rw [Option.getD_some, get?_insert hinsert, if_neg hne]

theorem get?_insertOnConflict_of_ne (h : t.insertOnConflict k a = some t') (hne : k' ≠ k) : t'.get? k' = t.get? k' := by
  rw [insertOnConflict] at h
  split_ifs at h with hsome
  · rw [Option.some.inj h]
  · rw [get?_insert h, if_neg hne]

theorem clashing_congr (h : ∀ k', k' ≠ k → t'.get? k' = t.get? k')
    (hclash : t.clashing k a = []) : t'.clashing k a = [] := by
  rw [clashing_eq_nil_iff] at hclash ⊢
  intro k' a' b hne hget
  exact hclash k' a' b hne (h k' hne ▸ hget)

theorem isSome_modify (t : UniqueTable κ α β key) (k : κ) (f : α → α) (hk' : (t.get? k').isSome = true) :
    ((t.modify k f).get? k').isSome = true := by
  unfold modify
  split
  · exact hk'
  · split_ifs
    · rw [get?, Dict.get?_set]
      split_ifs
      · rfl
      · exact hk'
    · exact hk'

omit [DecidableEq β] in
theorem get?_erase (t : UniqueTable κ α β key) (k k' : κ) : (t.erase k).get? k' = if k' = k then none else t.get? k' :=
  Dict.get?_erase t.rows k k'

end UniqueTable
