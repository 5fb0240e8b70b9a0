import CodeIndexer.Lib.Dict

/-!
# Tables at the isolation level READ COMMITTED

A table is its committed rows and the writes of the open transactions, in the order in which they
were made. A statement of a transaction sees the committed rows and the writes of its own transaction;
it waits (`none`) while a row it would write carries an uncommitted write of another one, and is
evaluated anew on the rows it then finds.
-/

namespace ReadCommitted

open List

variable {τ κ ρ : Type*}

/-- A new version of a row, or its deletion. -/
structure Write (τ κ ρ : Type*) where
  txn : τ
  key : κ
  value : Option ρ

structure Table (τ κ ρ : Type*) where
  committed : Dict κ ρ
  writes : List (Write τ κ ρ)

namespace Table

def empty : Table τ κ ρ := ⟨Dict.empty, []⟩

variable [DecidableEq κ] {k : κ}

variable (d : Dict κ ρ)

def apply (w : Write τ κ ρ) : Dict κ ρ :=
  match w.value with
  | none => d.erase w.key
  | some r => d.set w.key r

variable {ws : List (Write τ κ ρ)} {w : Write τ κ ρ} {r : ρ} {f : ρ → ρ} {p : κ → ρ → Bool}

theorem get?_foldl_apply_deletes (h : ∀ w ∈ ws, w.value = none) (k : κ) :
    (ws.foldl apply d).get? k = if k ∈ ws.map Write.key then none else d.get? k := by
  induction ws generalizing d with
  | nil => simp
  | cons w ws ih =>
    have hw : apply d w = d.erase w.key := by rw [apply, h w mem_cons_self]
    rw [foldl_cons, ih _ fun w' hw' => h w' (mem_cons_of_mem _ hw'), hw, Dict.get?_erase, map_cons]
    by_cases hk : k = w.key <;> simp [hk]

theorem get?_foldl_apply_updates {es : List (κ × ρ)} {t : τ} (hnodup : (es.map Prod.fst).Nodup)
    (hes : ∀ e ∈ es, d.get? e.1 = some e.2) (k : κ) :
    ((es.map fun e => (⟨t, e.1, some (f e.2)⟩ : Write τ κ ρ)).foldl apply d).get? k =
      if k ∈ es.map Prod.fst then (d.get? k).map f else d.get? k := by
  induction es generalizing d with
  | nil => simp
  | cons e es ih =>
    obtain ⟨hnew, hnodup⟩ := nodup_cons.1 hnodup
    have hrest : ∀ e' ∈ es, (d.set e.1 (f e.2)).get? e'.1 = some e'.2 := by
      intro e' he'
      have hne : e'.1 ≠ e.1 := fun heq => hnew (heq ▸ mem_map_of_mem he')
      rw [Dict.get?_set_of_ne _ _ hne, hes e' (mem_cons_of_mem _ he')]
    rw [map_cons, foldl_cons, apply, ih _ hnodup hrest, Dict.get?_set]
    by_cases hk : k = e.1
    · simp [hk, hnew, hes e mem_cons_self]
    · simp only [hk, map_cons, mem_cons, false_or, if_false]

theorem get?_foldl_apply_eq_some {d : Dict κ ρ}
    (h : (ws.foldl apply d).get? k = some r) : d.get? k = some r ∨ ∃ w ∈ ws, w.key = k ∧ w.value = some r := by
  induction ws generalizing d with
  | nil => exact .inl h
  | cons w ws ih =>
    rcases ih h with hd | ⟨w', hw', hkey, hvalue⟩
    · unfold apply at hd
      split at hd
      · exact .inl (Dict.get?_erase_eq_some.1 hd).2
      · rename_i r' hvalue
        rw [Dict.get?_set] at hd
        split at hd
        · rename_i hkey
          exact .inr ⟨w, mem_cons_self, hkey.symm, hvalue.trans hd⟩
        · exact .inl hd
    · exact .inr ⟨w', mem_cons_of_mem _ hw', hkey, hvalue⟩

variable [DecidableEq τ]

omit [DecidableEq κ] in
theorem filter_txn_self {t : τ} (h : ∀ w ∈ ws, w.txn = t) : (ws.filter fun w => decide (w.txn = t)) = ws :=
  filter_eq_self.2 fun w hw => decide_eq_true (h w hw)

omit [DecidableEq κ] in
theorem filter_txn_of_ne {t : τ} (h : ∀ w ∈ ws, w.txn ≠ t) : (ws.filter fun w => decide (w.txn = t)) = [] :=
  filter_eq_nil_iff.2 fun w hw htxn => h w hw (of_decide_eq_true htxn)

def own (T : Table τ κ ρ) (t : τ) : List (Write τ κ ρ) := T.writes.filter fun w => decide (w.txn = t)

/-- The rows a statement of `t` sees. -/
def visible (T : Table τ κ ρ) (t : τ) : Dict κ ρ :=
  (T.writes.filter fun w => decide (w.txn = t)).foldl apply T.committed

/-- Another transaction than `t` has written the row. -/
def locked (T : Table τ κ ρ) (t : τ) (k : κ) : Bool :=
  T.writes.any fun w => decide (w.txn ≠ t ∧ w.key = k)

/-- `INSERT … ON CONFLICT DO UPDATE`, and `INSERT` of a key that is new. -/
def put (T : Table τ κ ρ) (t : τ) (k : κ) (r : ρ) : Option (Table τ κ ρ) :=
  if T.locked t k then none else some { T with writes := T.writes ++ [⟨t, k, some r⟩] }

/-- `UPDATE … WHERE key = k`, or `DELETE` where `f` is `none`. Without a row nothing is written. -/
def modify (T : Table τ κ ρ) (t : τ) (k : κ) (f : ρ → Option ρ) : Option (Table τ κ ρ) :=
  if T.locked t k then none
  else
    match (T.visible t).get? k with
    | none => some T
    | some r => some { T with writes := T.writes ++ [⟨t, k, f r⟩] }

/-- `DELETE … WHERE p`. -/
def deleteWhere (T : Table τ κ ρ) (t : τ) (p : κ → ρ → Bool) : Option (Table τ κ ρ) :=
  let rows := (T.visible t).items.filter fun e => p e.1 e.2
  if rows.any fun e => T.locked t e.1 then none
  else some { T with writes := T.writes ++ rows.map fun e => ⟨t, e.1, none⟩ }

/-- `UPDATE … WHERE p`. -/
def updateWhere (T : Table τ κ ρ) (t : τ) (p : ρ → Bool) (f : ρ → ρ) : Option (Table τ κ ρ) :=
  let rows := (T.visible t).items.filter fun e => p e.2
  if rows.any fun e => T.locked t e.1 then none
  else some { T with writes := T.writes ++ rows.map fun e => ⟨t, e.1, some (f e.2)⟩ }

def commit (T : Table τ κ ρ) (t : τ) : Table τ κ ρ :=
  ⟨T.visible t, T.writes.filter fun w => decide (w.txn ≠ t)⟩

variable {T T' : Table τ κ ρ} {t : τ}

theorem visible_of_no_writes (h : ∀ w ∈ T.writes, w.txn ≠ t) : T.visible t = T.committed := by
  rw [visible, filter_txn_of_ne h]
  rfl

theorem locked_of_no_writes (h : T.writes = []) : T.locked t k = false := by
  rw [locked, h]
  rfl

theorem get?_visible_eq_some (h : (T.visible t).get? k = some r) :
    T.committed.get? k = some r ∨ ∃ w ∈ T.writes, w.txn = t ∧ w.key = k ∧ w.value = some r := by
  rcases get?_foldl_apply_eq_some h with h | ⟨w, hw, hkey, hvalue⟩
  · exact .inl h
  · obtain ⟨hw, htxn⟩ := mem_filter.1 hw
    exact .inr ⟨w, hw, of_decide_eq_true htxn, hkey, hvalue⟩

theorem get?_visible_of_deleted (hall : ∀ w ∈ T.writes, w.txn = t → w.value = none)
    (hw : w ∈ T.writes) (htxn : w.txn = t) (hkey : w.key = k) : (T.visible t).get? k = none := by
  rw [visible, get?_foldl_apply_deletes _ fun w' hw' => hall w' (mem_filter.1 hw').1
    (of_decide_eq_true (mem_filter.1 hw').2)]
  exact if_pos (mem_map.2 ⟨w, mem_filter.2 ⟨hw, decide_eq_true htxn⟩, hkey⟩)

theorem commit_writes_of_own (h : ∀ w ∈ T.writes, w.txn = t) : (T.commit t).writes = [] :=
  filter_eq_nil_iff.2 fun w hw hne => of_decide_eq_true hne (h w hw)

theorem visible_append_self (T : Table τ κ ρ) (h : ∀ w ∈ ws, w.txn = t) :
    Table.visible { T with writes := T.writes ++ ws } t = ws.foldl apply (T.visible t) := by
  rw [visible, filter_append, filter_txn_self h, foldl_append]
  rfl

theorem visible_eq (T : Table τ κ ρ) (t : τ) : T.visible t = (T.own t).foldl apply T.committed := rfl

omit [DecidableEq κ] in
theorem own_append_self (T : Table τ κ ρ) (h : ∀ w ∈ ws, w.txn = t) :
    Table.own { T with writes := T.writes ++ ws } t = T.own t ++ ws := by
  rw [own, filter_append, filter_txn_self h]
  rfl

omit [DecidableEq κ] in
theorem own_append_of_ne (T : Table τ κ ρ) (h : ∀ w ∈ ws, w.txn ≠ t) :
    Table.own { T with writes := T.writes ++ ws } t = T.own t := by
  rw [own, filter_append, filter_txn_of_ne h, append_nil]
  rfl

omit [DecidableEq κ] in
theorem own_eq_nil_iff : T.own t = [] ↔ ∀ w ∈ T.writes, w.txn ≠ t := by
  rw [own, filter_eq_nil_iff]
  exact forall₂_congr fun w _ => not_congr decide_eq_true_iff

theorem own_commit_of_ne (T : Table τ κ ρ) {t' : τ} (h : t' ≠ t) : (T.commit t).own t' = T.own t' := by
  rw [own, commit, own, filter_filter]
  refine filter_congr fun w _ => ?_
  by_cases htxn : w.txn = t'
  · simp [htxn, h]
  · simp [htxn]

theorem updateWhere_eq_some {p : ρ → Bool} (h : T.updateWhere t p f = some T') :
    T' = { T with
      writes := T.writes ++ ((T.visible t).items.filter fun e => p e.2).map fun e => ⟨t, e.1, some (f e.2)⟩ } := by
  unfold updateWhere at h
  dsimp only at h
  split at h
  · cases h
  · exact (Option.some.inj h).symm

theorem mem_commit_writes : w ∈ (T.commit t).writes ↔ w ∈ T.writes ∧ w.txn ≠ t := by
  simp [commit]

theorem put_eq_some (h : T.put t k r = some T') :
    T.locked t k = false ∧ T' = { T with writes := T.writes ++ [⟨t, k, some r⟩] } := by
  unfold put at h
  split at h
  · cases h
  · rename_i hlocked
    exact ⟨Bool.eq_false_of_not_eq_true hlocked, (Option.some.inj h).symm⟩

theorem modify_eq_some {f : ρ → Option ρ} (h : T.modify t k f = some T') :
    ((T.visible t).get? k = none ∧ T' = T) ∨
      ∃ r, (T.visible t).get? k = some r ∧ T' = { T with writes := T.writes ++ [⟨t, k, f r⟩] } := by
  unfold modify at h
  split at h
  · cases h
  · split at h
    · rename_i hnone
      exact .inl ⟨hnone, (Option.some.inj h).symm⟩
    · rename_i r hr
      exact .inr ⟨r, hr, (Option.some.inj h).symm⟩

theorem deleteWhere_eq_some (h : T.deleteWhere t p = some T') :
    T' = { T with
      writes := T.writes ++ ((T.visible t).items.filter fun e => p e.1 e.2).map fun e => ⟨t, e.1, none⟩ } := by
  unfold deleteWhere at h
  dsimp only at h
  split at h
  · cases h
  · exact (Option.some.inj h).symm

theorem mem_deleteWhere_writes (h : T.deleteWhere t p = some T') (hw : w ∈ T'.writes) : w ∈ T.writes ∨ w.txn = t := by
  rw [deleteWhere_eq_some h] at hw
  rcases mem_append.1 hw with hw | hw
  · exact .inl hw
  · obtain ⟨e, -, rfl⟩ := mem_map.1 hw
    exact .inr rfl

theorem txn_of_deleteWhere (h : T.deleteWhere t p = some T') (hquiet : T.writes = []) (hw : w ∈ T'.writes) :
    w.txn = t := by
  refine (mem_deleteWhere_writes h hw).resolve_left ?_
  rw [hquiet]
  exact not_mem_nil

theorem get?_visible_deleteWhere (h : T.deleteWhere t p = some T') (k : κ) :
    (T'.visible t).get? k = ((T.visible t).get? k).filter fun r => !p k r := by
  rw [deleteWhere_eq_some h, visible_append_self, get?_foldl_apply_deletes]
  · cases hk : (T.visible t).get? k with
    | none => simp [Option.filter]
    | some r =>
      have hmem : k ∈ (((T.visible t).items.filter fun e => p e.1 e.2).map
          fun e => (⟨t, e.1, none⟩ : Write τ κ ρ)).map Write.key ↔ p k r = true := by
        simp only [map_map, mem_map, mem_filter, Function.comp_apply, Prod.exists, exists_and_right,
          exists_eq_right, Dict.mem_items_iff, hk, Option.some.injEq]
        constructor
        · rintro ⟨r', rfl, hp⟩
          exact hp
        · exact fun hp => ⟨r, rfl, hp⟩
      by_cases hp : p k r = true
      · rw [if_pos (hmem.2 hp)]
        simp [Option.filter, hp]
      · rw [if_neg (mt hmem.1 hp)]
        simp [Option.filter, hp]
  · intro w hw
    obtain ⟨e, -, rfl⟩ := mem_map.1 hw
    rfl
  · intro w hw
    obtain ⟨e, -, rfl⟩ := mem_map.1 hw
    rfl

theorem get?_visible_updateWhere {p : ρ → Bool} (h : T.updateWhere t p f = some T') (k : κ) :
    (T'.visible t).get? k = ((T.visible t).get? k).map fun r => if p r then f r else r := by
  rw [updateWhere_eq_some h, visible_append_self, get?_foldl_apply_updates]
  · cases hk : (T.visible t).get? k with
    | none => simp
    | some r =>
      have hmem : k ∈ ((T.visible t).items.filter fun e => p e.2).map Prod.fst ↔ p r = true := by
        simp [Dict.mem_items_iff, hk]
      rw [if_congr hmem rfl rfl]
      split <;> simp [*]
  · exact (T.visible t).nodup.sublist (filter_sublist.map _)
  · exact fun e he => Dict.mem_items_iff.1 (mem_filter.1 he).1
  · intro w hw
    obtain ⟨e, -, rfl⟩ := mem_map.1 hw
    rfl

end Table

end ReadCommitted
