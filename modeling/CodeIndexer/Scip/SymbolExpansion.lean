import CodeIndexer.Lib.SqlLike
import CodeIndexer.Lib.PyText

/-!
# Which symbols a query starts from

The queries over the SCIP database do not start from the one symbol they are asked about. Dependencies and
dependents are looked up for the symbol and everything nested in it, and a call chain from or to a class is
a chain from or to any of its methods. Nesting is read off the names: a nested symbol's name continues the
outer one's. The queries test that with `LIKE` and the outer name as the pattern, so a `_` or a `%` in the
name is a wildcard there, and the case of ASCII letters does not count.
-/

namespace CodeIndexer.Scip

open PyText SqlLike List

structure Symbol where
  id : ℕ
  name : Str
deriving DecidableEq, Repr

/-- The `symbols` table, as far as it is read here. The id is its primary key; a name may occur twice. -/
structure Symbols where
  rows : List Symbol
  keys : (rows.map Symbol.id).Nodup

variable (name : Str) (T : Symbols)

theorem Symbols.eq_of_id_eq {s t : Symbol} (hs : s ∈ T.rows) (ht : t ∈ T.rows) (h : s.id = t.id) : s = t :=
  inj_on_of_nodup_map T.keys hs ht h

/-! ### The queries -/

def likeHash : Bool := like ['%', '#'] name

def likeDot : Bool := like ['%', '.'] name

def likeParens : Bool := like ['%', '(', ')', '%'] name

def likeNested (target nested : Str) : Bool :=
  (likeHash target || likeDot target) && like (target ++ ['%']) nested ||
    (!likeHash target && !likeDot target) &&
      (like (target ++ ['#', '%']) nested || like (target ++ ['.', '%']) nested)

def targetAndNested (symbolId : ℕ) : List ℕ :=
  (symbolId :: (T.rows.filter fun nested =>
    nested.id ≠ symbolId ∧ T.rows.any fun target =>
      target.id = symbolId ∧ likeNested target.name nested.name).map Symbol.id).dedup

def likeClass : Bool := likeHash name && !likeParens name

def likeMethod (cls name : Str) : Bool := like (cls ++ ['%']) name && likeParens name

def classesAndMethods (symbolIds : List ℕ) : List ℕ :=
  (symbolIds ++ (T.rows.filter fun s =>
    T.rows.any fun src => src.id ∈ symbolIds ∧ likeClass src.name ∧ likeMethod src.name s.name).map
      Symbol.id).dedup

namespace Dependencies

def targetAndNested (T : Symbols) (symbolId : ℕ) : List ℕ := Scip.targetAndNested T symbolId

end Dependencies

namespace Dependents

def targetAndNested (T : Symbols) (symbolId : ℕ) : List ℕ := Scip.targetAndNested T symbolId

end Dependents

namespace CallChain

def sourceSymbols (T : Symbols) (fromSymbolId : ℕ) : List ℕ := classesAndMethods T [fromSymbolId]

def targetSymbols (T : Symbols) (toSymbolId : ℕ) : List ℕ := classesAndMethods T [toSymbolId]

namespace Batched

def sourceSymbols (T : Symbols) (fromSymbolIds : List ℕ) : List ℕ := classesAndMethods T fromSymbolIds

def targetSymbols (T : Symbols) (toSymbolIds : List ℕ) : List ℕ := classesAndMethods T toSymbolIds

end Batched

end CallChain

/-! ### Nesting -/

def Delimited (n : Str) : Prop := ['#'] <:+ n ∨ ['.'] <:+ n

/-- `m` continues `n`, after a delimiter, where `starts` says what it is to begin with a text. -/
def NestedBy (starts : Str → Str → Prop) (n m : Str) : Prop :=
  Delimited n ∧ starts n m ∨ ¬ Delimited n ∧ (starts (n ++ ['#']) m ∨ starts (n ++ ['.']) m)

def NestedIn (n m : Str) : Prop := NestedBy (· <+: ·) n m

def HasParens (n : Str) : Prop := ['(', ')'] <:+: n

def IsClass (n : Str) : Prop := ['#'] <:+ n ∧ ¬ HasParens n

def MethodOf (n m : Str) : Prop := n <+: m ∧ HasParens m

/-- `m` begins with a text that `n` matches, read as a pattern. -/
def StartsLike (n m : Str) : Prop := ∃ u, u <+: m ∧ Resembles n u

def LooksNested (n m : Str) : Prop := NestedBy StartsLike n m

variable {n m : Str}

theorem StartsLike.of_isPrefix (h : n <+: m) : StartsLike n m := ⟨n, h, .refl n⟩

theorem NestedBy.mono {S S' : Str → Str → Prop} (hS : ∀ n m, S n m → S' n m)
    (h : NestedBy S n m) : NestedBy S' n m := by
  rcases h with ⟨hn, h⟩ | ⟨hn, h | h⟩
  · exact .inl ⟨hn, hS _ _ h⟩
  · exact .inr ⟨hn, .inl (hS _ _ h)⟩
  · exact .inr ⟨hn, .inr (hS _ _ h)⟩

theorem NestedIn.looksNested (h : NestedIn n m) : LooksNested n m :=
  NestedBy.mono (fun _ _ => StartsLike.of_isPrefix) h

/-- The symbols nested in `t`, and `t` itself. -/
def SelectsNested (t : Symbol) (ids : List ℕ) : Prop :=
  ∀ i, i ∈ ids ↔ i = t.id ∨ ∃ s ∈ T.rows, s.id = i ∧ NestedIn t.name s.name

/-- The symbols `ts`, and the methods of those that are classes. -/
def SelectsMethods (ts : List Symbol) (ids : List ℕ) : Prop :=
  ∀ i, i ∈ ids ↔ ∃ t ∈ ts, i = t.id ∨ IsClass t.name ∧ ∃ s ∈ T.rows, s.id = i ∧ MethodOf t.name s.name

/-- No other symbol's name looks as if it were nested in that of `t`. -/
def Unmistaken (t : Symbol) : Prop :=
  ∀ s ∈ T.rows, s.id ≠ t.id → LooksNested t.name s.name → NestedIn t.name s.name

/-! ### What the queries test -/

theorem plain_hash : Plain '#' := plain_of_not_isAlpha (by decide) (by decide) (by decide)

theorem plain_dot : Plain '.' := plain_of_not_isAlpha (by decide) (by decide) (by decide)

theorem likeHash_iff : likeHash n = true ↔ ['#'] <:+ n :=
  like_percent_cons (by simpa using plain_hash)

theorem likeDot_iff : likeDot n = true ↔ ['.'] <:+ n :=
  like_percent_cons (by simpa using plain_dot)

theorem likeParens_iff : likeParens n = true ↔ HasParens n := by
  have hparens : ∀ c ∈ ['(', ')'], Plain c := by
    intro c hc
    rcases mem_pair.mp hc with rfl | rfl <;>
      exact plain_of_not_isAlpha (by decide) (by decide) (by decide)
  exact like_percent_percent hparens

theorem like_percent_iff : like (n ++ ['%']) m = true ↔ StartsLike n m := like_append_percent

theorem likeNested_iff : likeNested n m = true ↔ LooksNested n m := by
  have hhash : like (n ++ ['#', '%']) m = true ↔ StartsLike (n ++ ['#']) m := by
    rw [← like_percent_iff, append_assoc]; rfl
  have hdot : like (n ++ ['.', '%']) m = true ↔ StartsLike (n ++ ['.']) m := by
    rw [← like_percent_iff, append_assoc]; rfl
  simp only [likeNested, Bool.or_eq_true, Bool.and_eq_true, Bool.not_eq_true', ← Bool.not_eq_true,
    likeHash_iff, likeDot_iff, like_percent_iff, hhash, hdot]
  rw [← not_or]; rfl

theorem likeClass_iff : likeClass n = true ↔ IsClass n := by
  simp only [likeClass, Bool.and_eq_true, Bool.not_eq_true', ← Bool.not_eq_true, likeHash_iff,
    likeParens_iff, IsClass]

theorem likeMethod_iff : likeMethod n m = true ↔ StartsLike n m ∧ HasParens m := by
  rw [likeMethod, Bool.and_eq_true, like_percent_iff, likeParens_iff]

instance (n : Str) : Decidable (Delimited n) := inferInstanceAs (Decidable (_ ∨ _))

instance (n m : Str) : Decidable (NestedIn n m) := inferInstanceAs (Decidable (_ ∨ _))

instance (n m : Str) : Decidable (LooksNested n m) := decidable_of_iff _ likeNested_iff

instance (n : Str) : Decidable (HasParens n) := decidable_of_iff _ likeParens_iff

instance (n : Str) : Decidable (IsClass n) := inferInstanceAs (Decidable (_ ∧ _))

instance (n m : Str) : Decidable (MethodOf n m) := inferInstanceAs (Decidable (_ ∧ _))

instance (T : Symbols) (t : Symbol) : Decidable (Unmistaken T t) :=
  inferInstanceAs (Decidable (∀ _ ∈ _, _))

/-! ### What they select -/

section
variable {T : Symbols} {t : Symbol}

theorem mem_targetAndNested (ht : t ∈ T.rows) {i : ℕ} :
    i ∈ targetAndNested T t.id ↔
      i = t.id ∨ ∃ s ∈ T.rows, s.id = i ∧ s.id ≠ t.id ∧ LooksNested t.name s.name := by
  have hany : ∀ s : Symbol,
      (T.rows.any fun target => target.id = t.id ∧ likeNested target.name s.name) = true ↔
        LooksNested t.name s.name := by
    intro s
    simp only [any_eq_true, decide_eq_true_eq, likeNested_iff]
    constructor
    · rintro ⟨t', ht', hid, h⟩
      rwa [T.eq_of_id_eq ht' ht hid] at h
    · exact fun h => ⟨t, ht, rfl, h⟩
  simp only [targetAndNested, mem_dedup, mem_cons, mem_map, mem_filter,
    decide_eq_true_eq, hany]
  constructor <;> rintro (h | ⟨s, h⟩)
  · exact .inl h
  · exact .inr ⟨s, h.1.1, h.2, h.1.2⟩
  · exact .inl h
  · exact .inr ⟨s, ⟨h.1, h.2.2⟩, h.2.1⟩

variable {ts : List Symbol}

theorem mem_classesAndMethods (hts : ts ⊆ T.rows) {i : ℕ} :
    i ∈ classesAndMethods T (ts.map Symbol.id) ↔
      ∃ t ∈ ts, i = t.id ∨
        IsClass t.name ∧ ∃ s ∈ T.rows, s.id = i ∧ StartsLike t.name s.name ∧ HasParens s.name := by
  simp only [classesAndMethods, mem_dedup, mem_append, mem_map, mem_filter,
    any_eq_true, decide_eq_true_eq, likeClass_iff, likeMethod_iff]
  constructor
  · rintro (⟨t, ht, rfl⟩ | ⟨s, ⟨hs, src, hsrc, ⟨t, ht, hid⟩, hcls, hlike⟩, rfl⟩)
    · exact ⟨t, ht, .inl rfl⟩
    · obtain rfl := T.eq_of_id_eq (hts ht) hsrc hid
      exact ⟨t, ht, .inr ⟨hcls, s, hs, rfl, hlike⟩⟩
  · rintro ⟨t, ht, rfl | ⟨hcls, s, hs, rfl, hlike⟩⟩
    · exact .inl ⟨t, ht, rfl⟩
    · exact .inr ⟨s, ⟨hs, t, hts ht, ⟨t, ht, rfl⟩, hcls, hlike⟩, rfl⟩

/-- Whatever is nested is found, since a name matches itself; what looks nested and is not is found too. -/
theorem selectsNested_iff (ht : t ∈ T.rows) : SelectsNested T t (targetAndNested T t.id) ↔ Unmistaken T t := by
  constructor
  · intro h s hs hne hlooks
    have hmem := (mem_targetAndNested ht).mpr (.inr ⟨s, hs, rfl, hne, hlooks⟩)
    rcases (h s.id).mp hmem with hid | ⟨s', hs', hid, hin⟩
    · exact absurd hid hne
    · rwa [T.eq_of_id_eq hs' hs hid] at hin
  · intro h i
    rw [mem_targetAndNested ht]
    constructor <;> rintro (rfl | ⟨s, hs, rfl, hs'⟩)
    · exact .inl rfl
    · exact .inr ⟨s, hs, rfl, h s hs hs'.1 hs'.2⟩
    · exact .inl rfl
    · by_cases hid : s.id = t.id
      · exact .inl hid
      · exact .inr ⟨s, hs, rfl, hid, hs'.looksNested⟩

theorem Unmistaken.isPrefix_of_class (h : Unmistaken T t) (hcls : IsClass t.name) {s : Symbol}
    (hs : s ∈ T.rows) (hne : s.id ≠ t.id) (hlike : StartsLike t.name s.name) : t.name <+: s.name := by
  have hdel : Delimited t.name := .inl hcls.1
  rcases h s hs hne (.inl ⟨hdel, hlike⟩) with ⟨-, hin⟩ | ⟨hndel, -⟩
  · exact hin
  · exact absurd hdel hndel

theorem selectsMethods_of_unmistaken (hts : ts ⊆ T.rows) (h : ∀ t ∈ ts, Unmistaken T t) :
    SelectsMethods T ts (classesAndMethods T (ts.map Symbol.id)) := by
  intro i
  rw [mem_classesAndMethods hts]
  constructor <;> rintro ⟨t, ht, rfl | ⟨hcls, s, hs, rfl, hs'⟩⟩
  · exact ⟨t, ht, .inl rfl⟩
  · by_cases hid : s.id = t.id
    · exact ⟨t, ht, .inl hid⟩
    · exact ⟨t, ht, .inr ⟨hcls, s, hs, rfl, (h t ht).isPrefix_of_class hcls hs hid hs'.1, hs'.2⟩⟩
  · exact ⟨t, ht, .inl rfl⟩
  · exact ⟨t, ht, .inr ⟨hcls, s, hs, rfl, .of_isPrefix hs'.1, hs'.2⟩⟩

end

/-- For symbols of the table, every query selects exactly what is nested in them if and only if no other name
only looks nested. -/
theorem expansions_exact_iff (T : Symbols) (ts : List Symbol) (hts : ts ⊆ T.rows) :
    ((∀ t ∈ ts,
        SelectsNested T t (Dependencies.targetAndNested T t.id) ∧
          SelectsNested T t (Dependents.targetAndNested T t.id) ∧
          SelectsMethods T [t] (CallChain.sourceSymbols T t.id) ∧
          SelectsMethods T [t] (CallChain.targetSymbols T t.id)) ∧
      SelectsMethods T ts (CallChain.Batched.sourceSymbols T (ts.map Symbol.id)) ∧
      SelectsMethods T ts (CallChain.Batched.targetSymbols T (ts.map Symbol.id))) ↔
      ∀ t ∈ ts, Unmistaken T t := by
  constructor
  · intro h t ht
    exact (selectsNested_iff (hts ht)).mp (h.1 t ht).1
  · intro h
    have hmethods := selectsMethods_of_unmistaken hts h
    refine ⟨?_, hmethods, hmethods⟩
    intro t ht
    have hnested := (selectsNested_iff (hts ht)).mpr (h t ht)
    have hone : SelectsMethods T [t] (classesAndMethods T [t.id]) :=
      @selectsMethods_of_unmistaken T [t] (by simpa using hts ht) (by simpa using h t ht)
    exact ⟨hnested, hnested, hone, hone⟩

def storeAndCache : Symbols :=
  ⟨[⟨1, "m/Store#"⟩, ⟨2, "m/Cache#"⟩, ⟨3, "m/Cache#get()."⟩], by decide⟩

theorem expansions_exact_store :
    storeAndCache.rows ⊆ storeAndCache.rows ∧
      (∀ t ∈ storeAndCache.rows, Unmistaken storeAndCache t) ∧
      SelectsMethods storeAndCache storeAndCache.rows
        (CallChain.Batched.sourceSymbols storeAndCache [1, 2, 3]) := by
  have hclear : ∀ t ∈ storeAndCache.rows, Unmistaken storeAndCache t := by decide
  have hexact := (expansions_exact_iff storeAndCache storeAndCache.rows (List.Subset.refl _)).mpr hclear
  exact ⟨List.Subset.refl _, hclear, hexact.2.1⟩

def lookAlikes : Symbols :=
  ⟨[⟨1, "m/a_b#"⟩, ⟨2, "m/axb#f()."⟩, ⟨3, "m/A_B#g()."⟩], by decide⟩

/-- Both methods are taken for members of the class, the one for the `_` and the other for its case. -/
theorem look_alikes_selected :
    ∃ t ∈ lookAlikes.rows,
      ¬ SelectsNested lookAlikes t (Dependencies.targetAndNested lookAlikes t.id) ∧
        ¬ SelectsNested lookAlikes t (Dependents.targetAndNested lookAlikes t.id) ∧
        ¬ SelectsMethods lookAlikes [t] (CallChain.sourceSymbols lookAlikes t.id) ∧
        ¬ SelectsMethods lookAlikes [t] (CallChain.targetSymbols lookAlikes t.id) ∧
        ¬ SelectsMethods lookAlikes [t] (CallChain.Batched.sourceSymbols lookAlikes [t.id]) ∧
        ¬ SelectsMethods lookAlikes [t] (CallChain.Batched.targetSymbols lookAlikes [t.id]) := by
  have hnested : ¬ SelectsNested lookAlikes ⟨1, "m/a_b#"⟩ (targetAndNested lookAlikes 1) :=
    fun h => absurd ((h 2).mp (by decide)) (by decide)
  have hmethods : ¬ SelectsMethods lookAlikes [⟨1, "m/a_b#"⟩] (classesAndMethods lookAlikes [1]) :=
    fun h => absurd ((h 3).mp (by decide)) (by decide)
  exact ⟨⟨1, "m/a_b#"⟩, by decide, hnested, hnested, hmethods, hmethods, hmethods, hmethods⟩

end CodeIndexer.Scip
