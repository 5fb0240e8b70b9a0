import CodeIndexer.Temporal.ShardNaming

/-!
# Shard pruning against the timestamp filter

Both sides read the same two dates, but the filter accepts until the last second of the end date
and the pruning bound is its midnight, compared against the half-open range of a quarter.
`shard_mem_iff`: a commit the filter accepts keeps its shard unless the end date is the first day
of the quarter and the commit falls on it. The other two conditions are about names: a year below
1000 does not match `\d{4}`, and a directory whose quarter leaves the years `datetime` has makes the
whole scan raise.
-/

namespace CodeIndexer.Temporal

open Calendar PyText List

variable {U : Unicode} {t : ℤ}

def utcQuarter (t : ℤ) : ℕ := monthToQuarter (utcMonth t)

def Date.FirstOfQuarter (d : Date) : Prop :=
  d.day = 1 ∧ (d.month = 1 ∨ d.month = 4 ∨ d.month = 7 ∨ d.month = 10)

/-- Every shard directory of the model names a quarter that `get_quarter_range` can express: none is
`0000Qn` or `9999Q4`. -/
def QuartersExpressible (U : Unicode) (baseName : Str) (entries : List DirEntry) : Prop :=
  ∀ e ∈ entries, e.isDir = true → ∀ y q, matchShard U baseName e.name = some (y, q) →
    1 ≤ y ∧ y ≤ 9999 ∧ (q = 4 → y ≠ 9999)

/-! ### The quarter of an instant -/

theorem monthToQuarter_bounds : ∀ m, 1 ≤ m → m ≤ 12 →
    1 ≤ monthToQuarter m ∧ monthToQuarter m ≤ 4 ∧ (monthToQuarter m - 1) * 3 + 1 ≤ m ∧
      m < (monthToQuarter m - 1) * 3 + 4 := by
  intro m h₁ h₂
  interval_cases m <;> decide

theorem isDate_ordinalOf (h : 1 ≤ ordinalOf t) : IsDate (utcYear t) (utcMonth t) (ord2ymd (ordinalOf t)).2.2 :=
  (ord2ymd_spec h).1

variable {y m d q : ℕ} {e : DirEntry} {acc acc' : Found} {start stop : Option ℤ} {base : Str}

theorem midnight_le_iff (h : 1 ≤ ordinalOf t) : midnight y m d ≤ t ↔ ymd2ord y m d ≤ ordinalOf t := by
  unfold midnight ordinalOf at *
  omega

theorem lt_midnight_iff (h : 1 ≤ ordinalOf t) : t < midnight y m d ↔ ordinalOf t < ymd2ord y m d := by
  rw [← not_le, midnight_le_iff h, not_le]

theorem utcDatetime_eq_some (h : 1 ≤ y ∧ y ≤ 9999) :
    utcDatetime y m d = some (midnight y m d) := if_pos h

def nextQuarter (y q : ℕ) : ℤ := if q = 4 then midnight (y + 1) 1 1 else midnight y ((q - 1) * 3 + 4) 1

theorem getQuarterRange_eq (y q : ℕ) : getQuarterRange y q =
    if 1 ≤ y ∧ y ≤ 9999 ∧ (q = 4 → y ≠ 9999) then
      some (midnight y ((q - 1) * 3 + 1) 1, nextQuarter y q) else none := by
  unfold getQuarterRange nextQuarter
  dsimp only
  by_cases hy : 1 ≤ y ∧ y ≤ 9999
  · rw [utcDatetime_eq_some hy]
    by_cases hq : q = 4
    · by_cases hy' : y = 9999
      · simp [hq, hy', utcDatetime]
      · rw [if_pos hq, if_pos hq, utcDatetime_eq_some (by omega), if_pos (by omega)]
        rfl
    · rw [if_neg hq, if_neg hq, utcDatetime_eq_some hy, if_pos (by omega)]
      rfl
  · have hnone : utcDatetime y ((q - 1) * 3 + 1) 1 = none := if_neg hy
    have hneg : ¬ (1 ≤ y ∧ y ≤ 9999 ∧ (q = 4 → y ≠ 9999)) := fun h => hy ⟨h.1, h.2.1⟩
    rw [if_neg hneg, hnone]
    rfl

theorem getQuarterRange_isSome_iff : (getQuarterRange y q).isSome ↔ 1 ≤ y ∧ y ≤ 9999 ∧ (q = 4 → y ≠ 9999) := by
  rw [getQuarterRange_eq]
  split_ifs with h
  · exact ⟨fun _ => h, fun _ => rfl⟩
  · simp only [Option.isSome_none, Bool.false_eq_true, h]

theorem mem_quarter (h : 1 ≤ ordinalOf t) :
    midnight (utcYear t) ((utcQuarter t - 1) * 3 + 1) 1 ≤ t ∧
      t < nextQuarter (utcYear t) (utcQuarter t) := by
  have hd := isDate_ordinalOf h
  have hord : ymd2ord (utcYear t) (utcMonth t) (ord2ymd (ordinalOf t)).2.2 = ordinalOf t :=
    (ord2ymd_spec h).2
  obtain ⟨hq₁, hq₄, hlo, hhi⟩ := monthToQuarter_bounds _ hd.month_pos hd.month_le
  constructor
  · rw [midnight_le_iff h, ← hord]
    exact first_le_ymd2ord hd (by omega) hlo
  · unfold nextQuarter
    split_ifs with hq
    · rw [lt_midnight_iff h, ← hord]
      exact ymd2ord_lt_next_year hd
    · rw [lt_midnight_iff h, ← hord]
      exact ymd2ord_lt_first hd hhi (by unfold utcQuarter at *; omega)

/-! ### Names of shards -/

theorem natStr_quarter : ∀ q, 1 ≤ q → q ≤ 4 → ∃ c, natStr q = [c] ∧ '1' ≤ c ∧ c ≤ '4' ∧ c.toNat - '0'.toNat = q := by
  intro q h₁ h₄
  interval_cases q
  · exact ⟨'1', by decide, by decide, by decide, by decide⟩
  · exact ⟨'2', by decide, by decide, by decide, by decide⟩
  · exact ⟨'3', by decide, by decide, by decide, by decide⟩
  · exact ⟨'4', by decide, by decide, by decide, by decide⟩

theorem matchShard_append (base rest : Str) : matchShard U base (base ++ '-' :: rest) = matchQuarter U rest := by
  have happ : base ++ '-' :: rest = base ++ ['-'] ++ rest := by simp
  have hpre : (base ++ ['-']).isPrefixOf (base ++ ['-'] ++ rest) = true := by simp
  have hdrop : (base ++ ['-'] ++ rest).drop (base.length + 1) = rest := drop_left' (by simp)
  rw [matchShard, happ, if_pos hpre, hdrop]

theorem matchQuarter_suffix (hq : 1 ≤ q) (hq' : q ≤ 4) (hy' : y ≤ 9999) :
    matchQuarter U (natStr y ++ 'Q' :: natStr q) = if 1000 ≤ y then some (y, q) else none := by
  obtain ⟨c, hc, h₁, h₄, hv⟩ := natStr_quarter q hq hq'
  by_cases hy : 1000 ≤ y
  · rw [if_pos hy, natStr_four hy hy', hc]
    have hsum : y / 1000 * 1000 + y / 100 % 10 * 100 + y / 10 % 10 * 10 + y % 10 = y := by omega
    simp only [cons_append, nil_append, matchQuarter]
    rw [digitValue_digitChar U _ (by omega), digitValue_digitChar U _ (by omega),
      digitValue_digitChar U _ (by omega), digitValue_digitChar U _ (by omega)]
    simp only [Option.bind_eq_bind, Option.bind_some, h₁, h₄, hv, hsum, true_or, and_self, ↓reduceIte]
  · rw [if_neg hy, hc]
    have hlen := natStr_length_lt (not_le.1 hy)
    -- fewer than four digits leave the pattern short of characters
    unfold matchQuarter
    split
    · rename_i heq
      have := congrArg List.length heq
      simp only [length_append, length_cons, length_nil] at this
      omega
    · rfl

/-! ### What the scan returns -/

def Selected (U : Unicode) (baseName : Str) (start stop : Option ℤ) (e : DirEntry) : Prop :=
  e.isDir = true ∧ ∃ y q s e', matchShard U baseName e.name = some (y, q) ∧
    getQuarterRange y q = some (s, e') ∧ overlaps start stop s e' = true

theorem scanEntry_eq_none_iff :
    scanEntry U base start stop acc e = none ↔ e.isDir = true ∧
      ∃ y q, matchShard U base e.name = some (y, q) ∧ getQuarterRange y q = none := by
  unfold scanEntry
  by_cases hd : e.isDir = true
  · simp only [hd, ↓reduceIte, true_and]
    rcases hm : matchShard U base e.name with _ | ⟨y, q⟩
    · simp only [reduceCtorEq, false_and, exists_false, iff_false]
      split <;> simp
    · rcases hr : getQuarterRange y q with _ | ⟨s, s'⟩
      · simp [hr]
      · simp only [hr, Option.bind_eq_bind, Option.bind_some, Option.some.injEq, Prod.mk.injEq]
        constructor
        · intro h; split at h <;> simp at h
        · rintro ⟨y', q', ⟨rfl, rfl⟩, h⟩; rw [hr] at h; simp at h
  · simp [hd]

theorem scanEntry_shards
    (h : scanEntry U base start stop acc e = some acc') (n : Str) :
    n ∈ acc'.shards ↔ n ∈ acc.shards ∨ n = e.name ∧ Selected U base start stop e := by
  unfold scanEntry at h
  unfold Selected
  by_cases hd : e.isDir = true
  · simp only [hd, ↓reduceIte] at h
    rcases hm : matchShard U base e.name with _ | ⟨y, q⟩
    · simp only [hm] at h
      split at h <;> (cases h; simp)
    · simp only [hm, Option.bind_eq_bind] at h
      rcases hr : getQuarterRange y q with _ | ⟨s, s'⟩
      · simp [hr] at h
      · simp only [hr, Option.bind_some] at h
        by_cases ho : overlaps start stop s s' = true
        · simp only [ho, ↓reduceIte, Option.some.injEq] at h
          subst h
          simp [hd, hr, ho]
        · simp only [ho, Bool.false_eq_true, ↓reduceIte, Option.some.injEq] at h
          subst h
          simp [hd, hr, ho]
  · simp only [hd, Bool.false_eq_true, ↓reduceIte, Option.some.injEq] at h
    subst h
    simp [hd]

theorem foldlM_scanEntry_shards (entries : List DirEntry)
    (h : entries.foldlM (scanEntry U base start stop) acc = some acc') (n : Str) :
    n ∈ acc'.shards ↔ n ∈ acc.shards ∨ ∃ e ∈ entries, n = e.name ∧ Selected U base start stop e := by
  induction entries generalizing acc with
  | nil => simp at h; subst h; simp
  | cons e entries ih =>
    rw [foldlM_cons] at h
    obtain ⟨mid, hmid, hrest⟩ := Option.bind_eq_some_iff.1 h
    rw [ih hrest, scanEntry_shards hmid]
    simp only [mem_cons, exists_eq_or_imp, or_assoc]

theorem foldlM_scanEntry_isSome_iff (start stop : Option ℤ) (entries : List DirEntry)
    (acc : Found) : (entries.foldlM (scanEntry U base start stop) acc).isSome ↔
      QuartersExpressible U base entries := by
  induction entries generalizing acc with
  | nil => simp [QuartersExpressible]
  | cons e entries ih =>
    have hsplit : QuartersExpressible U base (e :: entries) ↔
        (e.isDir = true → ∀ y q, matchShard U base e.name = some (y, q) →
          1 ≤ y ∧ y ≤ 9999 ∧ (q = 4 → y ≠ 9999)) ∧ QuartersExpressible U base entries := by
      simp only [QuartersExpressible, mem_cons, forall_eq_or_imp]
    rw [hsplit, foldlM_cons]
    rcases hs : scanEntry U base start stop acc e with _ | mid
    · obtain ⟨hd, y, q, hm, hr⟩ := scanEntry_eq_none_iff.1 hs
      simp only [Option.bind_eq_bind, Option.bind_none, Option.isSome_none, Bool.false_eq_true, false_iff]
      rintro ⟨h, -⟩
      have := getQuarterRange_isSome_iff.2 (h hd y q hm)
      rw [hr] at this
      exact absurd this (by simp)
    · simp only [Option.bind_eq_bind, Option.bind_some, ih, iff_and_self]
      intro _ hd y q hm
      by_contra hbad
      have hnone : scanEntry U base start stop acc e = none := by
        refine scanEntry_eq_none_iff.2 ⟨hd, y, q, hm, ?_⟩
        rw [← getQuarterRange_isSome_iff] at hbad
        simpa using hbad
      rw [hs] at hnone
      exact absurd hnone (by simp)

/-! ### Accepted commits -/

variable {r : TimeRange} {atCommitTs : Option ℤ}

theorem endTs_le : endTs r atCommitTs ≤ r.2.timestamp + 86399 := by
  unfold endTs
  split
  · exact (min_le_left _ _).trans (by norm_num)
  · norm_num

theorem one_le_ordinalOf (h : acceptsTimestamp r atCommitTs t) : 1 ≤ ordinalOf t := by
  have hstart := h.1
  have hday := r.1.isDate.day_pos
  unfold startTs Date.timestamp midnight ymd2ord at hstart
  unfold ordinalOf
  omega

theorem utcYear_le (h : acceptsTimestamp r atCommitTs t) : utcYear t ≤ 9999 := by
  have hord := one_le_ordinalOf h
  by_contra hy
  have h₁ := ymd2ord_lt_next_year r.2.isDate
  have h₂ : ymd2ord (r.2.year + 1) 1 1 ≤ ordinalOf t := by
    rw [← (ord2ymd_spec hord).2]
    exact first_le_of_year_le (by have := r.2.year_le; show _ ≤ utcYear t; omega) (isDate_ordinalOf hord)
  have h₃ := h.2.trans endTs_le
  unfold Date.timestamp midnight at h₃
  unfold ordinalOf at h₂
  omega

theorem monthToQuarter_first : ∀ m, m = 1 ∨ m = 4 ∨ m = 7 ∨ m = 10 → (monthToQuarter m - 1) * 3 + 1 = m := by
  rintro m (rfl | rfl | rfl | rfl) <;> rfl

theorem timestamp_le_quarter_iff (h : acceptsTimestamp r atCommitTs t) :
    r.2.timestamp ≤ midnight (utcYear t) ((utcQuarter t - 1) * 3 + 1) 1 ↔
      r.2.FirstOfQuarter ∧ r.2.timestamp ≤ t := by
  have hord := one_le_ordinalOf h
  have hd := isDate_ordinalOf hord
  have hle := h.2.trans endTs_le
  have hq := monthToQuarter_bounds _ hd.month_pos hd.month_le
  have hstart := (mem_quarter hord).1
  constructor
  · intro hpr
    have hfirst : IsDate (utcYear t) ((utcQuarter t - 1) * 3 + 1) 1 := by
      refine ⟨hd.year, by omega, by unfold utcQuarter; omega, le_refl _, ?_⟩
      have hdim : ∀ leap, ∀ m < 13, 1 ≤ m → 1 ≤ daysInMonth leap m := by decide
      exact hdim _ _ (by unfold utcQuarter; omega) (by omega)
    have heq : ymd2ord r.2.year r.2.month r.2.day =
        ymd2ord (utcYear t) ((utcQuarter t - 1) * 3 + 1) 1 := by
      unfold Date.timestamp midnight at *
      omega
    obtain ⟨-, hm, hday⟩ := ymd2ord_inj r.2.isDate hfirst heq
    refine ⟨⟨hday, ?_⟩, hpr.trans hstart⟩
    unfold utcQuarter at hm
    omega
  · rintro ⟨⟨hday, hm⟩, hts⟩
    have heq : ymd2ord (utcYear t) (utcMonth t) (ord2ymd (ordinalOf t)).2.2 =
        ymd2ord r.2.year r.2.month r.2.day := by
      rw [show ymd2ord (utcYear t) (utcMonth t) _ = ordinalOf t from (ord2ymd_spec hord).2]
      unfold Date.timestamp midnight at *
      unfold ordinalOf at *
      omega
    obtain ⟨hy', hm', -⟩ := ymd2ord_inj hd r.2.isDate heq
    rw [utcQuarter, hm', monthToQuarter_first _ hm, hy', Date.timestamp, hday]

theorem overlaps_iff (h : acceptsTimestamp r atCommitTs t) :
    overlaps (pruningBounds (some r)).1 (pruningBounds (some r)).2
        (midnight (utcYear t) ((utcQuarter t - 1) * 3 + 1) 1) (nextQuarter (utcYear t) (utcQuarter t)) = true ↔
      r.2 = allTimeRange.2 ∨ ¬ (r.2.FirstOfQuarter ∧ r.2.timestamp ≤ t) := by
  have hnext := (mem_quarter (one_le_ordinalOf h)).2
  have hs : ¬ r.1.timestamp ≥ nextQuarter (utcYear t) (utcQuarter t) := not_le.2 (h.1.trans_lt hnext)
  rw [← timestamp_le_quarter_iff h]
  unfold overlaps pruningBounds
  by_cases h₁ : r.1 = allTimeRange.1 <;> by_cases h₂ : r.2 = allTimeRange.2 <;>
    simp [h₁, h₂] <;> simp_all

theorem matchShard_shardName (model : Str) (h : acceptsTimestamp r atCommitTs t) :
    matchShard U (resolveTemporalCollectionName U model) (getShardCollectionName U model t) =
      if 1000 ≤ utcYear t then some (utcYear t, utcQuarter t) else none := by
  have hd := isDate_ordinalOf (one_le_ordinalOf h)
  obtain ⟨hq, hq', -, -⟩ := monthToQuarter_bounds _ hd.month_pos hd.month_le
  rw [getShardCollectionName, matchShard_append, quarterSuffix, matchQuarter_suffix hq hq' (utcYear_le h)]
  rfl

theorem getOverlappingShards_mem_iff {model n : Str} {entries : List DirEntry}
    (hn : n ≠ resolveTemporalCollectionName U model) :
    (∃ shards, getOverlappingShards U model (some entries) start stop = some shards ∧ n ∈ shards) ↔
      QuartersExpressible U (resolveTemporalCollectionName U model) entries ∧
        ∃ e ∈ entries, n = e.name ∧ Selected U (resolveTemporalCollectionName U model) start stop e := by
  unfold getOverlappingShards
  set base := resolveTemporalCollectionName U model
  rw [← foldlM_scanEntry_isSome_iff start stop entries ⟨[], false⟩]
  rcases hf : entries.foldlM (scanEntry U base start stop) ⟨[], false⟩ with _ | found
  · simp [hf]
  · have hmem := foldlM_scanEntry_shards entries hf n
    simp only [not_mem_nil, false_or] at hmem
    rw [← hmem]
    by_cases hl : found.hasLegacy = true <;> simp [hf, hl, hn]

/-- A commit the timestamp filter accepts, whose shard is on disk, is searched if and only if its
year has four digits, every shard directory names an expressible quarter, and the end date is open
or does not start a quarter on the commit's own day. -/
theorem shard_mem_iff (U : Unicode) (model : Str) (entries : List DirEntry) (r : TimeRange)
    (atCommitTs : Option ℤ) (t : ℤ) (hacc : acceptsTimestamp r atCommitTs t)
    (hdisk : ∃ e ∈ entries, e.isDir = true ∧ e.name = getShardCollectionName U model t) :
    (∃ shards, getOverlappingShards U model (some entries) (pruningBounds (some r)).1
        (pruningBounds (some r)).2 = some shards ∧ getShardCollectionName U model t ∈ shards) ↔
      1000 ≤ utcYear t ∧ QuartersExpressible U (resolveTemporalCollectionName U model) entries ∧
        (r.2 = allTimeRange.2 ∨ ¬ (r.2.FirstOfQuarter ∧ r.2.timestamp ≤ t)) := by
  have hne : getShardCollectionName U model t ≠ resolveTemporalCollectionName U model := by
    intro h
    have := congrArg List.length h
    simp [getShardCollectionName] at this
  have hmatch := matchShard_shardName (U := U) model hacc
  rw [getOverlappingShards_mem_iff hne, ← overlaps_iff hacc]
  constructor
  · rintro ⟨hq, e, -, hname, hsel⟩
    obtain ⟨-, y, q, s, s', hm, hr, ho⟩ := hsel
    rw [← hname, hmatch] at hm
    split_ifs at hm with hy
    simp only [Option.some.injEq, Prod.mk.injEq] at hm
    obtain ⟨rfl, rfl⟩ := hm
    rw [getQuarterRange_eq] at hr
    split_ifs at hr with hrange
    simp only [Option.some.injEq, Prod.mk.injEq] at hr
    obtain ⟨rfl, rfl⟩ := hr
    exact ⟨hy, hq, ho⟩
  · rintro ⟨hy, hq, ho⟩
    obtain ⟨e, he, hd, hname⟩ := hdisk
    have hm : matchShard U (resolveTemporalCollectionName U model) e.name =
        some (utcYear t, utcQuarter t) := by rw [hname, hmatch, if_pos hy]
    have hrange := hq e he hd _ _ hm
    refine ⟨hq, e, he, hname.symm, hd, _, _, _, _, hm, ?_, ho⟩
    rw [getQuarterRange_eq, if_pos hrange]

/-- March to mid-May 2024, and a commit on the first day of April. -/
theorem shard_mem_iff_mid_quarter :
    ∃ shards, getOverlappingShards asciiOnly ['m']
        (some [⟨"code-indexer-temporal-m-2024Q2", true, false, false⟩])
        (some (midnight 2024 3 1)) (some (midnight 2024 5 15)) = some shards ∧
      "code-indexer-temporal-m-2024Q2".toList ∈ shards := by
  have hname : getShardCollectionName asciiOnly ['m'] 1711972800 =
      "code-indexer-temporal-m-2024Q2" := by decide +kernel
  have h := (shard_mem_iff asciiOnly ['m'] [⟨"code-indexer-temporal-m-2024Q2", true, false, false⟩]
    (⟨2024, 3, 1, by decide, by decide⟩, ⟨2024, 5, 15, by decide, by decide⟩) none 1711972800
    ⟨by decide +kernel, by decide +kernel⟩ ⟨_, mem_singleton_self _, rfl, hname.symm⟩).2
  rw [hname] at h
  refine h ⟨by decide +kernel, ?_, .inr fun h => absurd h.1.1 (by decide)⟩
  intro e he hd y q hm
  rw [mem_singleton.1 he] at hm
  have hm' : matchShard asciiOnly (resolveTemporalCollectionName asciiOnly ['m'])
      "code-indexer-temporal-m-2024Q2" = some (2024, 2) := by decide +kernel
  rw [hm'] at hm
  cases hm
  decide

/-- A commit at noon of 1 April 2024, searched until that day: the filter accepts it, its shard is
on disk, and the shard is pruned. -/
theorem shard_pruned_on_first_of_quarter :
    acceptsTimestamp (⟨2024, 3, 1, by decide, by decide⟩, ⟨2024, 4, 1, by decide, by decide⟩) none 1711972800 ∧
    getShardCollectionName asciiOnly ['m'] 1711972800 = "code-indexer-temporal-m-2024Q2" ∧
    ¬ ∃ shards, getOverlappingShards asciiOnly ['m']
        (some [⟨"code-indexer-temporal-m-2024Q2", true, false, false⟩])
        (pruningBounds (some (⟨2024, 3, 1, by decide, by decide⟩, ⟨2024, 4, 1, by decide, by decide⟩))).1
        (pruningBounds (some (⟨2024, 3, 1, by decide, by decide⟩, ⟨2024, 4, 1, by decide, by decide⟩))).2 =
        some shards ∧ "code-indexer-temporal-m-2024Q2".toList ∈ shards := by
  refine ⟨⟨by decide +kernel, by decide +kernel⟩, by decide +kernel, ?_⟩
  rintro ⟨shards, hs, hmem⟩
  have hscan : List.foldlM (scanEntry asciiOnly (resolveTemporalCollectionName asciiOnly ['m'])
      (some (midnight 2024 3 1)) (some (midnight 2024 4 1))) ⟨[], false⟩
      [⟨"code-indexer-temporal-m-2024Q2", true, false, false⟩] = some ⟨[], false⟩ := by
    decide +kernel
  have hnil : getOverlappingShards asciiOnly ['m']
      (some [⟨"code-indexer-temporal-m-2024Q2", true, false, false⟩])
      (some (midnight 2024 3 1)) (some (midnight 2024 4 1)) = some [] := by
    unfold getOverlappingShards
    dsimp only
    rw [hscan]
    simp
  have hbounds : pruningBounds
      (some (⟨2024, 3, 1, by decide, by decide⟩, ⟨2024, 4, 1, by decide, by decide⟩)) =
      (some (midnight 2024 3 1), some (midnight 2024 4 1)) := by decide +kernel
  rw [hbounds, hnil] at hs
  cases hs
  simp at hmem

end CodeIndexer.Temporal
