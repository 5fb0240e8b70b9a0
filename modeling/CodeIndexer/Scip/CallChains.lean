import CodeIndexer.Lib.RecursiveQuery
import CodeIndexer.Lib.Separator
import CodeIndexer.Scip.SymbolExpansion

/-!
# Call chains

`trace_call_chain_v2` looks for the ways along which references lead from one symbol to another. One
recursive query does it: it collects the symbols from which a target is within reach, walks forward from
the sources through those only, and carries the walk along in two texts, the ids joined by commas and the
names joined by `|||`. The ids tell whether the next symbol was met before; the names are split again
afterwards, for the caller.

What it should return is in `Walk`: the walks that repeat no symbol before their last.
-/

namespace CodeIndexer.Scip

open PyText RecursiveQuery Separator List

structure Reference where
  fromSymbolId : ℕ
  toSymbolId : ℕ
deriving DecidableEq

/-- The tables the query reads. `to_symbol_id` is a foreign key. -/
structure Database where
  symbols : Symbols
  references : List Reference
  resolved : ∀ r ∈ references, ∃ s ∈ symbols.rows, s.id = r.toSymbolId

namespace CallChain

/-! ### The query -/

structure BackwardRow where
  symbolId : ℕ
  depth : ℕ
deriving DecidableEq

def backwardInit (targets : List ℕ) : List BackwardRow := targets.map fun i => ⟨i, 0⟩

def backwardStep (db : Database) (maxDepth : ℕ) (br : BackwardRow) : List BackwardRow :=
  if br.depth < maxDepth then
    ((db.references.filter fun sr => sr.toSymbolId = br.symbolId).map fun sr =>
      ⟨sr.fromSymbolId, br.depth + 1⟩).dedup
  else []

def pathSep : Str := ['|', '|', '|']

/-- `pathSymbols` is `NULL` where the name of a source is not found. -/
structure ForwardRow where
  symbolId : ℕ
  pathIds : Str
  pathSymbols : Option Str
  depth : ℕ
  hasCycle : Bool
deriving DecidableEq

def nameOf (T : Symbols) (i : ℕ) : Option Str := (T.rows.find? fun s => s.id = i).map Symbol.name

def forwardInit (db : Database) (sources : List ℕ) : List ForwardRow :=
  sources.map fun i => ⟨i, natStr i, nameOf db.symbols i, 0, false⟩

/-- `instr(',' || path_ids || ',', ',' || to_symbol_id || ',') > 0`. -/
def onPath (pathIds : Str) (i : ℕ) : Bool := ',' :: (natStr i ++ [',']) <:+: ',' :: (pathIds ++ [','])

/-- A walk prolonged by a reference, with `symbols` joined for the name of the symbol it leads to. -/
def prolong (db : Database) (fp : ForwardRow) (sr : Reference) : List ForwardRow :=
  (db.symbols.rows.filter fun s => s.id = sr.toSymbolId).map fun s =>
    ⟨sr.toSymbolId, fp.pathIds ++ ',' :: natStr sr.toSymbolId,
      fp.pathSymbols.map fun p => p ++ (pathSep ++ s.name), fp.depth + 1, onPath fp.pathIds sr.toSymbolId⟩

def forwardStep (db : Database) (maxDepth : ℕ) (reachable : List ℕ) (fp : ForwardRow) : List ForwardRow :=
  if fp.depth < maxDepth ∧ fp.hasCycle = false then
    (db.references.filter fun sr => sr.fromSymbolId = fp.symbolId ∧ sr.toSymbolId ∈ reachable).flatMap
      (prolong db fp)
  else []

structure ResultRow where
  pathSymbols : Option Str
  pathIds : Str
  depth : ℕ
  hasCycle : Bool
deriving DecidableEq

def ForwardRow.result (fp : ForwardRow) : ResultRow := ⟨fp.pathSymbols, fp.pathIds, fp.depth, fp.hasCycle⟩

def queryRows (fuel : ℕ) (db : Database) (sources targets : List ℕ) (maxDepth : ℕ) (limit : ℤ) :
    Option (List ResultRow) := do
  let backward ← eval (backwardStep db maxDepth) fuel (backwardInit targets)
  let forward ← eval (forwardStep db maxDepth (backward.map BackwardRow.symbolId)) fuel (forwardInit db sources)
  let found := ((forward.filter fun fp => fp.symbolId ∈ targets).map ForwardRow.result).dedup
  let ordered := found.mergeSort fun r r' => r.depth ≤ r'.depth
  return if 0 < limit then ordered.take limit.toNat else ordered

/-! ### The functions -/

structure Chain where
  path : List Str
  length : ℕ
  hasCycle : Bool
deriving DecidableEq

inductive Failure
  /-- `ValueError`: the depth is below 1. -/
  | maxDepth (given : ℤ)
  /-- `AttributeError`: a row without names is split. -/
  | noNames
deriving DecidableEq

abbrev Answer := Except Failure (List Chain × Option Str)

def maxDepthCap : ℤ := 3

def cappedDepth (maxDepth : ℤ) : ℤ := if maxDepth > maxDepthCap then maxDepthCap else maxDepth

def chainOfRow (row : ResultRow) : Except Failure Chain :=
  match row.pathSymbols with
  | none => .error .noNames
  | some names => .ok ⟨splitBy pathSep names, row.depth, row.hasCycle⟩

def timeoutMessage (timeoutSeconds : ℕ) : Str :=
  "Query exceeded " ++ natStr timeoutSeconds ++
    "-second timeout. Try reducing depth or narrowing search."

/-- What is left to do once the query has been sent; `alarm` says that the time is over before it ends. -/
def answer (alarm : Bool) (timeoutSeconds : ℕ) (rows : List ResultRow) : Answer :=
  if alarm then .ok ([], some (timeoutMessage timeoutSeconds))
  else (rows.mapM chainOfRow).map fun chains => (chains, none)

def traceCallChainV2 (fuel : ℕ) (db : Database) (fromSymbolId toSymbolId : ℕ) (maxDepth limit : ℤ)
    (timeoutSeconds : ℕ) (alarm : Bool) : Option Answer :=
  if cappedDepth maxDepth < 1 ∨ cappedDepth maxDepth > 10 then
    some (.error (.maxDepth (cappedDepth maxDepth)))
  else
    (queryRows fuel db (sourceSymbols db.symbols fromSymbolId) (targetSymbols db.symbols toSymbolId)
      (cappedDepth maxDepth).toNat limit).map (answer alarm timeoutSeconds)

def traceCallChainV2Batched (fuel : ℕ) (db : Database) (fromSymbolIds toSymbolIds : List ℕ)
    (maxDepth limit : ℤ) (timeoutSeconds : ℕ) (alarm : Bool) : Option Answer :=
  if cappedDepth maxDepth < 1 ∨ cappedDepth maxDepth > 10 then
    some (.error (.maxDepth (cappedDepth maxDepth)))
  else if fromSymbolIds = [] ∨ toSymbolIds = [] then
    some (.ok ([], none))
  else
    (queryRows fuel db (Batched.sourceSymbols db.symbols fromSymbolIds)
      (Batched.targetSymbols db.symbols toSymbolIds) (cappedDepth maxDepth).toNat limit).map
        (answer alarm timeoutSeconds)

/-! ### Walks -/

def Edge (db : Database) (i j : ℕ) : Prop := ∃ r ∈ db.references, r.fromSymbolId = i ∧ r.toSymbolId = j

/-- A walk of at most `d` references from a source to a target, with no symbol twice before its last. -/
structure Walk (db : Database) (sources targets : List ℕ) (d : ℕ) (w : List ℕ) : Prop where
  head : ∃ i ∈ w.head?, i ∈ sources
  last : ∃ i ∈ w.getLast?, i ∈ targets
  edges : w.IsChain (Edge db)
  nodup : w.dropLast.Nodup
  length_le : w.length ≤ d + 1

def endsInCycle (w : List ℕ) : Bool := w.getLast?.any (· ∈ w.dropLast)

def symbolName (T : Symbols) (i : ℕ) : Str := (nameOf T i).getD []

def chainOf (T : Symbols) (w : List ℕ) : Chain := ⟨w.map (symbolName T), w.length - 1, endsInCycle w⟩

/-- The chains of exactly the walks in `IsWalk`, each once. -/
def Lists (T : Symbols) (IsWalk : List ℕ → Prop) (chains : List Chain) : Prop :=
  ∃ walks : List (List ℕ), walks.Nodup ∧ (∀ w, w ∈ walks ↔ IsWalk w) ∧ chains = walks.map (chainOf T)

/-- The call comes back in time, with chains that `Q` holds of. -/
def Returns (call : ℕ → Option Answer) (Q : List Chain → Prop) : Prop :=
  ∃ chains, Q chains ∧ ∃ fuel₀, ∀ fuel ≥ fuel₀, call fuel = some (.ok (chains, none))

/-- No name before the last ends in the character that the separator is made of. -/
def Readable (T : Symbols) (w : List ℕ) : Prop := ∀ i ∈ w.dropLast, ¬ ['|'] <:+ symbolName T i

/-! ### The two texts of a walk -/

def idText (w : List ℕ) : Str := [','].intercalate (w.map natStr)

def nameText (T : Symbols) (w : List ℕ) : Str := pathSep.intercalate (w.map (symbolName T))

variable {w ids : List ℕ} {T : Symbols} {i : ℕ} {db : Database} {fp : ForwardRow}

theorem comma_notMem : ∀ t ∈ w.map natStr, ',' ∉ t := by
  intro t ht
  obtain ⟨i, -, rfl⟩ := mem_map.mp ht
  exact notMem_natStr rfl i

theorem idText_concat (hne : w ≠ []) (j : ℕ) : idText (w ++ [j]) = idText w ++ ',' :: natStr j := by
  rw [idText, map_append, map_singleton, intercalate_concat (by simpa using hne)]; rfl

theorem nameText_concat (T : Symbols) (hne : w ≠ []) (j : ℕ) :
    nameText T (w ++ [j]) = nameText T w ++ (pathSep ++ symbolName T j) := by
  rw [nameText, map_append, map_singleton, intercalate_concat (by simpa using hne)]; rfl

theorem onPath_idText (hne : w ≠ []) (j : ℕ) : onPath (idText w) j = decide (j ∈ w) := by
  have hmem : natStr j ∈ w.map natStr ↔ j ∈ w := mem_map_of_injective natStr_injective
  rw [onPath, idText, decide_eq_decide, infix_intercalate_iff (by simpa using hne) (notMem_natStr rfl j)
    comma_notMem, hmem]

theorem idText_inj {w' : List ℕ} (hne : w ≠ []) (hne' : w' ≠ []) (h : idText w = idText w') : w = w' := by
  have hsplit := congrArg (List.splitOn ',') h
  rw [idText, idText, splitOn_intercalate _ comma_notMem (by simpa using hne),
    splitOn_intercalate _ comma_notMem (by simpa using hne')] at hsplit
  exact map_injective_iff.mpr natStr_injective hsplit

/-! ### The rows of a walk -/

def Known (T : Symbols) (i : ℕ) : Prop := ∃ s ∈ T.rows, s.id = i

theorem nameOf_eq {s : Symbol} (hs : s ∈ T.rows) : nameOf T s.id = some s.name := by
  obtain ⟨s', hs'⟩ : ∃ s', T.rows.find? (fun t => t.id = s.id) = some s' := by
    rw [← Option.isSome_iff_exists, List.find?_isSome]
    exact ⟨s, hs, by simp⟩
  have hid : s'.id = s.id := by simpa using List.find?_some hs'
  rw [nameOf, hs', T.eq_of_id_eq (mem_of_find?_eq_some hs') hs hid]; rfl

theorem nameOf_of_known (hi : Known T i) : nameOf T i = some (symbolName T i) := by
  obtain ⟨s, hs, rfl⟩ := hi
  rw [symbolName, nameOf_eq hs]; rfl

def rowOf (T : Symbols) (w : List ℕ) : ForwardRow :=
  ⟨w.getLast?.getD 0, idText w, some (nameText T w), w.length - 1, endsInCycle w⟩

theorem endsInCycle_concat (w : List ℕ) (j : ℕ) : endsInCycle (w ++ [j]) = decide (j ∈ w) := by
  simp [endsInCycle]

theorem rowOf_singleton (hi : Known T i) : rowOf T [i] = ⟨i, natStr i, nameOf T i, 0, false⟩ := by
  rw [nameOf_of_known hi]
  simp [rowOf, idText, nameText, endsInCycle, intercalate_singleton]

theorem rowOf_concat (T : Symbols) (hne : w ≠ []) (j : ℕ) :
    rowOf T (w ++ [j]) =
      ⟨j, idText w ++ ',' :: natStr j, some (nameText T w ++ (pathSep ++ symbolName T j)), w.length - 1 + 1,
        decide (j ∈ w)⟩ := by
  have hlen : w.length - 1 + 1 = w.length := Nat.sub_add_cancel (length_pos_iff.mpr hne)
  rw [rowOf, idText_concat hne, nameText_concat T hne, endsInCycle_concat, hlen]; simp

theorem mem_prolong (hne : w ≠ []) {sr : Reference} (hsr : sr ∈ db.references) :
    fp ∈ prolong db (rowOf db.symbols w) sr ↔ fp = rowOf db.symbols (w ++ [sr.toSymbolId]) := by
  obtain ⟨s, hs, hid⟩ := db.resolved sr hsr
  have hname : symbolName db.symbols sr.toSymbolId = s.name := by
    rw [← hid, symbolName, nameOf_eq hs]; rfl
  have hpath : onPath (rowOf db.symbols w).pathIds sr.toSymbolId = decide (sr.toSymbolId ∈ w) :=
    onPath_idText hne _
  rw [rowOf_concat _ hne, hname, prolong, hpath]
  simp only [mem_map, mem_filter, decide_eq_true_eq]
  constructor
  · rintro ⟨s', ⟨hs', hid'⟩, rfl⟩
    rw [db.symbols.eq_of_id_eq hs' hs (hid'.trans hid.symm)]; rfl
  · rintro rfl
    exact ⟨s, ⟨hs, hid⟩, rfl⟩

theorem mem_forwardStep {d : ℕ} {reachable : List ℕ} (hlast : w.getLast? = some i) :
    fp ∈ forwardStep db d reachable (rowOf db.symbols w) ↔
      (w.length - 1 < d ∧ endsInCycle w = false) ∧
        ∃ j, Edge db i j ∧ j ∈ reachable ∧ fp = rowOf db.symbols (w ++ [j]) := by
  have hne : w ≠ [] := by rintro rfl; cases hlast
  have hid : (rowOf db.symbols w).symbolId = i := by rw [rowOf, hlast]; rfl
  rw [forwardStep, mem_ite_nil_right, hid]
  refine and_congr Iff.rfl ?_
  simp only [mem_flatMap, mem_filter, decide_eq_true_eq]
  constructor
  · rintro ⟨sr, ⟨hsr, hfrom, hreach⟩, hfp⟩
    exact ⟨sr.toSymbolId, ⟨sr, hsr, hfrom, rfl⟩, hreach, (mem_prolong hne hsr).mp hfp⟩
  · rintro ⟨j, ⟨sr, hsr, hfrom, rfl⟩, hreach, hfp⟩
    exact ⟨sr, ⟨hsr, hfrom, hreach⟩, (mem_prolong hne hsr).mpr hfp⟩

/-! ### Which walks the query finds -/

/-- A walk as in `Walk`, through reachable symbols and to any end. -/
structure Explored (db : Database) (sources reachable : List ℕ) (d : ℕ) (w : List ℕ) : Prop where
  head : ∃ i ∈ w.head?, i ∈ sources
  edges : w.IsChain (Edge db)
  nodup : w.dropLast.Nodup
  length_le : w.length ≤ d + 1
  reach : ∀ j ∈ w.tail, j ∈ reachable

section
variable {db : Database} {sources reachable : List ℕ} {d : ℕ} {w : List ℕ}

variable {i : ℕ} {targets : List ℕ}

theorem nodup_iff_endsInCycle (hlast : w.getLast? = some i) : w.Nodup ↔ w.dropLast.Nodup ∧ endsInCycle w = false := by
  obtain ⟨w, rfl⟩ := List.getLast?_eq_some_iff.mp hlast
  rw [endsInCycle_concat, dropLast_concat, nodup_append_comm, singleton_append, nodup_cons]
  simp [and_comm]

theorem explored_concat_iff {j : ℕ} (hlast : w.getLast? = some i) :
    Explored db sources reachable d (w ++ [j]) ↔
      Explored db sources reachable d w ∧ (w.length - 1 < d ∧ endsInCycle w = false) ∧ Edge db i j ∧
        j ∈ reachable := by
  have hne : w ≠ [] := by rintro rfl; cases hlast
  have hpos : 0 < w.length := length_pos_iff.mpr hne
  have hhead : (w ++ [j]).head? = w.head? := List.head?_append_of_ne_nil w hne
  have htail : (w ++ [j]).tail = w.tail ++ [j] := tail_append_of_ne_nil hne
  have hedges : (w ++ [j]).IsChain (Edge db) ↔ w.IsChain (Edge db) ∧ Edge db i j := by
    simp [isChain_append, hlast]
  constructor
  · rintro ⟨h1, h2, h3, h4, h5⟩
    rw [hhead] at h1; rw [hedges] at h2; rw [dropLast_concat, nodup_iff_endsInCycle hlast] at h3
    rw [htail] at h5; simp only [length_append, length_singleton] at h4
    refine ⟨⟨h1, h2.1, h3.1, by omega, fun k hk => h5 k (by simp [hk])⟩, ⟨by omega, h3.2⟩, h2.2, h5 j (by simp)⟩
  · rintro ⟨⟨h1, h2, h3, h4, h5⟩, ⟨hlen, hcyc⟩, hedge, hj⟩
    refine ⟨by rwa [hhead], hedges.mpr ⟨h2, hedge⟩, ?_, ?_, ?_⟩
    · rw [dropLast_concat, nodup_iff_endsInCycle hlast]; exact ⟨h3, hcyc⟩
    · simp only [length_append, length_singleton]; omega
    · rw [htail]; intro k hk
      rcases mem_append.mp hk with hk | hk
      · exact h5 k hk
      · rwa [mem_singleton.mp hk]

theorem explored_singleton_iff : Explored db sources reachable d [i] ↔ i ∈ sources := by
  constructor
  · rintro ⟨⟨k, hk, hin⟩, -⟩
    cases hk; exact hin
  · intro hi
    exact ⟨⟨i, rfl, hi⟩, by simp, by simp, by simp, by simp⟩

theorem Explored.ne_nil (h : Explored db sources reachable d w) : w ≠ [] := by
  rintro rfl
  obtain ⟨⟨i, hi, -⟩, -⟩ := h
  cases hi

theorem derived_forward_iff (hknown : ∀ i ∈ sources, Known db.symbols i) {fp : ForwardRow} :
    Derived (forwardInit db sources) (forwardStep db d reachable) fp ↔
      ∃ w, Explored db sources reachable d w ∧ fp = rowOf db.symbols w := by
  constructor
  · intro h
    induction h with
    | base hr =>
      obtain ⟨i, hi, rfl⟩ := mem_map.mp hr
      exact ⟨[i], explored_singleton_iff.mpr hi, (rowOf_singleton (hknown i hi)).symm⟩
    | next _ hstep ih =>
      obtain ⟨w, hw, rfl⟩ := ih
      have hlast := List.getLast?_eq_some_getLast hw.ne_nil
      obtain ⟨hcond, j, hedge, hj, rfl⟩ := (mem_forwardStep hlast).mp hstep
      exact ⟨w ++ [j], (explored_concat_iff hlast).mpr ⟨hw, hcond, hedge, hj⟩, rfl⟩
  · rintro ⟨w, hw, rfl⟩
    -- the walk is built up from its first symbol
    induction w using List.reverseRecOn with
    | nil => exact absurd rfl hw.ne_nil
    | append_singleton w j ih =>
      by_cases hne : w = []
      · subst hne
        have hj := explored_singleton_iff.mp hw
        refine .base (mem_map.mpr ⟨j, hj, ?_⟩)
        exact (rowOf_singleton (hknown j hj)).symm
      · have hlast := List.getLast?_eq_some_getLast hne
        obtain ⟨hw', hcond, hedge, hj⟩ := (explored_concat_iff hlast).mp hw
        exact .next (ih hw') ((mem_forwardStep hlast).mpr ⟨hcond, j, hedge, hj, rfl⟩)

theorem derived_backward {rest : List ℕ} (hedges : (i :: rest).IsChain (Edge db))
    (hlast : ∃ t ∈ (i :: rest).getLast?, t ∈ targets) (hlen : rest.length ≤ d) :
    Derived (backwardInit targets) (backwardStep db d) ⟨i, rest.length⟩ := by
  induction rest generalizing i with
  | nil =>
    obtain ⟨t, ht, hin⟩ := hlast
    cases ht
    exact .base (mem_map.mpr ⟨i, hin, rfl⟩)
  | cons j rest ih =>
    obtain ⟨⟨sr, hsr, hfrom, hto⟩, hedges⟩ := isChain_cons_cons.mp hedges
    have hrest : rest.length < d := hlen
    refine .next (ih hedges (by simpa using hlast) hrest.le) ?_
    rw [backwardStep, if_pos hrest, mem_dedup]
    refine mem_map.mpr ⟨sr, mem_filter.mpr ⟨hsr, decide_eq_true hto⟩, ?_⟩
    rw [hfrom]; rfl

theorem Walk.ne_nil (h : Walk db sources targets d w) : w ≠ [] := by
  rintro rfl
  obtain ⟨⟨i, hi, -⟩, -⟩ := h
  cases hi

/-- Leaving out the symbols from which no target is in reach loses no walk. -/
theorem walk_iff_explored
    (hreach : ∀ i k, Derived (backwardInit targets) (backwardStep db d) ⟨i, k⟩ → i ∈ reachable) :
    Walk db sources targets d w ↔
      Explored db sources reachable d w ∧ ∃ t ∈ w.getLast?, t ∈ targets := by
  constructor
  · intro h
    refine ⟨⟨h.head, h.edges, h.nodup, h.length_le, ?_⟩, h.last⟩
    intro j hj
    obtain ⟨before, after, htail⟩ := append_of_mem hj
    obtain ⟨i, rest, rfl⟩ := exists_cons_of_ne_nil h.ne_nil
    obtain rfl : rest = before ++ j :: after := htail
    have hchain : (j :: after).IsChain (Edge db) :=
      h.edges.suffix ((suffix_append before _).trans (suffix_cons i _))
    have hlast : ∃ t ∈ (j :: after).getLast?, t ∈ targets := by
      simpa [List.getLast?_cons, List.getLast?_append] using h.last
    have hlen : after.length ≤ d := by
      have := h.length_le
      simp only [length_cons, length_append] at this
      omega
    exact hreach j _ (derived_backward hchain hlast hlen)
  · rintro ⟨h, hlast⟩
    exact ⟨h.head, hlast, h.edges, h.nodup, h.length_le⟩

/-! ### What the query returns -/

def resultOf (T : Symbols) (w : List ℕ) : ResultRow := (rowOf T w).result

theorem resultOf_inj {T : Symbols} {w' : List ℕ} (hne : w ≠ []) (hne' : w' ≠ [])
    (h : resultOf T w = resultOf T w') : w = w' :=
  idText_inj hne hne' (congrArg ResultRow.pathIds h)

theorem backward_ends (db : Database) (targets : List ℕ) (d : ℕ) :
    ∃ out fuel₀, ∀ fuel ≥ fuel₀, eval (backwardStep db d) fuel (backwardInit targets) = some out := by
  refine exists_eval_eq_of_depth BackwardRow.depth d ?_ ?_
  · intro r hr
    obtain ⟨i, -, rfl⟩ := mem_map.mp hr; rfl
  · intro r r' hr'
    rw [backwardStep, mem_ite_nil_right, mem_dedup] at hr'
    obtain ⟨hlt, hr'⟩ := hr'
    obtain ⟨sr, -, rfl⟩ := mem_map.mp hr'
    exact ⟨hlt, rfl⟩

theorem forward_ends (db : Database) (sources reachable : List ℕ) (d : ℕ) :
    ∃ out fuel₀, ∀ fuel ≥ fuel₀,
      eval (forwardStep db d reachable) fuel (forwardInit db sources) = some out := by
  refine exists_eval_eq_of_depth ForwardRow.depth d ?_ ?_
  · intro r hr
    obtain ⟨i, -, rfl⟩ := mem_map.mp hr; rfl
  · intro r r' hr'
    rw [forwardStep, mem_ite_nil_right] at hr'
    obtain ⟨⟨hlt, -⟩, hr'⟩ := hr'
    obtain ⟨sr, -, hr'⟩ := mem_flatMap.mp hr'
    obtain ⟨s, -, rfl⟩ := mem_map.mp hr'
    exact ⟨hlt, rfl⟩

theorem exists_map_eq {α β : Type*} {P : α → Prop} {code : α → β}
    (hinj : ∀ a b, P a → P b → code a = code b → a = b) {codes : List β} (hnodup : codes.Nodup)
    (hmem : ∀ c, c ∈ codes ↔ ∃ a, P a ∧ c = code a) :
    ∃ as : List α, as.Nodup ∧ (∀ a, a ∈ as ↔ P a) ∧ codes = as.map code := by
  have hrange : codes ∈ Set.range (List.map fun a : {a // P a} => code a) := by
    rw [Set.range_list_map]
    intro c hc
    obtain ⟨a, ha, rfl⟩ := (hmem c).mp hc
    exact ⟨⟨a, ha⟩, rfl⟩
  obtain ⟨as, rfl⟩ := hrange
  have hcodes : as.map (fun a : {a // P a} => code a) = (as.map Subtype.val).map code := by
    rw [map_map]; rfl
  refine ⟨as.map Subtype.val, .of_map code (hcodes ▸ hnodup), ?_, hcodes⟩
  intro a; constructor
  · intro ha
    obtain ⟨a', -, rfl⟩ := mem_map.mp ha
    exact a'.2
  · intro ha
    obtain ⟨a', ha', hcode⟩ := mem_map.mp ((hmem _).mpr ⟨a, ha, rfl⟩)
    rw [← hinj a' a a'.2 ha hcode]
    exact mem_map_of_mem ha'

theorem exists_queryRows_eq (targets : List ℕ) (hknown : ∀ i ∈ sources, Known db.symbols i) :
    ∃ walks : List (List ℕ), walks.Nodup ∧ (∀ w, w ∈ walks ↔ Walk db sources targets d w) ∧
      ∃ fuel₀, ∀ fuel ≥ fuel₀,
        queryRows fuel db sources targets d 0 = some (walks.map (resultOf db.symbols)) := by
  obtain ⟨backward, fuel₁, hbackward⟩ := backward_ends db targets d
  obtain ⟨forward, fuel₂, hforward⟩ := forward_ends db sources (backward.map BackwardRow.symbolId) d
  have hback := (eval_spec (hbackward fuel₁ le_rfl)).2
  have hfor := (eval_spec (hforward fuel₂ le_rfl)).2
  have hwalk : ∀ w, Walk db sources targets d w ↔
      Explored db sources (backward.map BackwardRow.symbolId) d w ∧ ∃ t ∈ w.getLast?, t ∈ targets := by
    intro w
    refine walk_iff_explored fun i k hik => ?_
    exact mem_map.mpr ⟨⟨i, k⟩, (hback _).mpr hik, rfl⟩
  let found := ((forward.filter fun fp => fp.symbolId ∈ targets).map ForwardRow.result).dedup
  have hmem : ∀ r, r ∈ found ↔ ∃ w, Walk db sources targets d w ∧ r = resultOf db.symbols w := by
    intro r
    simp only [found, mem_dedup, mem_map, mem_filter, decide_eq_true_eq, hfor,
      derived_forward_iff hknown, hwalk]
    constructor
    · rintro ⟨_, ⟨⟨w, hw, rfl⟩, htarget⟩, rfl⟩
      have hlast := List.getLast?_eq_some_getLast hw.ne_nil
      refine ⟨w, ⟨hw, _, hlast, ?_⟩, rfl⟩
      simpa [rowOf, hlast] using htarget
    · rintro ⟨w, ⟨hw, t, ht, htarget⟩, rfl⟩
      refine ⟨_, ⟨⟨w, hw, rfl⟩, ?_⟩, rfl⟩
      simpa [rowOf, Option.mem_def.mp ht] using htarget
  let ordered := found.mergeSort fun r r' => r.depth ≤ r'.depth
  have hperm : ordered.Perm found := mergeSort_perm _ _
  obtain ⟨walks, hnodup, hwalks, hrows⟩ :=
    exists_map_eq (fun w w' hw hw' => resultOf_inj (T := db.symbols) hw.ne_nil hw'.ne_nil)
      (hperm.nodup_iff.mpr (nodup_dedup _)) (fun r => hperm.mem_iff.trans (hmem r))
  refine ⟨walks, hnodup, hwalks, max fuel₁ fuel₂, ?_⟩
  intro fuel hfuel
  rw [queryRows, hbackward fuel (le_of_max_le_left hfuel), Option.bind_eq_bind, Option.bind_some,
    hforward fuel (le_of_max_le_right hfuel), ← hrows]
  rfl

end

/-! ### What is read back -/

def decoded (T : Symbols) (w : List ℕ) : Chain :=
  ⟨splitBy pathSep (nameText T w), w.length - 1, endsInCycle w⟩

theorem answer_map_resultOf (T : Symbols) (timeoutSeconds : ℕ) (walks : List (List ℕ)) :
    answer false timeoutSeconds (walks.map (resultOf T)) = .ok (walks.map (decoded T), none) := by
  have hmap : (walks.map (resultOf T)).mapM chainOfRow = .ok (walks.map (decoded T)) := by
    rw [mapM_map]; exact mapM_pure
  rw [answer, hmap]; rfl

section
variable {T : Symbols} {w : List ℕ}

theorem pathSep_ne_nil : pathSep ≠ [] := by decide

theorem no_separator_in_name (hsep : ∀ s ∈ T.rows, ¬ pathSep <:+: s.name) (i : ℕ) : ¬ pathSep <:+: symbolName T i := by
  rw [symbolName, nameOf]
  cases hfind : T.rows.find? fun s => s.id = i with
  | none => intro h; cases eq_nil_of_infix_nil h
  | some s => exact hsep s (mem_of_find?_eq_some hfind)

theorem early_separator_iff {n : Str} (hn : ¬ pathSep <:+: n) : pathSep <:+: n ++ pathSep.dropLast ↔ ['|'] <:+ n := by
  have hone : ['|', '|'] ++ ['|'] <:+ n ++ ['|'] ↔ ['|', '|'] <:+ n := by
    rw [suffix_append_inj_of_length_eq rfl, and_iff_left rfl]
  have htwo : ['|'] ++ ['|', '|'] <:+ n ++ ['|', '|'] ↔ ['|'] <:+ n := by
    rw [suffix_append_inj_of_length_eq rfl, and_iff_left rfl]
  have hbar : ['|', '|'] <:+ n → ['|'] <:+ n := (suffix_append ['|'] ['|']).trans
  have hassoc : n ++ pathSep.dropLast = n ++ ['|'] ++ ['|'] := by simp [pathSep]
  rw [hassoc, infix_concat_iff, infix_concat_iff, or_iff_left hn, ← append_cons]
  constructor
  · rintro (h | h)
    · exact htwo.mp h
    · exact hbar (hone.mp h)
  · exact fun h => .inl (htwo.mpr h)

theorem decoded_eq_iff (hsep : ∀ s ∈ T.rows, ¬ pathSep <:+: s.name) (hne : w ≠ []) :
    decoded T w = chainOf T w ↔ Readable T w := by
  have hname := no_separator_in_name hsep
  have hsplit : splitBy pathSep (nameText T w) = w.map (symbolName T) ↔ Readable T w := by
    rw [nameText, splitBy_intercalate_iff pathSep_ne_nil (by simpa using hne), ← map_dropLast,
      List.getLast?_map]
    simp only [forall_mem_map, early_separator_iff (hname _), Readable]
    refine and_iff_left ?_
    intro n hn
    obtain ⟨i, -, rfl⟩ := Option.mem_map.mp hn
    exact hname i
  rw [decoded, chainOf, ← hsplit]
  simp

theorem lists_decoded_iff (hsep : ∀ s ∈ T.rows, ¬ pathSep <:+: s.name) {IsWalk : List ℕ → Prop}
    (hne : ∀ w, IsWalk w → w ≠ []) {walks : List (List ℕ)} (hnodup : walks.Nodup)
    (hmem : ∀ w, w ∈ walks ↔ IsWalk w) :
    Lists T IsWalk (walks.map (decoded T)) ↔ ∀ w, IsWalk w → Readable T w := by
  constructor
  · rintro ⟨walks', -, hmem', heq⟩ w hw
    -- the chain of `w` is the text of some walk read back, which then is the text of `w`
    have hchain : chainOf T w ∈ walks.map (decoded T) := by
      rw [heq]; exact mem_map_of_mem ((hmem' w).mpr hw)
    obtain ⟨w', -, hw'⟩ := mem_map.mp hchain
    have hpath : splitBy pathSep (nameText T w') = w.map (symbolName T) := congrArg Chain.path hw'
    have htext : nameText T w' = nameText T w := by
      rw [← intercalate_splitBy pathSep_ne_nil (nameText T w'), hpath]; rfl
    rw [htext] at hpath
    refine (decoded_eq_iff hsep (hne w hw)).mp ?_
    rw [decoded, hpath, chainOf]
  · intro h
    refine ⟨walks, hnodup, hmem, map_congr_left ?_⟩
    intro w hw
    have hw := (hmem w).mp hw
    exact (decoded_eq_iff hsep (hne w hw)).mpr (h w hw)

end

/-! ### The calls -/

theorem returns_iff {call : ℕ → Option Answer} {Q : List Chain → Prop} {chains : List Chain}
    (h : ∃ fuel₀, ∀ fuel ≥ fuel₀, call fuel = some (.ok (chains, none))) : Returns call Q ↔ Q chains := by
  constructor
  · rintro ⟨chains', hQ, fuel₁, h₁⟩
    obtain ⟨fuel₀, h₀⟩ := h
    have heq := (h₀ _ (le_max_left fuel₀ fuel₁)).symm.trans (h₁ _ (le_max_right fuel₀ fuel₁))
    obtain rfl : chains = chains' := by simpa using heq
    exact hQ
  · exact fun hQ => ⟨chains, hQ, h⟩

theorem mem_classesAndMethods_iff : i ∈ classesAndMethods T ids ↔ ∃ k ∈ ids, i ∈ classesAndMethods T [k] := by
  simp only [classesAndMethods, mem_dedup, mem_append, mem_map, mem_filter,
    any_eq_true, decide_eq_true_eq, mem_singleton]
  constructor
  · rintro (hi | ⟨s, ⟨hs, src, hsrc, hid, hlike⟩, rfl⟩)
    · exact ⟨i, hi, .inl rfl⟩
    · exact ⟨src.id, hid, .inr ⟨s, ⟨hs, src, hsrc, rfl, hlike⟩, rfl⟩⟩
  · rintro ⟨k, hk, rfl | ⟨s, ⟨hs, src, hsrc, rfl, hlike⟩, rfl⟩⟩
    · exact .inl hk
    · exact .inr ⟨s, ⟨hs, src, hsrc, hk, hlike⟩, rfl⟩

theorem known_of_mem_classesAndMethods (hids : ∀ k ∈ ids, Known T k)
    (hi : i ∈ classesAndMethods T ids) : Known T i := by
  simp only [classesAndMethods, mem_dedup, mem_append, mem_map, mem_filter] at hi
  rcases hi with hi | ⟨s, ⟨hs, -⟩, rfl⟩
  · exact hids i hi
  · exact ⟨s, hs, rfl⟩

section
variable {db : Database} {d : ℕ} {w : List ℕ}

theorem walk_batched_iff {fromIds toIds : List ℕ} :
    Walk db (Batched.sourceSymbols db.symbols fromIds) (Batched.targetSymbols db.symbols toIds) d w ↔
      ∃ i ∈ fromIds, ∃ j ∈ toIds, Walk db (sourceSymbols db.symbols i) (targetSymbols db.symbols j) d w := by
  constructor
  · rintro ⟨⟨a, ha, hsource⟩, ⟨b, hb, htarget⟩, hedges, hnodup, hlen⟩
    obtain ⟨i, hi, hsource⟩ := mem_classesAndMethods_iff.mp hsource
    obtain ⟨j, hj, htarget⟩ := mem_classesAndMethods_iff.mp htarget
    exact ⟨i, hi, j, hj, ⟨a, ha, hsource⟩, ⟨b, hb, htarget⟩, hedges, hnodup, hlen⟩
  · rintro ⟨i, hi, j, hj, ⟨a, ha, hsource⟩, ⟨b, hb, htarget⟩, hedges, hnodup, hlen⟩
    exact ⟨⟨a, ha, mem_classesAndMethods_iff.mpr ⟨i, hi, hsource⟩⟩,
      ⟨b, hb, mem_classesAndMethods_iff.mpr ⟨j, hj, htarget⟩⟩, hedges, hnodup, hlen⟩

theorem returns_query_iff (hsep : ∀ s ∈ db.symbols.rows, ¬ pathSep <:+: s.name) {sources targets : List ℕ}
    (hknown : ∀ i ∈ sources, Known db.symbols i) (timeoutSeconds : ℕ) :
    Returns (fun fuel => (queryRows fuel db sources targets d 0).map (answer false timeoutSeconds))
        (Lists db.symbols (Walk db sources targets d)) ↔
      ∀ w, Walk db sources targets d w → Readable db.symbols w := by
  obtain ⟨walks, hnodup, hmem, fuel₀, hrows⟩ := exists_queryRows_eq targets (d := d) hknown
  have hcall : ∃ fuel₀, ∀ fuel ≥ fuel₀,
      (queryRows fuel db sources targets d 0).map (answer false timeoutSeconds) =
        some (.ok (walks.map (decoded db.symbols), none)) := by
    refine ⟨fuel₀, fun fuel hfuel => ?_⟩
    rw [hrows fuel hfuel, Option.map_some, answer_map_resultOf]
  rw [returns_iff hcall, lists_decoded_iff hsep (fun w hw => hw.ne_nil) hnodup hmem]

end

section
variable {db : Database} {maxDepth : ℤ} {timeoutSeconds : ℕ}

theorem cappedDepth_of_le (hdepth : 1 ≤ maxDepth ∧ maxDepth ≤ 3) : cappedDepth maxDepth = maxDepth :=
  if_neg (by unfold maxDepthCap; omega)

theorem returns_trace_iff (hsep : ∀ s ∈ db.symbols.rows, ¬ pathSep <:+: s.name)
    (hdepth : 1 ≤ maxDepth ∧ maxDepth ≤ 3) {i j : ℕ} (hi : Known db.symbols i) :
    Returns (fun fuel => traceCallChainV2 fuel db i j maxDepth 0 timeoutSeconds false)
        (Lists db.symbols
          (Walk db (sourceSymbols db.symbols i) (targetSymbols db.symbols j) maxDepth.toNat)) ↔
      ∀ w, Walk db (sourceSymbols db.symbols i) (targetSymbols db.symbols j) maxDepth.toNat w →
        Readable db.symbols w := by
  have hcall : ∀ fuel, traceCallChainV2 fuel db i j maxDepth 0 timeoutSeconds false =
      (queryRows fuel db (sourceSymbols db.symbols i) (targetSymbols db.symbols j) maxDepth.toNat 0).map
        (answer false timeoutSeconds) := by
    intro fuel
    rw [traceCallChainV2, cappedDepth_of_le hdepth, if_neg (by omega)]
  simp only [hcall]
  exact returns_query_iff hsep
    (fun k hk => known_of_mem_classesAndMethods (by simpa using hi) hk) timeoutSeconds

theorem returns_batched_iff (hsep : ∀ s ∈ db.symbols.rows, ¬ pathSep <:+: s.name)
    (hdepth : 1 ≤ maxDepth ∧ maxDepth ≤ 3) {fromIds toIds : List ℕ}
    (hfrom : ∀ i ∈ fromIds, Known db.symbols i) :
    Returns (fun fuel => traceCallChainV2Batched fuel db fromIds toIds maxDepth 0 timeoutSeconds false)
        (Lists db.symbols fun w => ∃ i ∈ fromIds, ∃ j ∈ toIds,
          Walk db (sourceSymbols db.symbols i) (targetSymbols db.symbols j) maxDepth.toNat w) ↔
      ∀ w, (∃ i ∈ fromIds, ∃ j ∈ toIds,
          Walk db (sourceSymbols db.symbols i) (targetSymbols db.symbols j) maxDepth.toNat w) →
        Readable db.symbols w := by
  by_cases hempty : fromIds = [] ∨ toIds = []
  · -- without a pair the call ends before the query
    have hnone : ∀ w, ¬ ∃ i ∈ fromIds, ∃ j ∈ toIds,
        Walk db (sourceSymbols db.symbols i) (targetSymbols db.symbols j) maxDepth.toNat w := by
      rintro w ⟨i, hi, j, hj, -⟩
      rcases hempty with rfl | rfl
      · exact not_mem_nil hi
      · exact not_mem_nil hj
    refine iff_of_true ⟨[], ⟨[], nodup_nil, by simpa using hnone, rfl⟩, 0, ?_⟩
      (fun w hw => absurd hw (hnone w))
    intro fuel _
    beta_reduce
    rw [traceCallChainV2Batched, cappedDepth_of_le hdepth, if_neg (by omega), if_pos hempty]
  · have hcall : ∀ fuel, traceCallChainV2Batched fuel db fromIds toIds maxDepth 0 timeoutSeconds false =
        (queryRows fuel db (Batched.sourceSymbols db.symbols fromIds)
          (Batched.targetSymbols db.symbols toIds) maxDepth.toNat 0).map (answer false timeoutSeconds) := by
      intro fuel
      rw [traceCallChainV2Batched, cappedDepth_of_le hdepth, if_neg (by omega), if_neg hempty]
    simp only [hcall, ← walk_batched_iff]
    exact returns_query_iff hsep (fun k hk => known_of_mem_classesAndMethods hfrom hk) timeoutSeconds

end

theorem readable_of_names (h : ∀ s ∈ T.rows, ¬ ['|'] <:+ s.name) (w : List ℕ) : Readable T w := by
  intro i _
  rw [symbolName, nameOf]
  cases hfind : T.rows.find? fun s => s.id = i with
  | none => intro hbar; cases eq_nil_of_suffix_nil hbar
  | some s => exact h s (mem_of_find?_eq_some hfind)

def mutualCalls : Database :=
  ⟨⟨[⟨1, ['f']⟩, ⟨2, ['g']⟩], by decide⟩, [⟨1, 2⟩, ⟨2, 1⟩], by decide⟩

def barred : Database := ⟨⟨[⟨1, ['a', '|']⟩, ⟨2, ['b']⟩], by decide⟩, [⟨1, 2⟩], by decide⟩

end CallChain

end CodeIndexer.Scip
