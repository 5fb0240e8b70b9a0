import CodeIndexer.GlobalRepos.RegexTrigram

/-!
# The trigram index

`build` records each file with its trigrams, or as not indexed when it is unreadable or too large;
`query` intersects the posting lists of the required trigrams, the rarest first, in a table whose primary
key refuses a file twice. What a query returns is every file that is not indexed or has all required
trigrams (`query_build_perm`).

A file is its bytes, or nothing where `stat` or `read_bytes` raises `OSError`. The batches in which
rows are inserted and the temporary file that is moved into place bound memory and hide a half-built
index; neither changes what is stored.
-/

namespace CodeIndexer.TrigramIndex

open PyText Runs RegexTrigram List

def maxIndexBytes : ℕ := 5 * 1024 * 1024

def printable (b : UInt8) : Bool := (0x20 ≤ b.toNat && b.toNat ≤ 0x7E) || b ∈ [9, 10, 13]

def printableRuns (data : List UInt8) : List (List UInt8) :=
  (runs printable data).filter fun r => trigramLength ≤ r.length

def decodeAscii (bs : List UInt8) : Str := bs.map fun b => Char.ofNat b.toNat

variable (U : Unicode)

def fileTrigrams : Option (List UInt8) → List Str × Bool
  | none => ([], false)
  | some data =>
    if maxIndexBytes < data.length then ([], false)
    else (((printableRuns data).flatMap fun r => trigrams (U.lowered (decodeAscii r))).dedup, true)

structure FileRow where
  id : ℕ
  path : Str
  indexed : Bool

structure Db where
  files : List FileRow
  postings : List (Str × ℕ)

namespace Db

def insert (db : Db) (file : Str × Option (List UInt8)) : Db :=
  let id := db.files.length + 1
  ⟨db.files ++ [⟨id, file.1, (fileTrigrams U file.2).2⟩],
    db.postings ++ (fileTrigrams U file.2).1.map fun t => (t, id)⟩

def df (db : Db) (t : Str) : ℕ := db.postings.countP fun p => p.1 = t

def narrow (db : Db) : List ℕ → List Str → List ℕ
  | cand, [] => cand
  | cand, t :: ts =>
    let cand := cand.filter fun id => (t, id) ∈ db.postings
    if cand.isEmpty then cand else db.narrow cand ts

/-- `failed`: reading the database raises `sqlite3.Error`. So does an insertion into `cand` that would
break its primary key. -/
def query (db : Db) (failed : Bool) (required : List Str) : Option (List Str) :=
  if required.isEmpty || failed then none
  else
    let tris := (required.map U.lowered).dedup
    let always := (db.files.filter fun f => !f.indexed).map FileRow.path
    match tris.insertionSort fun a b => db.df a ≤ db.df b with
    | [] => none
    | t :: ts =>
      if db.df t = 0 then some always
      else
        let ids := (db.postings.filter fun p => p.1 = t).map Prod.snd
        if ids.Nodup then
          let cand := db.narrow ids ts
          some (always ++ (db.files.filter fun f => f.id ∈ cand).map FileRow.path)
        else none

end Db

def build (files : List (Str × Option (List UInt8))) : Db := files.foldl (Db.insert U) ⟨[], []⟩

/-! ### What a query returns -/

namespace Db

variable {U} {db : Db}

theorem mem_narrow {cand : List ℕ} {ts : List Str} {id : ℕ} :
    id ∈ db.narrow cand ts ↔ id ∈ cand ∧ ∀ t ∈ ts, (t, id) ∈ db.postings := by
  induction ts generalizing cand with
  | nil => simp [narrow]
  | cons t ts ih =>
    have hfilter : id ∈ cand.filter (fun id => (t, id) ∈ db.postings) ↔ id ∈ cand ∧ (t, id) ∈ db.postings := by
      simp
    rw [narrow]
    split
    · -- nothing is left, so `id` was not there or has been deleted
      rename_i hempty
      rw [isEmpty_iff.1 hempty] at hfilter ⊢
      simp only [mem_cons, forall_eq_or_imp, ← and_assoc, ← hfilter]
      simp
    · rw [ih, hfilter]
      simp [and_assoc]

theorem df_eq_zero_iff {t : Str} : db.df t = 0 ↔ ∀ id, (t, id) ∉ db.postings := by
  rw [df, countP_eq_zero]
  constructor
  · intro h id hid
    exact h (t, id) hid (by simp)
  · rintro h ⟨t', id⟩ hid ht
    obtain rfl : t' = t := by simpa using ht
    exact h id hid

theorem nodup_ids (h : db.postings.Nodup) (t : Str) : ((db.postings.filter fun p => p.1 = t).map Prod.snd).Nodup := by
  refine List.Nodup.map_on ?_ (h.filter _)
  rintro ⟨t₁, id₁⟩ h₁ ⟨t₂, id₂⟩ h₂ rfl
  simp only [mem_filter, decide_eq_true_eq] at h₁ h₂
  rw [h₁.2, h₂.2]

theorem mem_ids {t : Str} {id : ℕ} :
    id ∈ (db.postings.filter fun p => p.1 = t).map Prod.snd ↔ (t, id) ∈ db.postings := by
  simp

/-- A row that the query returns: not indexed, or with a posting for every required trigram. -/
def returns (db : Db) (U : Unicode) (required : List Str) (f : FileRow) : Bool :=
  !f.indexed || required.all fun t => (U.lowered t, f.id) ∈ db.postings

theorem filter_or_perm {l : List FileRow} {p q : FileRow → Bool} (h : ∀ f ∈ l, p f → q f = false) :
    (l.filter p ++ l.filter q).Perm (l.filter fun f => p f || q f) := by
  have hsplit := filter_append_perm p (l.filter fun f => p f || q f)
  rw [filter_filter, filter_filter] at hsplit
  have hleft : l.filter (fun f => p f && (p f || q f)) = l.filter p := by
    refine filter_congr fun f _ => ?_
    cases p f <;> rfl
  have hright : l.filter (fun f => !p f && (p f || q f)) = l.filter q := by
    refine filter_congr fun f hf => ?_
    cases hp : p f with
    | false => rfl
    | true => exact (h f hf hp).symm
  rwa [hleft, hright] at hsplit

/-- The query returns each such row once: `always` and `cand` share none, since a row that is not indexed has
no postings. -/
theorem query_perm (hpost : db.postings.Nodup)
    (hunindexed : ∀ f ∈ db.files, f.indexed = false → ∀ t, (t, f.id) ∉ db.postings)
    {required : List Str} (hreq : required ≠ []) :
    ∃ l, db.query U false required = some l ∧
      l.Perm ((db.files.filter (db.returns U required)).map FileRow.path) := by
  have hmem : ∀ u, u ∈ ((required.map U.lowered).dedup.insertionSort fun a b => db.df a ≤ db.df b) ↔
      ∃ t ∈ required, U.lowered t = u := by
    intro u
    rw [mem_insertionSort, mem_dedup, mem_map]
  rw [query, if_neg (by simp [hreq])]
  dsimp only
  split
  · rename_i hnil
    obtain ⟨t, required, rfl⟩ := exists_cons_of_ne_nil hreq
    have hcons := (hmem (U.lowered t)).2 ⟨t, mem_cons_self, rfl⟩
    rw [hnil] at hcons
    cases hcons
  · rename_i t ts hsort
    rw [hsort] at hmem
    have hall : ∀ id, (∀ u ∈ t :: ts, (u, id) ∈ db.postings) ↔ ∀ r ∈ required, (U.lowered r, id) ∈ db.postings := by
      simp [hmem]
    split
    · rename_i hdf
      rw [df_eq_zero_iff] at hdf
      refine ⟨_, rfl, ?_⟩
      have hnone : ∀ id, ¬ ∀ r ∈ required, (U.lowered r, id) ∈ db.postings :=
        fun id h => hdf id ((hall id).2 h t mem_cons_self)
      have hreturns : db.returns U required = fun f => !f.indexed := by
        funext f
        simpa [returns] using fun h => absurd h (hnone f.id)
      rw [hreturns]
    · rw [if_pos (nodup_ids hpost t)]
      refine ⟨_, rfl, ?_⟩
      have hcand : ∀ id, id ∈ db.narrow ((db.postings.filter fun p => p.1 = t).map Prod.snd) ts ↔
          ∀ r ∈ required, (U.lowered r, id) ∈ db.postings := by
        intro id
        rw [mem_narrow, mem_ids, ← hall id, forall_mem_cons]
      rw [← map_append]
      refine List.Perm.map _ ?_
      have hreturns : db.returns U required = fun f => !f.indexed ||
          decide (f.id ∈ db.narrow ((db.postings.filter fun p => p.1 = t).map Prod.snd) ts) := by
        funext f
        refine congrArg _ (Bool.eq_iff_iff.2 ?_)
        simp [hcand]
      rw [hreturns]
      refine filter_or_perm fun f hf hindexed => decide_eq_false fun hid => ?_
      obtain ⟨r, hr⟩ := exists_mem_of_ne_nil _ hreq
      exact hunindexed f hf (by simpa using hindexed) _ ((hcand f.id).1 hid r hr)

end Db

variable {U} {files : List (Str × Option (List UInt8))}

theorem build_concat (file : Str × Option (List UInt8)) :
    build U (files ++ [file]) = (build U files).insert U file := by
  simp [build]

theorem build_files : (build U files).files = files.zipIdx.map fun x => ⟨x.2 + 1, x.1.1, (fileTrigrams U x.1.2).2⟩ := by
  induction files using List.reverseRecOn with
  | nil => rfl
  | append_singleton files file ih => simp [build_concat, Db.insert, ih, zipIdx_append]

theorem build_postings : (build U files).postings =
    files.zipIdx.flatMap fun x => (fileTrigrams U x.1.2).1.map fun t => (t, x.2 + 1) := by
  induction files using List.reverseRecOn with
  | nil => rfl
  | append_singleton files file ih =>
    simp [build_concat, Db.insert, ih, build_files, zipIdx_append]

theorem nodup_fileTrigrams (data : Option (List UInt8)) : (fileTrigrams U data).1.Nodup := by
  unfold fileTrigrams
  split
  · exact nodup_nil
  · split
    · exact nodup_nil
    · exact nodup_dedup _

variable {t : Str} {required : List Str} {content : Option (List UInt8)} {data : List UInt8}

theorem mem_build_postings {x : (Str × Option (List UInt8)) × ℕ} (hx : x ∈ files.zipIdx) :
    (t, x.2 + 1) ∈ (build U files).postings ↔ t ∈ (fileTrigrams U x.1.2).1 := by
  rw [build_postings]
  simp only [mem_flatMap, mem_map, Prod.mk.injEq]
  constructor
  · rintro ⟨y, hy, t', ht, rfl, hid⟩
    rw [mem_zipIdx_iff_getElem?] at hx hy
    rw [Nat.succ.inj hid, hx] at hy
    rw [Option.some.inj hy]
    exact ht
  · intro ht
    exact ⟨x, hx, t, ht, rfl, rfl⟩

theorem nodup_build_postings : (build U files).postings.Nodup := by
  rw [build_postings, nodup_flatMap]
  refine ⟨fun x _ => ?_, ?_⟩
  · exact (nodup_fileTrigrams x.1.2).map fun t t' h => (Prod.mk.inj h).1
  · have hidx : (files.zipIdx.map Prod.snd).Nodup := by
      rw [zipIdx_map_snd]
      exact nodup_range'
    refine (pairwise_map.1 hidx).imp ?_
    intro x y hne p hp hp'
    obtain ⟨t, -, rfl⟩ := mem_map.1 hp
    obtain ⟨t', -, h⟩ := mem_map.1 hp'
    exact hne (Nat.succ.inj (Prod.mk.inj h).2).symm

def candidate (U : Unicode) (required : List Str) (content : Option (List UInt8)) : Bool :=
  !(fileTrigrams U content).2 || required.all fun t => U.lowered t ∈ (fileTrigrams U content).1

theorem candidate_iff : candidate U required content ↔
    (fileTrigrams U content).2 = false ∨ ∀ t ∈ required, U.lowered t ∈ (fileTrigrams U content).1 := by
  simp [candidate]

theorem fileTrigrams_of_unindexed (h : (fileTrigrams U content).2 = false) : (fileTrigrams U content).1 = [] := by
  rcases content with _ | data
  · rfl
  by_cases hsize : maxIndexBytes < data.length
  · rw [fileTrigrams, if_pos hsize]
  · rw [fileTrigrams, if_neg hsize] at h
    cases h

theorem query_build_perm (files : List (Str × Option (List UInt8))) (hreq : required ≠ []) :
    ∃ l, (build U files).query U false required = some l ∧
      l.Perm ((files.filter fun file => candidate U required file.2).map Prod.fst) := by
  have hunindexed : ∀ f ∈ (build U files).files, f.indexed = false → ∀ t, (t, f.id) ∉ (build U files).postings := by
    intro f hf hindexed t
    rw [build_files] at hf
    obtain ⟨x, hx, rfl⟩ := mem_map.1 hf
    rw [mem_build_postings hx, fileTrigrams_of_unindexed hindexed]
    exact not_mem_nil
  obtain ⟨l, hl, hperm⟩ := Db.query_perm (U := U) nodup_build_postings hunindexed hreq
  refine ⟨l, hl, hperm.trans (.of_eq ?_)⟩
  have hreturns : ∀ x ∈ files.zipIdx, (build U files).returns U required
      ⟨x.2 + 1, x.1.1, (fileTrigrams U x.1.2).2⟩ = candidate U required x.1.2 := by
    intro x hx
    simp only [Db.returns, candidate, mem_build_postings hx]
  calc (((build U files).files.filter ((build U files).returns U required)).map FileRow.path)
      = (files.zipIdx.filter fun x => candidate U required x.1.2).map fun x => x.1.1 := by
        rw [build_files, filter_map, map_map]
        exact congrArg (List.map _) (filter_congr hreturns)
    _ = ((files.zipIdx.map Prod.fst).filter fun file => candidate U required file.2).map Prod.fst := by
        rw [filter_map, map_map]
        rfl
    _ = (files.filter fun file => candidate U required file.2).map Prod.fst := by rw [zipIdx_map_fst]

/-! ### The trigrams of a file -/

theorem indexStorable_ofNat : ∀ n < 128,
    indexStorable (Char.ofNat n) = ((0x20 ≤ n && n ≤ 0x7E) || n ∈ [9, 10, 13]) := by decide

theorem printable_eq {b : UInt8} : printable b = ((0x20 ≤ b.toNat && b.toNat ≤ 0x7E) || b.toNat ∈ [9, 10, 13]) := by
  simp [printable, ← UInt8.toNat_inj]

theorem indexStorable_of_printable {b : UInt8} (h : printable b) : indexStorable (Char.ofNat b.toNat) := by
  rw [printable_eq] at h
  have hlt : b.toNat < 128 := by
    simp at h
    omega
  rw [indexStorable_ofNat _ hlt]
  exact h

theorem encode_of_indexStorable {c : Char} (h : indexStorable c) :
    encode [c] = [UInt8.ofNat c.toNat] ∧ printable (UInt8.ofNat c.toNat) ∧
      Char.ofNat (UInt8.ofNat c.toNat).toNat = c := by
  have hlt : c.toNat < 128 := of_decide_eq_true (isAscii_of_indexStorable h)
  have hbyte : (UInt8.ofNat c.toNat).toNat = c.toNat := Nat.mod_eq_of_lt (hlt.trans (by decide))
  refine ⟨?_, ?_, ?_⟩
  · have hle : ¬ 127 < c.toNat := Nat.not_lt.2 (Nat.le_of_lt_succ hlt)
    simp [encode, String.utf8EncodeChar, hle]
  · have hofNat := indexStorable_ofNat c.toNat hlt
    rw [Char.ofNat_toNat, h] at hofNat
    rw [printable_eq, hbyte]
    exact hofNat.symm
  · rw [hbyte, Char.ofNat_toNat]

theorem mem_fileTrigrams (hsize : data.length ≤ maxIndexBytes) :
    t ∈ (fileTrigrams U (some data)).1 ↔ ∃ bs : List UInt8, bs.length = trigramLength ∧ bs <:+: data ∧
      (∀ b ∈ bs, printable b) ∧ t = (decodeAscii bs).map Char.toLower := by
  have hlower : ∀ r ∈ runs printable data, U.lowered (decodeAscii r) = (decodeAscii r).map Char.toLower := by
    intro r hr
    refine lowered_of_indexStorable fun c hc => ?_
    obtain ⟨b, hb, rfl⟩ := mem_map.1 hc
    exact indexStorable_of_printable (of_mem_runs hr b hb)
  rw [fileTrigrams, if_neg (Nat.not_lt.2 hsize), mem_dedup]
  simp only [mem_flatMap, printableRuns, mem_filter, decide_eq_true_eq]
  constructor
  · rintro ⟨r, ⟨hr, -⟩, ht⟩
    rw [hlower r hr, decodeAscii, map_map, mem_trigrams_map] at ht
    obtain ⟨bs, hlen, hinfix, rfl⟩ := ht
    obtain ⟨hdata, hall⟩ := (infix_runs_iff (ne_nil_of_length hlen) data).1 ⟨r, hr, hinfix⟩
    exact ⟨bs, hlen, hdata, hall, by rw [decodeAscii, map_map]⟩
  · rintro ⟨bs, hlen, hdata, hall, rfl⟩
    obtain ⟨r, hr, hinfix⟩ := (infix_runs_iff (ne_nil_of_length hlen) data).2 ⟨hdata, hall⟩
    refine ⟨r, ⟨hr, hlen ▸ hinfix.length_le⟩, ?_⟩
    rw [hlower r hr, decodeAscii, decodeAscii, map_map, map_map, mem_trigrams_map]
    exact ⟨bs, hlen, hinfix, rfl⟩

theorem encode_storable {cs : Str} (h : ∀ c ∈ cs, indexStorable c) :
    (encode cs).length = cs.length ∧ (∀ b ∈ encode cs, printable b) ∧ decodeAscii (encode cs) = cs := by
  induction cs with
  | nil => exact ⟨rfl, nofun, rfl⟩
  | cons c cs ih =>
    obtain ⟨hlen, hall, hdecode⟩ := ih fun c' hc' => h c' (mem_cons_of_mem _ hc')
    obtain ⟨hc, hprint, hchar⟩ := encode_of_indexStorable (h c mem_cons_self)
    have hcons : encode (c :: cs) = UInt8.ofNat c.toNat :: encode cs := by
      calc encode (c :: cs) = encode [c] ++ encode cs := by simp [encode]
        _ = UInt8.ofNat c.toNat :: encode cs := by rw [hc, singleton_append]
    rw [hcons]
    refine ⟨congrArg Nat.succ hlen, ?_, ?_⟩
    · intro b hb
      rcases mem_cons.1 hb with rfl | hb
      · exact hprint
      · exact hall b hb
    · exact congrArg₂ List.cons hchar hdecode

theorem encode_decodeAscii {bs : List UInt8} (h : ∀ b ∈ bs, printable b) :
    (∀ c ∈ decodeAscii bs, indexStorable c) ∧ encode (decodeAscii bs) = bs := by
  induction bs with
  | nil => exact ⟨nofun, rfl⟩
  | cons b bs ih =>
    obtain ⟨hall, hencode⟩ := ih fun b' hb' => h b' (mem_cons_of_mem _ hb')
    have hb := indexStorable_of_printable (h b mem_cons_self)
    refine ⟨fun c hc => ?_, ?_⟩
    · rcases mem_cons.1 hc with rfl | hc
      · exact hb
      · exact hall c hc
    · have hvalid : b.toNat.isValidChar := .inl (b.toNat_lt.trans (by decide))
      have hbyte : (Char.ofNat b.toNat).toNat = b.toNat := by
        rw [Char.ofNat, dif_pos hvalid]
        rfl
      calc encode (decodeAscii (b :: bs)) = encode [Char.ofNat b.toNat] ++ encode (decodeAscii bs) := by
            simp [encode, decodeAscii]
        _ = b :: bs := by
            rw [(encode_of_indexStorable hb).1, hencode, hbyte, UInt8.ofNat_toNat, singleton_append]

theorem mem_fileTrigrams_iff (hsize : data.length ≤ maxIndexBytes) :
    t ∈ (fileTrigrams U (some data)).1 ↔ ∃ cs : Str, cs.length = trigramLength ∧ (∀ c ∈ cs, indexStorable c) ∧
      encode cs <:+: data ∧ t = cs.map Char.toLower := by
  rw [mem_fileTrigrams hsize]
  constructor
  · rintro ⟨bs, hlen, hdata, hall, rfl⟩
    obtain ⟨hstore, hencode⟩ := encode_decodeAscii hall
    exact ⟨decodeAscii bs, (length_map _).trans hlen, hstore, hencode.symm ▸ hdata, rfl⟩
  · rintro ⟨cs, hlen, hstore, hdata, rfl⟩
    obtain ⟨hlen', hall, hdecode⟩ := encode_storable hstore
    exact ⟨encode cs, hlen'.trans hlen, hdata, hall, by rw [hdecode]⟩

end CodeIndexer.TrigramIndex
