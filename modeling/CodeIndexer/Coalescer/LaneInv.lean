import CodeIndexer.Coalescer.Lane

/-!
# The lane's invariant

What holds in every reachable state of a lane. Entries and batches are tied together by what `_enqueue`
returned; a batch that was snapshotted is sealed, and a sealed batch is never the open one, so the
snapshot stays the snapshot of its members (`Inv.snapshot`). `DispatchOk` says for each place of
`_dispatch` which futures of the batch are completed, and with what.
-/

namespace CodeIndexer.Coalescer

open PyText Function List

variable {V E : Type}

/-! ### The snapshot -/

structure Snapshot.Ok (digest : Str) (texts : List Str) (S : Snapshot) : Prop where
  keys : S.entryKeys = texts.map (dedupKey digest S.anchor)
  indexed : ∀ k ∈ S.entryKeys, ∃ i, S.keyToFirstIdx.get? k = some i
  first : ∀ k i, S.keyToFirstIdx.get? k = some i →
    ∃ t, S.uniqueTexts[i]? = some t ∧ dedupKey digest S.anchor t = k

namespace Snapshot

theorem add_anchor (digest : Str) (S : Snapshot) (text : Str) : (S.add digest text).anchor = S.anchor := by
  unfold add
  dsimp only
  split <;> rfl

theorem add_purpose (digest : Str) (S : Snapshot) (text : Str) : (S.add digest text).purpose = S.purpose := by
  unfold add
  dsimp only
  split <;> rfl

variable {digest : Str}

theorem Ok.add {texts : List Str} {S : Snapshot} (h : S.Ok digest texts) (text : Str) :
    (S.add digest text).Ok digest (texts ++ [text]) := by
  unfold Snapshot.add
  dsimp only
  rcases hk : S.keyToFirstIdx.get? (dedupKey digest S.anchor text) with _ | i
  · refine ⟨?_, ?_, ?_⟩
    · show S.entryKeys ++ _ = _
      rw [h.keys, map_append]
      rfl
    · intro k hmem
      rw [Dict.get?_set]
      split
      · exact ⟨_, rfl⟩
      · rename_i hne
        rcases mem_append.1 hmem with hmem | hmem
        · exact h.indexed k hmem
        · exact absurd (mem_singleton.1 hmem) hne
    · intro k i hi
      rw [show (S.keyToFirstIdx.set _ _).get? k = some i ↔ _ from Iff.rfl,
        Dict.get?_set] at hi
      split at hi
      · rename_i heq
        cases hi
        exact ⟨text, List.getElem?_concat_length, heq.symm⟩
      · obtain ⟨t, ht, htk⟩ := h.first k i hi
        have hlt := (List.getElem?_eq_some_iff.1 ht).1
        exact ⟨t, (List.getElem?_append_left hlt).trans ht, htk⟩
  · refine ⟨?_, ?_, h.first⟩
    · show S.entryKeys ++ _ = _
      rw [h.keys, map_append]
      rfl
    · intro k hmem
      rcases mem_append.1 hmem with hmem | hmem
      · exact h.indexed k hmem
      · rw [mem_singleton.1 hmem]
        exact ⟨i, hk⟩

theorem foldl_add (more : List Str) :
    ∀ {texts : List Str} {S : Snapshot}, S.Ok digest texts →
      (more.foldl (Snapshot.add digest) S).Ok digest (texts ++ more) ∧
      (more.foldl (Snapshot.add digest) S).anchor = S.anchor ∧
      (more.foldl (Snapshot.add digest) S).purpose = S.purpose := by
  induction more with
  | nil =>
    intro texts S h
    rw [append_nil]
    exact ⟨h, rfl, rfl⟩
  | cons text more ih =>
    intro texts S h
    obtain ⟨hok, hanchor, hpurpose⟩ := ih (h.add text)
    rw [append_assoc] at hok
    exact ⟨hok, hanchor.trans (add_anchor _ _ _), hpurpose.trans (add_purpose _ _ _)⟩

theorem empty_ok (digest : Str) (anchor : ℤ) (purpose : Str) : Ok digest [] ⟨anchor, purpose, [], .empty, []⟩ := by
  refine ⟨rfl, nofun, ?_⟩
  intro k i hi
  cases hi

theorem build_ok (digest : Str) (anchor : ℤ) (batch : List Entry) :
    (build digest anchor batch).Ok digest (batch.map Entry.text) :=
  (foldl_add (batch.map Entry.text) (empty_ok digest anchor _)).1

theorem build_anchor (digest : Str) (anchor : ℤ) (batch : List Entry) : (build digest anchor batch).anchor = anchor :=
  (foldl_add (batch.map Entry.text) (empty_ok digest anchor _)).2.1

theorem build_purpose (digest : Str) (anchor : ℤ) (e : Entry) (batch : List Entry) :
    (build digest anchor (e :: batch)).purpose = e.embeddingPurpose :=
  (foldl_add ((e :: batch).map Entry.text) (empty_ok digest anchor e.embeddingPurpose)).2.2

end Snapshot

/-! ### The invariant -/

def Delivered (future : ℕ → Option (Outcome V E)) (S : Snapshot) (ans : Answer V) (x : ℕ × Str) : Prop :=
  ∃ i vec, S.keyToFirstIdx.get? x.2 = some i ∧ ans.vectors[i]? = some vec ∧ future x.1 = some (.result vec)

/-- Errors that would come from a broken dedup index or a future completed twice. -/
def Failure.Internal (x : Failure E) : Prop := x = .lookupError ∨ x = .invalidState

namespace Batch

def Pending (future : ℕ → Option (Outcome V E)) (B : Batch V E) : Prop := ∀ e ∈ B.members, future e = none

structure Answered (B : Batch V E) (S : Snapshot) (ans : Answer V) : Prop where
  snapshot : B.snapshot = some S
  mem : ans ∈ B.answers
  texts : ans.texts = S.uniqueTexts
  purpose : ans.purpose = S.purpose

def DispatchOk (future : ℕ → Option (Outcome V E)) (B : Batch V E) : Prop :=
  match B.dispatch with
  | .attempting _ => B.Pending future
  | .calling _ => B.Pending future ∧ B.snapshot ≠ none
  | .returned ans => B.Pending future ∧ ∃ S, B.Answered S ans
  | .delivering ans left => ∃ S, B.Answered S ans ∧ ans.vectors.length = S.uniqueTexts.length ∧
      ∃ done, B.members.zip S.entryKeys = done ++ left ∧ (∀ x ∈ done, Delivered future S ans x) ∧
        ∀ x ∈ left, future x.1 = none
  | .failing ex => B.Pending future ∧ ¬ ex.Internal
  | .spreading ex left => B.sealed = true ∧ ∃ done, B.members = done ++ left ∧
      (∀ e ∈ done, future e = some (.exception ex)) ∧ ∀ e ∈ left, future e = none
  | .finished => B.sealed = true ∧
      ((∃ S ans, B.Answered S ans ∧ ∀ x ∈ B.members.zip S.entryKeys, Delivered future S ans x) ∨
        ∃ ex, ∀ e ∈ B.members, future e = some (.exception ex))

end Batch

structure Inv (cfg : Config) (P : Str → Prop) (L : Lane V E) : Prop where
  home_lt : ∀ e < L.numEntries, L.home e < L.numBatches
  mem_iff : ∀ b < L.numBatches, ∀ e, e ∈ (L.batch b).members ↔ e < L.numEntries ∧ L.home e = b
  nodup : ∀ b < L.numBatches, (L.batch b).members.Nodup
  leader : ∀ b < L.numBatches, ∃ e, (L.batch b).members.head? = some e ∧
    ∀ e' ∈ (L.batch b).members, L.leads e' = true ↔ e' = e
  purposes : ∀ e < L.numEntries, P (L.entry e).embeddingPurpose
  openUnsealed : ∀ b, L.openBatch = some b → b < L.numBatches ∧ (L.batch b).sealed = false
  snapshot : ∀ b < L.numBatches, ∀ S, (L.batch b).snapshot = some S → (L.batch b).sealed = true ∧
    S = .build cfg.configDigest S.anchor ((L.batch b).members.map L.entry)
  dispatch : ∀ b < L.numBatches, (L.batch b).DispatchOk L.future
  absent : ∀ b, L.numBatches ≤ b → (L.batch b).dispatch = .finished
  unset : ∀ e, L.numEntries ≤ e → L.future e = none

/-- A step of the dispatcher of `b`: it leaves the entries, the other batches and their futures alone,
and only takes a snapshot of the members the batch then keeps. -/
structure Moves (cfg : Config) (L L' : Lane V E) (b : ℕ) : Prop where
  numEntries : L'.numEntries = L.numEntries
  entry : L'.entry = L.entry
  home : L'.home = L.home
  leads : L'.leads = L.leads
  numBatches : L'.numBatches = L.numBatches
  others : ∀ b', b' ≠ b → L'.batch b' = L.batch b'
  members : (L'.batch b).members = (L.batch b).members
  opened : ∀ b', L'.openBatch = some b' → L.openBatch = some b' ∧
    (b' = b → (L'.batch b).sealed = (L.batch b).sealed)
  snapshot : ∀ S, (L'.batch b).snapshot = some S →
    (L.batch b).snapshot = some S ∧ ((L.batch b).sealed = true → (L'.batch b).sealed = true) ∨
    (L'.batch b).sealed = true ∧ S = .build cfg.configDigest S.anchor ((L.batch b).members.map L.entry)
  snapshotKept : ∀ S, (L.batch b).snapshot = some S → (L'.batch b).snapshot = some S
  future : ∀ e, e ∉ (L.batch b).members → L'.future e = L.future e
  kept : ∀ e o, L.future e = some o → L'.future e = some o

def Dispatch.rank : Dispatch V E → ℕ ×ₗ ℕ
  | .attempting k => toLex (2 * (totalAttempts - k) + 5, 0)
  | .calling k => toLex (2 * (totalAttempts - k) + 4, 0)
  | .returned _ => toLex (3, 0)
  | .failing _ => toLex (2, 0)
  | .delivering _ left => toLex (1, left.length)
  | .spreading _ left => toLex (1, left.length)
  | .finished => toLex (0, 0)

theorem toLex_lt_of_lt {i j : ℕ} (h : i < j) (m n : ℕ) : toLex (i, m) < toLex (j, n) :=
  Prod.Lex.toLex_lt_toLex.2 (.inl h)

theorem rank_afterRaise_lt (k : ℕ) (r : Raise E) :
    (afterRaise k r : Dispatch V E).rank < toLex (2 * (totalAttempts - k) + 4, 0) := by
  unfold afterRaise
  split
  · exact toLex_lt_of_lt (by omega) _ _
  · split
    · exact toLex_lt_of_lt (by omega) _ _
    · split <;> exact toLex_lt_of_lt (by omega) _ _

theorem rank_afterRaise_lt_attempting (k : ℕ) (r : Raise E) :
    (afterRaise k r : Dispatch V E).rank < (Dispatch.attempting k : Dispatch V E).rank :=
  (rank_afterRaise_lt k r).trans (toLex_lt_of_lt (Nat.lt_succ_self _) _ _)

/-- What a step of the dispatcher of `b` does: a move after which its batch is in order and its
dispatcher closer to its end. -/
structure Advance (cfg : Config) (L L' : Lane V E) (b : ℕ) : Prop where
  lt : b < L.numBatches
  moves : Moves cfg L L' b
  ok : (L'.batch b).DispatchOk L'.future
  rank : (L'.batch b).dispatch.rank < (L.batch b).dispatch.rank

def Act.dispatcher : Act V E → Option ℕ
  | .enqueue _ _ _ => none
  | .noSlot b _ | .snapshot b _ | .snapshotRaises b _ | .providerReturns b _ | .providerRaises b _
  | .prepare b | .prepareRaises b _ | .deliver b | .sealFailed b | .spread b => some b

variable {B : Batch V E} {future : ℕ → Option (Outcome V E)}

theorem Batch.DispatchOk.congr {future' : ℕ → Option (Outcome V E)}
    (h : B.DispatchOk future) (heq : ∀ e ∈ B.members, future' e = future e) : B.DispatchOk future' := by
  have hpending : B.Pending future → B.Pending future' := fun h e he => (heq e he).trans (h e he)
  have hfst : ∀ {S : Snapshot} {x : ℕ × Str}, x ∈ B.members.zip S.entryKeys → future' x.1 = future x.1 :=
    fun hx => heq _ (of_mem_zip hx).1
  rcases B with ⟨members, isSealed, snapshot, answers, dispatch⟩
  cases dispatch with
  | attempting k => exact hpending h
  | calling k | returned ans | failing ex => exact ⟨hpending h.1, h.2⟩
  | delivering ans left =>
    obtain ⟨S, hans, hlen, done, hzip, hdone, hleft⟩ := h
    refine ⟨S, hans, hlen, done, hzip, ?_, ?_⟩
    · intro x hx
      obtain ⟨i, vec, hi, hvec, hfut⟩ := hdone x hx
      refine ⟨i, vec, hi, hvec, (hfst (S := S) ?_).trans hfut⟩
      rw [hzip]
      exact mem_append_left _ hx
    · intro x hx
      refine (hfst (S := S) ?_).trans (hleft x hx)
      rw [hzip]
      exact mem_append_right _ hx
  | spreading ex left =>
    obtain ⟨hsealed, done, hmem, hdone, hleft⟩ := h
    refine ⟨hsealed, done, hmem, ?_, ?_⟩
    · intro e he
      exact (heq e (by rw [hmem]; exact mem_append_left _ he)).trans (hdone e he)
    · intro e he
      exact (heq e (by rw [hmem]; exact mem_append_right _ he)).trans (hleft e he)
  | finished =>
    obtain ⟨hsealed, ⟨S, ans, hans, hall⟩ | ⟨ex, hall⟩⟩ := h
    · refine ⟨hsealed, .inl ⟨S, ans, hans, fun x hx => ?_⟩⟩
      obtain ⟨i, vec, hi, hvec, hfut⟩ := hall x hx
      exact ⟨i, vec, hi, hvec, (hfst hx).trans hfut⟩
    · exact ⟨hsealed, .inr ⟨ex, fun e he => (heq e he).trans (hall e he)⟩⟩

theorem Batch.DispatchOk.unsealed (h : B.DispatchOk future)
    (hs : B.sealed = false) (hsnap : ∀ S, B.snapshot ≠ some S) :
    B.Pending future ∧ ((∃ k, B.dispatch = .attempting k) ∨ ∃ ex, B.dispatch = .failing ex ∧ ¬ ex.Internal) := by
  rcases B with ⟨members, isSealed, snapshot, answers, dispatch⟩
  cases dispatch with
  | attempting k => exact ⟨h, .inl ⟨k, rfl⟩⟩
  | calling k => exact absurd (Option.eq_none_iff_forall_ne_some.2 hsnap) h.2
  | returned ans =>
    obtain ⟨-, S, hans⟩ := h
    exact absurd hans.snapshot (hsnap S)
  | delivering ans left =>
    obtain ⟨S, hans, -⟩ := h
    exact absurd hans.snapshot (hsnap S)
  | failing ex => exact ⟨h.1, .inr ⟨ex, rfl, h.2⟩⟩
  | spreading ex left | finished => exact absurd (h.1.symm.trans hs) (by decide)

namespace Inv

variable {cfg : Config} {P : Str → Prop} {L L' : Lane V E} {b : ℕ}

theorem not_mem_of_ne (h : Inv cfg P L) {b' e : ℕ} (hb : b < L.numBatches) (hb' : b' < L.numBatches)
    (hne : b' ≠ b) (he : e ∈ (L.batch b').members) : e ∉ (L.batch b).members := by
  intro he'
  exact hne (((h.mem_iff b' hb' e).1 he).2.symm.trans ((h.mem_iff b hb e).1 he').2)

theorem advance (h : Inv cfg P L) (ha : Advance cfg L L' b) : Inv cfg P L' := by
  obtain ⟨hb, hm, hok, -⟩ := ha
  have hmembers : ∀ b', (L'.batch b').members = (L.batch b').members := by
    intro b'
    by_cases hne : b' = b
    · subst hne
      exact hm.members
    · rw [hm.others b' hne]
  refine ⟨?_, ?_, ?_, ?_, ?_, ?_, ?_, ?_, ?_, ?_⟩
  · rw [hm.numEntries, hm.home, hm.numBatches]
    exact h.home_lt
  · intro b' hb' e
    rw [hmembers, hm.numEntries, hm.home]
    exact h.mem_iff b' (hm.numBatches ▸ hb') e
  · intro b' hb'
    rw [hmembers]
    exact h.nodup b' (hm.numBatches ▸ hb')
  · intro b' hb'
    rw [hmembers, hm.leads]
    exact h.leader b' (hm.numBatches ▸ hb')
  · rw [hm.numEntries, hm.entry]
    exact h.purposes
  · intro b' hopen
    obtain ⟨hopen, hsealed⟩ := hm.opened b' hopen
    obtain ⟨hlt, hfalse⟩ := h.openUnsealed b' hopen
    refine ⟨hm.numBatches.symm ▸ hlt, ?_⟩
    by_cases hne : b' = b
    · subst hne
      rw [hsealed rfl]
      exact hfalse
    · rw [hm.others b' hne]
      exact hfalse
  · intro b' hb' S hS
    rw [hmembers, hm.entry]
    by_cases hne : b' = b
    · subst hne
      rcases hm.snapshot S hS with ⟨hold, hsealed⟩ | hnew
      · obtain ⟨htrue, hbuild⟩ := h.snapshot b' hb S hold
        exact ⟨hsealed htrue, hbuild⟩
      · exact hnew
    · rw [hm.others b' hne] at hS ⊢
      exact h.snapshot b' (hm.numBatches ▸ hb') S hS
  · intro b' hb'
    have hb' : b' < L.numBatches := hm.numBatches ▸ hb'
    by_cases hne : b' = b
    · subst hne
      exact hok
    · rw [hm.others b' hne]
      exact (h.dispatch b' hb').congr fun e he => hm.future e (h.not_mem_of_ne hb hb' hne he)
  · intro b' hb'
    rw [hm.numBatches] at hb'
    rw [hm.others b' (Nat.ne_of_gt (Nat.lt_of_lt_of_le hb hb'))]
    exact h.absent b' hb'
  · intro e he
    rw [hm.numEntries] at he
    rw [hm.future e fun hmem => absurd ((h.mem_iff b hb e).1 hmem).1 (Nat.not_lt.2 he)]
    exact h.unset e he

/-! ### Accretion -/

theorem sealIfFull (h : Inv cfg P L) (cap : ℤ) : Inv cfg P (L.sealIfFull cfg cap) := by
  unfold Lane.sealIfFull
  split
  · exact h
  · split
    · exact ⟨h.home_lt, h.mem_iff, h.nodup, h.leader, h.purposes, nofun, h.snapshot, h.dispatch, h.absent,
        h.unset⟩
    · exact h

theorem mem_lt (h : Inv cfg P L) (hb : b < L.numBatches) {e : ℕ} (he : e ∈ (L.batch b).members) :
    e < L.numEntries := ((h.mem_iff b hb e).1 he).1

theorem map_entry_update (h : Inv cfg P L) (hb : b < L.numBatches) (e : Entry) :
    (L.batch b).members.map (update L.entry L.numEntries e) = (L.batch b).members.map L.entry := by
  refine map_congr_left fun e' he' => ?_
  rw [update_of_ne (Nat.ne_of_lt (h.mem_lt hb he'))]

variable {e : Entry}

theorem purposes_update (h : Inv cfg P L) (he : P e.embeddingPurpose) :
    ∀ e' < L.numEntries + 1, P (update L.entry L.numEntries e e').embeddingPurpose := by
  intro e' he'
  rcases Nat.lt_succ_iff_lt_or_eq.1 he' with hlt | rfl
  · rw [update_of_ne (Nat.ne_of_lt hlt)]
    exact h.purposes e' hlt
  · rw [update_self]
    exact he

/-- `L'` has one entry more, which is in the batch `b`, and that batch is in order. -/
structure Admits (cfg : Config) (L L' : Lane V E) (b : ℕ) (e : Entry) : Prop where
  numEntries : L'.numEntries = L.numEntries + 1
  entry : L'.entry = update L.entry L.numEntries e
  home : L'.home = update L.home L.numEntries b
  leads : ∀ e' < L.numEntries, L'.leads e' = L.leads e'
  numBatches : ∀ b', b' < L'.numBatches ↔ b' < L.numBatches ∨ b' = b
  others : ∀ b' ≠ b, L'.batch b' = L.batch b'
  future : L'.future = L.future
  opened : L'.openBatch = some b
  unsealed : (L'.batch b).sealed = false
  mem_iff : ∀ e', e' ∈ (L'.batch b).members ↔ e' < L.numEntries ∧ L.home e' = b ∨ e' = L.numEntries
  nodup : (L'.batch b).members.Nodup
  leader : ∃ e, (L'.batch b).members.head? = some e ∧ ∀ e' ∈ (L'.batch b).members, L'.leads e' = true ↔ e' = e
  snapshot : (L'.batch b).snapshot = none
  dispatch : (L'.batch b).DispatchOk L.future

theorem admits (h : Inv cfg P L) (he : P e.embeddingPurpose) (ha : Admits cfg L L' b e) : Inv cfg P L' := by
  have hold : ∀ {b'}, b' < L'.numBatches → b' ≠ b → b' < L.numBatches := fun hb' hne =>
    ((ha.numBatches _).1 hb').resolve_right hne
  have hhome : ∀ e' b', e' < L'.numEntries ∧ L'.home e' = b' ↔
      e' < L.numEntries ∧ L.home e' = b' ∨ e' = L.numEntries ∧ b = b' := by
    intro e' b'
    rw [ha.numEntries, ha.home, Nat.lt_succ_iff_lt_or_eq, or_and_right]
    refine or_congr (and_congr_right fun he' => ?_) (and_congr_right fun he' => ?_)
    · rw [update_of_ne (Nat.ne_of_lt he')]
    · rw [he', update_self]
  refine ⟨?_, ?_, ?_, ?_, ?_, ?_, ?_, ?_, ?_, ?_⟩
  · intro e' he'
    rcases (hhome e' _).1 ⟨he', rfl⟩ with ⟨hlt, heq⟩ | ⟨-, heq⟩
    · exact (ha.numBatches _).2 (.inl (heq ▸ h.home_lt e' hlt))
    · exact (ha.numBatches _).2 (.inr heq.symm)
  · intro b' hb' e'
    rw [hhome]
    by_cases hne : b' = b
    · subst hne
      rw [ha.mem_iff, eq_self, and_true]
    · rw [ha.others b' hne, h.mem_iff b' (hold hb' hne), or_iff_left fun hnew => hne hnew.2.symm]
  · intro b' hb'
    by_cases hne : b' = b
    · subst hne
      exact ha.nodup
    · rw [ha.others b' hne]
      exact h.nodup b' (hold hb' hne)
  · intro b' hb'
    by_cases hne : b' = b
    · subst hne
      exact ha.leader
    · obtain ⟨l, hhead, hlead⟩ := h.leader b' (hold hb' hne)
      rw [ha.others b' hne]
      refine ⟨l, hhead, fun e' he' => ?_⟩
      rw [ha.leads e' (h.mem_lt (hold hb' hne) he')]
      exact hlead e' he'
  · rw [ha.numEntries, ha.entry]
    exact h.purposes_update he
  · intro b' hopen
    obtain rfl := Option.mem_unique ha.opened hopen
    exact ⟨(ha.numBatches b).2 (.inr rfl), ha.unsealed⟩
  · intro b' hb' S hS
    by_cases hne : b' = b
    · subst hne
      cases ha.snapshot.symm.trans hS
    · rw [ha.others b' hne] at hS ⊢
      rw [ha.entry, h.map_entry_update (hold hb' hne)]
      exact h.snapshot b' (hold hb' hne) S hS
  · intro b' hb'
    rw [ha.future]
    by_cases hne : b' = b
    · subst hne
      exact ha.dispatch
    · rw [ha.others b' hne]
      exact h.dispatch b' (hold hb' hne)
  · intro b' hb'
    obtain ⟨hlt, hne⟩ := not_or.1 (mt (ha.numBatches b').2 (Nat.not_lt.2 hb'))
    rw [ha.others b' hne]
    exact h.absent b' (Nat.not_lt.1 hlt)
  · intro e' he'
    rw [ha.numEntries] at he'
    rw [ha.future]
    exact h.unset e' (Nat.le_of_succ_le he')

theorem openWith (h : Inv cfg P L) (he : P e.embeddingPurpose) (n : ℤ) : Inv cfg P (L.openWith e n) := by
  have hnew : (L.openWith e n).batch L.numBatches = ⟨[L.numEntries], false, none, [], .attempting 0⟩ :=
    update_self _ _ _
  refine h.admits he (b := L.numBatches) ⟨rfl, rfl, rfl, fun e' he' => update_of_ne (Nat.ne_of_lt he') _ _,
    fun b' => Nat.lt_succ_iff_lt_or_eq, fun b' hne => update_of_ne hne _ _, rfl, rfl, ?_, ?_, ?_, ?_, ?_, ?_⟩ <;>
    rw [hnew]
  · intro e'
    rw [mem_singleton, or_iff_right]
    rintro ⟨he', hb'⟩
    exact Nat.ne_of_lt (h.home_lt e' he') hb'
  · exact nodup_singleton _
  · refine ⟨_, rfl, fun e' he' => ?_⟩
    obtain rfl := mem_singleton.1 he'
    exact iff_of_true (update_self _ _ _) rfl
  · intro e' he'
    exact h.unset e' (Nat.le_of_eq (mem_singleton.1 he').symm)

theorem unsealed (h : Inv cfg P L) (hb : b < L.numBatches) (hs : (L.batch b).sealed = false) :
    (L.batch b).snapshot = none ∧ (L.batch b).Pending L.future ∧
      ((∃ k, (L.batch b).dispatch = .attempting k) ∨
        ∃ ex, (L.batch b).dispatch = .failing ex ∧ ¬ ex.Internal) := by
  have hsnap : ∀ S, (L.batch b).snapshot ≠ some S := by
    intro S hS
    rw [(h.snapshot b hb S hS).1] at hs
    cases hs
  exact ⟨Option.eq_none_iff_forall_ne_some.2 hsnap, (h.dispatch b hb).unsealed hs hsnap⟩

theorem joinOpen (h : Inv cfg P L) (hopen : L.openBatch = some b)
    (he : P e.embeddingPurpose) (n : ℤ) : Inv cfg P (L.joinOpen b e n) := by
  obtain ⟨hb, hfalse⟩ := h.openUnsealed b hopen
  obtain ⟨hsnap, hpending, hdisp⟩ := h.unsealed hb hfalse
  have hnew : (L.joinOpen b e n).batch b =
      { L.batch b with members := (L.batch b).members ++ [L.numEntries] } := update_self _ _ _
  have hleads : ∀ e' < L.numEntries, (L.joinOpen b e n).leads e' = L.leads e' := fun e' he' =>
    update_of_ne (Nat.ne_of_lt he') _ _
  have hfresh : L.numEntries ∉ (L.batch b).members := fun hmem => absurd (h.mem_lt hb hmem) (lt_irrefl _)
  refine h.admits he ⟨rfl, rfl, rfl, hleads, fun b' => ?_, fun b' hne => update_of_ne hne _ _, rfl, hopen, ?_, ?_, ?_,
    ?_, ?_, ?_⟩
  · exact (or_iff_left_of_imp fun heq => heq ▸ hb).symm
  · rw [hnew]
    exact hfalse
  · intro e'
    rw [hnew, mem_append, mem_singleton, h.mem_iff b hb]
  · rw [hnew, ← concat_eq_append]
    exact (h.nodup b hb).concat hfresh
  · obtain ⟨l, hhead, hlead⟩ := h.leader b hb
    have hl : l ∈ (L.batch b).members := mem_of_mem_head? hhead
    rw [hnew]
    refine ⟨l, ?_, fun e' he' => ?_⟩
    · rw [List.head?_append, hhead]
      rfl
    · rcases mem_append.1 he' with he' | he'
      · rw [hleads e' (h.mem_lt hb he')]
        exact hlead e' he'
      · obtain rfl := mem_singleton.1 he'
        rw [show (L.joinOpen b e n).leads L.numEntries = false from update_self _ _ _]
        exact iff_of_false (by decide) fun heq => hfresh (heq ▸ hl)
  · rw [hnew]
    exact hsnap
  · rw [hnew]
    have hpending' : ∀ e' ∈ (L.batch b).members ++ [L.numEntries], L.future e' = none := by
      intro e' he'
      rcases mem_append.1 he' with he' | he'
      · exact hpending e' he'
      · exact h.unset e' (Nat.le_of_eq (mem_singleton.1 he').symm)
    rcases hdisp with ⟨k, hd⟩ | ⟨ex, hd, hex⟩
    · simp only [hd]
      exact hpending'
    · simp only [hd]
      exact ⟨hpending', hex⟩

theorem enqueue (h : Inv cfg P L) (he : P e.embeddingPurpose) (n cap : ℤ) : Inv cfg P (L.enqueue cfg e n cap) := by
  unfold Lane.enqueue
  split
  · exact (h.openWith he n).sealIfFull cap
  · rename_i b hopen
    split
    · exact (h.joinOpen hopen he n).sealIfFull cap
    · exact (h.openWith he n).sealIfFull cap

end Inv

/-! ### Moves of a dispatcher -/

namespace Moves

variable {cfg : Config} {L L₁ L₂ : Lane V E} {b : ℕ}

theorem trans (h₁ : Moves cfg L L₁ b) (h₂ : Moves cfg L₁ L₂ b) : Moves cfg L L₂ b where
  numEntries := h₂.numEntries.trans h₁.numEntries
  entry := h₂.entry.trans h₁.entry
  home := h₂.home.trans h₁.home
  leads := h₂.leads.trans h₁.leads
  numBatches := h₂.numBatches.trans h₁.numBatches
  others b' hne := (h₂.others b' hne).trans (h₁.others b' hne)
  members := h₂.members.trans h₁.members
  opened b' hopen := by
    obtain ⟨hopen, hs₂⟩ := h₂.opened b' hopen
    obtain ⟨hopen, hs₁⟩ := h₁.opened b' hopen
    exact ⟨hopen, fun hb => (hs₂ hb).trans (hs₁ hb)⟩
  snapshot S hS := by
    rcases h₂.snapshot S hS with ⟨hS, hmono⟩ | ⟨hsealed, hbuild⟩
    · rcases h₁.snapshot S hS with ⟨hS, hmono'⟩ | ⟨hsealed, hbuild⟩
      · exact .inl ⟨hS, fun h => hmono (hmono' h)⟩
      · exact .inr ⟨hmono hsealed, hbuild⟩
    · rw [h₁.members, h₁.entry] at hbuild
      exact .inr ⟨hsealed, hbuild⟩
  snapshotKept S hS := h₂.snapshotKept S (h₁.snapshotKept S hS)
  future e he := by
    rw [h₂.future e (h₁.members ▸ he), h₁.future e he]
  kept e o ho := h₂.kept e o (h₁.kept e o ho)

theorem setBatch {B : Batch V E} (hmem : B.members = (L.batch b).members)
    (hsealed : B.sealed = (L.batch b).sealed)
    (hsnap : ∀ S, B.snapshot = some S → (L.batch b).snapshot = some S ∨
      B.sealed = true ∧ S = .build cfg.configDigest S.anchor ((L.batch b).members.map L.entry))
    (hkept : ∀ S, (L.batch b).snapshot = some S → B.snapshot = some S) :
    Moves cfg L (L.setBatch b B) b := by
  have hB : (L.setBatch b B).batch b = B := update_self _ _ _
  refine ⟨rfl, rfl, rfl, rfl, rfl, fun b' hne => update_of_ne hne _ _, ?_, ?_, ?_, ?_, fun _ _ => rfl, fun _ _ => id⟩
  · rw [hB]
    exact hmem
  · intro b' hopen
    rw [hB]
    exact ⟨hopen, fun _ => hsealed⟩
  · intro S hS
    rw [hB] at hS ⊢
    exact (hsnap S hS).imp_left fun hold => ⟨hold, fun h => hsealed.trans h⟩
  · rw [hB]
    exact hkept

theorem goto (d : Dispatch V E) : Moves cfg L (L.goto b d) b :=
  setBatch rfl rfl (fun _ hS => .inl hS) fun _ => id

theorem sealBatch : Moves cfg L (L.sealBatch b) b := by
  have hB : (L.sealBatch b).batch b = { L.batch b with sealed := true } := update_self _ _ _
  refine ⟨rfl, rfl, rfl, rfl, rfl, fun b' hne => update_of_ne hne _ _, ?_, ?_, ?_, ?_, fun _ _ => rfl, fun _ _ => id⟩
  · rw [hB]
  · intro b' hopen
    rw [show (L.sealBatch b).openBatch = if L.openBatch = some b then none else L.openBatch from rfl] at hopen
    split at hopen
    · cases hopen
    · rename_i hne
      exact ⟨hopen, fun hb => absurd (hb ▸ hopen) hne⟩
  · intro S hS
    rw [hB] at hS ⊢
    exact .inl ⟨hS, fun _ => rfl⟩
  · rw [hB]
    exact fun _ => id

theorem complete {e : ℕ} (he : e ∈ (L.batch b).members) (hnone : L.future e = none) (o : Outcome V E) :
    Moves cfg L (L.complete e o) b := by
  refine ⟨rfl, rfl, rfl, rfl, rfl, fun _ _ => rfl, rfl, fun b' hopen => ⟨hopen, fun _ => rfl⟩, ?_,
    fun _ => id, ?_, ?_⟩
  · intro S hS
    exact .inl ⟨hS, id⟩
  · intro e' he'
    have hne : e' ≠ e := by
      rintro rfl
      exact he' he
    exact update_of_ne hne _ _
  · intro e' o' ho
    have hne : e' ≠ e := by
      rintro rfl
      rw [hnone] at ho
      cases ho
    exact (update_of_ne hne _ _).trans ho

end Moves

theorem Batch.dispatchOk_afterRaise
    (h : B.Pending future) (k : ℕ) (r : Raise E) :
    ({ B with dispatch := afterRaise k r } : Batch V E).DispatchOk future := by
  have hfail : ∀ ex : Failure E, ¬ ex.Internal →
      ({ B with dispatch := .failing ex } : Batch V E).DispatchOk future := fun ex hex => ⟨h, hex⟩
  unfold afterRaise
  split
  · exact hfail _ (by rintro (h | h) <;> cases h)
  · split
    · exact hfail _ (by rintro (h | h) <;> cases h)
    · split
      · exact hfail _ (by rintro (h | h) <;> cases h)
      · exact h

namespace Inv

variable {cfg : Config} {P : Str → Prop} {L L' : Lane V E} {b : ℕ}

variable {d d' : Dispatch V E} {ans : Answer V} {S : Snapshot} {a : Act V E}

theorem at_dispatch (h : Inv cfg P L) (hd : (L.batch b).dispatch = d) (hne : d ≠ .finished) :
    b < L.numBatches ∧ ({ L.batch b with dispatch := d } : Batch V E).DispatchOk L.future := by
  subst hd
  have hb : b < L.numBatches := Nat.lt_of_not_le fun hle => hne (h.absent b hle)
  exact ⟨hb, h.dispatch b hb⟩

theorem goto (hb : b < L.numBatches) (hd : (L.batch b).dispatch = d)
    (hok : ({ L.batch b with dispatch := d' } : Batch V E).DispatchOk L.future) (hrank : d'.rank < d.rank) :
    Advance cfg L (L.goto b d') b := by
  have hB : (L.goto b d').batch b = { L.batch b with dispatch := d' } := update_self _ _ _
  refine ⟨hb, .goto d', ?_, ?_⟩
  · rw [hB]
    exact hok
  · rw [hB, hd]
    exact hrank

theorem sealGoto (hb : b < L.numBatches) (hd : (L.batch b).dispatch = d)
    (hok : ({ L.batch b with sealed := true, dispatch := d' } : Batch V E).DispatchOk L.future)
    (hrank : d'.rank < d.rank) : Advance cfg L ((L.sealBatch b).goto b d') b := by
  have hB : ((L.sealBatch b).goto b d').batch b = { L.batch b with sealed := true, dispatch := d' } := by
    rw [Lane.goto, Lane.setBatch, Lane.sealBatch, Lane.setBatch]
    simp only [update_self]
  refine ⟨hb, Moves.sealBatch.trans (.goto d'), ?_, ?_⟩
  · rw [hB]
    exact hok
  · rw [hB, hd]
    exact hrank

theorem takeSnapshot (h : Inv cfg P L) {k : ℕ} (hd : (L.batch b).dispatch = .attempting k)
    (anchor : ℤ) : Advance cfg L (L.takeSnapshot cfg b k anchor) b := by
  obtain ⟨hb, hpending⟩ := h.at_dispatch hd nofun
  unfold Lane.takeSnapshot
  split
  · split
    · rename_i S hS
      refine goto hb hd ⟨hpending, fun hnone => ?_⟩ (toLex_lt_of_lt (Nat.lt_succ_self _) _ _)
      rw [show (L.batch b).snapshot = none from hnone] at hS
      cases hS
    · exact goto hb hd ⟨hpending, by rintro (h | h) <;> cases h⟩ (toLex_lt_of_lt (by omega) _ _)
  · rename_i hunsealed
    have hnone := (h.unsealed hb (Bool.eq_false_iff.2 hunsealed)).1
    have hB : (L.sealBatch b).batch b = { L.batch b with sealed := true } := update_self _ _ _
    refine ⟨hb, Moves.sealBatch.trans (.setBatch rfl rfl (fun S hS => .inr ⟨?_, ?_⟩) ?_), ?_, ?_⟩
    · show ((L.sealBatch b).batch b).sealed = true
      rw [hB]
    · cases hS
      rw [hB, Snapshot.build_anchor]
      rfl
    · intro S hS
      rw [hB] at hS
      rw [show (L.batch b).snapshot = some S from hS] at hnone
      cases hnone
    · rw [show (Lane.setBatch _ b _).batch b = _ from update_self _ _ _]
      refine ⟨?_, nofun⟩
      rw [hB]
      exact hpending
    · rw [show (Lane.setBatch _ b _).batch b = _ from update_self _ _ _, hd]
      exact toLex_lt_of_lt (Nat.lt_succ_self _) _ _

theorem prepare (h : Inv cfg P L) (hd : (L.batch b).dispatch = .returned ans) : Advance cfg L (L.prepare b ans) b := by
  obtain ⟨hb, hpending, S, hans⟩ := h.at_dispatch hd nofun
  unfold Lane.prepare
  rw [hans.snapshot]
  dsimp only
  split
  · exact goto hb hd ⟨hpending, by rintro (h | h) <;> cases h⟩ (toLex_lt_of_lt (by decide) _ _)
  · rename_i hlen
    refine goto hb hd ⟨S, ⟨hans.snapshot, hans.mem, hans.texts, hans.purpose⟩, not_not.1 hlen, [], rfl, nofun, ?_⟩
      (toLex_lt_of_lt (by decide) _ _)
    intro x hx
    exact hpending x.1 (of_mem_zip hx).1

theorem zip_entryKeys (h : Inv cfg P L) (hb : b < L.numBatches)
    (hS : (L.batch b).snapshot = some S) :
    (L.batch b).members.zip S.entryKeys = (L.batch b).members.map fun e =>
      (e, dedupKey cfg.configDigest S.anchor (L.entry e).text) := by
  obtain ⟨-, hbuild⟩ := h.snapshot b hb S hS
  have hkeys := (Snapshot.build_ok cfg.configDigest S.anchor ((L.batch b).members.map L.entry)).keys
  rw [← hbuild, map_map, map_map] at hkeys
  rw [hkeys]
  have hzip := zip_map' (f := id) (g := dedupKey cfg.configDigest S.anchor ∘ Entry.text ∘ L.entry)
    (l := (L.batch b).members)
  rw [map_id] at hzip
  exact hzip

theorem zip_fst_nodup (h : Inv cfg P L) (hb : b < L.numBatches)
    (hS : (L.batch b).snapshot = some S) : (((L.batch b).members.zip S.entryKeys).map Prod.fst).Nodup := by
  rw [h.zip_entryKeys hb hS, map_map]
  exact (map_id (L.batch b).members).symm ▸ h.nodup b hb

theorem deliverTo (h : Inv cfg P L) {e : ℕ} {k : Str} {left : List (ℕ × Str)}
    (hd : (L.batch b).dispatch = .delivering ans ((e, k) :: left)) :
    Advance cfg L (L.deliverTo b ans e k left) b := by
  obtain ⟨hb, S, hans, hlen, done, hzip, hdone, hleft⟩ := h.at_dispatch hd nofun
  have hmem : (e, k) ∈ (L.batch b).members.zip S.entryKeys := by
    rw [hzip]
    exact mem_append_right _ mem_cons_self
  -- the key is in the index, and the index is within the vectors
  have hsok : S.Ok cfg.configDigest (((L.batch b).members.map L.entry).map Entry.text) := by
    rw [(h.snapshot b hb S hans.snapshot).2]
    exact Snapshot.build_ok _ _ _
  obtain ⟨i, hi⟩ := hsok.indexed k (of_mem_zip hmem).2
  obtain ⟨t, ht, -⟩ := hsok.first k i hi
  have hlt : i < ans.vectors.length := hlen ▸ (List.getElem?_eq_some_iff.1 ht).1
  have hvec : ans.vectors[i]? = some ans.vectors[i] := List.getElem?_eq_getElem hlt
  have hnodup := h.zip_fst_nodup hb hans.snapshot
  rw [hzip, map_append, map_cons] at hnodup
  have hne : ∀ x ∈ done ++ left, x.1 ≠ e := by
    intro x hx heq
    have hperm := nodup_middle.1 hnodup
    rw [← map_append] at hperm
    exact (nodup_cons.1 hperm).1 (mem_map.2 ⟨x, hx, heq⟩)
  have hfut : ∀ x ∈ done ++ left,
      update L.future e (some (.result ans.vectors[i])) x.1 = L.future x.1 := fun x hx =>
    update_of_ne (hne x hx) _ _
  have hlook : ((L.batch b).snapshot.bind fun S => (S.keyToFirstIdx.get? k).bind fun i => ans.vectors[i]?) =
      some ans.vectors[i] := by
    rw [hans.snapshot, Option.bind_some, hi, Option.bind_some, hvec]
  unfold Lane.deliverTo
  rw [hlook, hleft _ mem_cons_self]
  refine ⟨hb, (Moves.complete (of_mem_zip hmem).1 (hleft _ mem_cons_self) _).trans (.goto _), ?_, ?_⟩ <;>
    rw [show (Lane.goto _ b _).batch b = _ from update_self _ _ _]
  swap
  · rw [hd]
    exact Prod.Lex.toLex_lt_toLex.2 (.inr ⟨rfl, Nat.lt_succ_self _⟩)
  refine ⟨S, ⟨hans.snapshot, hans.mem, hans.texts, hans.purpose⟩, hlen, done ++ [(e, k)], ?_, ?_, ?_⟩
  · rw [append_assoc]
    exact hzip
  · intro x hx
    rcases mem_append.1 hx with hx | hx
    · obtain ⟨j, vec, hj, hvec', hres⟩ := hdone x hx
      exact ⟨j, vec, hj, hvec', (hfut x (mem_append_left _ hx)).trans hres⟩
    · obtain rfl := mem_singleton.1 hx
      exact ⟨i, ans.vectors[i], hi, hvec, update_self _ _ _⟩
  · intro x hx
    exact (hfut x (mem_append_right _ hx)).trans (hleft x (mem_cons_of_mem _ hx))

theorem spreadTo (h : Inv cfg P L) {ex : Failure E} {e : ℕ} {left : List ℕ}
    (hd : (L.batch b).dispatch = .spreading ex (e :: left)) : Advance cfg L (L.spreadTo b ex e left) b := by
  obtain ⟨hb, hsealed, done, hmembers, hdone, hleft⟩ := h.at_dispatch hd nofun
  have hmem : e ∈ (L.batch b).members := by
    rw [hmembers]
    exact mem_append_right _ mem_cons_self
  have hnodup := h.nodup b hb
  rw [hmembers] at hnodup
  have hne : ∀ x ∈ done ++ left, x ≠ e := by
    intro x hx heq
    exact (nodup_cons.1 (nodup_middle.1 hnodup)).1 (heq ▸ hx)
  have hfut : ∀ x ∈ done ++ left,
      update L.future e (some (.exception ex)) x = L.future x := fun x hx =>
    update_of_ne (hne x hx) _ _
  unfold Lane.spreadTo
  rw [hleft e mem_cons_self]
  refine ⟨hb, (Moves.complete hmem (hleft e mem_cons_self) _).trans (.goto _), ?_, ?_⟩ <;>
    rw [show (Lane.goto _ b _).batch b = _ from update_self _ _ _]
  swap
  · rw [hd]
    exact Prod.Lex.toLex_lt_toLex.2 (.inr ⟨rfl, Nat.lt_succ_self _⟩)
  refine ⟨hsealed, done ++ [e], ?_, ?_, ?_⟩
  · rw [append_assoc]
    exact hmembers
  · intro x hx
    rcases mem_append.1 hx with hx | hx
    · exact (hfut x (mem_append_left _ hx)).trans (hdone x hx)
    · obtain rfl := mem_singleton.1 hx
      exact update_self _ _ _
  · intro x hx
    exact (hfut x (mem_append_right _ hx)).trans (hleft x (mem_cons_of_mem _ hx))

theorem init : Inv cfg P (Lane.init : Lane V E) := by
  refine ⟨nofun, nofun, nofun, nofun, nofun, nofun, nofun, nofun, fun _ _ => rfl, fun _ _ => rfl⟩

theorem advance_of_step (h : Inv cfg P L) (ha : a.dispatcher = some b)
    (hs : L.step cfg a = some L') : Advance cfg L L' b := by
  cases a with
  | enqueue e n cap => cases ha
  | noSlot b r =>
    cases ha
    simp only [Lane.step] at hs
    split at hs
    · rename_i k hd
      cases hs
      obtain ⟨hb, hpending⟩ := h.at_dispatch hd nofun
      exact goto hb hd (Batch.dispatchOk_afterRaise hpending k r) (rank_afterRaise_lt_attempting k r)
    · cases hs
  | snapshot b anchor =>
    cases ha
    simp only [Lane.step] at hs
    split at hs
    · rename_i k hd
      cases hs
      exact h.takeSnapshot hd anchor
    · cases hs
  | snapshotRaises b r =>
    cases ha
    simp only [Lane.step] at hs
    split at hs
    · rename_i k hd
      split at hs <;> cases hs
      obtain ⟨hb, hpending⟩ := h.at_dispatch hd nofun
      exact sealGoto hb hd (Batch.dispatchOk_afterRaise (B := { L.batch b with sealed := true }) hpending k r)
        (rank_afterRaise_lt_attempting k r)
    · cases hs
  | providerReturns b vectors =>
    cases ha
    simp only [Lane.step] at hs
    split at hs
    · rename_i k S hd hS
      cases hs
      obtain ⟨hb, hpending, -⟩ := h.at_dispatch hd nofun
      refine ⟨hb, .setBatch rfl rfl (fun _ hS' => .inl hS') fun _ => id, ?_, ?_⟩ <;>
        rw [show (Lane.setBatch _ b _).batch b = _ from update_self _ _ _]
      · exact ⟨hpending, S, hS, mem_append_right _ mem_cons_self, rfl, rfl⟩
      · rw [hd]
        exact toLex_lt_of_lt (by omega) _ _
    · cases hs
  | providerRaises b r =>
    cases ha
    simp only [Lane.step] at hs
    split at hs
    · rename_i k hd
      cases hs
      obtain ⟨hb, hpending, -⟩ := h.at_dispatch hd nofun
      exact goto hb hd (Batch.dispatchOk_afterRaise hpending k r) (rank_afterRaise_lt k r)
    · cases hs
  | prepare b =>
    cases ha
    simp only [Lane.step] at hs
    split at hs
    · rename_i hd
      cases hs
      exact h.prepare hd
    · cases hs
  | prepareRaises b ex =>
    cases ha
    simp only [Lane.step] at hs
    split at hs
    · rename_i ans hd
      split at hs <;> cases hs
      obtain ⟨hb, hpending, -⟩ := h.at_dispatch hd nofun
      exact goto hb hd ⟨hpending, by rintro (h | h) <;> cases h⟩ (toLex_lt_of_lt (by decide) _ _)
    · cases hs
  | deliver b =>
    cases ha
    simp only [Lane.step] at hs
    split at hs
    · rename_i hd
      cases hs
      exact h.deliverTo hd
    · rename_i ans hd
      cases hs
      obtain ⟨hb, S, hans, -, done, hzip, hdone, -⟩ := h.at_dispatch hd nofun
      rw [append_nil] at hzip
      refine goto hb hd ⟨(h.snapshot b hb S hans.snapshot).1, .inl ⟨S, ans, ?_, ?_⟩⟩ (toLex_lt_of_lt (by decide) _ _)
      · exact ⟨hans.snapshot, hans.mem, hans.texts, hans.purpose⟩
      · intro x hx
        exact hdone x (hzip ▸ hx)
    · cases hs
  | sealFailed b =>
    cases ha
    simp only [Lane.step] at hs
    split at hs
    · rename_i ex hd
      cases hs
      obtain ⟨hb, hpending, -⟩ := h.at_dispatch hd nofun
      exact sealGoto hb hd ⟨rfl, [], rfl, nofun, hpending⟩ (toLex_lt_of_lt (by decide) _ _)
    · cases hs
  | spread b =>
    cases ha
    simp only [Lane.step] at hs
    split at hs
    · rename_i hd
      cases hs
      exact h.spreadTo hd
    · rename_i ex hd
      cases hs
      obtain ⟨hb, hsealed, done, hmembers, hdone, -⟩ := h.at_dispatch hd nofun
      rw [append_nil] at hmembers
      exact goto hb hd ⟨hsealed, .inr ⟨ex, fun e he => hdone e (hmembers ▸ he)⟩⟩ (toLex_lt_of_lt (by decide) _ _)
    · cases hs

theorem step (h : Inv cfg P L)
    (ha : ∀ e n cap, a = .enqueue e n cap → P e.embeddingPurpose)
    (hs : L.step cfg a = some L') : Inv cfg P L' := by
  rcases hd : a.dispatcher with _ | b
  · cases a with
    | enqueue e n cap =>
      cases hs
      exact h.enqueue (ha e n cap rfl) n cap
    | _ => cases hd
  · exact h.advance (h.advance_of_step hd hs)

theorem progress (h : Inv cfg P L) (hd : (L.batch b).dispatch ≠ .finished) :
    ∃ a L', a.dispatcher = some b ∧ L.step cfg a = some L' := by
  cases hdisp : (L.batch b).dispatch with
  | attempting k => exact ⟨.snapshot b 0, _, rfl, by rw [Lane.step, hdisp]⟩
  | calling k =>
    obtain ⟨-, -, hsnap⟩ := h.at_dispatch hdisp nofun
    obtain ⟨S, hS⟩ := Option.ne_none_iff_exists'.1 hsnap
    exact ⟨.providerReturns b [], _, rfl, by rw [Lane.step, hdisp, hS]⟩
  | returned ans => exact ⟨.prepare b, _, rfl, by rw [Lane.step, hdisp]⟩
  | delivering ans left =>
    rcases left with _ | ⟨⟨e, k⟩, left⟩ <;> exact ⟨.deliver b, _, rfl, by rw [Lane.step, hdisp]⟩
  | failing ex => exact ⟨.sealFailed b, _, rfl, by rw [Lane.step, hdisp]⟩
  | spreading ex left =>
    rcases left with _ | ⟨e, left⟩ <;> exact ⟨.spread b, _, rfl, by rw [Lane.step, hdisp]⟩
  | finished => exact absurd hdisp hd

end Inv

end CodeIndexer.Coalescer
