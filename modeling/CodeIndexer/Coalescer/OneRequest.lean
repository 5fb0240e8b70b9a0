import CodeIndexer.Coalescer.Delivery
import CodeIndexer.Embedding.Providers

/-!
# One request for a sealed batch

The lane stops accretion when the next text would take the open batch over `token_limit` or the texts
cap, the provider splits when the next text would take its current batch over the safety limit or
`texts_per_request`. `Sized` carries what the lane's two tests give, whatever the live ceiling was at
each `_enqueue`: a batch is one text, or it is within both limits. The unique texts of the snapshot are
a sublist of the batch's, and a batch within both limits never makes the provider split.
-/

namespace CodeIndexer.Coalescer

open PyText CodeIndexer.Embedding TransitionSystem Function List

variable {V E : Type}

/-! ### The texts cap -/

def resolveTextsCap (ceiling : ℤ) (rawCap : Option ℤ) : ℤ :=
  match rawCap with
  | some raw => min ceiling raw
  | none => ceiling

/-- `effective_texts_cap`; `live` is what the ceiling provider returns, if there is one. -/
def effectiveTextsCap (textsCap : ℤ) (live rawCap : Option ℤ) : ℤ :=
  match live with
  | none => textsCap
  | some liveCeiling =>
    match rawCap with
    | some raw => min liveCeiling raw
    | none => liveCeiling

theorem effectiveTextsCap_le (ceiling : ℤ) (live : Option ℤ) (raw : ℤ) :
    effectiveTextsCap (resolveTextsCap ceiling (some raw)) live (some raw) ≤ raw := by
  cases live with
  | none | some liveCeiling => exact min_le_right _ _

/-- Every `_enqueue` gets the provider's count of its text and the effective texts cap under some static
ceiling and whatever the live ceiling is at that moment. -/
def Counted (countTokens : Str → ℤ) (ceiling : ℤ) (rawCap : Option ℤ) (_ : Lane V E) (a : Act V E) : Prop :=
  ∀ e n cap, a = .enqueue e n cap → n = countTokens e.text ∧
    ∃ live, cap = effectiveTextsCap (resolveTextsCap ceiling rawCap) live rawCap

/-! ### The snapshot's texts -/

namespace Snapshot

variable (digest : Str)

theorem uniqueTexts_foldl_add (more : List Str) :
    ∀ S : Snapshot, ∃ texts, (more.foldl (Snapshot.add digest) S).uniqueTexts = S.uniqueTexts ++ texts ∧
      texts.Sublist more := by
  induction more with
  | nil => exact fun S => ⟨[], (append_nil _).symm, .slnil⟩
  | cons text more ih =>
    intro S
    obtain ⟨texts, htexts, hsub⟩ := ih (S.add digest text)
    rw [foldl_cons, htexts]
    unfold Snapshot.add
    dsimp only
    split
    · exact ⟨texts, rfl, hsub.cons text⟩
    · exact ⟨text :: texts, append_assoc _ _ _, hsub.cons_cons text⟩

theorem uniqueTexts_sublist (anchor : ℤ) (batch : List Entry) :
    (build digest anchor batch).uniqueTexts.Sublist (batch.map Entry.text) := by
  unfold build
  generalize hS : Snapshot.mk anchor _ [] .empty [] = S
  obtain ⟨texts, htexts, hsub⟩ := uniqueTexts_foldl_add digest (batch.map Entry.text) S
  rw [htexts, ← hS]
  exact hsub

theorem uniqueTexts_ne_nil (anchor : ℤ) {batch : List Entry} (hne : batch ≠ []) :
    (build digest anchor batch).uniqueTexts ≠ [] := by
  obtain ⟨e, batch, rfl⟩ := exists_cons_of_ne_nil hne
  have hok := build_ok digest anchor (e :: batch)
  -- The first entry's key is indexed, so it points at a text.
  obtain ⟨i, hi⟩ := hok.indexed (dedupKey digest _ e.text) (by rw [hok.keys]; exact mem_cons_self)
  obtain ⟨t, ht, -⟩ := hok.first _ i hi
  rintro hnil
  rw [hnil] at ht
  cases ht

end Snapshot

/-! ### The size of a batch -/

namespace Lane

def texts (L : Lane V E) (b : ℕ) : List Str := ((L.batch b).members.map L.entry).map Entry.text

theorem texts_congr {L L' : Lane V E} {b : ℕ} (hmembers : (L'.batch b).members = (L.batch b).members)
    (hentry : L'.entry = L.entry) : L'.texts b = L.texts b := by
  rw [texts, texts, hmembers, hentry]

/-- The open batch and its token count are the ones from before, unless accretion was stopped. -/
def KeepsOpen (L L' : Lane V E) : Prop :=
  L'.openBatch = none ∨ L'.openBatch = L.openBatch ∧ L'.openTokens = L.openTokens

variable (L : Lane V E) (b : ℕ)

theorem KeepsOpen.refl : L.KeepsOpen L := .inr ⟨rfl, rfl⟩

theorem keepsOpen_sealBatch : L.KeepsOpen (L.sealBatch b) := by
  by_cases hopen : L.openBatch = some b
  · exact .inl (if_pos hopen)
  · exact .inr ⟨if_neg hopen, if_neg hopen⟩

theorem keepsOpen_sealIfFull (cfg : Config) (cap : ℤ) (L : Lane V E) : L.KeepsOpen (L.sealIfFull cfg cap) := by
  rcases L.sealIfFull_cases cfg cap with h | h
  all_goals rw [h]
  · exact .refl L
  · exact .inl rfl

theorem keepsOpen_takeSnapshot (cfg : Config) (L : Lane V E) (b attempt : ℕ) (anchor : ℤ) :
    L.KeepsOpen (L.takeSnapshot cfg b attempt anchor) := by
  unfold takeSnapshot
  split
  · split <;> exact .inr ⟨rfl, rfl⟩
  · exact keepsOpen_sealBatch L b

theorem keepsOpen_prepare (ans : Answer V) : L.KeepsOpen (L.prepare b ans) := by
  unfold prepare
  split
  · exact .inr ⟨rfl, rfl⟩
  · split <;> exact .inr ⟨rfl, rfl⟩

theorem keepsOpen_deliverTo (ans : Answer V) (e : ℕ) (k : Str)
    (left : List (ℕ × Str)) : L.KeepsOpen (L.deliverTo b ans e k left) := by
  unfold deliverTo
  split
  · exact .inr ⟨rfl, rfl⟩
  · split <;> exact .inr ⟨rfl, rfl⟩

theorem keepsOpen_spreadTo (ex : Failure E) (e : ℕ) (left : List ℕ) : L.KeepsOpen (L.spreadTo b ex e left) := by
  unfold spreadTo
  split <;> exact .inr ⟨rfl, rfl⟩

theorem keepsOpen_of_step {cfg : Config} {L L' : Lane V E} {a : Act V E} {b : ℕ}
    (ha : a.dispatcher = some b) (hs : L.step cfg a = some L') : L.KeepsOpen L' := by
  cases a with
  | enqueue e n cap => cases ha
  | _ =>
    simp only [Lane.step] at hs
    repeat' split at hs
    all_goals
      first
      | cases hs; done
      | cases hs
        first
        | exact .inr ⟨rfl, rfl⟩
        | exact keepsOpen_sealBatch _ _
        | exact keepsOpen_takeSnapshot _ _ _ _ _
        | exact keepsOpen_prepare _ _ _
        | exact keepsOpen_deliverTo _ _ _ _ _ _
        | exact keepsOpen_spreadTo _ _ _ _ _

end Lane

/-- Every batch is within the limits or one text, and the open batch's tokens are counted. -/
structure Sized (countTokens : Str → ℤ) (cfg : Config) (rawCap : Option ℤ) (L : Lane V E) : Prop where
  fits : ∀ b < L.numBatches, Fits countTokens cfg.tokenLimit rawCap (L.texts b)
  tokens : ∀ b, L.openBatch = some b → L.openTokens = totalTokens countTokens (L.texts b)

namespace Sized

variable {countTokens : Str → ℤ} {cfg : Config} {rawCap : Option ℤ} {P : Str → Prop} {L L' : Lane V E}

theorem init : Sized countTokens cfg rawCap (Lane.init : Lane V E) :=
  ⟨fun _ hb => absurd hb (Nat.not_lt_zero _), nofun⟩

theorem keepsOpen (h : Sized countTokens cfg rawCap L) (hnum : L'.numBatches = L.numBatches)
    (htexts : ∀ b, L'.texts b = L.texts b) (hopen : L.KeepsOpen L') : Sized countTokens cfg rawCap L' := by
  refine ⟨fun b hb => ?_, fun b hb => ?_⟩
  · rw [htexts b]
    exact h.fits b (hnum ▸ hb)
  · rcases hopen with hnone | ⟨hsame, htokens⟩
    · rw [hnone] at hb
      cases hb
    · rw [htokens, htexts b]
      exact h.tokens b (hsame ▸ hb)

theorem sealIfFull (h : Sized countTokens cfg rawCap L) (cap : ℤ) :
    Sized countTokens cfg rawCap (L.sealIfFull cfg cap) := by
  refine h.keepsOpen ?_ (fun b => ?_) (Lane.keepsOpen_sealIfFull cfg cap L)
  all_goals
    rcases L.sealIfFull_cases cfg cap with hL | hL
    all_goals rw [hL]
    all_goals rfl

theorem openWith (h : Sized countTokens cfg rawCap L) (hinv : Inv cfg P L) (e : Entry) :
    Sized countTokens cfg rawCap (L.openWith e (countTokens e.text)) := by
  have hnew : (L.openWith e (countTokens e.text)).texts L.numBatches = [e.text] := by
    simp [Lane.texts, Lane.openWith]
  have hold : ∀ b < L.numBatches, (L.openWith e (countTokens e.text)).texts b = L.texts b := by
    intro b hb
    rw [Lane.texts, show (L.openWith e _).batch b = L.batch b from update_of_ne hb.ne _ _,
      show (L.openWith e _).entry = update L.entry L.numEntries e from rfl,
      hinv.map_entry_update hb]
    rfl
  refine ⟨fun b hb => ?_, fun b hb => ?_⟩
  · rcases Nat.lt_succ_iff_lt_or_eq.1 hb with hlt | rfl
    · rw [hold b hlt]
      exact h.fits b hlt
    · rw [hnew]
      exact .inl (le_refl 1)
  · obtain rfl : L.numBatches = b := Option.some.inj hb
    rw [hnew, totalTokens_cons, totalTokens_nil, add_zero]
    rfl

theorem joinOpen (h : Sized countTokens cfg rawCap L) (hinv : Inv cfg P L) {b : ℕ}
    (hopen : L.openBatch = some b) (e : Entry) {cap : ℤ} (hcap : ∀ m ∈ rawCap, cap ≤ m)
    (hlen : (L.batch b).members.length < cap)
    (htokens : L.openTokens + countTokens e.text ≤ cfg.tokenLimit) :
    Sized countTokens cfg rawCap (L.joinOpen b e (countTokens e.text)) := by
  have hb := (hinv.openUnsealed b hopen).1
  have hentry : (L.joinOpen b e (countTokens e.text)).entry = update L.entry L.numEntries e := rfl
  have hnew : (L.joinOpen b e (countTokens e.text)).texts b = L.texts b ++ [e.text] := by
    rw [Lane.texts, hentry, show ((L.joinOpen b e _).batch b).members = (L.batch b).members ++ [L.numEntries] by
        simp [Lane.joinOpen], map_append, hinv.map_entry_update hb, map_append]
    simp [Lane.texts]
  have htotal : totalTokens countTokens (L.texts b ++ [e.text]) = L.openTokens + countTokens e.text := by
    rw [totalTokens_append, totalTokens_cons, totalTokens_nil, add_zero, h.tokens b hopen]
  refine ⟨fun b' hb' => ?_, fun b' hb' => ?_⟩
  · by_cases hne : b' = b
    · subst hne
      rw [hnew]
      refine .inr ⟨htotal ▸ htokens, fun m hm => ?_⟩
      have := hcap m hm
      rw [length_append, Lane.texts, length_map, length_map, length_singleton]
      omega
    · rw [Lane.texts, hentry, show (L.joinOpen b e _).batch b' = L.batch b' from update_of_ne hne _ _,
        hinv.map_entry_update hb']
      exact h.fits b' hb'
  · obtain rfl : b = b' := Option.mem_unique hopen hb'
    rw [hnew, htotal]
    rfl

theorem enqueue (h : Sized countTokens cfg rawCap L) (hinv : Inv cfg P L) (e : Entry) {cap : ℤ}
    (hcap : ∀ m ∈ rawCap, cap ≤ m) :
    Sized countTokens cfg rawCap (L.enqueue cfg e (countTokens e.text) cap) := by
  unfold Lane.enqueue
  split
  · exact (h.openWith hinv e).sealIfFull cap
  · rename_i b hopen
    split
    · rename_i hjoin
      exact (h.joinOpen hinv hopen e hcap hjoin.1 hjoin.2).sealIfFull cap
    · exact (h.openWith hinv e).sealIfFull cap

theorem moves (h : Sized countTokens cfg rawCap L) {b : ℕ} (hmoves : Moves cfg L L' b)
    (hopen : L.KeepsOpen L') : Sized countTokens cfg rawCap L' := by
  refine h.keepsOpen hmoves.numBatches (fun b' => ?_) hopen
  refine Lane.texts_congr ?_ hmoves.entry
  by_cases hne : b' = b
  · rw [hne, hmoves.members]
  · rw [hmoves.others b' hne]

end Sized

section Reachable

variable {countTokens : Str → ℤ} {cfg : Config} {ceiling : ℤ} {rawCap : Option ℤ} {L : Lane V E}

theorem Sized.of_reachable (h : (lane V E cfg).Reachable (Counted countTokens ceiling rawCap) L) :
    Inv cfg (fun _ => True) L ∧ Sized countTokens cfg rawCap L := by
  refine h.invariant (I := fun L => Inv cfg (fun _ => True) L ∧ Sized countTokens cfg rawCap L) ?_ ?_
  · rintro L rfl
    exact ⟨Inv.init, Sized.init⟩
  · rintro L a L' ⟨hinv, hsized⟩ hcounted hs
    refine ⟨hinv.step (fun _ _ _ _ => trivial) hs, ?_⟩
    rcases hd : a.dispatcher with _ | b
    · obtain ⟨e, n, cap, rfl⟩ := Act.eq_enqueue hd
      obtain ⟨rfl, live, rfl⟩ := hcounted e n cap rfl
      cases hs
      refine hsized.enqueue hinv e fun m hm => ?_
      obtain rfl := Option.mem_def.1 hm
      exact effectiveTextsCap_le ceiling live m
    · exact hsized.moves (hinv.advance_of_step hd hs).moves (Lane.keepsOpen_of_step hd hs)

theorem Sized.snapshot (hcount : ∀ text, 0 ≤ countTokens text)
    (h : (lane V E cfg).Reachable (Counted countTokens ceiling rawCap) L) {b : ℕ} (hb : b < L.numBatches)
    {S : Snapshot} (hS : (L.batch b).snapshot = some S) :
    S.uniqueTexts ≠ [] ∧ Fits countTokens cfg.tokenLimit rawCap S.uniqueTexts := by
  obtain ⟨hinv, hsized⟩ := Sized.of_reachable h
  obtain ⟨-, hbuild⟩ := hinv.snapshot b hb S hS
  obtain ⟨e, he, -⟩ := hinv.leader b hb
  have hne : (L.batch b).members.map L.entry ≠ [] := by
    rw [Ne, map_eq_nil_iff]
    rintro hnil
    rw [hnil] at he
    cases he
  rw [hbuild]
  exact ⟨Snapshot.uniqueTexts_ne_nil _ _ hne,
    (hsized.fits b hb).sublist hcount (Snapshot.uniqueTexts_sublist _ _ _)⟩

end Reachable
/-- What `do_call` passes as the purpose: `purpose or "query"`. -/
def Snapshot.requestPurpose (S : Snapshot) : Str := if S.purpose = [] then "query" else S.purpose

/-- Whatever the counts, the ceilings and the interleaving, the texts of a batch's snapshot go out in one
request, with Voyage (which has no texts cap) and with Cohere. -/
theorem one_request_per_batch {R F : Type} (C : Client R F) (hcount : ∀ text, 0 ≤ C.countTokens text)
    {cfg : Config} (hlimit : cfg.tokenLimit = C.safetyLimit) (ceiling : ℤ) (L : Lane V E) :
    ((lane V E cfg).Reachable (Counted C.countTokens ceiling none) L →
      ∀ b < L.numBatches, ∀ S, (L.batch b).snapshot = some S →
        (C.voyageBatch S.requestPurpose S.uniqueTexts).requests = [.plain S.uniqueTexts] ∨
        (C.voyageBatch S.requestPurpose S.uniqueTexts).requests =
          [.contextualized (S.uniqueTexts.map fun text => [text])]) ∧
    (∀ maxTexts, (lane V E cfg).Reachable (Counted C.countTokens ceiling (some maxTexts)) L →
      ∀ b < L.numBatches, ∀ S, (L.batch b).snapshot = some S →
        (C.cohereBatch maxTexts S.uniqueTexts).requests = [.plain S.uniqueTexts]) := by
  constructor
  · intro h b hb S hS
    obtain ⟨hne, hfits⟩ := Sized.snapshot hcount h hb hS
    exact C.voyageBatch_requests hcount hne (hlimit ▸ hfits) S.requestPurpose
  · intro maxTexts h b hb S hS
    obtain ⟨hne, hfits⟩ := Sized.snapshot hcount h hb hS
    exact C.cohereBatch_requests hcount hne (hlimit ▸ hfits)

def characterClient : Client ℕ Unit where
  request batch := .ok (batch.map fun _ => some [some 1])
  contextualized documents := .ok (documents.map fun _ => [1])
  countTokens text := text.length
  safetyLimit := 8
  isFinite _ := true
  expectedDims := some 1
  model := "embed-v4.0"

instance (a : Act V E) (countTokens : Str → ℤ) (ceiling raw : ℤ) (L : Lane V E) :
    Decidable (Counted countTokens ceiling (some raw) L a) :=
  match a with
  | .enqueue e n cap => decidable_of_iff (n = countTokens e.text ∧ cap ≤ raw) <| by
      constructor
      · rintro ⟨hn, hcap⟩ _ _ _ ⟨⟩
        exact ⟨hn, some cap, (min_eq_left hcap).symm⟩
      · intro h
        obtain ⟨hn, live, rfl⟩ := h e n cap rfl
        exact ⟨hn, effectiveTextsCap_le ceiling live raw⟩
  | .noSlot .. | .snapshot .. | .snapshotRaises .. | .providerReturns .. | .providerRaises .. | .prepare ..
  | .prepareRaises .. | .deliver .. | .sealFailed .. | .spread .. => .isTrue nofun

/-- A text over the limit goes alone. The three texts after it reach both limits exactly, and the one that
is repeated is sent once. -/
theorem one_request_per_batch_at_the_limit :
    ∃ L : Lane ℕ Unit,
      (lane ℕ Unit ⟨8, "d"⟩).Reachable (Counted characterClient.countTokens 96 (some 3)) L ∧
      (L.batch 0).snapshot.map Snapshot.uniqueTexts = some ["merge sort".toList] ∧
      (L.batch 1).snapshot.map Snapshot.uniqueTexts = some ["heap".toList, "bm".toList] ∧
      (characterClient.cohereBatch 3 ["heap", "bm"]).requests =
        [.plain ["heap", "bm"]] ∧
      (characterClient.cohereBatch 3 ["merge sort"]).requests = [.plain ["merge sort"]] := by
  refine exists_of_run_imp (fun L => L.numBatches = 2 ∧
      (L.batch 0).snapshot.map Snapshot.uniqueTexts = some ["merge sort".toList] ∧
      (L.batch 1).snapshot.map Snapshot.uniqueTexts = some ["heap".toList, "bm".toList]) Lane.init
    [.enqueue ⟨"merge sort", "query"⟩ 10 3, .enqueue ⟨"heap", "query"⟩ 4 3,
     .snapshot 0 2, .enqueue ⟨"bm", "query"⟩ 2 3,
     .enqueue ⟨"bm", "query"⟩ 2 3, .snapshot 1 2] rfl (by decide +kernel) fun L hreach ⟨hnum, h₀, h₁⟩ => ?_
  have hone := (one_request_per_batch characterClient (fun _ => Int.natCast_nonneg _) rfl 96 L).2 3 hreach
  refine ⟨h₀, h₁, ?_, ?_⟩
  · obtain ⟨S, hS, htexts⟩ := Option.map_eq_some_iff.1 h₁
    rw [← htexts]
    exact hone 1 (by omega) S hS
  · obtain ⟨S, hS, htexts⟩ := Option.map_eq_some_iff.1 h₀
    rw [← htexts]
    exact hone 0 (by omega) S hS

end CodeIndexer.Coalescer
