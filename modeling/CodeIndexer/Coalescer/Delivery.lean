import CodeIndexer.Coalescer.LaneInv

/-!
# Coalesced delivery

The lane's invariant read as what submitters rely on: one batch and one dispatcher for each entry, a
membership that stays as it was snapshotted, and a future that is completed once, with the vector of a
text of the same dedup key or with the exception the whole batch gets. A dispatcher is never stuck
and its rank falls with each of its steps, so its batch's futures are completed in the end.
-/

namespace CodeIndexer.Coalescer

open PyText TransitionSystem Function

variable {V E : Type}

/-! ### What `_enqueue` leaves alone -/

namespace Lane

variable (cfg : Config) (L : Lane V E) (e : Entry) (n cap : ℤ)

theorem sealIfFull_cases :
    L.sealIfFull cfg cap = L ∨ L.sealIfFull cfg cap = { L with openBatch := none, openTokens := 0 } := by
  unfold sealIfFull
  split
  · exact .inl rfl
  · split
    · exact .inr rfl
    · exact .inl rfl

@[simp] theorem sealIfFull_batch : (L.sealIfFull cfg cap).batch = L.batch := by
  rcases L.sealIfFull_cases cfg cap with h | h <;> rw [h]

@[simp] theorem sealIfFull_future : (L.sealIfFull cfg cap).future = L.future := by
  rcases L.sealIfFull_cases cfg cap with h | h <;> rw [h]

theorem enqueue_future : (L.enqueue cfg e n cap).future = L.future := by
  unfold enqueue
  split
  · rw [sealIfFull_future]
    rfl
  · split <;> rw [sealIfFull_future] <;> rfl

theorem enqueue_batch {b : ℕ} (hb : b < L.numBatches) :
    (L.enqueue cfg e n cap).batch b = L.batch b ∨ L.openBatch = some b ∧
      (L.enqueue cfg e n cap).batch b =
        { L.batch b with members := (L.batch b).members ++ [L.numEntries] } := by
  have hopenWith : ((L.openWith e n).sealIfFull cfg cap).batch b = L.batch b := by
    rw [sealIfFull_batch]
    exact update_of_ne (Nat.ne_of_lt hb) _ _
  unfold enqueue
  split
  · exact .inl hopenWith
  · rename_i b' hopen
    split
    · by_cases hne : b = b'
      · subst hne
        refine .inr ⟨hopen, ?_⟩
        rw [sealIfFull_batch]
        exact update_self _ _ _
      · refine .inl ?_
        rw [sealIfFull_batch]
        exact update_of_ne hne _ _
    · exact .inl hopenWith

end Lane

theorem Act.eq_enqueue {a : Act V E} (h : a.dispatcher = none) : ∃ e n cap, a = .enqueue e n cap := by
  cases a with
  | enqueue e n cap => exact ⟨e, n, cap, rfl⟩
  | _ => cases h

/-! ### Delivery -/

structure DeliversOnce (cfg : Config) (L : Lane V E) : Prop where
  /-- Every entry is in exactly one batch, once. -/
  oneBatch : ∀ e < L.numEntries, (∃! b, b < L.numBatches ∧ e ∈ (L.batch b).members) ∧
    (L.batch (L.home e)).members.count e = 1
  /-- One submitter of each batch was told to dispatch it. -/
  oneDispatcher : ∀ b < L.numBatches, ∃! e, e ∈ (L.batch b).members ∧ L.leads e = true
  /-- Nobody joins a batch that was snapshotted, and it is snapshotted once. -/
  frozen : ∀ a L', L.step cfg a = some L' → ∀ b < L.numBatches, ∀ S, (L.batch b).snapshot = some S →
    (L'.batch b).snapshot = some S ∧ (L'.batch b).members = (L.batch b).members
  /-- A completed future is not completed again. -/
  kept : ∀ a L', L.step cfg a = some L' → ∀ e o, L.future e = some o → L'.future e = some o
  noInvalidState : ∀ b < L.numBatches, (L.batch b).dispatch ≠ .failing .invalidState
  completed : ∀ b < L.numBatches, (L.batch b).dispatch = .finished →
    ∀ e ∈ (L.batch b).members, (L.future e).isSome
  /-- A dispatcher that has not finished can move, and each of its steps brings it closer to its end. -/
  finishes : ∀ b < L.numBatches, (L.batch b).dispatch ≠ .finished →
    (∃ a L', a.dispatcher = some b ∧ L.step cfg a = some L') ∧
    ∀ a L', L.step cfg a = some L' →
      if a.dispatcher = some b then (L'.batch b).dispatch.rank < (L.batch b).dispatch.rank
      else (L'.batch b).dispatch = (L.batch b).dispatch
  /-- A vector is what the provider returned for a text with the entry's dedup key. -/
  vector : ∀ e vec, L.future e = some (.result vec) → ∃ S ans, ∃ i : ℕ, ∃ t,
    (L.batch (L.home e)).snapshot = some S ∧ ans ∈ (L.batch (L.home e)).answers ∧
    ans.purpose = (L.entry e).embeddingPurpose ∧ ans.vectors[i]? = some vec ∧ ans.texts[i]? = some t ∧
    dedupKey cfg.configDigest S.anchor t = dedupKey cfg.configDigest S.anchor (L.entry e).text
  /-- An exception is the whole batch's. -/
  sharedFate : ∀ e ex, L.future e = some (.exception ex) → ∀ e' ∈ (L.batch (L.home e)).members,
    L.future e' = some (.exception ex) ∨
      L.future e' = none ∧ (L.batch (L.home e)).dispatch ≠ .finished

namespace Inv

variable {cfg : Config} {P : Str → Prop} {L L' : Lane V E} {b e : ℕ}

theorem mem_home (h : Inv cfg P L) (he : e < L.numEntries) :
    L.home e < L.numBatches ∧ e ∈ (L.batch (L.home e)).members :=
  ⟨h.home_lt e he, (h.mem_iff _ (h.home_lt e he) e).2 ⟨he, rfl⟩⟩

variable {o : Outcome V E} {a : Act V E}

theorem lt_of_future (h : Inv cfg P L) (ho : L.future e = some o) : e < L.numEntries := by
  refine Nat.lt_of_not_le fun hle => ?_
  rw [h.unset e hle] at ho
  cases ho

theorem outcome_cases (h : Inv cfg P L) (hb : b < L.numBatches) (he : e ∈ (L.batch b).members)
    (ho : L.future e = some o) :
    (∃ S ans, (L.batch b).Answered S ans ∧
      Delivered L.future S ans (e, dedupKey cfg.configDigest S.anchor (L.entry e).text)) ∨
    ∃ ex, o = .exception ex ∧ ∀ e' ∈ (L.batch b).members, L.future e' = some (.exception ex) ∨
      L.future e' = none ∧ (L.batch b).dispatch ≠ .finished := by
  have hok := h.dispatch b hb
  unfold Batch.DispatchOk at hok
  have hpending : ¬ (L.batch b).Pending L.future := by
    intro hp
    rw [hp e he] at ho
    cases ho
  have hzip : ∀ {S : Snapshot}, (L.batch b).snapshot = some S →
      (e, dedupKey cfg.configDigest S.anchor (L.entry e).text) ∈ (L.batch b).members.zip S.entryKeys := by
    intro S hS
    rw [h.zip_entryKeys hb hS]
    exact List.mem_map.2 ⟨e, he, rfl⟩
  cases hd : (L.batch b).dispatch <;> rw [hd] at hok
  case attempting k =>
    exact absurd hok hpending
  case calling k | returned ans | failing ex =>
    exact absurd hok.1 hpending
  case delivering ans left =>
    obtain ⟨S, hans, -, done, hsplit, hdone, hleft⟩ := hok
    have hmem := hzip hans.snapshot
    rw [hsplit] at hmem
    rcases List.mem_append.1 hmem with hmem | hmem
    · exact .inl ⟨S, ans, hans, hdone _ hmem⟩
    · rw [show L.future e = none from hleft _ hmem] at ho
      cases ho
  case spreading ex left =>
    obtain ⟨-, done, hmembers, hdone, hleft⟩ := hok
    rw [hmembers] at he ⊢
    refine .inr ⟨ex, ?_, fun e' he' => ?_⟩
    · rcases List.mem_append.1 he with he | he
      · exact Option.mem_unique ho (hdone e he)
      · rw [hleft e he] at ho
        cases ho
    · rcases List.mem_append.1 he' with he' | he'
      · exact .inl (hdone e' he')
      · exact .inr ⟨hleft e' he', nofun⟩
  case finished =>
    obtain ⟨-, ⟨S, ans, hans, hall⟩ | ⟨ex, hall⟩⟩ := hok
    · exact .inl ⟨S, ans, hans, hall _ (hzip hans.snapshot)⟩
    · exact .inr ⟨ex, Option.mem_unique ho (hall e he), fun e' he' => .inl (hall e' he')⟩

theorem completed (h : Inv cfg P L) (hb : b < L.numBatches) (hd : (L.batch b).dispatch = .finished)
    (he : e ∈ (L.batch b).members) : (L.future e).isSome := by
  have hok := h.dispatch b hb
  rw [Batch.DispatchOk, hd] at hok
  obtain ⟨-, ⟨S, ans, hans, hall⟩ | ⟨ex, hall⟩⟩ := hok
  · have hmem : (e, dedupKey cfg.configDigest S.anchor (L.entry e).text) ∈
        (L.batch b).members.zip S.entryKeys := by
      rw [h.zip_entryKeys hb hans.snapshot]
      exact List.mem_map.2 ⟨e, he, rfl⟩
    obtain ⟨i, vec, -, -, hfut⟩ := hall _ hmem
    exact Option.isSome_iff_exists.2 ⟨_, hfut⟩
  · exact Option.isSome_iff_exists.2 ⟨_, hall e he⟩

theorem oneBatch (h : Inv cfg P L) (he : e < L.numEntries) :
    (∃! b, b < L.numBatches ∧ e ∈ (L.batch b).members) ∧ (L.batch (L.home e)).members.count e = 1 := by
  obtain ⟨hb, hmem⟩ := h.mem_home he
  refine ⟨⟨L.home e, ⟨hb, hmem⟩, ?_⟩, List.count_eq_one_of_mem (h.nodup _ hb) hmem⟩
  rintro b ⟨hb', hmem'⟩
  exact ((h.mem_iff b hb' e).1 hmem').2.symm

theorem oneDispatcher (h : Inv cfg P L) (hb : b < L.numBatches) : ∃! e, e ∈ (L.batch b).members ∧ L.leads e = true := by
  obtain ⟨l, hhead, hleads⟩ := h.leader b hb
  have hl := List.mem_of_mem_head? hhead
  refine ⟨l, ⟨hl, (hleads l hl).2 rfl⟩, ?_⟩
  rintro e ⟨he, hlead⟩
  exact (hleads e he).1 hlead

theorem frozen (h : Inv cfg P L) (hs : L.step cfg a = some L') (hb : b < L.numBatches)
    {S : Snapshot} (hS : (L.batch b).snapshot = some S) :
    (L'.batch b).snapshot = some S ∧ (L'.batch b).members = (L.batch b).members := by
  rcases hd : a.dispatcher with _ | b'
  · obtain ⟨e, n, cap, rfl⟩ := Act.eq_enqueue hd
    cases hs
    rcases L.enqueue_batch cfg e n cap hb with heq | ⟨hopen, -⟩
    · rw [heq]
      exact ⟨hS, rfl⟩
    · -- a snapshotted batch is sealed, so it is not the open one
      have hfalse := (h.openUnsealed b hopen).2
      rw [(h.snapshot b hb S hS).1] at hfalse
      cases hfalse
  · have hm := (h.advance_of_step hd hs).moves
    by_cases hne : b = b'
    · subst hne
      exact ⟨hm.snapshotKept S hS, hm.members⟩
    · rw [hm.others b hne]
      exact ⟨hS, rfl⟩

theorem kept (h : Inv cfg P L) (hs : L.step cfg a = some L') (ho : L.future e = some o) : L'.future e = some o := by
  rcases hd : a.dispatcher with _ | b
  · obtain ⟨e', n, cap, rfl⟩ := Act.eq_enqueue hd
    cases hs
    rw [L.enqueue_future]
    exact ho
  · exact (h.advance_of_step hd hs).moves.kept e o ho

theorem noInvalidState (h : Inv cfg P L) (hb : b < L.numBatches) : (L.batch b).dispatch ≠ .failing .invalidState := by
  intro hd
  have hok := h.dispatch b hb
  rw [Batch.DispatchOk, hd] at hok
  exact hok.2 (.inr rfl)

theorem rank_step (h : Inv cfg P L) (hb : b < L.numBatches) (hs : L.step cfg a = some L') :
    if a.dispatcher = some b then (L'.batch b).dispatch.rank < (L.batch b).dispatch.rank
    else (L'.batch b).dispatch = (L.batch b).dispatch := by
  split
  · rename_i ha
    exact (h.advance_of_step ha hs).rank
  · rename_i hne
    rcases ha : a.dispatcher with _ | b'
    · obtain ⟨e, n, cap, rfl⟩ := Act.eq_enqueue ha
      cases hs
      rcases L.enqueue_batch cfg e n cap hb with heq | ⟨-, heq⟩ <;> rw [heq]
    · rw [ha] at hne
      rw [(h.advance_of_step ha hs).moves.others b fun hbb => hne (hbb ▸ rfl)]

theorem sharedFate (h : Inv cfg P L) {ex : Failure E} (ho : L.future e = some (.exception ex)) :
    ∀ e' ∈ (L.batch (L.home e)).members, L.future e' = some (.exception ex) ∨
      L.future e' = none ∧ (L.batch (L.home e)).dispatch ≠ .finished := by
  obtain ⟨hb, he⟩ := h.mem_home (h.lt_of_future ho)
  rcases h.outcome_cases hb he ho with ⟨S, ans, -, i, vec, -, -, hfut⟩ | ⟨ex', hex, hall⟩
  · cases ho.symm.trans hfut
  · obtain rfl := Outcome.exception.inj hex
    exact hall

theorem vector {purpose : Str} (h : Inv cfg (· = purpose) L) {vec : V} (ho : L.future e = some (.result vec)) :
    ∃ S ans, ∃ i : ℕ, ∃ t, (L.batch (L.home e)).snapshot = some S ∧ ans ∈ (L.batch (L.home e)).answers ∧
      ans.purpose = (L.entry e).embeddingPurpose ∧ ans.vectors[i]? = some vec ∧ ans.texts[i]? = some t ∧
      dedupKey cfg.configDigest S.anchor t = dedupKey cfg.configDigest S.anchor (L.entry e).text := by
  have hlt := h.lt_of_future ho
  obtain ⟨hb, he⟩ := h.mem_home hlt
  rcases h.outcome_cases hb he ho with ⟨S, ans, hans, i, vec', hi, hvec, hfut⟩ | ⟨ex, hex, -⟩
  · obtain rfl := Outcome.result.inj (Option.mem_unique ho hfut)
    have hbuild := (h.snapshot _ hb S hans.snapshot).2
    have hok := Snapshot.build_ok cfg.configDigest S.anchor ((L.batch (L.home e)).members.map L.entry)
    rw [← hbuild] at hok
    obtain ⟨t, ht, hkey⟩ := hok.first _ i hi
    refine ⟨S, ans, i, t, hans.snapshot, hans.mem, ?_, hvec, hans.texts ▸ ht, hkey⟩
    -- the call's purpose is that of the first member, which is everybody's
    obtain ⟨l, hhead, -⟩ := h.leader _ hb
    obtain ⟨rest, hmembers⟩ := List.head?_eq_some_iff.1 hhead
    rw [hmembers, List.map_cons] at hbuild
    have hl : l < L.numEntries := h.mem_lt hb (List.mem_of_mem_head? hhead)
    calc ans.purpose = S.purpose := hans.purpose
      _ = (L.entry l).embeddingPurpose := by rw [hbuild, Snapshot.build_purpose]
      _ = (L.entry e).embeddingPurpose := (h.purposes l hl).trans (h.purposes e hlt).symm
  · cases hex

end Inv

def Act.entry : Act V E → Option Entry
  | .enqueue e _ _ => some e
  | _ => none

def SamePurpose (purpose : Str) (_ : Lane V E) (a : Act V E) : Prop :=
  ∀ e ∈ a.entry, e.embeddingPurpose = purpose

instance (purpose : Str) (L : Lane V E) (a : Act V E) : Decidable (SamePurpose purpose L a) :=
  inferInstanceAs (Decidable (∀ e ∈ a.entry, e.embeddingPurpose = purpose))

theorem Inv.of_reachable {cfg : Config} {purpose : Str} {L : Lane V E}
    (h : (lane V E cfg).Reachable (SamePurpose purpose) L) : Inv cfg (· = purpose) L := by
  refine h.invariant ?_ ?_
  · rintro L rfl
    exact Inv.init
  · intro L a L' hinv hpurpose hs
    refine hinv.step ?_ hs
    rintro e n cap rfl
    exact hpurpose e rfl

/-- In every reachable state of a lane, however its submitters and dispatchers interleave. -/
theorem delivers_once {cfg : Config} {purpose : Str} {L : Lane V E}
    (h : (lane V E cfg).Reachable (SamePurpose purpose) L) : DeliversOnce cfg L := by
  have hinv := Inv.of_reachable h
  exact {
    oneBatch := fun _ he => hinv.oneBatch he
    oneDispatcher := fun _ hb => hinv.oneDispatcher hb
    frozen := fun _ _ hs _ hb _ hS => hinv.frozen hs hb hS
    kept := fun _ _ hs _ _ ho => hinv.kept hs ho
    noInvalidState := fun _ hb => hinv.noInvalidState hb
    completed := fun _ hb hd _ he => hinv.completed hb hd he
    finishes := fun _ hb hd => ⟨hinv.progress hd, fun _ _ hs => hinv.rank_step hb hs⟩
    vector := fun _ _ ho => hinv.vector ho
    sharedFate := fun _ _ ho => hinv.sharedFate ho }

/-- Two submitters of one dedup key share a batch; the provider is rate limited once, then returns one
vector for both. -/
theorem delivers_once_after_retry :
    ∃ L : Lane ℕ Unit, (lane ℕ Unit ⟨100, "d"⟩).Reachable (SamePurpose "query") L ∧
      L.future 0 = some (.result 7) ∧ L.future 1 = some (.result 7) ∧ DeliversOnce ⟨100, "d"⟩ L := by
  exact exists_of_run_and_and Lane.init
    [.enqueue ⟨"hnsw index", "query"⟩ 2 96, .enqueue ⟨"hnsw  index", "query"⟩ 2 96, .snapshot 0 2,
     .providerRaises 0 ⟨(), true, true⟩, .snapshot 0 2, .providerReturns 0 [7], .prepare 0, .deliver 0,
     .deliver 0, .deliver 0] rfl (by decide +kernel) fun L hreach _ _ => delivers_once hreach

end CodeIndexer.Coalescer
