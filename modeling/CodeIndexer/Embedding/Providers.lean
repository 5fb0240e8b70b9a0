import CodeIndexer.Lib.PyText

/-!
# `get_embeddings_batch` of the Voyage and the Cohere provider

Both providers walk over the texts and collect a batch until the next text would take it over the
safety limit (Cohere also when it has `texts_per_request` texts), submit it and go on. A call is
modelled by the requests it sends, in order, next to what it returns, so that a request whose response
is refused is counted as well. `request` is one call of `_make_sync_request`.
-/

namespace CodeIndexer.Embedding

open PyText List

/-! ### Responses -/

abbrev RawEmbedding (R : Type) := Option (List (Option R))

inductive ResponseError
  | noneEmbedding (idx : ℕ)
  | emptyEmbedding (idx : ℕ)
  | noneOrEmptyEmbedding (idx : ℕ)
  | noneValues (idx : ℕ)
  | count (got expected : ℕ)
  | notFinite (i : ℕ)
  | dimensions (i got expected : ℕ)
deriving DecidableEq

/-- What a batch fails with: what the request raised, or a check of its response. -/
inductive BatchError (E : Type)
  | request (e : E)
  | response (e : ResponseError)
deriving DecidableEq

variable {R E : Type}

/-- The loop over the items of a response; `onNone` and `onEmpty` are the provider's errors. -/
def checkItems (onNone onEmpty : ℕ → ResponseError) :
    ℕ → List (RawEmbedding R) → Except ResponseError (List (List R))
  | _, [] => .ok []
  | idx, none :: _ => .error (onNone idx)
  | idx, some [] :: _ => .error (onEmpty idx)
  | idx, some (v :: vs) :: items =>
    match (v :: vs).mapM id with
    | none => .error (.noneValues idx)
    | some emb => (checkItems onNone onEmpty (idx + 1) items).map (emb :: ·)

def checkCount {α : Type} (got : List α) (expected : ℕ) : Except ResponseError Unit :=
  if got.length = expected then .ok () else .error (.count got.length expected)

def validateEmbeddings (isFinite : R → Bool) (expectedDims : Option ℕ) :
    ℕ → List (List R) → Except ResponseError Unit
  | _, [] => .ok ()
  | i, emb :: embs =>
    if !emb.all isFinite then .error (.notFinite i)
    else match expectedDims with
      | none => validateEmbeddings isFinite expectedDims (i + 1) embs
      | some d =>
        if emb.length = d then validateEmbeddings isFinite expectedDims (i + 1) embs
        else .error (.dimensions i emb.length d)

/-- A provider's client: its requests, its token counter and its limits. `contextualized` is
`get_contextualized_embeddings` for documents of one text each, which makes one request. -/
structure Client (R E : Type) where
  request : List Str → Except E (List (RawEmbedding R))
  contextualized : List Str → Except (BatchError E) (List (List R))
  countTokens : Str → ℤ
  safetyLimit : ℤ
  isFinite : R → Bool
  expectedDims : Option ℕ
  model : Str

variable (C : Client R E)

def Client.submitVoyage (batch : List Str) : Except (BatchError E) (List (List R)) :=
  match C.request batch with
  | .error e => .error (.request e)
  | .ok data => (do
      let embeddings ← checkItems .noneEmbedding .emptyEmbedding 0 data
      checkCount embeddings batch.length
      validateEmbeddings C.isFinite C.expectedDims 0 embeddings
      return embeddings).mapError .response

def Client.submitCohere (batch : List Str) : Except (BatchError E) (List (List R)) :=
  match C.request batch with
  | .error e => .error (.request e)
  | .ok data => (do
      checkCount data batch.length
      let embeddings ← checkItems .noneOrEmptyEmbedding .noneOrEmptyEmbedding 0 data
      validateEmbeddings C.isFinite C.expectedDims 0 embeddings
      return embeddings).mapError .response

/-! ### The splitting loop -/

inductive Request
  | plain (batch : List Str)
  | contextualized (documents : List (List Str))
deriving DecidableEq

structure Call (α ε : Type) where
  requests : List Request
  result : Except ε (List α)

def Call.sending {α ε : Type} (batch : List Str) (answer : Except ε (List α)) (next : List α → Call α ε) : Call α ε :=
  match answer with
  | .error e => ⟨[.plain batch], .error e⟩
  | .ok embeddings => ⟨.plain batch :: (next embeddings).requests, (next embeddings).result⟩

section Loop

variable {α ε : Type} (submit : List Str → Except ε (List α)) (countTokens : Str → ℤ)
  (wouldExceed : List Str → ℤ → Bool)

/-- The loop over the texts, with its `all_embeddings`, `current_batch` and `current_tokens`.
`wouldExceed batch n` is the provider's test on the current batch and the tokens it would have with the
next text; the batch after the last text is submitted too. -/
def splitLoop (allEmbeddings : List α) (currentBatch : List Str) (currentTokens : ℤ) :
    List Str → Call α ε
  | [] =>
    if currentBatch = [] then ⟨[], .ok allEmbeddings⟩
    else .sending currentBatch (submit currentBatch) fun es => ⟨[], .ok (allEmbeddings ++ es)⟩
  | text :: texts =>
    let chunkTokens := countTokens text
    if currentBatch ≠ [] ∧ wouldExceed currentBatch (currentTokens + chunkTokens) then
      .sending currentBatch (submit currentBatch) fun es =>
        splitLoop (allEmbeddings ++ es) [text] chunkTokens texts
    else splitLoop allEmbeddings (currentBatch ++ [text]) (currentTokens + chunkTokens) texts

end Loop

def contextualQueryModels : List Str := ["voyage-context-4"]

def Client.voyageBatch (embeddingPurpose : Str) (texts : List Str) : Call (List R) (BatchError E) :=
  if texts = [] then ⟨[], .ok []⟩
  else if embeddingPurpose = "query" ∧ C.model ∈ contextualQueryModels then
    ⟨[.contextualized (texts.map fun text => [text])], C.contextualized texts⟩
  else splitLoop C.submitVoyage C.countTokens (fun _ n => C.safetyLimit < n) [] [] 0 texts

/-- `CohereEmbeddingProvider.get_embeddings_batch`; the purpose only chooses the request's input type. -/
def Client.cohereBatch (maxTexts : ℤ) (texts : List Str) : Call (List R) (BatchError E) :=
  if texts = [] then ⟨[], .ok []⟩
  else splitLoop C.submitCohere C.countTokens
    (fun batch n => C.safetyLimit < n || maxTexts ≤ (batch.length : ℤ)) [] [] 0 texts

/-! ### What goes in one request -/

@[simp] theorem Call.sending_requests_nil {α ε : Type} (batch : List Str) (answer : Except ε (List α))
    (result : List α → Except ε (List α)) :
    (Call.sending batch answer fun es => ⟨[], result es⟩).requests = [.plain batch] := by
  cases answer <;> rfl

def totalTokens (countTokens : Str → ℤ) (texts : List Str) : ℤ := (texts.map countTokens).sum

section OneRequest

variable {countTokens : Str → ℤ}

@[simp] theorem totalTokens_nil : totalTokens countTokens [] = 0 := rfl

@[simp] theorem totalTokens_cons (text : Str) (texts : List Str) :
    totalTokens countTokens (text :: texts) = countTokens text + totalTokens countTokens texts := by
  simp [totalTokens]

@[simp] theorem totalTokens_append (texts texts' : List Str) :
    totalTokens countTokens (texts ++ texts') = totalTokens countTokens texts + totalTokens countTokens texts' := by
  simp [totalTokens]

variable {texts texts' : List Str} {maxTexts : Option ℤ} {limit : ℤ}

theorem totalTokens_le_of_sublist (hcount : ∀ text, 0 ≤ countTokens text)
    (h : texts.Sublist texts') : totalTokens countTokens texts ≤ totalTokens countTokens texts' := by
  induction h with
  | slnil => exact le_refl _
  | cons text _ ih =>
    exact le_add_of_nonneg_of_le (hcount text) ih
  | cons_cons text _ ih =>
    exact Int.add_le_add_left ih _

variable {α ε : Type} {submit : List Str → Except ε (List α)} {wouldExceed : List Str → ℤ → Bool}

/-- If no proper extension of the current batch along the texts exceeds, nothing is split off. -/
theorem splitLoop_requests (all : List α) {batch : List Str}
    (hne : batch ++ texts ≠ [])
    (hfits : ∀ pre text post, texts = pre ++ text :: post → batch ++ pre ≠ [] →
      wouldExceed (batch ++ pre) (totalTokens countTokens (batch ++ pre ++ [text])) = false) :
    (splitLoop submit countTokens wouldExceed all batch (totalTokens countTokens batch) texts).requests =
      [.plain (batch ++ texts)] := by
  induction texts generalizing batch with
  | nil =>
    rw [append_nil] at hne
    rw [splitLoop, if_neg hne, Call.sending_requests_nil, append_nil]
  | cons text texts ih =>
    have htokens : totalTokens countTokens batch + countTokens text =
        totalTokens countTokens (batch ++ [text]) := by simp
    have hstay : ¬ (batch ≠ [] ∧ wouldExceed batch (totalTokens countTokens batch + countTokens text)) := by
      rintro ⟨hbatch, hex⟩
      have := hfits [] text texts rfl (by simpa using hbatch)
      rw [append_nil, ← htokens] at this
      rw [this] at hex
      cases hex
    have hgo : (splitLoop submit countTokens wouldExceed all (batch ++ [text])
        (totalTokens countTokens (batch ++ [text])) texts).requests = [.plain (batch ++ [text] ++ texts)] := by
      refine ih (by simp) fun pre next post h _ => ?_
      have := hfits (text :: pre) next post (by rw [h, cons_append]) (by simp)
      simpa using this
    rw [splitLoop, if_neg hstay, htokens, hgo, append_assoc, singleton_append]

/-- A batch that both limits of a provider leave in one piece: one text, or few enough of them with few
enough tokens. -/
def Fits (countTokens : Str → ℤ) (limit : ℤ) (maxTexts : Option ℤ) (texts : List Str) : Prop :=
  texts.length ≤ 1 ∨ totalTokens countTokens texts ≤ limit ∧ ∀ m ∈ maxTexts, (texts.length : ℤ) ≤ m

theorem Fits.sublist (hcount : ∀ text, 0 ≤ countTokens text)
    (h : Fits countTokens limit maxTexts texts') (hs : texts.Sublist texts') :
    Fits countTokens limit maxTexts texts := by
  rcases h with h | ⟨htokens, htexts⟩
  · exact .inl (hs.length_le.trans h)
  · refine .inr ⟨(totalTokens_le_of_sublist hcount hs).trans htokens, fun m hm => ?_⟩
    exact (Int.ofNat_le.2 hs.length_le).trans (htexts m hm)

theorem Fits.extend (hcount : ∀ text, 0 ≤ countTokens text)
    {pre post : List Str} {text : Str} (h : Fits countTokens limit maxTexts (pre ++ text :: post))
    (hpre : pre ≠ []) :
    totalTokens countTokens (pre ++ [text]) ≤ limit ∧ ∀ m ∈ maxTexts, (pre.length : ℤ) < m := by
  have hlen : 0 < pre.length := length_pos_iff.2 hpre
  rcases h with h | ⟨htokens, htexts⟩
  · simp only [length_append, length_cons] at h
    omega
  · have hs : (pre ++ [text]).Sublist (pre ++ text :: post) :=
      (List.Sublist.refl pre).append (singleton_sublist.2 mem_cons_self)
    refine ⟨(totalTokens_le_of_sublist hcount hs).trans htokens, fun m hm => ?_⟩
    have := htexts m hm
    simp only [length_append, length_cons, Nat.cast_add, Nat.cast_one] at this
    omega

end OneRequest

namespace Client

variable {C : Client R E} {texts : List Str}

theorem voyageBatch_requests (hcount : ∀ text, 0 ≤ C.countTokens text) (hne : texts ≠ [])
    (hfits : Fits C.countTokens C.safetyLimit none texts) (purpose : Str) :
    (C.voyageBatch purpose texts).requests = [.plain texts] ∨
    (C.voyageBatch purpose texts).requests = [.contextualized (texts.map fun text => [text])] := by
  rw [voyageBatch, if_neg hne]
  split
  · exact .inr rfl
  · refine .inl (splitLoop_requests [] hne fun pre text post h hpre => ?_)
    subst h
    have := (hfits.extend hcount hpre).1
    simpa using this

theorem cohereBatch_requests (hcount : ∀ text, 0 ≤ C.countTokens text) (hne : texts ≠ []) {maxTexts : ℤ}
    (hfits : Fits C.countTokens C.safetyLimit (some maxTexts) texts) :
    (C.cohereBatch maxTexts texts).requests = [.plain texts] := by
  rw [cohereBatch, if_neg hne]
  refine splitLoop_requests [] hne fun pre text post h hpre => ?_
  subst h
  obtain ⟨htokens, htexts⟩ := hfits.extend hcount hpre
  have := htexts maxTexts rfl
  simp only [nil_append, Bool.or_eq_false_iff, decide_eq_false_iff_not, not_lt, not_le]
  exact ⟨htokens, this⟩

end Client

end CodeIndexer.Embedding
