import CodeIndexer.Coalescer.Lane

/-!
# Cache keys

`build_key` (`server/services/query_embedding_cache.py`) joins the tokens of a text after sorting those behind the
anchor. Tokens have no blank, so the joined text has its tokens back (`joined_injective`), and the digest, without a
colon, ends at the second colon of the key.
-/

namespace CodeIndexer.Coalescer

open PyText List

/-! ### Tokens -/

theorem not_isSpace_of_mem_splitOnP {piece : Str} {c : Char} (s : Str) (hpiece : piece ∈ s.splitOnP isSpace)
    (hc : c ∈ piece) : isSpace c = false := by
  induction s generalizing piece with
  | nil =>
    rw [splitOnP_nil, mem_singleton] at hpiece
    simp [hpiece] at hc
  | cons x s ih =>
    rw [splitOnP_cons_eq_if_modifyHead] at hpiece
    by_cases hx : isSpace x = true
    · rw [if_pos hx, mem_cons] at hpiece
      rcases hpiece with rfl | hpiece
      · simp at hc
      · exact ih hpiece hc
    · rw [if_neg hx] at hpiece
      cases hsplit : s.splitOnP isSpace with
      | nil => exact absurd hsplit (splitOnP_ne_nil _ _)
      | cons first pieces =>
        rw [hsplit, modifyHead_cons, mem_cons] at hpiece
        rw [hsplit] at ih
        rcases hpiece with rfl | hpiece
        · rcases mem_cons.mp hc with rfl | hc
          · simpa using hx
          · exact ih mem_cons_self hc
        · exact ih (mem_cons_of_mem _ hpiece) hc

def Words (tokens : List Str) : Prop := ∀ t ∈ tokens, t ≠ [] ∧ ' ' ∉ t

theorem words_split (text : Str) : Words (split text) := by
  intro t ht
  rw [split, mem_filter] at ht
  refine ⟨of_decide_eq_true ht.2, fun hc => ?_⟩
  have hspace := not_isSpace_of_mem_splitOnP text ht.1 hc
  exact absurd hspace (by decide)

theorem joined_injective {l m : List Str} (hl : Words l) (hm : Words m)
    (h : [' '].intercalate l = [' '].intercalate m) : l = m := by
  have hnil : ∀ {l : List Str}, Words l → [' '].intercalate l = [] → l = [] := by
    intro l hl hjoin
    cases l with
    | nil => rfl
    | cons t l =>
      have ht := (hl t mem_cons_self).1
      cases l <;> simp [List.intercalate, ht] at hjoin
  by_cases hl' : l = []
  · subst hl'
    exact (hnil hm h.symm).symm
  by_cases hm' : m = []
  · subst hm'
    exact hnil hl h
  rw [← splitOn_intercalate ' ' (fun t ht => (hl t ht).2) hl', h, splitOn_intercalate ' ' (fun t ht => (hm t ht).2) hm']

/-! ### The normal form -/

def sortedTail (tokens : List Str) : List Str := tokens.mergeSort fun a b => a ≤ b

theorem sortedTail_eq_iff {l m : List Str} : sortedTail l = sortedTail m ↔ l.Perm m := by
  constructor
  · intro h
    have hperm : (sortedTail l).Perm m := h ▸ mergeSort_perm m _
    exact (mergeSort_perm l _).symm.trans hperm
  · intro h
    have hsorted : ∀ l : List Str, (sortedTail l).Pairwise (· ≤ ·) := fun l =>
      (pairwise_mergeSort (fun a b c hab hbc => by simpa using le_trans (of_decide_eq_true hab) (of_decide_eq_true hbc))
        (fun a b => by simpa using le_total a b) l).imp of_decide_eq_true
    exact ((mergeSort_perm l _).trans (h.trans (mergeSort_perm m _).symm)).eq_of_pairwise
      (fun a b _ _ => le_antisymm) (hsorted l) (hsorted m)

/-- The two branches of the normalisation are one: with `n` tokens or fewer there is no tail. -/
theorem normalised_eq (n : ℤ) (text : Str) : normalised n text =
    [' '].intercalate ((split text).take n.toNat ++ sortedTail ((split text).drop n.toNat)) := by
  simp only [normalised]
  split_ifs with hle
  · rw [take_of_length_le hle, drop_of_length_le hle, sortedTail, mergeSort_nil, append_nil]
  · rfl

def SameQuery (n : ℤ) (t₁ t₂ : Str) : Prop :=
  (split t₁).take n.toNat = (split t₂).take n.toNat ∧ ((split t₁).drop n.toNat).Perm ((split t₂).drop n.toNat)

theorem words_normalised (n : ℕ) (text : Str) : Words ((split text).take n ++ sortedTail ((split text).drop n)) := by
  intro t ht
  rw [mem_append, sortedTail, (mergeSort_perm _ _).mem_iff] at ht
  exact words_split text t (ht.elim mem_of_mem_take mem_of_mem_drop)

theorem normalised_eq_iff {n : ℤ} {t₁ t₂ : Str} : normalised n t₁ = normalised n t₂ ↔ SameQuery n t₁ t₂ := by
  rw [normalised_eq, normalised_eq, SameQuery, ← sortedTail_eq_iff]
  constructor
  · intro h
    have hjoin := joined_injective (words_normalised _ t₁) (words_normalised _ t₂) h
    refine append_inj hjoin ?_
    have hlen := congrArg List.length hjoin
    simp only [length_append, sortedTail, length_mergeSort, length_take, length_drop] at hlen ⊢
    omega
  · rintro ⟨hanchor, htail⟩
    rw [hanchor, htail]

theorem key_eq_iff {d₁ d₂ s₁ s₂ : Str} (h₁ : ':' ∉ d₁) (h₂ : ':' ∉ d₂) :
    "s:" ++ d₁ ++ ":" ++ s₁ = "s:" ++ d₂ ++ ":" ++ s₂ ↔ d₁ = d₂ ∧ s₁ = s₂ := by
  constructor
  · intro h
    simp only [append_assoc, append_cancel_left_eq] at h
    have hsplit : ∀ {d s : Str}, ':' ∉ d → (d ++ (":" ++ s)).takeWhile (· ≠ ':') = d := by
      intro d s hd
      have hkept : ∀ c ∈ d, decide (c ≠ ':') = true := fun c hc => decide_eq_true fun heq : c = ':' => hd (heq ▸ hc)
      rw [takeWhile_append_of_pos hkept]
      simp
    have hd : d₁ = d₂ := by rw [← hsplit h₁ (s := s₁), h, hsplit h₂]
    subst hd
    simpa using h
  · rintro ⟨rfl, rfl⟩
    rfl

/-- Keys that are defined agree exactly for the same digest and the same query; and a key is undefined exactly when the
normal form is too long, whatever the order of the tail. -/
theorem buildKey_identity (t₁ t₂ : Str) (n : ℤ) (d₁ d₂ : Str) (h₁ : ':' ∉ d₁) (h₂ : ':' ∉ d₂) :
    (∀ k₁ ∈ buildKey t₁ n d₁, ∀ k₂ ∈ buildKey t₂ n d₂, k₁ = k₂ ↔ d₁ = d₂ ∧ SameQuery n t₁ t₂) ∧
    (buildKey t₁ n d₁ = none ↔ 256 <
      ([' '].intercalate ((split t₁).take n.toNat ++ sortedTail ((split t₁).drop n.toNat))).length) ∧
    (SameQuery n t₁ t₂ → (buildKey t₁ n d₁ = none ↔ buildKey t₂ n d₂ = none)) := by
  have hnone : ∀ t d, buildKey t n d = none ↔ 256 < (normalised n t).length := by
    intro t d
    rw [buildKey, normalizedQueryCap]
    split_ifs with hlong <;> simp [hlong]
  refine ⟨?_, by rw [hnone, normalised_eq], fun hsame => ?_⟩
  · intro k₁ hk₁ k₂ hk₂
    rw [Option.mem_def, buildKey] at hk₁ hk₂
    split_ifs at hk₁ hk₂
    cases hk₁
    cases hk₂
    rw [key_eq_iff h₁ h₂, normalised_eq_iff]
  · rw [hnone, hnone, normalised_eq_iff.mpr hsame]

theorem buildKey_identity_reordered : (buildKey "find users by" 1 "d").isSome ∧
    buildKey "find users by" 1 "d" = buildKey " find  by users" 1 "d" := by
  have hkey : ∀ text tail, split text = "find".toList :: tail → tail.Perm ["by".toList, "users".toList] →
      buildKey text 1 "d" = some "s:d:find by users".toList := by
    intro text tail htext hperm
    have hsorted : sortedTail ["by".toList, "users".toList] = ["by".toList, "users".toList] :=
      mergeSort_of_pairwise (by decide)
    have htail : sortedTail tail = ["by".toList, "users".toList] := (sortedTail_eq_iff.2 hperm).trans hsorted
    have hnormal : normalised 1 text = "find by users".toList := by
      rw [normalised_eq, htext, show ("find".toList :: tail).drop (Int.toNat 1) = tail from rfl, htail]
      rfl
    rw [buildKey, hnormal]
    decide
  have hkeys := (buildKey_identity "find users by" " find  by users" 1 "d" "d" (by decide) (by decide)).1 _
    (hkey _ _ rfl (.swap ..)) _ (hkey _ _ rfl .rfl)
  rw [hkey _ _ rfl (.swap ..), hkey _ _ rfl .rfl]
  exact ⟨rfl, congrArg some (hkeys.mpr ⟨rfl, by decide, by decide⟩)⟩

end CodeIndexer.Coalescer
