import CodeIndexer.Lib.PurePath

/-!
# Vector quantizer

A vector reduced to 64 values becomes 32 hexadecimal digits, two values a digit, and its vector file
lies in the directory the first eight of them name. Values are rationals; the projection that reduces a
vector is the caller's.
-/

namespace CodeIndexer.Storage

open PyText PurePath List

def depthFactor : ℕ := 4

def quantizeTo2bit (minVal maxVal x : ℚ) : ℕ :=
  let clipped := min (max x minVal) maxVal
  let normalized := (clipped - minVal) / (maxVal - minVal)
  min ⌊normalized * (3999 / 1000)⌋.toNat 3

def nibbles : List ℕ → Str
  | a :: b :: rest => Nat.digitChar (4 * a + b) :: nibbles rest
  | _ => []

def bitsToHex (quantized : List ℕ) : Option Str :=
  if quantized.length = 64 then some (nibbles quantized) else none

def splitHexPath (hexPath : Str) : List Str :=
  (List.range depthFactor).map (fun i => (hexPath.drop (2 * i)).take 2) ++ [hexPath.drop (2 * depthFactor)]

def directory (minVal maxVal : ℚ) (reduced : List ℚ) : Option (List Str) :=
  (bitsToHex (reduced.map (quantizeTo2bit minVal maxVal))).map fun hexPath => (splitHexPath hexPath).dropLast

theorem quantizeTo2bit_lt (minVal maxVal x : ℚ) : quantizeTo2bit minVal maxVal x < 4 :=
  Nat.lt_succ_of_le (min_le_right _ _)

theorem digitChar_ne_slash_dot : ∀ n < 16, Nat.digitChar n ≠ '/' ∧ Nat.digitChar n ≠ '.' := by
  decide

theorem mem_nibbles : ∀ {qs : List ℕ}, (∀ q ∈ qs, q < 4) → ∀ c ∈ nibbles qs, c ≠ '/' ∧ c ≠ '.'
  | [], _, c, hc => absurd hc not_mem_nil
  | [_], _, c, hc => absurd hc not_mem_nil
  | a :: b :: rest, h, c, hc => by
    have ha := h a (by simp)
    have hb := h b (by simp)
    rcases mem_cons.1 hc with rfl | hc
    · exact digitChar_ne_slash_dot _ (by omega)
    · exact mem_nibbles (fun q hq => h q (by simp [hq])) c hc

theorem length_nibbles : ∀ n {qs : List ℕ}, qs.length = 2 * n → (nibbles qs).length = n
  | 0, [], _ => rfl
  | n + 1, a :: b :: rest, h => by
    simp only [length_cons] at h
    rw [nibbles, length_cons, length_nibbles n (by omega)]

theorem isPart_of_mem_directory {minVal maxVal : ℚ} {reduced : List ℚ} {dir : List Str}
    (h : directory minVal maxVal reduced = some dir) : ∀ seg ∈ dir, IsPart seg ∧ seg ≠ ['.', '.'] := by
  obtain ⟨hexPath, hhex, rfl⟩ := Option.map_eq_some_iff.1 h
  rw [bitsToHex] at hhex
  split at hhex
  · rename_i hlen
    cases hhex
    have hchars : ∀ c ∈ nibbles (reduced.map (quantizeTo2bit minVal maxVal)), c ≠ '/' ∧ c ≠ '.' := by
      refine mem_nibbles fun q hq => ?_
      obtain ⟨x, -, rfl⟩ := mem_map.1 hq
      exact quantizeTo2bit_lt _ _ x
    have hlen32 := length_nibbles 32 hlen
    intro seg hseg
    rw [splitHexPath, dropLast_concat, mem_map] at hseg
    obtain ⟨i, hi, rfl⟩ := hseg
    rw [mem_range, depthFactor] at hi
    have hmem : ∀ c ∈ ((nibbles (reduced.map (quantizeTo2bit minVal maxVal))).drop (2 * i)).take 2,
        c ≠ '/' ∧ c ≠ '.' := fun c hc => hchars c (mem_of_mem_drop (mem_of_mem_take hc))
    -- Two digits, none of them a slash or a dot.
    generalize hd : (nibbles (reduced.map (quantizeTo2bit minVal maxVal))).drop (2 * i) = rest at hmem ⊢
    have hrest : 2 ≤ rest.length := by
      rw [← hd, length_drop, hlen32]
      omega
    match rest, hrest with
    | a :: b :: rest, _ =>
      refine ⟨⟨by simp, by simp, fun hslash => (hmem _ hslash).1 rfl⟩, fun hdots => ?_⟩
      exact (hmem a (by simp)).2 (by simpa using (List.cons.inj hdots).1)
  · cases hhex

end CodeIndexer.Storage
