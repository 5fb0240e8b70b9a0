import CodeIndexer.Lib.PyText

/-!
# Fixed-size chunks (`indexing/fixed_size_chunker.py`)

`chunk_text` walks over the text in steps of `step_size` and ends with the first chunk that reaches the end. Chunk `k`
is then the text from `k * step_size` on, at most `chunk_size` characters of it (`chunkAt`), and the last one is the
`extraChunks`-th, by the same division that `estimate_chunks` uses.
-/

namespace CodeIndexer.Chunking

open PyText List

structure Chunker where
  chunkSize : ℕ
  overlapSize : ℕ

structure Chunk where
  text : Str
  chunkIndex : ℕ
  totalChunks : ℕ
  size : ℕ
  lineStart : ℕ
  lineEnd : ℕ

def calculateLineNumbers (text : Str) (startPos endPos : ℕ) : ℕ × ℕ :=
  if text = [] ∨ text.length ≤ startPos then (1, 1)
  else ((text.take startPos).count '\n' + 1, (text.take (min endPos text.length)).count '\n' + 1)

namespace Chunker

def stepSize (c : Chunker) : ℕ := c.chunkSize - c.overlapSize

def chunkFor (text chunkText : Str) (start index : ℕ) : Chunk :=
  let lines := calculateLineNumbers text start (start + chunkText.length)
  ⟨chunkText, index, 0, chunkText.length, lines.1, lines.2⟩

def loop (c : Chunker) (text : Str) : ℕ → ℕ → ℕ → Option (List Chunk)
  | 0, _, _ => none
  | turns + 1, start, index =>
    if start < text.length then
      if text.length ≤ start + c.chunkSize then some [chunkFor text (text.drop start) start index]
      else
        (c.loop text turns (start + c.stepSize) (index + 1)).map
          (chunkFor text ((text.take (start + c.chunkSize)).drop start) start index :: ·)
    else some []

def chunkText (c : Chunker) (turns : ℕ) (text : Str) : Option (List Chunk) :=
  if text = [] ∨ strip text = [] then some []
  else (c.loop text turns 0 0).map fun chunks => chunks.map ({ · with totalChunks := chunks.length })

def estimateChunks (c : Chunker) (text : Str) : ℕ :=
  if text = [] then 0
  else if text.length ≤ c.chunkSize then 1
  else 1 + (text.length - c.chunkSize + c.stepSize - 1) / c.stepSize

/-! ### What chunking is for

Chunk `k` is the text from `k * stepSize` on, so that the characters two neighbours share are counted by position. -/

structure Lossless (c : Chunker) (text : Str) (chunks : List Chunk) : Prop where
  joined : ∃ first rest, chunks = first :: rest ∧ first.text ++ rest.flatMap (·.text.drop c.overlapSize) = text
  placed : ∀ k chunk, chunks[k]? = some chunk → chunk.text <+: text.drop (k * c.stepSize) ∧
    chunk.lineStart = (text.take (k * c.stepSize)).count '\n' + 1 ∧
    chunk.chunkIndex = k ∧ chunk.totalChunks = chunks.length ∧ chunk.size = chunk.text.length
  overlap : ∀ k a b, chunks[k]? = some a → chunks[k + 1]? = some b →
    k * c.stepSize + a.text.length = (k + 1) * c.stepSize + c.overlapSize ∧
    a.text.drop (a.text.length - c.overlapSize) = b.text.take c.overlapSize
  /-- No chunk ends where its predecessor does. -/
  beyond : ∀ k a b, chunks[k]? = some a → chunks[k + 1]? = some b →
    k * c.stepSize + a.text.length < (k + 1) * c.stepSize + b.text.length
  full : ∀ chunk ∈ chunks.dropLast, chunk.text.length = c.chunkSize
  lines : ∀ line, 1 ≤ line → line ≤ text.count '\n' + 1 →
    ∃ chunk ∈ chunks, chunk.lineStart ≤ line ∧ line ≤ chunk.lineEnd
  counted : c.estimateChunks text = chunks.length

/-! ### The chunks by their number -/

section Numbered
variable (c : Chunker) (text : Str)

def extraChunks : ℕ := (text.length - c.chunkSize + c.stepSize - 1) / c.stepSize

def chunkAt (k : ℕ) : Chunk :=
  chunkFor text ((text.drop (k * c.stepSize)).take c.chunkSize) (k * c.stepSize) k

variable {c text} (hover : c.overlapSize < c.chunkSize)
include hover

theorem stepSize_pos : 0 < c.stepSize := Nat.sub_pos_of_lt hover

theorem step_add_overlap (k : ℕ) : (k + 1) * c.stepSize + c.overlapSize = k * c.stepSize + c.chunkSize := by
  rw [Nat.add_one_mul, Nat.add_assoc, stepSize, Nat.sub_add_cancel hover.le]

theorem reaches_end (text : Str) : text.length ≤ c.extraChunks text * c.stepSize + c.chunkSize := by
  have hpos := stepSize_pos hover
  have hceil := Nat.lt_div_mul_add hpos (a := text.length - c.chunkSize + c.stepSize - 1)
  rw [← extraChunks] at hceil
  omega

variable {k turns : ℕ}

theorem ends_before (hk : k < c.extraChunks text) : k * c.stepSize + c.chunkSize < text.length := by
  have hpos := stepSize_pos hover
  have hle := (Nat.le_div_iff_mul_le hpos).mp (Nat.succ_le_of_lt hk)
  rw [Nat.succ_mul] at hle
  omega

theorem starts_inside (htext : text ≠ []) (hk : k ≤ c.extraChunks text) : k * c.stepSize < text.length := by
  cases k with
  | zero => rw [Nat.zero_mul]; exact length_pos_iff.mpr htext
  | succ k =>
    have hend := ends_before hover (Nat.lt_of_succ_le hk)
    have hstep := step_add_overlap hover k
    omega

theorem loop_eq (htext : text ≠ []) (hk : k ≤ c.extraChunks text) (hturns : c.extraChunks text < k + turns) :
    c.loop text turns (k * c.stepSize) k =
      some ((List.range' k (c.extraChunks text + 1 - k)).map (c.chunkAt text)) := by
  -- on the turns that are left: the last chunk is the first that reaches the end
  induction turns generalizing k with
  | zero => omega
  | succ turns ih =>
    rw [loop, if_pos (starts_inside hover htext hk)]
    rcases hk.lt_or_eq with hlt | rfl
    · have hrest : c.extraChunks text + 1 - k = c.extraChunks text + 1 - (k + 1) + 1 := by omega
      rw [if_neg (Nat.not_le.mpr (ends_before hover hlt)), ← Nat.succ_mul, ih hlt (by omega), hrest, List.range'_succ,
        map_cons, chunkAt, drop_take, Nat.add_sub_cancel_left]
      rfl
    · rw [if_pos (reaches_end hover text), Nat.add_sub_cancel_left, List.range'_one, map_singleton, chunkAt,
        take_of_length_le]
      have := reaches_end hover text
      rw [length_drop]; omega

theorem lines_chunkAt (htext : text ≠ []) (hk : k ≤ c.extraChunks text) :
    (c.chunkAt text k).lineStart = (text.take (k * c.stepSize)).count '\n' + 1 ∧
      (c.chunkAt text k).lineEnd = (text.take (k * c.stepSize + c.chunkSize)).count '\n' + 1 := by
  have hin := starts_inside hover htext hk
  have hend : text.take (min (k * c.stepSize + ((text.drop (k * c.stepSize)).take c.chunkSize).length) text.length) =
      text.take (k * c.stepSize + c.chunkSize) := by
    rw [take_eq_take_iff, length_take, length_drop]
    omega
  simp only [chunkAt, chunkFor, calculateLineNumbers, htext, false_or, Nat.not_le.mpr hin, if_false, hend, and_self]

theorem length_chunkAt (hk : k < c.extraChunks text) : (c.chunkAt text k).text.length = c.chunkSize := by
  have hend := ends_before hover hk
  simp only [chunkAt, chunkFor, length_take, length_drop]
  omega

theorem overlap_lt_length (hk : k < c.extraChunks text) : c.overlapSize < (c.chunkAt text (k + 1)).text.length := by
  have hend := ends_before hover hk
  have hstep := step_add_overlap hover k
  simp only [chunkAt, chunkFor, length_take, length_drop]
  omega

theorem overlap_chunkAt (k : ℕ) :
    (c.chunkAt text k).text.drop (c.chunkSize - c.overlapSize) = (c.chunkAt text (k + 1)).text.take c.overlapSize := by
  simp only [chunkAt, chunkFor]
  rw [drop_take, drop_drop, Nat.sub_sub_self hover.le, take_take, Nat.min_eq_left hover.le, ← stepSize,
    Nat.add_one_mul]

theorem drop_chunkAt_succ (k : ℕ) :
    (c.chunkAt text (k + 1)).text.drop c.overlapSize = (text.drop (k * c.stepSize + c.chunkSize)).take c.stepSize := by
  simp only [chunkAt, chunkFor]
  rw [drop_take, drop_drop, step_add_overlap hover, ← stepSize]

theorem join_chunkAt (text : Str) (n : ℕ) :
    (c.chunkAt text 0).text ++ ((List.range' 1 n).map (c.chunkAt text)).flatMap (·.text.drop c.overlapSize) =
      text.take (n * c.stepSize + c.chunkSize) := by
  induction n with
  | zero => simp [chunkAt, chunkFor]
  | succ n ih =>
    rw [List.range'_1_concat, map_append, flatMap_append, ← append_assoc, ih, map_singleton,
      flatMap_singleton, Nat.add_comm 1 n, drop_chunkAt_succ hover, ← take_add, Nat.add_one_mul,
      Nat.add_right_comm]

theorem covers_chunkAt (htext : text ≠ []) {line : ℕ} (hline : 1 ≤ line) (hk : k ≤ c.extraChunks text)
    (hend : line ≤ (c.chunkAt text k).lineEnd) :
    ∃ j ≤ k, (c.chunkAt text j).lineStart ≤ line ∧ line ≤ (c.chunkAt text j).lineEnd := by
  -- down to the first chunk that ends on the line or later: it starts no later than its predecessor ends
  induction k with
  | zero =>
    refine ⟨0, le_rfl, ?_, hend⟩
    rw [(lines_chunkAt hover htext hk).1, Nat.zero_mul]
    exact hline
  | succ k ih =>
    by_cases hprev : line ≤ (c.chunkAt text k).lineEnd
    · obtain ⟨j, hj, hcover⟩ := ih (by omega) hprev
      exact ⟨j, by omega, hcover⟩
    · refine ⟨k + 1, le_rfl, ?_, hend⟩
      have hle : (text.take ((k + 1) * c.stepSize)).count '\n' ≤
          (text.take (k * c.stepSize + c.chunkSize)).count '\n' :=
        (take_sublist_take_left (by have := step_add_overlap hover k; omega)).count_le _
      rw [(lines_chunkAt hover htext (by omega)).2] at hprev
      rw [(lines_chunkAt hover htext hk).1]
      omega

def numbered (c : Chunker) (text : Str) : List Chunk :=
  (List.range' 0 (c.extraChunks text + 1)).map fun k => { c.chunkAt text k with totalChunks := c.extraChunks text + 1 }

omit hover in
theorem numbered_getElem? {chunk : Chunk} (h : (c.numbered text)[k]? = some chunk) :
    k ≤ c.extraChunks text ∧ chunk = { c.chunkAt text k with totalChunks := c.extraChunks text + 1 } := by
  obtain ⟨hk, rfl⟩ := List.getElem?_eq_some_iff.mp h
  simp only [numbered, length_map, length_range'] at hk
  exact ⟨by omega, by simp [numbered]⟩

theorem estimateChunks_eq (htext : text ≠ []) : c.estimateChunks text = c.extraChunks text + 1 := by
  rw [estimateChunks, if_neg htext]
  split_ifs with hle
  · rw [extraChunks, Nat.div_eq_of_lt (by have := stepSize_pos hover; omega)]
  · rw [extraChunks, Nat.add_comm]

theorem numbered_lossless (htext : text ≠ []) : c.Lossless text (c.numbered text) where
  joined := by
    refine ⟨_, _, rfl, ?_⟩
    have hjoin := join_chunkAt hover text (c.extraChunks text)
    rw [take_of_length_le (reaches_end hover text), flatMap_map] at hjoin
    rwa [flatMap_map]
  placed k chunk h := by
    obtain ⟨hk, rfl⟩ := numbered_getElem? h
    refine ⟨List.take_prefix _ _, (lines_chunkAt hover htext hk).1, rfl, ?_, rfl⟩
    simp [numbered]
  overlap k a b ha hb := by
    obtain ⟨-, rfl⟩ := numbered_getElem? ha
    obtain ⟨hk, rfl⟩ := numbered_getElem? hb
    have hlen := length_chunkAt hover (Nat.lt_of_succ_le hk)
    have hstep := step_add_overlap hover k
    simp only [hlen]
    exact ⟨hstep.symm, overlap_chunkAt hover k⟩
  beyond k a b ha hb := by
    obtain ⟨-, rfl⟩ := numbered_getElem? ha
    obtain ⟨hk, rfl⟩ := numbered_getElem? hb
    have hlen := length_chunkAt hover (Nat.lt_of_succ_le hk)
    have hstep := step_add_overlap hover k
    have hover' := overlap_lt_length hover (Nat.lt_of_succ_le hk)
    simp only [hlen]
    omega
  full chunk h := by
    obtain ⟨k, hk⟩ := List.getElem?_of_mem h
    rw [List.getElem?_dropLast] at hk
    split_ifs at hk with hlt
    obtain ⟨-, rfl⟩ := numbered_getElem? hk
    simp only [numbered, length_map, length_range'] at hlt
    exact length_chunkAt hover hlt
  lines line hline hend := by
    have hlast : line ≤ (c.chunkAt text (c.extraChunks text)).lineEnd := by
      rwa [(lines_chunkAt hover htext le_rfl).2, take_of_length_le (reaches_end hover text)]
    obtain ⟨k, hk, hcover⟩ := covers_chunkAt hover htext hline le_rfl hlast
    exact ⟨_, mem_map.mpr ⟨k, by rw [mem_range'_1]; omega, rfl⟩, hcover⟩
  counted := by
    rw [estimateChunks_eq hover htext, numbered, length_map, length_range']

theorem chunkText_eq (htext : strip text ≠ []) (hturns : text.length ≤ turns) :
    c.chunkText turns text = some (c.numbered text) := by
  have hne : text ≠ [] := by rintro rfl; exact htext rfl
  have henough : c.extraChunks text < 0 + turns := by
    have hlast := starts_inside hover hne le_rfl
    have hstep := Nat.le_mul_of_pos_right (c.extraChunks text) (stepSize_pos hover)
    omega
  have hloop := loop_eq hover hne (Nat.zero_le (c.extraChunks text)) henough
  rw [Nat.zero_mul] at hloop
  rw [chunkText, if_neg (by simp [hne, htext]), hloop, Option.map_some]
  simp [numbered]

end Numbered

theorem strip_ne_nil {s : Str} (h : ∃ x ∈ s, isSpace x = false) : strip s ≠ [] := by
  intro hnil
  obtain ⟨x, hx, hspace⟩ := h
  rw [strip, rdropWhile_eq_nil_iff] at hnil
  rw [← takeWhile_append_dropWhile (p := isSpace) (l := s), mem_append] at hx
  have hall : isSpace x = true := hx.elim mem_takeWhile_imp (hnil x)
  rw [hall] at hspace
  cases hspace

theorem chunking_lossless (c : Chunker) (hover : c.overlapSize < c.chunkSize) (text : Str)
    (htext : ∃ x ∈ text, isSpace x = false) :
    ∃ chunks, (∀ turns, text.length ≤ turns → c.chunkText turns text = some chunks) ∧ c.Lossless text chunks := by
  have hstrip := strip_ne_nil htext
  have hne : text ≠ [] := by rintro rfl; exact hstrip rfl
  exact ⟨c.numbered text, fun _ hturns => chunkText_eq hover hstrip hturns, numbered_lossless hover hne⟩

theorem chunking_lossless_two_lines :
    ∃ chunks, (∀ turns, 5 ≤ turns → (Chunker.mk 3 1).chunkText turns "ab\ncd" = some chunks) ∧
      (Chunker.mk 3 1).Lossless "ab\ncd" chunks :=
  chunking_lossless ⟨3, 1⟩ (by decide) "ab\ncd" ⟨'a', by decide, by decide⟩

end Chunker
end CodeIndexer.Chunking
