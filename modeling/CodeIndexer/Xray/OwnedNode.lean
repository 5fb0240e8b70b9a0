import CodeIndexer.Lib.PyText

/-!
# The text of a node

A `str` is its bytes. An `OwnedNode` (`owned_node.rs`) has the byte range that the parser reports and the source of
the whole file, decoded once; `text` takes the range of the decoded source.
-/

namespace CodeIndexer.Xray

open List PyText

def isContinuation (b : UInt8) : Bool := 0x80 ≤ b && b < 0xC0

def width (b : UInt8) : ℕ :=
  if b < 0x80 then 1 else if b < 0xC2 then 0 else if b < 0xE0 then 2 else if b < 0xF0 then 3
  else if b < 0xF5 then 4 else 0

def isSecond (b c : UInt8) : Bool :=
  (if b = 0xE0 then 0xA0 else if b = 0xF0 then 0x90 else 0x80) ≤ c &&
    c ≤ (if b = 0xED then 0x9F else if b = 0xF4 then 0x8F else 0xBF)

def continuations (b : UInt8) : List UInt8 → ℕ
  | [] => 0
  | c :: rest =>
    if 2 ≤ width b ∧ isSecond b c then 1 + ((rest.take (width b - 2)).takeWhile isContinuation).length else 0

def replacementCharacter : List UInt8 := [0xEF, 0xBF, 0xBD]

/-- `String::from_utf8_lossy` after `skip` bytes that are decoded already. -/
def lossyFrom : ℕ → List UInt8 → List UInt8
  | _, [] => []
  | skip + 1, _ :: rest => lossyFrom skip rest
  | 0, b :: rest =>
    (if continuations b rest + 1 = width b then b :: rest.take (continuations b rest) else replacementCharacter) ++
      lossyFrom (continuations b rest) rest

/-- On valid UTF-8 the same as `str::from_utf8`. -/
def fromUtf8Lossy (source : List UInt8) : List UInt8 := lossyFrom 0 source

/-- Whether `str::from_utf8` accepts the bytes after `skip` that belong to a character before them. -/
def utf8From : ℕ → List UInt8 → Bool
  | _, [] => true
  | skip + 1, _ :: rest => utf8From skip rest
  | 0, b :: rest => continuations b rest + 1 = width b && utf8From (continuations b rest) rest

def isUtf8 (s : List UInt8) : Bool := utf8From 0 s

def isCharBoundary (s : List UInt8) (i : ℕ) : Bool :=
  i = 0 || i = s.length || s[i]?.any fun b => !isContinuation b

def slice (s : List UInt8) (start stop : ℕ) : List UInt8 := (s.drop start).take (stop - start)

/-- `s.get(start..stop)`. -/
def strGet (s : List UInt8) (start stop : ℕ) : Option (List UInt8) :=
  if start ≤ stop ∧ isCharBoundary s start ∧ isCharBoundary s stop then some (slice s start stop) else none

structure TsNode where
  kind : Str
  row : ℕ
  startByte : ℕ
  endByte : ℕ
  children : List TsNode
  isNamed : Bool

structure OwnedNode where
  kind : Str
  startLine : ℕ
  startByte : ℕ
  endByte : ℕ
  children : List OwnedNode
  isNamed : Bool
  source : List UInt8

namespace OwnedNode

def text (node : OwnedNode) : List UInt8 := (strGet node.source node.startByte node.endByte).getD []

mutual

def buildRecursive (sharedSource : List UInt8) : TsNode → OwnedNode
  | ⟨kind, row, startByte, endByte, children, isNamed⟩ =>
    ⟨kind, row + 1, startByte, endByte, buildChildren sharedSource children, isNamed, sharedSource⟩

def buildChildren (sharedSource : List UInt8) : List TsNode → List OwnedNode
  | [] => []
  | child :: children => buildRecursive sharedSource child :: buildChildren sharedSource children

end

def buildFromTsNode (node : TsNode) (source : List UInt8) : OwnedNode := buildRecursive (fromUtf8Lossy source) node

inductive Within : OwnedNode → OwnedNode → Prop
  | self (node : OwnedNode) : Within node node
  | child {node child root : OwnedNode} (h : Within node child) (hchild : child ∈ root.children) : Within node root

end OwnedNode

open OwnedNode

variable {source pre mid rest l : List UInt8} {b c : UInt8} {skip i : ℕ}

theorem mem_buildChildren {child : OwnedNode} {children : List TsNode} (h : child ∈ buildChildren source children) :
    ∃ node, child = buildRecursive source node := by
  induction children with
  | nil => cases h
  | cons node children ih =>
    rcases mem_cons.mp h with rfl | h
    · exact ⟨node, rfl⟩
    · exact ih h

theorem source_of_within {node root : OwnedNode} (h : node.Within root) (hroot : ∃ t, root = buildRecursive source t) :
    node.source = source := by
  induction h with
  | self =>
    obtain ⟨⟨⟩, rfl⟩ := hroot
    rfl
  | child _ hchild ih =>
    obtain ⟨⟨⟩, rfl⟩ := hroot
    exact ih (mem_buildChildren hchild)

/-! ### Characters -/

theorem isContinuation_of_isSecond (h : isSecond b c = true) : isContinuation c = true := by
  rw [isSecond, Bool.and_eq_true, decide_eq_true_eq, decide_eq_true_eq] at h
  rw [isContinuation, Bool.and_eq_true, decide_eq_true_eq, decide_eq_true_eq]
  constructor
  · refine UInt8.le_trans ?_ h.1
    split_ifs <;> decide
  · refine UInt8.lt_of_le_of_lt h.2 ?_
    split_ifs <;> decide

/-- The bytes of a character after its first one are there, and begin no character. -/
theorem continuations_spec (b : UInt8) (rest : List UInt8) :
    continuations b rest ≤ rest.length ∧ ∀ c ∈ rest.take (continuations b rest), isContinuation c = true := by
  cases rest with
  | nil => exact ⟨le_rfl, fun c hc => by cases hc⟩
  | cons d rest =>
    rw [continuations]
    split_ifs with hsecond
    · have hprefix : ((rest.take (width b - 2)).takeWhile isContinuation).IsPrefix rest :=
        List.IsPrefix.trans (List.takeWhile_prefix _) (List.take_prefix _ rest)
      rw [add_comm 1, take_succ_cons, ← prefix_iff_eq_take.1 hprefix]
      refine ⟨Nat.succ_le_succ hprefix.length_le, forall_mem_cons.2 ⟨isContinuation_of_isSecond hsecond.2, ?_⟩⟩
      exact fun c hc => (mem_takeWhile_imp hc)
    · exact ⟨Nat.zero_le _, fun c hc => by cases hc⟩

/-- A complete character is not changed by what follows. -/
theorem continuations_append (h : continuations b pre + 1 = width b) (rest : List UInt8) :
    continuations b (pre ++ rest) = continuations b pre := by
  cases pre with
  | nil =>
    have hwidth : width b = 1 := h.symm
    cases rest <;> simp [continuations, hwidth]
  | cons c pre =>
    rw [cons_append, continuations, continuations]
    split_ifs with hsecond
    · rw [continuations, if_pos hsecond] at h
      have hle := (takeWhile_sublist isContinuation (l := pre.take (width b - 2))).length_le
      rw [length_take] at hle
      rw [take_append_of_le_length (by omega)]
    · rfl

theorem isContinuation_of_complete (h : continuations b rest + 1 = width b) : isContinuation b = false := by
  by_contra hb
  obtain ⟨hlow, hhigh⟩ := Bool.and_eq_true_iff.1 (Bool.not_eq_false _ ▸ hb)
  have hlt : b < 0xC2 := UInt8.lt_trans (of_decide_eq_true hhigh) (by decide)
  have hwidth : width b = 0 := by
    rw [width, if_neg (UInt8.not_lt.2 (of_decide_eq_true hlow)), if_pos hlt]
  omega

/-! ### Decoding -/

theorem lossyFrom_append (h : utf8From skip pre = true) (hskip : skip ≤ pre.length) (rest : List UInt8) :
    lossyFrom skip (pre ++ rest) = pre.drop skip ++ fromUtf8Lossy rest := by
  induction pre generalizing skip with
  | nil =>
    obtain rfl := Nat.le_zero.1 hskip
    rfl
  | cons b pre ih =>
    cases skip with
    | succ skip => exact ih h (Nat.le_of_succ_le_succ hskip)
    | zero =>
      obtain ⟨hwidth, hpre⟩ := Bool.and_eq_true_iff.1 h
      have hwidth := of_decide_eq_true hwidth
      have hle := (continuations_spec b pre).1
      rw [cons_append, lossyFrom, continuations_append hwidth, if_pos hwidth, ih hpre hle, take_append_of_le_length hle,
        cons_append, ← append_assoc, take_append_drop]
      rfl

theorem fromUtf8Lossy_append (h : isUtf8 pre = true) (rest : List UInt8) :
    fromUtf8Lossy (pre ++ rest) = pre ++ fromUtf8Lossy rest := lossyFrom_append h (Nat.zero_le _) rest

theorem fromUtf8Lossy_of_utf8 (h : isUtf8 source = true) : fromUtf8Lossy source = source := by
  have happend := fromUtf8Lossy_append h []
  rwa [append_nil, show fromUtf8Lossy [] = [] from rfl, append_nil] at happend

/-- Bytes that the decoding leaves as they are, are valid: a replacement is a valid character. -/
theorem utf8From_of_lossyFrom (h : lossyFrom skip l = l.drop skip) : utf8From skip l = true := by
  induction l generalizing skip with
  | nil => cases skip <;> rfl
  | cons b l ih =>
    cases skip with
    | succ skip => exact ih h
    | zero =>
      rw [lossyFrom] at h
      rw [utf8From, Bool.and_eq_true, decide_eq_true_eq]
      split_ifs at h with hwidth
      · refine ⟨hwidth, ih ((append_right_inj (b :: l.take (continuations b l))).1 ?_)⟩
        rw [h, cons_append, take_append_drop]
        rfl
      · obtain ⟨rfl, hl⟩ := cons.inj h.symm
        rw [hl] at hwidth
        exact absurd rfl hwidth

theorem isContinuation_of_mem_fromUtf8Lossy (hc : c ∈ (fromUtf8Lossy l)[0]?) : isContinuation c = false := by
  cases l with
  | nil => cases hc
  | cons b l =>
    rw [fromUtf8Lossy, lossyFrom] at hc
    split_ifs at hc with hwidth
    · cases hc
      exact isContinuation_of_complete hwidth
    · cases hc
      decide

theorem eq_nil_of_fromUtf8Lossy (h : fromUtf8Lossy l = []) : l = [] := by
  cases l with
  | nil => rfl
  | cons b l =>
    rw [fromUtf8Lossy, lossyFrom] at h
    split_ifs at h <;> cases h

/-- What is left of valid bytes from the first byte of a character on is valid. -/
theorem isUtf8_drop (h : utf8From skip l = true) (hskip : ∀ c ∈ l.take skip, isContinuation c = true)
    (hi : ∀ c ∈ l[i]?, isContinuation c = false) : isUtf8 (l.drop i) = true := by
  induction l generalizing skip i with
  | nil => rw [drop_nil]; rfl
  | cons b l ih =>
    cases skip with
    | zero =>
      cases i with
      | zero => exact h
      | succ i => exact ih (Bool.and_eq_true_iff.1 h).2 (continuations_spec b l).2 hi
    | succ skip =>
      obtain ⟨hb, hskip⟩ := forall_mem_cons.1 hskip
      cases i with
      | zero => exact absurd (hi b rfl) (by rw [hb]; exact Bool.noConfusion)
      | succ i => exact ih h hskip hi

/-! ### Ranges -/

theorem isCharBoundary_append (pre rest : List UInt8) :
    isCharBoundary (pre ++ fromUtf8Lossy rest) pre.length = true := by
  rw [isCharBoundary, getElem?_append_right le_rfl, Nat.sub_self]
  cases hrest : fromUtf8Lossy rest with
  | nil => simp
  | cons c tail => simp [isContinuation_of_mem_fromUtf8Lossy (l := rest) (c := c) (by rw [hrest]; rfl)]

theorem le_length_of_isCharBoundary (h : isCharBoundary l i = true) : i ≤ l.length := by
  by_contra hlt
  have hnone : l[i]? = none := getElem?_eq_none_iff.2 (by omega)
  simp only [isCharBoundary, hnone, Option.any_none, Bool.or_false, Bool.or_eq_true, decide_eq_true_eq] at h
  omega

/-- In a valid file a range of valid bytes begins with the first byte of a character. -/
theorem isUtf8_drop_of_slice {start stop : ℕ} (hfile : isUtf8 source = true) (hlt : start < stop)
    (h : isUtf8 (slice source start stop) = true) : isUtf8 (source.drop start) = true := by
  have hhead : source[start]? = (slice source start stop)[0]? := by
    rw [slice, getElem?_take, if_pos (Nat.sub_pos_of_lt hlt), getElem?_drop, add_zero]
  refine isUtf8_drop hfile (fun c hc => by cases hc) fun c hc => ?_
  rw [hhead, ← fromUtf8Lossy_of_utf8 h] at hc
  exact isContinuation_of_mem_fromUtf8Lossy hc

section Range

variable {start stop : ℕ} (hle : start ≤ stop) (hlen : stop ≤ source.length)
include hle

theorem take_append_slice : source.take start ++ slice source start stop = source.take stop := by
  rw [← Nat.add_sub_cancel' hle, take_add]
  simp [slice]

theorem drop_eq_slice_append : source.drop start = slice source start stop ++ source.drop stop := by
  refine (append_right_inj (source.take start)).1 ?_
  rw [take_append_drop, ← append_assoc, take_append_slice hle, take_append_drop]

include hlen

theorem length_slice : (slice source start stop).length = stop - start := by
  rw [slice, length_take, length_drop]
  omega

/-- The decoded file has the bytes before the range as they are, and those of the range are valid. -/
theorem strGet_of_decoded (hstart : fromUtf8Lossy source = source.take start ++ fromUtf8Lossy (source.drop start))
    (h : isUtf8 (slice source start stop) = true) :
    strGet (fromUtf8Lossy source) start stop = some (slice source start stop) := by
  have hrest : fromUtf8Lossy (source.drop start) = slice source start stop ++ fromUtf8Lossy (source.drop stop) := by
    rw [drop_eq_slice_append hle, fromUtf8Lossy_append h]
  have hstop : fromUtf8Lossy source = source.take stop ++ fromUtf8Lossy (source.drop stop) := by
    rw [hstart, hrest, ← append_assoc, take_append_slice hle]
  have hbefore : (source.take start).length = start := length_take_of_le (hle.trans hlen)
  have hfirst := isCharBoundary_append (source.take start) (source.drop start)
  have hlast := isCharBoundary_append (source.take stop) (source.drop stop)
  rw [hbefore, ← hstart] at hfirst
  rw [length_take_of_le hlen, ← hstop] at hlast
  rw [strGet, if_pos ⟨hle, hfirst, hlast⟩, hstart, hrest]
  nth_rewrite 1 [slice]
  rw [drop_left' hbefore, take_left' (length_slice hle hlen)]

/-- What is cut from a decoded file is a piece of it, or nothing. -/
theorem eq_slice_of_strGet (hne : start ≠ stop)
    (h : (strGet l start stop).getD [] = fromUtf8Lossy (slice source start stop)) :
    fromUtf8Lossy (slice source start stop) = slice l start stop ∧ stop ≤ l.length := by
  rw [strGet] at h
  split_ifs at h with hcut
  · exact ⟨h.symm, le_length_of_isCharBoundary hcut.2.2⟩
  · have hnil := length_slice hle hlen
    rw [eq_nil_of_fromUtf8Lossy h.symm, length_nil] at hnil
    omega

end Range

end CodeIndexer.Xray
