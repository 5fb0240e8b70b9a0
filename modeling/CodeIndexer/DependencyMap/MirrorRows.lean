import CodeIndexer.Lib.PurePath
import CodeIndexer.Lib.TextLines

/-!
# Mirror rows

A domain document has a table of the domains that depend on it, and an edge that only its source document
declares is mirrored there: `backfill_target_mirror_row` puts a row below the line of dashes. Three readers
meet in it. The parser goes by Python's line boundaries and wants six cells in a row; the check whether the
edge is there already goes by newlines only and is content with four; the search for the line of dashes
goes by line boundaries again, and the row is put after the text of that line, which need not end in a
newline.

`Converges` is what the repair is for: the edge is read afterwards, nothing else has changed, and a second
call finds nothing to do. `Ready` and `RowReads` say of which documents and of which edges it holds.
-/

namespace CodeIndexer.DependencyMap.Mirror

open PyText TextLines List

/-! ### Reading a table -/

/-- One way to read a section's table: `stops` says which stripped line ends the section. -/
structure Reader where
  heading : Str
  sentinel : Str
  minCols : ℕ
  stops : Str → Bool

variable (stripped : Str)

def headingLevel : ℕ := (stripped.takeWhile (· = '#')).length

def cellsOf : List Str := (stripped.splitOn '|').tail.dropLast.map strip

def isRule (cell : Str) : Bool := cell.all (· = '-')

def tableRow (R : Reader) (stripped : Str) : Option (List Str) :=
  if stripped.head? = some '|' ∧ stripped.getLast? = some '|' ∧ R.minCols ≤ (cellsOf stripped).length ∧
      (cellsOf stripped).headD [] ≠ R.sentinel ∧ isRule ((cellsOf stripped).headD []) = false then
    some (cellsOf stripped)
  else none

def scan (R : Reader) : Bool → List Str → List (List Str)
  | _, [] => []
  | inSection, line :: lines =>
    if line = R.heading then scan R true lines
    else if inSection then
      if R.stops line then [] else (tableRow R line).toList ++ scan R true lines
    else scan R false lines

/-- `iter_table_rows`: a heading ends the section if it is of the same level or higher. -/
def tableReader (heading : Str) (minCols : ℕ) (sentinel : Str) : Reader where
  heading := heading
  sentinel := sentinel
  minCols := minCols
  stops line := line.head? = some '#' ∧ (line.drop (headingLevel line)).head? = some ' ' ∧
    headingLevel line ≤ headingLevel heading

def iterTableRows (content heading : Str) (minCols : ℕ) (sentinel : Str) : List (List Str) :=
  scan (tableReader heading minCols sentinel) false ((splitlines content).map strip)

def incomingSection : Str := "### Incoming Dependencies"

def incomingHeaderSentinel : Str := "External Repo"

def incomingReader : Reader := tableReader incomingSection 6 incomingHeaderSentinel

structure IncomingRow where
  externalRepo : Str
  dependsOn : Str
  sourceDomain : Str
  depType : Str
  why : Str
  evidence : Str
deriving DecidableEq

def incomingRow (cells : List Str) : IncomingRow :=
  ⟨cells.getD 0 [], cells.getD 1 [], cells.getD 2 [], cells.getD 3 [], cells.getD 4 [], cells.getD 5 []⟩

def parseIncomingTable (content : Str) : List IncomingRow :=
  (iterTableRows content incomingSection 6 incomingHeaderSentinel).map incomingRow

/-- `_scan_incoming_section`: any line of up to three `#` ends the section. -/
def checkReader : Reader where
  heading := incomingSection
  sentinel := incomingHeaderSentinel
  minCols := 4
  stops line := line.head? = some '#' ∧ headingLevel line ≤ 3

def scanIncomingSection (lines : List Str) : List (List Str) := scan checkReader false (lines.map strip)

def findExistingIncomingRow (content sourceDomain depType : Str) : Bool :=
  (scanIncomingSection (content.splitOn '\n')).any fun cells =>
    cells.getD 2 [] = sourceDomain ∧ cells.getD 3 [] = depType

/-! ### Adding a row -/

def isSeparator : Bool :=
  let inner := stripped.filter fun c => c ≠ '|' ∧ c ≠ ' '
  inner ≠ [] ∧ isRule inner

def insertIndexFrom : ℕ → Bool → Bool → List Str → Option ℕ
  | _, _, _, [] => none
  | idx, inIncoming, sawHeader, line :: lines =>
    if line = incomingSection then insertIndexFrom (idx + 1) true sawHeader lines
    else if inIncoming = false then insertIndexFrom (idx + 1) false sawHeader lines
    else if line.head? = some '#' then none
    else if sawHeader = false ∧ line.head? = some '|' ∧ incomingHeaderSentinel <:+: line then
      insertIndexFrom (idx + 1) true true lines
    else if sawHeader = true ∧ line.head? = some '|' ∧ isSeparator line = true then some (idx + 1)
    else insertIndexFrom (idx + 1) true sawHeader lines

def findIncomingInsertIndex (lines : List Str) : Option ℕ := insertIndexFrom 0 false false (lines.map strip)

structure Edge where
  sourceDomain : Str
  sourceRepos : Option (List Str)
  depType : Str
  why : Str
  evidence : Str

namespace Edge

def repos (e : Edge) : List Str := e.sourceRepos.getD []

def reposStr (e : Edge) : Str := if e.repos = [] then e.sourceDomain else [',', ' '].intercalate e.repos

def type (e : Edge) : Str := if e.depType = [] then "Code-level" else e.depType

def rowText (e : Edge) : Str :=
  ['|', ' '] ++ e.reposStr ++ [' ', '|', ' '] ++ e.reposStr ++ [' ', '|', ' '] ++ e.sourceDomain ++
    [' ', '|', ' '] ++ e.type ++ [' ', '|', ' '] ++ e.why ++ [' ', '|', ' '] ++ e.evidence ++ [' ', '|']

end Edge

def isSafeDomainName (name : Str) : Bool :=
  name ≠ [] ∧ '/' ∉ name ∧ '\\' ∉ name ∧ ¬ ['.', '.'] <:+: name

inductive BackfillError
  | unsafeTarget (target : Str)
  | cannotRead (target exc : Str)
  | noSeparator (target : Str)
  | writeFailed (target exc : Str)
  | lockTimeout (target exc : Str)

def BackfillError.text (repr : Str → Str) : BackfillError → Str
  | .unsafeTarget target => "backfill_target_mirror_row: unsafe target domain " ++ repr target
  | .cannotRead target exc =>
    "backfill_target_mirror_row: cannot read " ++ target ++ ".md: " ++ exc
  | .noSeparator target =>
    "backfill_target_mirror_row: no Incoming Dependencies separator in " ++ target ++ ".md"
  | .writeFailed target exc =>
    "Phase 3.7: atomic write failed for " ++ target ++ ".md: " ++ exc
  | .lockTimeout target exc =>
    "backfill_target_mirror_row: lock timeout for " ++ target ++ ": " ++ exc

/-- What goes wrong around one call: the lock times out, the file cannot be read or not be written. -/
structure Faults where
  lock : Option Str
  read : Option Str
  write : Option Str

structure Outcome where
  ok : Bool
  file : Str
  errors : List BackfillError

def withRow (original : Str) (idx : ℕ) (e : Edge) : Str :=
  ((keepends original).take idx).flatten ++
    (e.rowText ++ '\n' :: ((keepends original).drop idx).flatten)

def backfillTargetMirrorRow (targetDomain : Str) (e : Edge) (dryRun : Bool) (faults : Faults) (file : Str) : Outcome :=
  if isSafeDomainName targetDomain = false then ⟨false, file, [.unsafeTarget targetDomain]⟩
  else match faults.lock with
    | some exc => ⟨false, file, [.lockTimeout targetDomain exc]⟩
    | none => match faults.read with
      | some exc => ⟨false, file, [.cannotRead targetDomain exc]⟩
      | none =>
        let original := readText file
        if findExistingIncomingRow original e.sourceDomain e.type then ⟨true, file, []⟩
        else match findIncomingInsertIndex (keepends original) with
          | none => ⟨false, file, [.noSeparator targetDomain]⟩
          | some idx =>
            if dryRun then ⟨true, file, []⟩
            else match faults.write with
              | some exc => ⟨false, file, [.writeFailed targetDomain exc]⟩
              | none => ⟨true, withRow original idx e, []⟩

/-! ### What the repair is for -/

def Reads (text : Str) (e : Edge) : Prop :=
  ∃ row ∈ parseIncomingTable text, row.sourceDomain = e.sourceDomain ∧ row.depType = e.type

def AddsRow (rows rows' : List IncomingRow) : Prop :=
  rows' = rows ∨ ∃ above row below, rows = above ++ below ∧ rows' = above ++ row :: below

/-- At most one line is new, between two others, and they are as they were. -/
def AddsLine (text text' : Str) : Prop :=
  text' = text ∨ ∃ before row after, text = before ++ after ∧ text' = before ++ (row ++ '\n' :: after) ∧
    (∀ c ∈ row, isLineBreak c = false) ∧ ∀ c ∈ before.getLast?, isLineBreak c = true

/-- `file'` is `file` with the edge in its table: the parser reads it, at most one row and one line are new,
and a call with the same edge changes nothing more. -/
structure Mirrored (file : Str) (e : Edge) (file' : Str) : Prop where
  reads : Reads (readText file') e
  rows : AddsRow (parseIncomingTable (readText file)) (parseIncomingTable (readText file'))
  lines : AddsLine (readText file) (readText file')
  again : ∀ targetDomain faults, (backfillTargetMirrorRow targetDomain e false faults file').file = file'

def Converges (file : Str) (e : Edge) : Prop :=
  ∀ targetDomain faults, (backfillTargetMirrorRow targetDomain e false faults file).ok = true →
    Mirrored file e (backfillTargetMirrorRow targetDomain e false faults file).file

def RowReads (e : Edge) : Prop :=
  (∀ c ∈ e.rowText, isLineBreak c = false) ∧
    ∃ cells, tableRow incomingReader e.rowText = some cells ∧
      cells.getD 2 [] = e.sourceDomain ∧ cells.getD 3 [] = e.type

/-- Whether a reader is inside of the section after these stripped lines; `none` if it has left it. -/
def place (R : Reader) : Bool → List Str → Option Bool
  | inSection, [] => some inSection
  | inSection, line :: lines =>
    if line = R.heading then place R true lines
    else if inSection then if R.stops line then none else place R true lines
    else place R false lines

/-- Where there is a line of dashes, it ends in a newline, and going by newlines only it is in the section. -/
def DashesEnd (file : Str) : Prop :=
  ∀ idx, findIncomingInsertIndex (keepends (readText file)) = some idx →
    ∃ before, ((keepends (readText file)).take idx).flatten = before ++ ['\n'] ∧
      place checkReader false ((before.splitOn '\n').map strip) = some true

/-- A row that the check takes for an edge is one that the parser reads, and a row can be put after the line of
dashes. -/
structure Ready (file : Str) : Prop where
  wide : ∀ cells ∈ scanIncomingSection ((readText file).splitOn '\n'),
    (∀ c ∈ cells.getD 2 [] ++ cells.getD 3 [], isLineBreak c = false) → cells.getD 3 [] ≠ [] →
      ∃ row ∈ parseIncomingTable (readText file),
        row.sourceDomain = cells.getD 2 [] ∧ row.depType = cells.getD 3 []
  dashes : DashesEnd file

/-! ### Scanning -/

section Scan
variable {R : Reader} {b : Bool} {xs ys : List Str}

theorem scan_append : scan R b (xs ++ ys) = scan R b xs ++ (place R b xs).elim [] fun b' => scan R b' ys := by
  induction xs generalizing b with
  | nil => rfl
  | cons x xs ih =>
    simp only [cons_append, scan, place]
    split_ifs
    · exact ih
    · rfl
    · rw [ih, append_assoc]
    · exact ih

variable {line : Str}

theorem place_cons_heading (h : line = R.heading) : place R b (line :: xs) = place R true xs := if_pos h

section

variable (h : line ≠ R.heading)
include h

theorem place_cons_outside : place R false (line :: xs) = place R false xs := if_neg h

theorem place_cons_inside (hstops : R.stops line = false) : place R true (line :: xs) = place R true xs := by
  rw [place, if_neg h, if_pos rfl, hstops]; rfl

theorem scan_cons_inside (hstops : R.stops line = false) :
    scan R true (line :: xs) = (tableRow R line).toList ++ scan R true xs := by
  rw [scan, if_neg h, if_pos rfl, hstops]; rfl

theorem scan_cons_outside : scan R false (line :: xs) = scan R false xs := if_neg h

end

theorem mem_scan {cells : List Str} (h : cells ∈ scan R b xs) : ∃ line ∈ xs, tableRow R line = some cells := by
  induction xs generalizing b with
  | nil => cases h
  | cons x xs ih =>
    have hrest : ∀ {b'}, cells ∈ scan R b' xs → ∃ line ∈ x :: xs, tableRow R line = some cells := by
      intro b' h'
      obtain ⟨line, hline, hrow⟩ := ih h'
      exact ⟨line, mem_cons_of_mem x hline, hrow⟩
    rw [scan] at h
    split_ifs at h
    · exact hrest h
    · cases h
    · rcases mem_append.mp h with h | h
      · exact ⟨x, mem_cons_self, Option.mem_toList.mp h⟩
      · exact hrest h
    · exact hrest h

end Scan

/-! ### Where the row goes -/

structure Dashes (idx : ℕ) (inIncoming sawHeader : Bool) (xs : List Str) (k : ℕ) (pre : List Str) (sep : Str)
    (post : List Str) : Prop where
  split : xs = pre ++ sep :: post
  index : k = idx + (pre.length + 1)
  bar : sep.head? = some '|'
  inside : place incomingReader inIncoming (pre ++ [sep]) = some true
  again : ∀ more, insertIndexFrom idx inIncoming sawHeader (pre ++ sep :: more) = some k

variable {line s text before file row : Str} {xs cells : List Str} {idx k : ℕ} {e : Edge}

theorem not_heading (h : line.head? ≠ some '#') : line ≠ incomingSection := by
  rintro rfl; exact h rfl

theorem not_stops (h : line.head? ≠ some '#') : incomingReader.stops line = false := by
  simp [incomingReader, tableReader, h]

theorem Dashes.cons {b b' s s' : Bool} {pre post : List Str} {sep : Str}
    (h : Dashes (idx + 1) b' s' xs k pre sep post)
    (hplace : ∀ more, place incomingReader b (line :: more) =
      place incomingReader b' more)
    (hstep : ∀ more, insertIndexFrom idx b s (line :: more) = insertIndexFrom (idx + 1) b' s' more) :
    Dashes idx b s (line :: xs) k (line :: pre) sep post where
  split := by rw [h.split]; rfl
  index := by rw [h.index, length_cons]; omega
  bar := h.bar
  inside := by rw [cons_append, hplace]; exact h.inside
  again more := by rw [cons_append, hstep]; exact h.again more

theorem exists_dashes {b s : Bool}
    (h : insertIndexFrom idx b s xs = some k) : ∃ pre sep post, Dashes idx b s xs k pre sep post := by
  induction xs generalizing idx b s with
  | nil => cases h
  | cons line xs ih =>
    have hstep : ∀ {b' s' : Bool}, insertIndexFrom (idx + 1) b' s' xs = some k →
        (∀ more, place incomingReader b (line :: more) =
          place incomingReader b' more) →
        (∀ more, insertIndexFrom idx b s (line :: more) = insertIndexFrom (idx + 1) b' s' more) →
        ∃ pre sep post, Dashes idx b s (line :: xs) k pre sep post := by
      intro b' s' hrest hplace hindex
      obtain ⟨pre, sep, post, hdashes⟩ := ih hrest
      exact ⟨line :: pre, sep, post, hdashes.cons hplace hindex⟩
    by_cases hheading : line = incomingSection
    · subst hheading
      rw [insertIndexFrom, if_pos rfl] at h
      exact hstep h (fun more => place_cons_heading rfl) (fun more => by rw [insertIndexFrom, if_pos rfl])
    cases b with
    | false =>
      rw [insertIndexFrom, if_neg hheading, if_pos rfl] at h
      refine hstep h (fun more => ?_) (fun more => by rw [insertIndexFrom, if_neg hheading, if_pos rfl])
      exact place_cons_outside hheading
    | true =>
      by_cases hhash : line.head? = some '#'
      · rw [insertIndexFrom, if_neg hheading, if_neg (by simp), if_pos hhash] at h; cases h
      have hplace : ∀ more, place incomingReader true (line :: more) =
          place incomingReader true more := by
        exact fun more => place_cons_inside hheading (not_stops hhash)
      have hindex : ∀ more, insertIndexFrom idx true s (line :: more) =
          if s = false ∧ line.head? = some '|' ∧ incomingHeaderSentinel <:+: line then
            insertIndexFrom (idx + 1) true true more
          else if s = true ∧ line.head? = some '|' ∧ isSeparator line = true then some (idx + 1)
          else insertIndexFrom (idx + 1) true s more := by
        intro more
        rw [insertIndexFrom, if_neg hheading, if_neg (by simp), if_neg hhash]
      rw [hindex] at h
      split_ifs at h with hheader hsep
      · exact hstep h hplace fun more => by rw [hindex, if_pos hheader]
      · refine ⟨[], line, xs, rfl, (Option.some.inj h).symm, hsep.2.1, ?_, fun more => ?_⟩
        · rw [nil_append, hplace]; rfl
        · rw [nil_append, hindex, if_neg hheader, if_pos hsep, h]
      · exact hstep h hplace fun more => by rw [hindex, if_neg hheader, if_neg hsep]

/-! ### The row as a line -/

section Row
variable (e : Edge)

theorem head_rowText : e.rowText.head? = some '|' := by simp [Edge.rowText]

theorem getLast_rowText : e.rowText.getLast? = some '|' := by
  rw [Edge.rowText, List.getLast?_append_of_ne_nil _ (by simp)]; rfl

theorem rowText_ne_hash : e.rowText.head? ≠ some '#' := by rw [head_rowText]; decide

theorem mem_rowText_iff {c : Char} :
    c ∈ e.rowText ↔ c = '|' ∨ c = ' ' ∨ c ∈ e.reposStr ∨ c ∈ e.sourceDomain ∨ c ∈ e.type ∨ c ∈ e.why ∨
      c ∈ e.evidence := by
  simp only [Edge.rowText, mem_append, mem_cons, not_mem_nil, or_false]
  constructor <;> intro h <;> grind

theorem tight_rowText : Tight e.rowText :=
  ⟨⟨'|', head_rowText e, by decide⟩, '|', getLast_rowText e, by decide⟩

theorem strip_rowText : strip e.rowText = e.rowText := (tight_rowText e).strip_eq

theorem strip_rowText_newline : strip (e.rowText ++ ['\n']) = e.rowText :=
  strip_append (tight_rowText e) (by simp [isSpace])

variable {line : Str}

theorem check_not_stops (h : line.head? ≠ some '#') : checkReader.stops line = false := by
  simp [checkReader, h]

theorem tableRow_check {cells : List Str} (h : tableRow incomingReader line = some cells) :
    tableRow checkReader line = some cells := by
  rw [tableRow, Option.ite_none_right_eq_some] at h ⊢
  obtain ⟨⟨hhead, hlast, hcols, hfirst⟩, hcells⟩ := h
  have hcols : 6 ≤ (cellsOf line).length := hcols
  exact ⟨⟨hhead, hlast, show 4 ≤ _ by omega, hfirst⟩, hcells⟩

end Row

theorem parseIncomingTable_eq (text : Str) :
    parseIncomingTable text = (scan incomingReader false ((keepends text).map strip)).map incomingRow := by
  rw [← map_strip_splitlines]; rfl

theorem reads_iff :
    Reads text e ↔ ∃ cells ∈ scan incomingReader false ((keepends text).map strip),
      cells.getD 2 [] = e.sourceDomain ∧ cells.getD 3 [] = e.type := by
  simp only [Reads, parseIncomingTable_eq, mem_map, exists_exists_and_eq_and]; rfl

theorem findExisting_iff {sourceDomain depType : Str} :
    findExistingIncomingRow text sourceDomain depType = true ↔
      ∃ cells ∈ scan checkReader false ((text.splitOn '\n').map strip),
        cells.getD 2 [] = sourceDomain ∧ cells.getD 3 [] = depType := by
  simp only [findExistingIncomingRow, scanIncomingSection, any_eq_true, decide_eq_true_eq]

/-! ### A row below a line -/

section Insert
variable {text before : Str} {c : Char} {idx : ℕ} {e : Edge}

section

variable (hbefore : ((keepends text).take idx).flatten = before ++ [c])
include hbefore

theorem text_eq : text = before ++ c :: ((keepends text).drop idx).flatten := by
  conv_lhs => rw [← flatten_keepends text, ← take_append_drop idx (keepends text), flatten_append, hbefore]
  simp

theorem withRow_eq : withRow text idx e = before ++ c :: (e.rowText ++ '\n' :: ((keepends text).drop idx).flatten) := by
  rw [withRow, hbefore]; simp

theorem keepends_withRow
    (hc : isLineBreak c = true) (hcr : c ≠ '\r') (hrow : ∀ c ∈ e.rowText, isLineBreak c = false) :
    keepends (withRow text idx e) =
      (keepends text).take idx ++ (e.rowText ++ ['\n']) :: (keepends text).drop idx := by
  obtain ⟨htake, hdrop⟩ := keepends_take_drop hc hcr hbefore
  rw [withRow_eq hbefore, keepends_append hc hcr, htake,
    keepends_append (by decide) (by decide), hdrop, keepends_line hrow]
  rfl

end

theorem Dashes.map_take {pre post : List Str} {sep : Str} {lines : List Str}
    (h : Dashes 0 false false (lines.map strip) idx pre sep post) :
    (lines.take idx).map strip = pre ++ [sep] := by
  rw [List.map_take, h.split, h.index, Nat.zero_add, List.append_cons, List.take_left' (by simp)]

section

variable (hidx : findIncomingInsertIndex (keepends text) = some idx)
include hidx

theorem place_take : place incomingReader false (((keepends text).take idx).map strip) = some true := by
  obtain ⟨pre, sep, post, h⟩ := exists_dashes hidx
  rw [h.map_take]; exact h.inside

theorem findIncomingInsertIndex_withRow
    (hbefore : ((keepends text).take idx).flatten = before ++ [c]) (hc : isLineBreak c = true) (hcr : c ≠ '\r')
    (hrow : ∀ c ∈ e.rowText, isLineBreak c = false) :
    findIncomingInsertIndex (keepends (withRow text idx e)) = some idx := by
  obtain ⟨pre, sep, post, h⟩ := exists_dashes hidx
  rw [keepends_withRow hbefore hc hcr hrow, findIncomingInsertIndex, map_append, h.map_take,
    ← append_cons]
  exact h.again _

theorem scan_withRow (hbefore : ((keepends text).take idx).flatten = before ++ ['\n'])
    (hrow : ∀ c ∈ e.rowText, isLineBreak c = false) :
    ∃ above below,
      scan incomingReader false ((keepends text).map strip) = above ++ below ∧
        scan incomingReader false ((keepends (withRow text idx e)).map strip) =
          above ++ ((tableRow incomingReader e.rowText).toList ++ below) := by
  have hplace := place_take hidx
  refine ⟨scan incomingReader false (((keepends text).take idx).map strip),
    scan incomingReader true (((keepends text).drop idx).map strip), ?_, ?_⟩
  · conv_lhs => rw [← take_append_drop idx (keepends text), map_append, scan_append, hplace]
    rfl
  · rw [keepends_withRow hbefore (by decide) (by decide) hrow, map_append, map_cons, strip_rowText_newline,
      scan_append, hplace,
      Option.elim_some, scan_cons_inside (not_heading (rowText_ne_hash e)) (not_stops (rowText_ne_hash e))]

end

theorem newline_notMem (hrow : ∀ c ∈ e.rowText, isLineBreak c = false) : '\n' ∉ e.rowText :=
  fun h => absurd (hrow _ h) (by decide)

theorem splitOn_withRow (hbefore : ((keepends text).take idx).flatten = before ++ ['\n'])
    (hrow : ∀ c ∈ e.rowText, isLineBreak c = false) :
    ((withRow text idx e).splitOn '\n').map strip =
      (before.splitOn '\n').map strip ++ e.rowText ::
        (((keepends text).drop idx).flatten.splitOn '\n').map strip := by
  rw [withRow_eq hbefore, splitOn_append_cons_self, splitOn_append_cons_self,
    splitOn_eq_singleton (newline_notMem hrow), map_append, singleton_append, map_cons,
    strip_rowText]

end Insert

/-! ### What a call does -/

section Call
variable {targetDomain file : Str} {e : Edge} {faults : Faults}

theorem backfill_cases (targetDomain file : Str) (e : Edge) (faults : Faults) :
    let out := backfillTargetMirrorRow targetDomain e false faults file
    out.ok = false ∧ out.file = file ∨
      findExistingIncomingRow (readText file) e.sourceDomain e.type = true ∧ out.file = file ∨
      findExistingIncomingRow (readText file) e.sourceDomain e.type = false ∧
        ∃ idx, findIncomingInsertIndex (keepends (readText file)) = some idx ∧
          out.file = withRow (readText file) idx e := by
  intro out
  simp only [out, backfillTargetMirrorRow, Bool.false_eq_true, if_false]
  split
  · exact .inl ⟨rfl, rfl⟩
  split
  · exact .inl ⟨rfl, rfl⟩
  split
  · exact .inl ⟨rfl, rfl⟩
  split
  case isTrue hfind => exact .inr (.inl ⟨hfind, rfl⟩)
  case isFalse hfind =>
    split
    · exact .inl ⟨rfl, rfl⟩
    case h_2 idx hidx =>
      split
      · exact .inl ⟨rfl, rfl⟩
      · exact .inr (.inr ⟨by simpa using hfind, idx, hidx, rfl⟩)

def noFaults : Faults := ⟨none, none, none⟩

theorem backfill_adds (hfind : findExistingIncomingRow (readText file) e.sourceDomain e.type = false) {idx : ℕ}
    (hidx : findIncomingInsertIndex (keepends (readText file)) = some idx) :
    backfillTargetMirrorRow ['t'] e false noFaults file = ⟨true, withRow (readText file) idx e, []⟩ := by
  have hsafe : isSafeDomainName ['t'] = true := by decide
  simp [backfillTargetMirrorRow, noFaults, hsafe, hfind, hidx]

section

variable (hfind : findExistingIncomingRow (readText file) e.sourceDomain e.type = true)
include hfind

theorem backfill_finds : backfillTargetMirrorRow ['t'] e false noFaults file = ⟨true, file, []⟩ := by
  have hsafe : isSafeDomainName ['t'] = true := by decide
  simp [backfillTargetMirrorRow, noFaults, hsafe, hfind]

theorem backfill_file_of_found (targetDomain : Str) (faults : Faults) :
    (backfillTargetMirrorRow targetDomain e false faults file).file = file := by
  rcases backfill_cases targetDomain file e faults with ⟨-, h⟩ | ⟨-, h⟩ | ⟨hnot, -⟩
  · exact h
  · exact h
  · rw [hfind] at hnot; cases hnot

end

end Call

/-! ### Ready documents and readable rows -/

theorem text_eq_parts (text : Str) (idx : ℕ) :
    text = ((keepends text).take idx).flatten ++ ((keepends text).drop idx).flatten := by
  rw [← flatten_append, take_append_drop, flatten_keepends]

theorem length_withRow (text : Str) (idx : ℕ) (e : Edge) :
    (withRow text idx e).length = text.length + (e.rowText.length + 1) := by
  conv_rhs => rw [text_eq_parts text idx]
  simp only [withRow, length_append, length_cons]
  omega

theorem cr_notMem_withRow (htext : '\r' ∉ text)
    (hrow : ∀ c ∈ e.rowText, isLineBreak c = false) : '\r' ∉ withRow text idx e := by
  rw [text_eq_parts text idx] at htext
  have hcr : '\r' ∉ e.rowText := fun h => absurd (hrow _ h) (by decide)
  simp only [withRow, mem_append, mem_cons, not_or] at htext ⊢
  exact ⟨htext.1, hcr, by decide, htext.2⟩

theorem findExisting_withRow
    (hbefore : ((keepends text).take idx).flatten = before ++ ['\n'])
    (hplace : place checkReader false ((before.splitOn '\n').map strip) = some true) (he : RowReads e) :
    findExistingIncomingRow (withRow text idx e) e.sourceDomain e.type = true := by
  obtain ⟨hrow, cells, hcells, hsource, htype⟩ := he
  refine findExisting_iff.mpr ⟨cells, ?_, hsource, htype⟩
  rw [splitOn_withRow hbefore hrow, scan_append, hplace, Option.elim_some,
    scan_cons_inside (not_heading (rowText_ne_hash e)) (check_not_stops (rowText_ne_hash e)),
    tableRow_check hcells]
  simp

theorem RowReads.type_ne_nil (e : Edge) : e.type ≠ [] := by
  unfold Edge.type; split_ifs with h
  · decide
  · exact h

theorem converges_iff_of_found (hfind : findExistingIncomingRow (readText file) e.sourceDomain e.type = true) :
    Converges file e ↔ Reads (readText file) e := by
  constructor
  · intro h
    have hmirrored := h ['t'] noFaults (by rw [backfill_finds hfind])
    rw [backfill_finds hfind] at hmirrored
    exact hmirrored.reads
  · intro hreads targetDomain faults _
    rw [backfill_file_of_found hfind]
    exact ⟨hreads, .inl rfl, .inl rfl, backfill_file_of_found hfind⟩

theorem converges_of_dashesEnd (hfile : DashesEnd file)
    (hfind : findExistingIncomingRow (readText file) e.sourceDomain e.type = false) (he : RowReads e) :
    Converges file e := by
  intro targetDomain faults hok
  obtain ⟨hrow, cells, hcells, hsource, htype⟩ := he
  rcases backfill_cases targetDomain file e faults with ⟨hnot, -⟩ | ⟨hfound, -⟩ | ⟨-, idx, hidx, hnew⟩
  · rw [hok] at hnot; cases hnot
  · rw [hfind] at hfound; cases hfound
  · -- the row is put after a newline, inside of the section for both readers
    obtain ⟨before, hbefore, hplace⟩ := hfile idx hidx
    have htext : readText (withRow (readText file) idx e) = withRow (readText file) idx e :=
      readText_of_no_cr (cr_notMem_withRow (cr_notMem_readText file) hrow)
    obtain ⟨above, below, hold, hnewrows⟩ := scan_withRow hidx hbefore hrow
    rw [hcells] at hnewrows
    rw [hnew]
    refine ⟨?_, ?_, ?_, backfill_file_of_found ?_⟩ <;> rw [htext]
    · exact reads_iff.mpr ⟨cells, by rw [hnewrows]; simp, hsource, htype⟩
    · refine .inr ⟨above.map incomingRow, incomingRow cells, below.map incomingRow, ?_, ?_⟩
      · rw [parseIncomingTable_eq, hold, map_append]
      · rw [parseIncomingTable_eq, hnewrows]; simp
    · refine .inr ⟨before ++ ['\n'], e.rowText, ((keepends (readText file)).drop idx).flatten, ?_, ?_, hrow, ?_⟩
      · exact (text_eq hbefore).trans (by simp)
      · rw [withRow_eq hbefore]; simp
      · simp [isLineBreak]
    · exact findExisting_withRow hbefore hplace ⟨hrow, cells, hcells, hsource, htype⟩

theorem converges_of_ready (hfile : Ready file) (he : RowReads e) : Converges file e := by
  cases hfind : findExistingIncomingRow (readText file) e.sourceDomain e.type with
  | false => exact converges_of_dashesEnd hfile.dashes hfind he
  | true =>
    obtain ⟨cells, hcells, hsource, htype⟩ := findExisting_iff.mp hfind
    have hbreaks : ∀ c ∈ cells.getD 2 [] ++ cells.getD 3 [], isLineBreak c = false := by
      rw [hsource, htype]
      intro c hc
      rcases mem_append.mp hc with hc | hc <;> exact he.1 c ((mem_rowText_iff e).mpr (by simp [hc]))
    have hne : cells.getD 3 [] ≠ [] := htype ▸ RowReads.type_ne_nil e
    obtain ⟨row, hrow, hrs, hrt⟩ := hfile.wide cells hcells hbreaks hne
    exact (converges_iff_of_found hfind).2 ⟨row, hrow, hrs.trans hsource, hrt.trans htype⟩

/-! ### Rows read back -/

def Clean (s : Str) : Prop := '|' ∉ s ∧ strip s = s

theorem strip_padded (hs : Clean s) : strip (' ' :: (s ++ [' '])) = s := by
  rw [strip_cons_space (by decide), strip_append_spaces s (by simp [isSpace]), hs.2]

theorem bar_notMem_padded (hs : Clean s) : '|' ∉ ' ' :: (s ++ [' ']) := by
  simpa using hs.1

theorem splitOn_padded (hs : Clean s) (t : Str) :
    (' ' :: (s ++ ' ' :: '|' :: t)).splitOn '|' = (' ' :: (s ++ [' '])) :: t.splitOn '|' := by
  have hassoc : ' ' :: (s ++ ' ' :: '|' :: t) = (' ' :: (s ++ [' '])) ++ '|' :: t := by simp
  rw [hassoc, splitOn_append_cons_self, splitOn_eq_singleton (bar_notMem_padded hs)]; rfl

theorem cellsOf_append_rowText (hrepos : Clean e.reposStr) (hsource : Clean e.sourceDomain)
    (htype : Clean e.type) (hwhy : Clean e.why) (hevidence : Clean e.evidence) (q : Str) :
    cellsOf (q ++ e.rowText) =
      (q.splitOn '|').tail.map strip ++
        [e.reposStr, e.reposStr, e.sourceDomain, e.type, e.why, e.evidence] := by
  have hrow : e.rowText = '|' :: ' ' :: (e.reposStr ++ ' ' :: '|' :: ' ' :: (e.reposStr ++ ' ' :: '|' :: ' ' ::
      (e.sourceDomain ++ ' ' :: '|' :: ' ' :: (e.type ++ ' ' :: '|' :: ' ' :: (e.why ++ ' ' :: '|' :: ' ' ::
        (e.evidence ++ ' ' :: '|' :: [])))))) := by simp [Edge.rowText]
  obtain ⟨first, rest, hq⟩ : ∃ first rest, q.splitOn '|' = first :: rest :=
    exists_cons_of_ne_nil (splitOn_ne_nil _ _)
  rw [cellsOf, hrow, splitOn_append_cons_self, splitOn_padded hrepos, splitOn_padded hrepos,
    splitOn_padded hsource, splitOn_padded htype, splitOn_padded hwhy, splitOn_padded hevidence, hq]
  simp [dropLast_append_of_ne_nil, strip_padded, *]

theorem clean_nil : Clean [] := ⟨not_mem_nil, rfl⟩

theorem clean_cell (line : Str) (i : ℕ) : Clean ((cellsOf line).getD i []) := by
  by_cases hi : i < (cellsOf line).length
  · rw [getD_eq_getElem _ _ hi]
    obtain ⟨piece, hpiece, hcell⟩ := mem_map.mp (getElem_mem hi)
    have hmem : piece ∈ line.splitOn '|' := mem_of_mem_tail (mem_of_mem_dropLast hpiece)
    rw [← hcell]
    refine ⟨fun hbar => ?_, strip_strip piece⟩
    exact PurePath.not_mem_of_mem_splitOn hmem ((strip_isInfix piece).subset hbar)
  · rw [getD_eq_default _ _ (by omega)]
    exact clean_nil

theorem tableRow_eq_some {R : Reader} (h : tableRow R line = some cells) : cells = cellsOf line := by
  rw [tableRow, Option.ite_none_right_eq_some] at h
  exact (Option.some.inj h.2).symm

def plainEdge (repo sourceDomain depType : Str) : Edge := ⟨sourceDomain, some [repo], depType, [], []⟩

section Plain
variable {repo sourceDomain depType : Str}

theorem plainEdge_reposStr : (plainEdge repo sourceDomain depType).reposStr = repo := by
  simp [plainEdge, Edge.reposStr, Edge.repos]

theorem plainEdge_type (h : depType ≠ []) : (plainEdge repo sourceDomain depType).type = depType := if_neg h

theorem cellsOf_append_plainEdge (hrepo : Clean repo) (hsource : Clean sourceDomain) (htype : Clean depType)
    (hne : depType ≠ []) (q : Str) :
    cellsOf (q ++ (plainEdge repo sourceDomain depType).rowText) =
      (q.splitOn '|').tail.map strip ++ [repo, repo, sourceDomain, depType, [], []] := by
  have h := @cellsOf_append_rowText (plainEdge repo sourceDomain depType)
  rw [plainEdge_reposStr, plainEdge_type hne] at h
  exact h hrepo hsource htype clean_nil clean_nil q

theorem rowReads_plainEdge (hrepo : Clean repo) (hsource : Clean sourceDomain) (htype : Clean depType)
    (hne : depType ≠ []) (hheader : repo ≠ incomingHeaderSentinel) (hrule : isRule repo = false)
    (hbreaks : ∀ c ∈ repo ++ (sourceDomain ++ depType), isLineBreak c = false) :
    RowReads (plainEdge repo sourceDomain depType) := by
  have hcells := cellsOf_append_plainEdge hrepo hsource htype hne []
  have hcells : cellsOf (plainEdge repo sourceDomain depType).rowText =
      [repo, repo, sourceDomain, depType, [], []] := hcells
  refine ⟨?_, [repo, repo, sourceDomain, depType, [], []], ?_, rfl, (plainEdge_type hne).symm⟩
  · intro c hc
    rcases (mem_rowText_iff _).mp hc with rfl | rfl | hc | hc | hc | hc | hc
    · rfl
    · rfl
    · exact hbreaks c (by rw [plainEdge_reposStr] at hc; simp [hc])
    · exact hbreaks c (mem_append_right _ (mem_append_left _ hc))
    · exact hbreaks c (by rw [plainEdge_type hne] at hc; simp [hc])
    · cases hc
    · cases hc
  · rw [tableRow, hcells, if_pos ⟨head_rowText _, getLast_rowText _, le_rfl, hheader, hrule⟩]

end Plain

/-! ### A document that is not ready -/

theorem wide_of_converges (h : ∀ e, RowReads e → Converges file e)
    (hcells : cells ∈ scanIncomingSection ((readText file).splitOn '\n'))
    (hbreaks : ∀ c ∈ cells.getD 2 [] ++ cells.getD 3 [], isLineBreak c = false) (hne : cells.getD 3 [] ≠ []) :
    ∃ row ∈ parseIncomingTable (readText file),
      row.sourceDomain = cells.getD 2 [] ∧ row.depType = cells.getD 3 [] := by
  obtain ⟨line, -, hline⟩ := mem_scan hcells
  obtain rfl := tableRow_eq_some hline
  let e := plainEdge ['r'] ((cellsOf line).getD 2 []) ((cellsOf line).getD 3 [])
  have htype : e.type = (cellsOf line).getD 3 [] := plainEdge_type hne
  have he : RowReads e := by
    refine rowReads_plainEdge ⟨by decide, by decide⟩ (clean_cell line 2) (clean_cell line 3) hne (by decide)
      (by decide) ?_
    intro c hc
    rcases mem_append.mp hc with hc | hc
    · obtain rfl := mem_singleton.mp hc; rfl
    · exact hbreaks c hc
  have hfind : findExistingIncomingRow (readText file) e.sourceDomain e.type = true :=
    findExisting_iff.mpr ⟨cellsOf line, hcells, rfl, htype.symm⟩
  obtain ⟨row, hrow, hrs, hrt⟩ := (converges_iff_of_found hfind).1 (h e he)
  exact ⟨row, hrow, hrs, hrt.trans htype⟩

theorem length_le_of_mem_splitOn {a : Char} {piece : Str} (h : piece ∈ s.splitOn a) : piece.length ≤ s.length := by
  induction hn : s.length using Nat.strong_induction_on generalizing s with
  | _ n ih =>
    by_cases ha : a ∈ s
    · obtain ⟨u, v, rfl⟩ := append_of_mem ha
      simp only [length_append, length_cons] at hn
      rw [splitOn_append_cons_self] at h
      rcases mem_append.mp h with h | h
      · have := ih u.length (by omega) h rfl; omega
      · have := ih v.length (by omega) h rfl; omega
    · rw [splitOn_eq_singleton ha] at h
      rw [mem_singleton.mp h, hn]

theorem length_strip_le (s : Str) : (strip s).length ≤ s.length := (strip_isInfix s).length_le

theorem length_cell_le {i : ℕ} : ((cellsOf line).getD i []).length ≤ line.length := by
  by_cases hi : i < (cellsOf line).length
  · rw [getD_eq_getElem _ _ hi]
    obtain ⟨piece, hpiece, hcell⟩ := mem_map.mp (getElem_mem hi)
    have hmem : piece ∈ line.splitOn '|' := mem_of_mem_tail (mem_of_mem_dropLast hpiece)
    rw [← hcell]
    exact (length_strip_le piece).trans (length_le_of_mem_splitOn hmem)
  · rw [getD_eq_default _ _ (by omega)]
    exact Nat.zero_le _

def freshEdge (text : Str) : Edge := plainEdge ['z'] (List.replicate (text.length + 1) 'x') ['y']

section Fresh
variable {text : Str}

theorem clean_fresh (n : ℕ) : Clean (List.replicate (n + 1) 'x') := by
  refine ⟨by simp [mem_replicate], Tight.strip_eq ⟨⟨'x', ?_, by decide⟩, 'x', ?_, by decide⟩⟩
  · rfl
  · simp [List.getLast?_replicate]

theorem rowReads_freshEdge (text : Str) : RowReads (freshEdge text) := by
  refine rowReads_plainEdge ⟨by decide, by decide⟩ (clean_fresh _) ⟨by decide, by decide⟩ (by decide) (by decide)
    (by decide) ?_
  intro c hc
  simp only [mem_append, mem_singleton, mem_replicate] at hc
  rcases hc with rfl | ⟨-, rfl⟩ | rfl <;> rfl

variable {line p text' : Str}

theorem cell_ne_fresh (hline : line.length ≤ text.length) (i : ℕ) :
    (cellsOf line).getD i [] ≠ (freshEdge text).sourceDomain := by
  intro h
  have hlen := congrArg List.length h
  have hcell := @length_cell_le line i
  simp only [freshEdge, plainEdge, length_replicate] at hlen
  omega

theorem not_fresh_of_mem_scan {R : Reader} {b : Bool} {lines : List Str}
    (hlines : ∀ line ∈ lines, line.length ≤ text.length) {cells : List Str} (h : cells ∈ scan R b lines) :
    cells.getD 2 [] ≠ (freshEdge text).sourceDomain := by
  obtain ⟨line, hline, hrow⟩ := mem_scan h
  rw [tableRow_eq_some hrow]
  exact cell_ne_fresh (hlines line hline) 2

theorem length_le_of_mem_lines {s : Str} (hs : s.length ≤ text.length)
    (h : line ∈ (s.splitOn '\n').map strip) : line.length ≤ text.length := by
  obtain ⟨l, hl, rfl⟩ := mem_map.mp h
  exact ((length_strip_le l).trans (length_le_of_mem_splitOn hl)).trans hs

theorem findExisting_fresh :
    findExistingIncomingRow text (freshEdge text).sourceDomain (freshEdge text).type = false := by
  rw [Bool.eq_false_iff]
  intro h
  obtain ⟨cells, hcells, hsource, -⟩ := findExisting_iff.mp h
  exact not_fresh_of_mem_scan (fun line hline => length_le_of_mem_lines le_rfl hline) hcells hsource

theorem glued_ne_fresh (hbar : '|' ∈ p) (hp : p.length ≤ text.length) :
    (cellsOf (strip (p ++ (freshEdge text).rowText))).getD 2 [] ≠ (freshEdge text).sourceDomain := by
  have hdrop : '|' ∈ p.dropWhile isSpace := by
    have hmem : '|' ∈ p.takeWhile isSpace ++ p.dropWhile isSpace := by rwa [takeWhile_append_dropWhile]
    rcases mem_append.mp hmem with hblank | hbar
    · exact absurd (mem_takeWhile_imp hblank) (by decide)
    · exact hbar
  have hne : p.dropWhile isSpace ≠ [] := ne_nil_of_mem hdrop
  have hstrip : strip (p ++ (freshEdge text).rowText) = p.dropWhile isSpace ++ (freshEdge text).rowText := by
    rw [strip, dropWhile_append, if_neg (by simpa using hne), rdropWhile_eq_self_iff]
    intro hnil
    have hlast : (p.dropWhile isSpace ++ (freshEdge text).rowText).getLast? = some '|' := by
      rw [List.getLast?_append, getLast_rowText]; rfl
    rw [List.getLast?_eq_some_getLast hnil] at hlast
    rw [Option.some.inj hlast]; decide
  have hcells : cellsOf (p.dropWhile isSpace ++ (freshEdge text).rowText) =
      ((p.dropWhile isSpace).splitOn '|').tail.map strip ++
        [['z'], ['z'], List.replicate (text.length + 1) 'x', ['y'], [], []] :=
    cellsOf_append_plainEdge ⟨by decide, by decide⟩ (clean_fresh text.length) ⟨by decide, by decide⟩ (by decide) _
  have hshort : ∀ q ∈ ((p.dropWhile isSpace).splitOn '|').tail.map strip, q.length ≤ text.length := by
    intro q hq
    obtain ⟨piece, hpiece, rfl⟩ := mem_map.mp hq
    calc (strip piece).length ≤ piece.length := length_strip_le piece
      _ ≤ (p.dropWhile isSpace).length := length_le_of_mem_splitOn (mem_of_mem_tail hpiece)
      _ ≤ p.length := (dropWhile_suffix isSpace).length_le
      _ ≤ text.length := hp
  have hmore : ((p.dropWhile isSpace).splitOn '|').tail.map strip ≠ [] := by
    obtain ⟨u, v, huv⟩ := append_of_mem hdrop
    rw [huv, splitOn_append_cons_self]
    obtain ⟨x, xs, hx⟩ := exists_cons_of_ne_nil (splitOn_ne_nil '|' u)
    rw [hx]
    simp [splitOn_ne_nil]
  rw [hstrip, hcells]
  -- the third cell is one of those before the row, or a repository
  generalize ((p.dropWhile isSpace).splitOn '|').tail.map strip = before at hshort hmore
  rcases before with _ | ⟨q₁, _ | ⟨q₂, _ | ⟨q₃, rest⟩⟩⟩
  · exact absurd rfl hmore
  · simp [freshEdge, plainEdge, replicate_succ]
  · simp [freshEdge, plainEdge, replicate_succ]
  · intro heq
    have hlen := congrArg List.length heq
    have hq := hshort q₃ (by simp)
    simp only [freshEdge, plainEdge, length_replicate, cons_append, getD_cons_succ,
      getD_cons_zero] at hlen
    omega

/-- Where the row is not on a line of its own, going by newlines, the check does not find it. -/
theorem not_found_glued {above below : List Str}
    (hlines : text'.splitOn '\n' = above ++ (p ++ (freshEdge text).rowText) :: below)
    (habove : ∀ l ∈ above, l.length ≤ text.length) (hbelow : ∀ l ∈ below, l.length ≤ text.length)
    (hbar : '|' ∈ p) (hp : p.length ≤ text.length) :
    findExistingIncomingRow text' (freshEdge text).sourceDomain (freshEdge text).type = false := by
  rw [Bool.eq_false_iff]
  intro h
  obtain ⟨cells, hcells, hsource, -⟩ := findExisting_iff.mp h
  obtain ⟨line, hline, hrow⟩ := mem_scan hcells
  rw [tableRow_eq_some hrow] at hsource
  rw [hlines] at hline
  obtain ⟨l, hl, rfl⟩ := mem_map.mp hline
  rcases mem_append.mp hl with hl | hl
  · exact cell_ne_fresh ((length_strip_le l).trans (habove l hl)) 2 hsource
  rcases mem_cons.mp hl with rfl | hl
  · exact glued_ne_fresh hbar hp hsource
  · exact cell_ne_fresh ((length_strip_le l).trans (hbelow l hl)) 2 hsource

theorem not_found_outside {before after : Str}
    (hlines : (text'.splitOn '\n').map strip =
      (before.splitOn '\n').map strip ++ (freshEdge text).rowText :: (after.splitOn '\n').map strip)
    (hbefore : before.length ≤ text.length) (hafter : after.length ≤ text.length)
    (hplace : place checkReader false ((before.splitOn '\n').map strip) ≠ some true) :
    findExistingIncomingRow text' (freshEdge text).sourceDomain (freshEdge text).type = false := by
  rw [Bool.eq_false_iff]
  intro h
  obtain ⟨cells, hcells, hsource, -⟩ := findExisting_iff.mp h
  rw [hlines, scan_append] at hcells
  rcases mem_append.mp hcells with hcells | hcells
  · exact not_fresh_of_mem_scan (fun l hl => length_le_of_mem_lines hbefore hl) hcells hsource
  · cases hp : place checkReader false ((before.splitOn '\n').map strip) with
    | none => rw [hp] at hcells; exact not_mem_nil hcells
    | some b =>
      cases b with
      | true => exact hplace hp
      | false =>
        rw [hp, Option.elim_some, scan_cons_outside (not_heading (rowText_ne_hash _))] at hcells
        exact not_fresh_of_mem_scan (fun l hl => length_le_of_mem_lines hafter hl) hcells hsource

end Fresh

theorem exists_take_eq (hidx : findIncomingInsertIndex (keepends text) = some idx) :
    ∃ pre sep, (keepends text).take idx = pre ++ [sep] ∧ '|' ∈ sep := by
  obtain ⟨pre, sep, post, h⟩ := exists_dashes hidx
  obtain ⟨pre', seps, htake, -, hsep⟩ := map_eq_append_iff.mp h.map_take
  obtain ⟨sep', rest, rfl, rfl, hrest⟩ := map_eq_cons_iff.mp hsep
  obtain rfl := map_eq_nil_iff.mp hrest
  exact ⟨pre', sep', htake, (strip_isInfix sep').subset (mem_of_mem_head? h.bar)⟩

/-- The lines that are complete in `s`, and the one that what follows goes onto. -/
theorem exists_open_line (s : Str) : ∃ (above : List Str) (b : Str), '\n' ∉ b ∧ b.length ≤ s.length ∧
    (∀ l ∈ above, l.length ≤ s.length) ∧ ∀ x, (s ++ x).splitOn '\n' = above ++ (b ++ x).splitOn '\n' := by
  by_cases h : '\n' ∈ s
  · obtain ⟨as, bs, hs, hnot⟩ := eq_append_cons_of_mem (mem_reverse.mpr h)
    obtain rfl : s = bs.reverse ++ '\n' :: as.reverse := by rw [← reverse_reverse s, hs]; simp
    refine ⟨bs.reverse.splitOn '\n', as.reverse, by simpa using hnot, by simp; omega, ?_, ?_⟩
    · intro l hl
      exact (length_le_of_mem_splitOn hl).trans (by simp)
    · intro x
      rw [append_assoc, cons_append, splitOn_append_cons_self]
  · exact ⟨[], s, h, le_rfl, by simp, fun x => rfl⟩

theorem ends_of_addsLine {pre : Str} {c : Char} (htext : text = pre ++ [c])
    (h : AddsLine text (text ++ (row ++ ['\n']))) : isLineBreak c = true := by
  rcases h with hsame | ⟨before, row', after, hparts, hnew, -, hends⟩
  · have := congrArg List.length hsame
    simp at this
  · rcases after.eq_nil_or_concat with rfl | ⟨after, d, rfl⟩
    · rw [append_nil] at hparts
      rw [← hparts, htext] at hends
      exact hends c (by simp)
    · -- the last character is the newline of the row, and that of the text
      have hd : d = '\n' := by
        have := congrArg List.getLast? hnew
        simpa [List.getLast?_append, List.getLast?_cons] using this.symm
      have hcd : c = d := by
        have := congrArg List.getLast? (htext.symm.trans hparts)
        simpa [List.getLast?_append] using this
      rw [hcd, hd]; decide

theorem found_of_mirrored {c : Char}
    (hm : Mirrored file e (withRow text idx e)) (htext : readText (withRow text idx e) = withRow text idx e)
    (hidx : findIncomingInsertIndex (keepends text) = some idx)
    (hbefore : ((keepends text).take idx).flatten = before ++ [c]) (hc : isLineBreak c = true) (hcr : c ≠ '\r')
    (hrow : ∀ c ∈ e.rowText, isLineBreak c = false) :
    findExistingIncomingRow (withRow text idx e) e.sourceDomain e.type = true := by
  by_contra hnot
  have hidx' := findIncomingInsertIndex_withRow hidx hbefore hc hcr hrow
  have hagain := hm.again ['t'] noFaults
  rw [backfill_adds (by rw [htext]; simpa using hnot) (by rw [htext]; exact hidx'), htext] at hagain
  have hlen := congrArg List.length hagain
  rw [length_withRow] at hlen
  omega

section Dashes
variable {text s : Str} {c : Char} {idx : ℕ} {pre : List Str}

section

variable (htake : (keepends text).take idx = pre ++ [s ++ [c]])
include htake

theorem flatten_take : ((keepends text).take idx).flatten = (pre.flatten ++ s) ++ [c] := by
  rw [htake]; simp

theorem isLineBreak_of_addsLine {e : Edge} (h : AddsLine text (withRow text idx e)) : isLineBreak c = true := by
  have hbefore := flatten_take htake
  by_cases hmore : (keepends text).drop idx = []
  · have htext : text = (pre.flatten ++ s) ++ [c] := (text_eq hbefore).trans (by rw [hmore]; rfl)
    rw [withRow_eq hbefore, hmore, flatten_nil, append_cons, ← htext] at h
    exact ends_of_addsLine htext h
  · have hlast : s ++ [c] ∈ (keepends text).dropLast := by
      rw [← take_append_drop idx (keepends text), dropLast_append_of_ne_nil hmore, htake]
      simp
    obtain ⟨d, hd, hbreak⟩ := ends_of_mem_dropLast hlast
    obtain rfl : c = d := by simpa using hd
    exact hbreak

theorem not_found_other_break (hcr : '\r' ∉ text)
    (hbar : '|' ∈ s ++ [c]) (hnl : c ≠ '\n') :
    findExistingIncomingRow (withRow text idx (freshEdge text)) (freshEdge text).sourceDomain
      (freshEdge text).type = false := by
  have hbefore := flatten_take htake
  have hlen := congrArg List.length (text_eq hbefore)
  simp only [length_append, length_cons] at hlen
  have hmem : s ++ [c] ∈ keepends text := (take_subset idx _) (by rw [htake]; simp)
  have hs : '\n' ∉ s := by
    have hbreaks := no_break_before_last hcr hmem
    rw [dropLast_concat] at hbreaks
    exact fun hn => absurd (hbreaks _ hn) (by decide)
  have hrow := newline_notMem (rowReads_freshEdge text).1
  have hbelow : ∀ l ∈ ((keepends text).drop idx).flatten.splitOn '\n', l.length ≤ text.length :=
    fun l hl => (length_le_of_mem_splitOn hl).trans (by omega)
  obtain ⟨above, b, hb, hblen, habove, hsplit⟩ := exists_open_line pre.flatten
  have hlines : (withRow text idx (freshEdge text)).splitOn '\n' =
      above ++ (b ++ (s ++ [c]) ++ (freshEdge text).rowText) ::
        ((keepends text).drop idx).flatten.splitOn '\n' := by
    have hone : '\n' ∉ b ++ (s ++ [c]) ++ (freshEdge text).rowText := by
      simp only [mem_append, mem_singleton, not_or]
      exact ⟨⟨hb, hs, hnl.symm⟩, hrow⟩
    have hassoc : withRow text idx (freshEdge text) = pre.flatten ++ (s ++ [c] ++ (freshEdge text).rowText ++
        '\n' :: ((keepends text).drop idx).flatten) := by rw [withRow_eq hbefore]; simp
    rw [hassoc, hsplit, ← append_assoc, ← append_assoc, splitOn_append_cons_self,
      splitOn_eq_singleton hone]
    rfl
  refine not_found_glued hlines (fun l hl => (habove l hl).trans (by omega)) hbelow
    (mem_append_right b hbar) ?_
  simp only [length_append, length_singleton]
  omega

end

end Dashes

theorem dashes_of_converges (h : ∀ e, RowReads e → Converges file e)
    (hidx : findIncomingInsertIndex (keepends (readText file)) = some idx) :
    ∃ before, ((keepends (readText file)).take idx).flatten = before ++ ['\n'] ∧
      place checkReader false ((before.splitOn '\n').map strip) = some true := by
  have hcr := cr_notMem_readText file
  have hrow := (rowReads_freshEdge (readText file)).1
  have hm : Mirrored file (freshEdge (readText file)) (withRow (readText file) idx (freshEdge (readText file))) := by
    have := h _ (rowReads_freshEdge (readText file)) ['t'] noFaults
    rw [backfill_adds findExisting_fresh hidx] at this
    exact this rfl
  have hlines := hm.lines
  generalize readText file = text at *
  have hread : readText (withRow text idx (freshEdge text)) = withRow text idx (freshEdge text) :=
    readText_of_no_cr (cr_notMem_withRow hcr hrow)
  rw [hread] at hlines
  obtain ⟨pre, sep, htake, hbar⟩ := exists_take_eq hidx
  have hne : sep ≠ [] := ne_nil_of_mem hbar
  obtain ⟨s, c, rfl⟩ := (eq_nil_or_concat' sep).resolve_left hne
  have hbefore := flatten_take htake
  have hparts := text_eq hbefore
  have hlen := congrArg List.length hparts
  simp only [length_append, length_cons] at hlen
  have hc := isLineBreak_of_addsLine htake hlines
  have hccr : c ≠ '\r' := by
    rintro rfl
    exact hcr (by rw [hparts]; simp)
  have hfound := found_of_mirrored hm hread hidx hbefore hc hccr hrow
  by_cases hnl : c = '\n'
  · subst hnl
    refine ⟨_, hbefore, ?_⟩
    by_contra hplace
    have hnot := not_found_outside (splitOn_withRow hbefore hrow)
      (by rw [length_append]; omega) (by omega) hplace
    rw [hfound] at hnot; cases hnot
  · rw [not_found_other_break htake hcr hbar hnl] at hfound
    cases hfound

/-! ### An edge whose row does not read back -/

def emptyTable : Str := "### Incoming Dependencies\n| External Repo |\n|---|\n"

/-- What the three readers make of it: the row goes to its end, and nobody finds a row yet. -/
structure EmptyTable (text : Str) : Prop where
  read : readText text = text
  index : findIncomingInsertIndex (keepends text) = some 3
  take : ((keepends text).take 3).flatten = text.dropLast ++ ['\n']
  drop : ((keepends text).drop 3).flatten = []
  place : place checkReader false ((text.dropLast.splitOn '\n').map strip) = some true
  scan : scan incomingReader false ((keepends text).map strip) = []
  check : scanIncomingSection (text.splitOn '\n') = []
  last : text.getLast? = some '\n'

theorem emptyTable_empty : EmptyTable emptyTable := by
  have hall : readText emptyTable = emptyTable ∧ findIncomingInsertIndex (keepends emptyTable) = some 3 ∧
      ((keepends emptyTable).take 3).flatten = emptyTable.dropLast ++ ['\n'] ∧
      ((keepends emptyTable).drop 3).flatten = [] ∧
      place checkReader false ((emptyTable.dropLast.splitOn '\n').map strip) = some true ∧
      scan incomingReader false ((keepends emptyTable).map strip) = [] ∧
      scanIncomingSection (emptyTable.splitOn '\n') = [] ∧ emptyTable.getLast? = some '\n' := by decide +kernel
  obtain ⟨hread, hindex, htake, hdrop, hplace, hscan, hcheck, hlast⟩ := hall
  exact ⟨hread, hindex, htake, hdrop, hplace, hscan, hcheck, hlast⟩

theorem withRow_emptyTable (e : Edge) : withRow emptyTable 3 e = emptyTable ++ (e.rowText ++ ['\n']) := by
  have htext := text_eq_parts emptyTable 3
  rw [emptyTable_empty.drop, append_nil] at htext
  rw [withRow, emptyTable_empty.drop, ← htext]

theorem findExisting_emptyTable (sourceDomain depType : Str) :
    findExistingIncomingRow emptyTable sourceDomain depType = false := by
  rw [findExistingIncomingRow, emptyTable_empty.check]; rfl

theorem ready_emptyTable : Ready emptyTable where
  wide cells hcells := by
    rw [emptyTable_empty.read, emptyTable_empty.check] at hcells
    cases hcells
  dashes idx hidx := by
    rw [emptyTable_empty.read, emptyTable_empty.index] at hidx
    cases hidx
    exact ⟨emptyTable.dropLast, by rw [emptyTable_empty.read, emptyTable_empty.take], emptyTable_empty.place⟩

theorem readText_withRow_emptyTable (e : Edge) :
    readText (withRow emptyTable 3 e) = emptyTable ++ (readText e.rowText ++ ['\n']) := by
  have hlast : emptyTable.getLast? ≠ some '\r' := by rw [emptyTable_empty.last]; decide
  have hrow : e.rowText.getLast? ≠ some '\r' := by rw [getLast_rowText]; decide
  rw [withRow_emptyTable, readText_append hlast, readText_append hrow, emptyTable_empty.read]
  rfl

theorem no_break_of_addsLine (h : AddsLine text (text ++ (row ++ ['\n']))) : ∀ c ∈ row, isLineBreak c = false := by
  have hcount : row.countP isLineBreak = 0 := by
    rcases h with hsame | ⟨before, row', after, hparts, hnew, hrow', -⟩
    · have := congrArg List.length hsame
      simp at this
    · have hone : isLineBreak '\n' = true := by decide
      have hrow' : row'.countP isLineBreak = 0 :=
        countP_eq_zero.mpr fun c hc => by rw [hrow' c hc]; simp
      have hold := congrArg (List.countP isLineBreak) hparts
      have hnew := congrArg (List.countP isLineBreak) hnew
      simp only [countP_append, countP_cons_of_pos hone, countP_nil] at hold hnew
      omega
  intro c hc
  simpa using countP_eq_zero.mp hcount c hc

theorem rowReads_of_converges (h : Converges emptyTable e) : RowReads e := by
  have hadds : backfillTargetMirrorRow ['t'] e false noFaults emptyTable = ⟨true, withRow emptyTable 3 e, []⟩ := by
    have := @backfill_adds emptyTable e
    rw [emptyTable_empty.read] at this
    exact this (findExisting_emptyTable _ _) emptyTable_empty.index
  have hm : Mirrored emptyTable e (withRow emptyTable 3 e) := by
    have := h ['t'] noFaults
    rw [hadds] at this
    exact this rfl
  have hrow : ∀ c ∈ e.rowText, isLineBreak c = false := by
    have hlines := hm.lines
    rw [emptyTable_empty.read, readText_withRow_emptyTable] at hlines
    exact no_break_of_readText (no_break_of_addsLine hlines)
  have hread : readText (withRow emptyTable 3 e) = withRow emptyTable 3 e :=
    readText_of_no_cr (cr_notMem_withRow (emptyTable_empty.read ▸ cr_notMem_readText emptyTable) hrow)
  obtain ⟨cells, hcells, hsource, htype⟩ := reads_iff.mp hm.reads
  obtain ⟨above, below, hold, hnew⟩ := scan_withRow emptyTable_empty.index emptyTable_empty.take hrow
  rw [emptyTable_empty.scan] at hold
  obtain ⟨rfl, rfl⟩ := append_eq_nil_iff.mp hold.symm
  rw [hread, hnew, nil_append, append_nil] at hcells
  exact ⟨hrow, cells, Option.mem_toList.mp hcells, hsource, htype⟩

/-- The repair converges for every edge with a readable row exactly in the ready documents, and in every
ready document exactly for the edges with a readable row. In any document, where the check finds a row it converges
exactly if the parser reads the edge, and else if the edge's row is readable and the dashes are in order. -/
theorem converges_exactly (file : Str) (e : Edge) :
    (Ready file ↔ ∀ e, RowReads e → Converges file e) ∧ (RowReads e ↔ ∀ file, Ready file → Converges file e) ∧
    if findExistingIncomingRow (readText file) e.sourceDomain e.type then
      Converges file e ↔ Reads (readText file) e
    else RowReads e → DashesEnd file → Converges file e := by
  refine ⟨⟨fun hfile e he => converges_of_ready hfile he, fun h => ⟨?_, ?_⟩⟩, ?_, ?_⟩
  · exact fun cells hcells hbreaks hne => wide_of_converges h hcells hbreaks hne
  · exact fun idx hidx => dashes_of_converges h hidx
  · exact ⟨fun he file hfile => converges_of_ready hfile he,
      fun h => rowReads_of_converges (h emptyTable ready_emptyTable)⟩
  · split
    · rename_i hfind
      exact converges_iff_of_found hfind
    · rename_i hfind
      exact fun he hfile => converges_of_dashesEnd hfile (Bool.eq_false_iff.2 hfind) he

def authEdge : Edge := ⟨"auth", some ["login"], "Code-level", "tokens", "a.py"⟩

def openTable : Str :=
  ("### Incoming Dependencies\n| External Repo | Depends On | Source Domain | Type | Why | Evidence |\n" ++
    "|---|---|---|---|---|---|").toList

def narrowTable : Str := openTable ++ "\n| login | login | auth | Code-level |\n"

/-- Success is reported, and the parser does not read the edge: the row has gone onto the line of dashes, or a
row of four cells has been taken for it. -/
theorem row_not_read :
    ((backfillTargetMirrorRow "web" authEdge false noFaults openTable).ok = true ∧
      parseIncomingTable (readText (backfillTargetMirrorRow "web" authEdge false noFaults openTable).file)
        = []) ∧
    (backfillTargetMirrorRow "web" authEdge false noFaults narrowTable).ok = true ∧
      parseIncomingTable (readText (backfillTargetMirrorRow "web" authEdge false noFaults narrowTable).file)
        = [] := by
  decide +kernel

end CodeIndexer.DependencyMap.Mirror
