import CodeIndexer.Lib.PyText

/-!
# The evaluator whitelist

An evaluator is Rust source that the server compiles and runs. `validate_evaluator_source` parses it and
walks the syntax tree; what it is for is that the source cannot reach `std::fs`, `std::net`, `std::process`,
`std::env` or `std::io` and has no `unsafe` code (`Sound`).

The visitor goes by how a path is written. What a path names goes by the declarations in scope: `resolve`
follows the imports, renames and extern crates of the blocks around it. `Plain` is what is left to assume:
whatever names one of these modules is written out and stands where the visitor looks, and `unsafe` stands
where it looks too.
-/

namespace CodeIndexer.Xray

open PyText List

/-! ### Syntax -/

structure Ident where
  raw : Bool
  name : Str
  line : ℕ
deriving DecidableEq

/-- `ident.to_string()`, which keeps the mark of a raw identifier. -/
def Ident.text (i : Ident) : Str := if i.raw then "r#" ++ i.name else i.name

inductive UseTree
  | path (ident : Ident) (tree : UseTree)
  | name (ident : Ident)
  | rename (ident newName : Ident)
  | glob (line : ℕ)
  | group (items : List UseTree)

inductive Delimiter
  | parenthesis
  | brace
  | bracket
deriving DecidableEq

inductive Token
  | ident (i : Ident)
  | punct (c : Char)
  | literal
  | opening (d : Delimiter)
  | closing
deriving DecidableEq

/-- The kinds of syntax nodes that the visitor or name resolution tells apart. A line is that of the token
an error is reported at. `tokens` is a token stream: the argument of a macro call or attribute, or syntax that
the parser leaves as it is. -/
inductive Kind
  | exprUnsafe (line : ℕ)
  | itemFn (unsafety : Option ℕ)
  | implItemFn (unsafety : Option ℕ)
  | traitItemFn (unsafety : Option ℕ)
  | signature (abi : Option ℕ)
  | itemUse (leading : Bool) (tree : UseTree)
  | itemExternCrate (crate : Ident) (rename : Option Ident)
  | path (leading : Bool) (segments : List Ident)
  | itemStatic (line : ℕ)
  | typePtr (mutability : Bool) (line : ℕ)
  | itemForeignMod (line : ℕ)
  | itemMod (line : ℕ)
  | macroCall (segments : List Ident)
  | tokens (stream : List Token)
  | block
  | item (name : Ident)
  | other

/-- A node with the nodes below it, in the order in which they are visited. -/
inductive Node
  | mk (kind : Kind) (children : List Node)

/-! ### The visitor -/

structure ValidationError where
  line : ℕ
  message : Str
deriving DecidableEq

def ValidationError.display (e : ValidationError) : Str :=
  "Line " ++ natStr e.line ++ ": " ++ e.message

def stdName : Str := "std"

def forbiddenModules : List Str :=
  ["fs", "net", "process", "env", "io"]

def forbiddenMacros : List Str :=
  ["include", "include_str", "include_bytes", "env", "option_env",
    "println", "eprintln", "print", "eprint", "panic", "todo",
    "unimplemented"]

def notAllowed : Str := " not allowed in evaluator code"

mutual

def checkForbiddenStdSubpath : UseTree → List ValidationError
  | .path ident tree =>
    if ident.text ∈ forbiddenModules then
      [⟨ident.line, "`use std::" ++ ident.text ++ "` (or sub-path) is" ++ notAllowed⟩]
    else checkForbiddenStdSubpath tree
  | .group items => checkForbiddenStdSubpaths items
  | .name ident =>
    if ident.text ∈ forbiddenModules then
      [⟨ident.line, "`use std::" ++ ident.text ++ "` is" ++ notAllowed⟩]
    else []
  | .rename ident _ =>
    if ident.text ∈ forbiddenModules then
      [⟨ident.line, "`use std::" ++ ident.text ++ "` (renamed) is" ++ notAllowed⟩]
    else []
  | .glob line => [⟨line, "`use std::*` (glob import) is" ++ notAllowed⟩]

def checkForbiddenStdSubpaths : List UseTree → List ValidationError
  | [] => []
  | tree :: trees => checkForbiddenStdSubpath tree ++ checkForbiddenStdSubpaths trees

end

mutual

def visitUseTree : UseTree → List ValidationError
  | .path ident tree =>
    (if ident.text = stdName then checkForbiddenStdSubpath tree else []) ++ visitUseTree tree
  | .group items => visitUseTrees items
  | .name _ => []
  | .rename _ _ => []
  | .glob _ => []

def visitUseTrees : List UseTree → List ValidationError
  | [] => []
  | tree :: trees => visitUseTree tree ++ visitUseTrees trees

end

def visitPath : List Ident → List ValidationError
  | first :: second :: _ =>
    if first.text = stdName ∧ second.text ∈ forbiddenModules then
      [⟨first.line, "`std::" ++ second.text ++ "` is" ++ notAllowed⟩]
    else []
  | _ => []

def visitMacro (segments : List Ident) : List ValidationError :=
  match segments.getLast?, segments.head? with
  | some last, some first =>
    if last.text ∈ forbiddenMacros then
      [⟨first.line, "`" ++ last.text ++ "!` macro is" ++ notAllowed⟩]
    else []
  | _, _ => []

def enter : Kind → List ValidationError
  | .exprUnsafe line => [⟨line, "`unsafe` blocks are".toList ++ notAllowed⟩]
  | .itemFn (some line) => [⟨line, "`unsafe` functions are".toList ++ notAllowed⟩]
  | .signature (some line) => [⟨line, "`extern` ABI functions are".toList ++ notAllowed⟩]
  | .path _ segments => visitPath segments
  | .itemStatic line => [⟨line, "`static` declarations are".toList ++ notAllowed⟩]
  | .typePtr mutability line =>
    [⟨line, "Raw pointer type `".toList ++ (if mutability then "*mut".toList else "*const".toList) ++
      "` is".toList ++ notAllowed⟩]
  | .itemForeignMod line => [⟨line, "`extern` blocks are".toList ++ notAllowed⟩]
  | .itemMod line => [⟨line, "`mod` declarations are".toList ++ notAllowed⟩]
  | .macroCall segments => visitMacro segments
  | _ => []

/-- The tree of a `use` is visited after its attributes and visibility. -/
def leave : Kind → List ValidationError
  | .itemUse _ tree => visitUseTree tree
  | _ => []

mutual

def visit : Node → List ValidationError
  | .mk kind children => enter kind ++ visitAll children ++ leave kind

def visitAll : List Node → List ValidationError
  | [] => []
  | node :: nodes => visit node ++ visitAll nodes

end

/-- The parser is `syn`'s: the items of the file, or where and what the syntax error is. -/
def validateEvaluatorSource (parse : Str → Except (ℕ × Str) (List Node)) (source : Str) :
    Except (List ValidationError) Unit :=
  match parse source with
  | .error (line, message) => .error [⟨line, "Syntax error: " ++ message⟩]
  | .ok items => if visitAll items = [] then .ok () else .error (visitAll items)

/-! ### What a path names -/

inductive LeafEnd
  | name
  | rename (newName : Ident)
  | glob

/-- One import of a `use`: the identifiers down to it, and how it ends. -/
structure Leaf where
  idents : List Ident
  ending : LeafEnd

mutual

def UseTree.leaves : UseTree → List Leaf
  | .path ident tree => tree.leaves.map fun leaf => { leaf with idents := ident :: leaf.idents }
  | .name ident => [⟨[ident], .name⟩]
  | .rename ident newName => [⟨[ident], .rename newName⟩]
  | .glob _ => [⟨[], .glob⟩]
  | .group items => UseTree.leavesAll items

def UseTree.leavesAll : List UseTree → List Leaf
  | [] => []
  | tree :: trees => tree.leaves ++ UseTree.leavesAll trees

end

def selfName : Str := "self"

/-- The imported path: `a::b::{self}` imports `a::b`. -/
def Leaf.target (leaf : Leaf) : List Ident :=
  if leaf.idents.getLast?.map Ident.name = some selfName ∧ 1 < leaf.idents.length then leaf.idents.dropLast
  else leaf.idents

/-- What a name of a scope stands for: an imported path, a crate, or an item of the source. -/
inductive Target
  | imported (leading : Bool) (path : List Str)
  | crate (name : Str)
  | own

structure Scope where
  names : List (Str × Target)
  globs : List (Bool × List Str)

def Leaf.declare (leading : Bool) (leaf : Leaf) (scope : Scope) : Scope :=
  let path := leaf.target.map Ident.name
  match leaf.ending, path.getLast? with
  | .glob, _ => { scope with globs := (leading, path) :: scope.globs }
  | .rename newName, _ => { scope with names := (newName.name, .imported leading path) :: scope.names }
  | .name, some last => { scope with names := (last, .imported leading path) :: scope.names }
  | .name, none => scope

def Kind.declare (kind : Kind) (scope : Scope) : Scope :=
  match kind with
  | .itemUse leading tree => tree.leaves.foldr (Leaf.declare leading) scope
  | .itemExternCrate crate rename =>
    let target := if crate.name = selfName then Target.own else .crate crate.name
    { scope with names := ((rename.getD crate).name, target) :: scope.names }
  | .item name => { scope with names := (name.name, .own) :: scope.names }
  | _ => scope

/-- The names that these items or statements declare, over those of `scope`. -/
def declareAll (scope : Scope) (nodes : List Node) : Scope :=
  nodes.foldr (fun | .mk kind _, scope => kind.declare scope) scope

/-- What the source is compiled with: the crates that can be named without a declaration, the declarations
put before the source, and the items of the crates, one item possibly under several paths. -/
structure World (ι : Type) where
  prelude : Str → Bool
  preamble : Scope
  item : List Str → Option ι

namespace World
variable {ι : Type} (w : World ι)

/-- What one scope declares `x` to be, if anything. A path that is followed further is looked up without the
declaration it comes from. -/
def declared (follow : List Scope → Bool → List Str → Option (List Str)) (x : Str) (scope : Scope)
    (outer : List Scope) : Option (Option (List Str)) :=
  match scope.names.find? (·.1 = x) with
  | some (_, .own) => some none
  | some (_, .crate name) => some (some [name])
  | some (_, .imported leading path) =>
    some (follow ({ scope with names := scope.names.eraseP (·.1 = x) } :: outer) leading path)
  | none =>
    scope.globs.findSome? fun glob =>
      ((follow ({ scope with globs := scope.globs.erase glob } :: outer) glob.1 glob.2).filter
        fun path => (w.item (path ++ [x])).isSome).map fun path => some (path ++ [x])

/-- The innermost scope that declares the name counts, and the crates come last. -/
def lexical (follow : List Scope → Bool → List Str → Option (List Str)) (x : Str) :
    List Scope → Option (List Str)
  | [] => if w.prelude x then some [x] else none
  | scope :: outer => (w.declared follow x scope outer).getD (lexical follow x outer)

variable (env : List Scope)

/-- A path after `::` starts with a crate: one that the file declares or one that needs no declaration. -/
def crateNamed (x : Str) : Option (List Str) :=
  match (env.getLast?.bind fun root => root.names.find? (·.1 = x)) with
  | some (_, .crate name) => some [name]
  | _ => if w.prelude x then some [x] else none

/-- A path after `crate` or `self`: only what the file itself declares. -/
def ofRoot (follow : List Scope → Bool → List Str → Option (List Str)) (env : List Scope) :
    List Str → Option (List Str)
  | [] => none
  | x :: rest => env.getLast?.bind fun root => (w.declared follow x root []).join.map (· ++ rest)

def resolve : ℕ → List Scope → Bool → List Str → Option (List Str)
  | 0, _, _, _ => none
  | _ + 1, _, _, [] => none
  | _ + 1, env, true, x :: rest => (w.crateNamed env x).map (· ++ rest)
  | fuel + 1, env, false, x :: rest =>
    if x = selfName ∨ x = "crate" then w.ofRoot (resolve fuel) env rest
    else (w.lexical (resolve fuel) x env).map (· ++ rest)

def size : ℕ := (env.map fun scope => scope.names.length + scope.globs.length).sum

/-- The path from a crate on that a path of the source stands for. Every import that is followed is left out
from then on, so the number of declarations is enough. -/
def pathOf (leading : Bool) (path : List Ident) : Option (List Str) :=
  w.resolve (size env + 1) env leading (path.map Ident.name)

def Names (leading : Bool) (path : List Ident) : Prop :=
  ∃ p, w.pathOf env leading path = some p ∧
    ∃ m ∈ forbiddenModules, ∃ rest, (w.item p).isSome ∧ w.item p = w.item (stdName :: m :: rest)

/-! The number of declarations is enough. -/

section Enough
variable {w} {follow follow' : List Scope → Bool → List Str → Option (List Str)} {x : Str}

theorem size_cons (scope : Scope) (env : List Scope) :
    size (scope :: env) = scope.names.length + scope.globs.length + size env := rfl

theorem findSome_congr {α β : Type} {l : List α} {f g : α → Option β} (h : ∀ a ∈ l, f a = g a) :
    l.findSome? f = l.findSome? g := by
  induction l with
  | nil => rfl
  | cons a l ih =>
    rw [List.findSome?_cons, List.findSome?_cons, h a mem_cons_self,
      ih fun b hb => h b (mem_cons_of_mem a hb)]

theorem declared_congr {scope : Scope} {outer : List Scope}
    (h : ∀ env, size env < size (scope :: outer) → follow env = follow' env) :
    w.declared follow x scope outer = w.declared follow' x scope outer := by
  unfold declared
  split
  · rfl
  · rfl
  · next y leading path hfind =>
    rw [h]
    have hlen := length_eraseP_add_one (mem_of_find?_eq_some hfind) (List.find?_some hfind)
    simp only [size_cons]
    omega
  · refine findSome_congr fun glob hglob => ?_
    rw [h]
    have hlen := length_erase_add_one hglob
    simp only [size_cons]
    omega

variable {env : List Scope}

theorem lexical_congr (h : ∀ env', size env' < size env → follow env' = follow' env') :
    w.lexical follow x env = w.lexical follow' x env := by
  induction env with
  | nil => rfl
  | cons scope outer ih =>
    rw [lexical, lexical, declared_congr h, ih fun env' henv' => h env' ?_]
    rw [size_cons]; omega

theorem size_getLast_le {root : Scope} (h : env.getLast? = some root) : size [root] ≤ size env := by
  obtain ⟨above, rfl⟩ := List.getLast?_eq_some_iff.mp h
  simp [size]

theorem ofRoot_congr (h : ∀ env', size env' < size env → follow env' = follow' env')
    (path : List Str) : w.ofRoot follow env path = w.ofRoot follow' env path := by
  cases path with
  | nil => rfl
  | cons x rest =>
    cases hroot : env.getLast? with
    | none => simp [ofRoot, hroot]
    | some root =>
      have hdeclared : w.declared follow x root [] = w.declared follow' x root [] :=
        declared_congr fun env' henv' => h env' (henv'.trans_le (size_getLast_le hroot))
      simp only [ofRoot, hroot, Option.bind_some, hdeclared]

theorem resolve_enough {n m : ℕ} (hn : size env < n) (hm : size env < m) : w.resolve n env = w.resolve m env := by
  induction n generalizing m env with
  | zero => exact absurd hn (Nat.not_lt_zero _)
  | succ n ih =>
    obtain ⟨m, rfl⟩ : ∃ m', m = m' + 1 := ⟨m - 1, by omega⟩
    have hfollow : ∀ env', size env' < size env → w.resolve n env' = w.resolve m env' :=
      fun env' henv' => ih (by omega) (by omega)
    funext leading path
    match leading, path with
    | true, [] => rfl
    | false, [] => rfl
    | true, y :: rest => rfl
    | false, y :: rest =>
      rw [resolve, resolve]
      split_ifs
      · rw [ofRoot_congr hfollow]
      · rw [lexical_congr hfollow]

end Enough

end World

/-! ### Token streams -/

/-- The paths among tokens: identifiers joined by `::`. A brace after `::` goes on with the path, as in a
`use`; `starts` has what the paths of the groups around start with. -/
def tokenPaths (starts : List (Bool × List Ident)) (cur : Option (Bool × List Ident)) :
    List Token → List (Bool × List Ident)
  | [] => cur.toList
  | .punct ':' :: .punct ':' :: .ident i :: rest =>
    tokenPaths starts (some ((cur.getD (true, [])).map id (· ++ [i]))) rest
  | .punct ':' :: .punct ':' :: .opening .brace :: rest =>
    tokenPaths (cur.getD (true, []) :: starts) none rest
  | .ident i :: rest =>
    cur.toList ++ tokenPaths starts (some ((starts.headD (false, [])).map id (· ++ [i]))) rest
  | .opening _ :: rest => cur.toList ++ tokenPaths ((false, []) :: starts) none rest
  | .closing :: rest => cur.toList ++ tokenPaths starts.tail none rest
  | _ :: rest => cur.toList ++ tokenPaths starts none rest

def Token.isKeyword (keyword : Str) : Token → Bool
  | .ident i => !i.raw && i.name = keyword
  | _ => false

/-- An `unsafe` that starts a block or a function. -/
def tokensUnsafe : List Token → Bool
  | [] => false
  | token :: rest =>
    token.isKeyword "unsafe" &&
      (rest.head?.any fun next =>
        next = .opening .brace || next.isKeyword "fn" || next.isKeyword "extern") ||
      tokensUnsafe rest

/-! ### What the whitelist is for -/

def Kind.inner (kind : Kind) (children : List Node) (env : List Scope) : List Scope :=
  match kind with
  | .block => declareAll ⟨[], []⟩ children :: env
  | _ => env

mutual

def within (env : List Scope) : Node → List (List Scope × Kind)
  | .mk kind children => (env, kind) :: withinAll (kind.inner children env) children

def withinAll (env : List Scope) : List Node → List (List Scope × Kind)
  | [] => []
  | node :: nodes => within env node ++ withinAll env nodes

end

def Kind.isUnsafe : Kind → Bool
  | .exprUnsafe _ => true
  | .itemFn unsafety => unsafety.isSome
  | .implItemFn unsafety => unsafety.isSome
  | .traitItemFn unsafety => unsafety.isSome
  | .tokens stream => tokensUnsafe stream
  | _ => false

section Specification
variable {ι : Type} (w : World ι) (items : List Node)

def places : List (List Scope × Kind) := withinAll [declareAll w.preamble items] items

/-- No path names one of the modules, and nothing is `unsafe`. -/
structure Sound : Prop where
  path : ∀ env leading segments, (env, Kind.path leading segments) ∈ places w items →
    ¬ w.Names env leading segments
  use : ∀ env leading tree, (env, Kind.itemUse leading tree) ∈ places w items →
    ∀ leaf ∈ tree.leaves, ¬ w.Names env leading leaf.target
  tokens : ∀ env stream, (env, Kind.tokens stream) ∈ places w items →
    ∀ p ∈ tokenPaths [] none stream, ¬ w.Names env p.1 p.2
  safe : ∀ env kind, (env, kind) ∈ places w items → kind.isUnsafe = false

/-- The path starts with `std` and the name of a module. -/
def WrittenOut : List Ident → Prop
  | first :: second :: _ => first.text = stdName ∧ second.text ∈ forbiddenModules
  | _ => False

/-- Somewhere below `std` the import has the name of a module, or it is a glob. -/
def Leaf.WrittenOut (leaf : Leaf) : Prop :=
  ∃ above std below, leaf.idents = above ++ std :: below ∧ std.text = stdName ∧
    (leaf.ending = .glob ∨ ∃ i ∈ below, i.text ∈ forbiddenModules)

/-- What names one of the modules is written out and not hidden among tokens, and `unsafe` is only on blocks
and free functions. -/
structure Plain : Prop where
  path : ∀ env leading segments, (env, Kind.path leading segments) ∈ places w items →
    w.Names env leading segments → WrittenOut segments
  use : ∀ env leading tree, (env, Kind.itemUse leading tree) ∈ places w items →
    ∀ leaf ∈ tree.leaves, w.Names env leading leaf.target → leaf.WrittenOut
  tokens : ∀ env stream, (env, Kind.tokens stream) ∈ places w items →
    tokensUnsafe stream = false ∧ ∀ p ∈ tokenPaths [] none stream, ¬ w.Names env p.1 p.2
  method : ∀ env unsafety, (env, Kind.implItemFn unsafety) ∈ places w items → unsafety = none
  traitMethod : ∀ env unsafety, (env, Kind.traitItemFn unsafety) ∈ places w items → unsafety = none

end Specification

/-! ### What the visitor sees -/

mutual

/-- Nothing found below a node is nothing found at any node, whatever the scopes. -/
theorem quiet_of_visit : ∀ (env : List Scope) (node : Node), visit node = [] →
    ∀ p ∈ within env node, enter p.2 = [] ∧ leave p.2 = []
  | env, .mk kind children, h, p, hp => by
    simp only [visit, append_eq_nil_iff] at h
    obtain ⟨⟨henter, hchildren⟩, hleave⟩ := h
    rw [within] at hp
    rcases mem_cons.mp hp with rfl | hp
    · exact ⟨henter, hleave⟩
    · exact quiet_of_visitAll _ children hchildren p hp

theorem quiet_of_visitAll : ∀ (env : List Scope) (nodes : List Node), visitAll nodes = [] →
    ∀ p ∈ withinAll env nodes, enter p.2 = [] ∧ leave p.2 = []
  | env, [], _, p, hp => absurd hp not_mem_nil
  | env, node :: nodes, h, p, hp => by
    rw [visitAll, append_eq_nil_iff] at h
    rw [withinAll] at hp
    rcases mem_append.mp hp with hp | hp
    · exact quiet_of_visit env node h.1 p hp
    · exact quiet_of_visitAll env nodes h.2 p hp

end

mutual

/-- Below `std`, every import without one of the names is let through, and nothing else. -/
theorem check_sound : ∀ tree : UseTree, checkForbiddenStdSubpath tree = [] →
    ∀ leaf ∈ tree.leaves, leaf.ending ≠ .glob ∧ ∀ i ∈ leaf.idents, i.text ∉ forbiddenModules
  | .path ident tree, h, leaf, hleaf => by
    rw [checkForbiddenStdSubpath] at h
    split_ifs at h with hident
    rw [UseTree.leaves] at hleaf
    obtain ⟨leaf', hleaf', rfl⟩ := mem_map.mp hleaf
    obtain ⟨hend, hnames⟩ := check_sound tree h leaf' hleaf'
    refine ⟨hend, fun i hi => ?_⟩
    rcases mem_cons.mp hi with rfl | hi
    · exact hident
    · exact hnames i hi
  | .name ident, h, leaf, hleaf => by
    rw [checkForbiddenStdSubpath] at h
    split_ifs at h with hident
    rw [UseTree.leaves, mem_singleton] at hleaf
    subst hleaf
    exact ⟨by rintro ⟨⟩, by simpa using hident⟩
  | .rename ident newName, h, leaf, hleaf => by
    rw [checkForbiddenStdSubpath] at h
    split_ifs at h with hident
    rw [UseTree.leaves, mem_singleton] at hleaf
    subst hleaf
    exact ⟨by rintro ⟨⟩, by simpa using hident⟩
  | .glob line, h, leaf, hleaf => by
    rw [checkForbiddenStdSubpath] at h
    cases h
  | .group items, h, leaf, hleaf => by
    rw [checkForbiddenStdSubpath] at h
    rw [UseTree.leaves] at hleaf
    exact checkAll_sound items h leaf hleaf

theorem checkAll_sound : ∀ trees : List UseTree, checkForbiddenStdSubpaths trees = [] →
    ∀ leaf ∈ UseTree.leavesAll trees, leaf.ending ≠ .glob ∧ ∀ i ∈ leaf.idents, i.text ∉ forbiddenModules
  | [], _, leaf, hleaf => by rw [UseTree.leavesAll] at hleaf; cases hleaf
  | tree :: trees, h, leaf, hleaf => by
    rw [checkForbiddenStdSubpaths, append_eq_nil_iff] at h
    rw [UseTree.leavesAll] at hleaf
    rcases mem_append.mp hleaf with hleaf | hleaf
    · exact check_sound tree h.1 leaf hleaf
    · exact checkAll_sound trees h.2 leaf hleaf

end

theorem not_writtenOut_single {ident : Ident} {ending : LeafEnd} (hend : ending ≠ .glob) :
    ¬ Leaf.WrittenOut ⟨[ident], ending⟩ := by
  rintro ⟨above, std, below, hsplit, -, hbelow⟩
  obtain ⟨rfl, rfl⟩ : above = [] ∧ below = [] := by
    have hlen := congrArg List.length hsplit
    simp only [length_append, length_cons, length_nil] at hlen
    exact ⟨length_eq_zero_iff.mp (by omega), length_eq_zero_iff.mp (by omega)⟩
  rcases hbelow with hglob | ⟨i, hi, -⟩
  · exact hend hglob
  · cases hi

mutual

theorem not_writtenOut_of_visit : ∀ tree : UseTree, visitUseTree tree = [] →
    ∀ leaf ∈ tree.leaves, ¬ leaf.WrittenOut
  | .path ident tree, h, leaf, hleaf => by
    rw [visitUseTree, append_eq_nil_iff] at h
    rw [UseTree.leaves] at hleaf
    obtain ⟨leaf', hleaf', rfl⟩ := mem_map.mp hleaf
    rintro ⟨above, std, below, hsplit, hstd, hbelow⟩
    cases above with
    | nil =>
      -- the check starts at this very identifier
      obtain ⟨rfl, rfl⟩ := List.cons.inj hsplit
      have hcheck := h.1
      rw [if_pos hstd] at hcheck
      obtain ⟨hend, hnames⟩ := check_sound tree hcheck leaf' hleaf'
      rcases hbelow with hglob | ⟨i, hi, hmod⟩
      · exact hend hglob
      · exact hnames i hi hmod
    | cons a above =>
      exact not_writtenOut_of_visit tree h.2 leaf' hleaf'
        ⟨above, std, below, (List.cons.inj hsplit).2, hstd, hbelow⟩
  | .name ident, h, leaf, hleaf => by
    rw [UseTree.leaves, mem_singleton] at hleaf
    subst hleaf
    exact not_writtenOut_single (by rintro ⟨⟩)
  | .rename ident newName, h, leaf, hleaf => by
    rw [UseTree.leaves, mem_singleton] at hleaf
    subst hleaf
    exact not_writtenOut_single (by rintro ⟨⟩)
  | .glob line, h, leaf, hleaf => by
    rw [UseTree.leaves, mem_singleton] at hleaf
    subst hleaf
    rintro ⟨above, std, below, hsplit, -⟩
    exact absurd hsplit (by simp)
  | .group items, h, leaf, hleaf => by
    rw [visitUseTree] at h
    rw [UseTree.leaves] at hleaf
    exact not_writtenOut_of_visitAll items h leaf hleaf

theorem not_writtenOut_of_visitAll : ∀ trees : List UseTree, visitUseTrees trees = [] →
    ∀ leaf ∈ UseTree.leavesAll trees, ¬ leaf.WrittenOut
  | [], _, leaf, hleaf => by rw [UseTree.leavesAll] at hleaf; cases hleaf
  | tree :: trees, h, leaf, hleaf => by
    rw [visitUseTrees, append_eq_nil_iff] at h
    rw [UseTree.leavesAll] at hleaf
    rcases mem_append.mp hleaf with hleaf | hleaf
    · exact not_writtenOut_of_visit tree h.1 leaf hleaf
    · exact not_writtenOut_of_visitAll trees h.2 leaf hleaf

end

theorem not_writtenOut_of_visitPath {segments : List Ident} (h : visitPath segments = []) : ¬ WrittenOut segments := by
  match segments, h with
  | [], _ => exact id
  | [_], _ => exact id
  | first :: second :: rest, h =>
    rw [visitPath] at h
    split_ifs at h with hwritten
    exact hwritten

/-! ### Accepted sources -/

section Accepted
variable {ι : Type} {w : World ι} {items : List Node}

theorem visitAll_of_accepted {parse : Str → Except (ℕ × Str) (List Node)} {source : Str}
    (hparse : parse source = .ok items) (haccept : validateEvaluatorSource parse source = .ok ()) :
    visitAll items = [] := by
  rw [validateEvaluatorSource, hparse] at haccept
  by_contra hne
  simp only [if_neg hne] at haccept
  cases haccept

theorem sound_of_plain (hvisit : visitAll items = []) (h : Plain w items) : Sound w items where
  path env leading segments hmem hnames :=
    not_writtenOut_of_visitPath (quiet_of_visitAll _ items hvisit _ hmem).1 (h.path env leading segments hmem hnames)
  use env leading tree hmem leaf hleaf hnames :=
    not_writtenOut_of_visit tree (quiet_of_visitAll _ items hvisit _ hmem).2 leaf hleaf
      (h.use env leading tree hmem leaf hleaf hnames)
  tokens env stream hmem := (h.tokens env stream hmem).2
  safe env kind hmem := by
    have hquiet := (quiet_of_visitAll _ items hvisit _ hmem).1
    cases kind with
    | exprUnsafe line => cases hquiet
    | itemFn unsafety =>
      cases unsafety with
      | none => rfl
      | some line => cases hquiet
    | implItemFn unsafety => rw [h.method env unsafety hmem]; rfl
    | traitItemFn unsafety => rw [h.traitMethod env unsafety hmem]; rfl
    | tokens stream => exact (h.tokens env stream hmem).1
    | _ => rfl

theorem plain_of_sound (h : Sound w items) : Plain w items where
  path env leading segments hmem hnames := absurd hnames (h.path env leading segments hmem)
  use env leading tree hmem leaf hleaf hnames := absurd hnames (h.use env leading tree hmem leaf hleaf)
  tokens env stream hmem := ⟨h.safe env _ hmem, h.tokens env stream hmem⟩
  method env _ hmem := by simpa [Kind.isUnsafe] using h.safe env _ hmem
  traitMethod env _ hmem := by simpa [Kind.isUnsafe] using h.safe env _ hmem

/-- The whitelist is sound for exactly the accepted sources that are plain. -/
theorem sound_iff_plain (w : World ι) (parse : Str → Except (ℕ × Str) (List Node)) (source : Str)
    (hparse : parse source = .ok items) (haccept : validateEvaluatorSource parse source = .ok ()) :
    Sound w items ↔ Plain w items :=
  ⟨plain_of_sound, sound_of_plain (visitAll_of_accepted hparse haccept)⟩

end Accepted

/-! ### Sources that are let through -/

/-- A compiler with the crates `std` and `core`, every path naming an item of its own. -/
def bareWorld : World (List Str) where
  prelude name := name = stdName || name = "core"
  preamble := ⟨[], []⟩
  item path := some path

def ident (name : String) : Ident := ⟨false, name.toList, 1⟩

def useNode (tree : UseTree) : Node := .mk (.itemUse false tree) []

def pathNode (segments : List String) : Node := .mk (.path false (segments.map ident)) []

def fnNode (body : List Node) : Node := .mk (.itemFn none) [.mk (.signature none) [], .mk .block body]

def tidySource : List Node :=
  [useNode (.path (ident "std") (.path (ident "collections") (.name (ident "HashMap")))),
    fnNode [pathNode ["HashMap", "new"]]]

def renamedSource : List Node :=
  [useNode (.rename (ident "std") (ident "s")), fnNode [pathNode ["s", "fs", "read"]]]

def externSource : List Node :=
  [.mk (.itemExternCrate (ident "std") (some (ident "s"))) [], fnNode [pathNode ["s", "fs", "read"]]]

def tokenSource : List Node :=
  [fnNode [.mk (.macroCall [ident "vec"]) [pathNode ["vec"],
    .mk (.tokens [.ident (ident "std"), .punct ':', .punct ':', .ident (ident "fs"), .punct ':', .punct ':',
      .ident (ident "read"), .opening .parenthesis, .closing]) []]]]

def methodSource : List Node :=
  [.mk .other [pathNode ["T"], .mk (.implItemFn (some 1)) [.mk (.signature none) [], .mk .block []]]]

/-- Some sources and the trees that `syn::parse_file` makes of them. -/
def sources : List (String × List Node) :=
  [("use std::collections::HashMap; fn f() \x7b HashMap::new(); \x7d", tidySource),
    ("use std as s; fn f() \x7b s::fs::read(); \x7d", renamedSource),
    ("extern crate std as s; fn f() \x7b s::fs::read(); \x7d", externSource),
    ("fn f() \x7b vec![std::fs::read()]; \x7d", tokenSource),
    ("impl T \x7b unsafe fn f() \x7b\x7d \x7d", methodSource)]

def parseSources (source : Str) : Except (ℕ × Str) (List Node) :=
  ((sources.find? (·.1.toList = source)).map Prod.snd).elim (.error (1, "expected an item")) .ok

theorem sound_iff_plain_tidy : Sound bareWorld tidySource ↔ Plain bareWorld tidySource :=
  sound_iff_plain bareWorld parseSources "use std::collections::HashMap; fn f() \x7b HashMap::new(); \x7d" rfl
    (by decide +kernel)

theorem names_read {env : List Scope} {leading : Bool} {path : List Ident}
    (h : bareWorld.pathOf env leading path = some ["std".toList, "fs".toList, "read".toList]) :
    bareWorld.Names env leading path :=
  ⟨_, h, "fs", by decide, ["read"], rfl, rfl⟩

/-- A rename, an extern crate, a token stream and an `unsafe` method are let through. -/
theorem let_through :
    (validateEvaluatorSource parseSources "use std as s; fn f() \x7b s::fs::read(); \x7d" = .ok () ∧
      parseSources "use std as s; fn f() \x7b s::fs::read(); \x7d" = .ok renamedSource ∧
      ¬ Sound bareWorld renamedSource) ∧
    (validateEvaluatorSource parseSources "extern crate std as s; fn f() \x7b s::fs::read(); \x7d" = .ok () ∧
      parseSources "extern crate std as s; fn f() \x7b s::fs::read(); \x7d" = .ok externSource ∧
      ¬ Sound bareWorld externSource) ∧
    (validateEvaluatorSource parseSources "fn f() \x7b vec![std::fs::read()]; \x7d" = .ok () ∧
      parseSources "fn f() \x7b vec![std::fs::read()]; \x7d" = .ok tokenSource ∧ ¬ Sound bareWorld tokenSource) ∧
    validateEvaluatorSource parseSources "impl T \x7b unsafe fn f() \x7b\x7d \x7d" = .ok () ∧
      parseSources "impl T \x7b unsafe fn f() \x7b\x7d \x7d" = .ok methodSource ∧ ¬ Sound bareWorld methodSource := by
  refine ⟨⟨by decide +kernel, rfl, fun h => ?_⟩, ⟨by decide +kernel, rfl, fun h => ?_⟩,
    ⟨by decide +kernel, rfl, fun h => ?_⟩, by decide +kernel, rfl, fun h => ?_⟩
  · exact h.path _ _ _ (mem_of_getElem? (i := 4) rfl) (names_read (by decide +kernel))
  · exact h.path _ _ _ (mem_of_getElem? (i := 4) rfl) (names_read (by decide +kernel))
  · exact h.tokens _ _ (mem_of_getElem? (i := 5) rfl) (false, [ident "std", ident "fs", ident "read"])
      (by decide +kernel) (names_read (by decide +kernel))
  · exact absurd (h.safe _ _ (mem_of_getElem? (i := 2) rfl)) (by decide)

end CodeIndexer.Xray
