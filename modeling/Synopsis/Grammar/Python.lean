import Synopsis.Grammar.Lexeme

/-! The grammar of Python. Expressions are kept flat. The context is 0 inside brackets,
where line ends do not count, and else one more than the indentation of the block being
read. -/
open Synopsis.Tree

namespace Synopsis.Grammar.Python
open Rule Lexeme

inductive Symbol where
  | item | statement | simples | simple | suite | block | newline
  | function | class_ | decorated | definition | ifStmt | forStmt | whileStmt | tryStmt
  | withStmt | matchStmt | caseClause | elseClause
  | import_ | importFrom | dotted | importName | exprStmt | rhs
  | typeParams | params | param | exprs | element | expr | chain | operand | primary | suffix
  | yield | lambda | lambdaParams | args | comprehension | string
  deriving DecidableEq, Repr

open Synopsis.Grammar.Python.Symbol

abbrev R := Rule Symbol

/-- Where a line continues after a backslash. -/
def continuation (s : Source) (i : Nat) : Option Nat :=
  if s.char? i == some '\\' then
    if s.char? (i + 1) == some '\n' then some (i + 2)
    else if s.char? (i + 1) == some '\r' && s.char? (i + 2) == some '\n' then some (i + 3)
    else none
  else none

def isPythonSpace (c : Char) : Bool :=
  isSpace c || c.toNat == 0xFEFF || c.toNat == 0x2060 || c.toNat == 0x200B

def trivia (s : Source) (i : Nat) : Option (Nat × String) :=
  match s.char? i with
  | none => none
  | some c =>
    if isPythonSpace c then some (i + 1, "")
    else if c == '#' then some (skipWhile (· != '\n') s i, "comment")
    else (continuation s i).map (·, "")

/-- The line ends before the next token. -/
def breaksFrom (s : Source) : Nat → Nat → Bool
  | 0, _ => true
  | fuel + 1, i =>
    match s.char? i with
    | none => true
    | some c =>
      if c == '\n' || c == '#' then true
      else if isPythonSpace c then breaksFrom s fuel (i + 1)
      else match continuation s i with
        | some j => breaksFrom s fuel j
        | none => false

def breaks (s : Source) (i : Nat) : Bool := breaksFrom s s.size i

/-- Whether a line feed comes before the next token, and the indentation of that token. A
tab counts for eight blanks. -/
def layoutFrom (s : Source) : Nat → Nat → Bool → Nat → Bool × Nat
  | 0, _, fresh, width => (fresh, width)
  | fuel + 1, i, fresh, width =>
    match s.char? i with
    | none => (true, 0)
    | some c =>
      if c == '\n' then layoutFrom s fuel (i + 1) true 0
      else if c == ' ' then layoutFrom s fuel (i + 1) fresh (width + 1)
      else if c == '\t' then layoutFrom s fuel (i + 1) fresh (width + 8)
      else if isPythonSpace c then layoutFrom s fuel (i + 1) fresh 0
      else match trivia s i with
        | some (j, _) => layoutFrom s fuel j fresh width
        | none => (fresh, width)

def layout (s : Source) (i : Nat) : Bool × Nat := layoutFrom s (s.size + 1) i (i == 0) 0

/-- The next token continues the block: it is indented at least as far. -/
def aligned : R := test fun ctx s i => !atEnd trivia s i && (layout s i).2 + 1 ≥ ctx

/-- Reads a block: the next token starts a line and is indented further. -/
def indented (r : R) : R :=
  within (fun ctx s i =>
    let (fresh, width) := layout s i
    if fresh && !atEnd trivia s i && width + 1 > ctx then some (width + 1) else none) r

/-- Nothing follows that is indented further: a block that should start here is empty. -/
def outdented : R := test fun ctx s i => atEnd trivia s i || (layout s i).2 + 1 ≤ ctx

def free (r : R) : R := within (fun _ _ _ => some 0) r

/-- Not at the end of a line, unless inside brackets. -/
def here : R := test fun ctx s i => ctx == 0 || !breaks s i

/-- The end of a comment that stands on this line, else the position itself. -/
def sameLineComment : Scan := fun s i =>
  let j := skipWhile (fun c => c != '\n' && isPythonSpace c) s i
  if s.char? j == some '#' then some (skipWhile (· != '\n') s j) else some i

/-- The end of the comment lines that are indented at least as far as the block. -/
def absorbFrom (s : Source) (ctx : Nat) : Nat → Nat → Nat → Nat
  | 0, _, last => last
  | fuel + 1, i, last =>
    let j := skipWhile isPythonSpace s i
    if s.char? j == some '#' then
      let line := skipWhile (fun c => c != '\n') s j
      let width := (layoutFrom s (j - i) i true 0).2
      if width + 1 ≥ ctx then absorbFrom s ctx fuel line line else last
    else last

/-- Comments at the end of a block. -/
def tail : R := gap fun ctx s i => some (absorbFrom s ctx s.size i i)

def zeroWidth : R := near "" false fun _ i => some i

def reserved : List String :=
  ["False", "None", "True", "and", "as", "assert", "break", "class", "continue", "def", "del",
   "elif", "else", "except", "finally", "for", "from", "global", "if", "import", "in", "is",
   "lambda", "nonlocal", "not", "or", "pass", "raise", "return", "try", "while", "with", "yield"]

def name : R := leaf "identifier" (identifier reserved)

/-- The end of an interpolated literal: quotes inside braces start literals of their own. -/
def stringTail (quote : Char) (long raw interpolated : Bool) (s : Source) :
    Nat → Nat → Nat → Option Nat
  | 0, _, _ => none
  | fuel + 1, depth, i =>
    match s.char? i with
    | none => none
    | some c =>
      if depth > 0 then
        if c == '\x7b' then stringTail quote long raw interpolated s fuel (depth + 1) (i + 1)
        else if c == '\x7d' then stringTail quote long raw interpolated s fuel (depth - 1) (i + 1)
        else if c == '\n' && !long then none
        else if c == '"' || c == '\'' then
          if c == quote && !long then
            match quotedEnd c true false s s.size (i + 1) with
            | some j => stringTail quote long raw interpolated s fuel depth j
            | none => none
          else stringTail quote long raw interpolated s fuel depth (i + 1)
        else stringTail quote long raw interpolated s fuel depth (i + 1)
      else if c == quote && !long then some (i + 1)
      else if c == quote && s.char? (i + 1) == some quote && s.char? (i + 2) == some quote then
        some (i + 3)
      else if c == '\\' then stringTail quote long raw interpolated s fuel depth (i + 2)
      else if c == '\n' && !long then none
      else if interpolated && c == '\x7b' then
        if s.char? (i + 1) == some '\x7b' then
          stringTail quote long raw interpolated s fuel depth (i + 2)
        else stringTail quote long raw interpolated s fuel 1 (i + 1)
      else stringTail quote long raw interpolated s fuel depth (i + 1)

def isStringMark (c : Char) : Bool := "rRbBfFuUtT".toList.contains c

def stringScan : Scan := fun s i =>
  let j := skipWhile isStringMark s i
  let marks := between s i j
  if j > i + 3 then none
  else match s.char? j with
    | some q =>
      if q == '"' || q == '\'' then
        let long := s.char? (j + 1) == some q && s.char? (j + 2) == some q
        let start := if long then j + 3 else j + 1
        let raw := marks.any fun c => c == 'r' || c == 'R'
        let interpolated := marks.any fun c => "fFtT".toList.contains c
        match stringTail q long raw interpolated s s.size 0 start with
        | some e => some e
        | none =>
          match stringTail q long raw false s s.size 0 start with
          | some e => some e
          | none => if raw then quotedEnd q false long s s.size start else none
      else none
    | none => none

def operators : List String :=
  ["**", "//", "<<", ">>", "<=", ">=", "==", "!=", "<>", "+", "-", "*", "/", "%", "@", "&", "|",
   "^", "<", ">"]

/-- An operator between two operands that is not part of an assignment. -/
def operator : R :=
  any [
    all [absent (oneOf ["**=", "//=", "<<=", ">>=", "+=", "-=", "*=", "/=", "%=", "@=", "&=", "|=",
      "^=", "->"]), oneOf operators],
    all ["not", "in"], all ["is", "not"], any (["is", "in", "and", "or", "as"].map lit)]

def augmented : R :=
  oneOf ["**=", "//=", "<<=", ">>=", "+=", "-=", "*=", "/=", "%=", "@=", "&=", "|=", "^="]

def assign : R := litUnless "=" "="

def colon : R := litUnless ":" "="

/-- Items with commas between, all on a line that goes on. -/
def commas (r : R) : R := all [r, many (all [here, ",", here, r]), opt (all [here, ","])]

def rule : Symbol → R
  | item => all [aligned, call statement]
  | statement =>
    any [call function, call class_, call decorated, call ifStmt, call forStmt, call whileStmt,
      call tryStmt, call withStmt, call matchStmt, call simples]
  | newline => all [here |> absent, gap fun _ => sameLineComment, zeroWidth]
  | simples =>
    all [call simple, many (all [here, ";", here, call simple]), opt (all [here, ";"]),
      call newline]
  | suite =>
    field "body" (any [call block, node "block" (all [here, call simples]),
      node "block" (all [outdented, call newline])])
  | block =>
    node "block" (indented (all [many1 (all [aligned, call statement]), tail, zeroWidth]))
  | function =>
    node "function_definition" (all [opt "async", "def", field "name" name,
      opt (call typeParams), field "parameters" (node "parameters" (parens (free (call params)))),
      opt (all ["->", field "return_type" (call exprs)]), ":", call suite])
  | class_ =>
    node "class_definition" (all ["class", field "name" name,
      opt (call typeParams),
      opt (field "superclasses" (call args)), ":",
      call suite])
  | decorated =>
    node "decorated_definition" (all [
      many1 (all [aligned, node "decorator" (all ["@", call exprs, call newline])]),
      aligned, field "definition" (any [call function, call class_])])
  | definition => any [call function, call class_]
  | elseClause => node "else_clause" (all [aligned, "else", ":", call suite])
  | ifStmt =>
    node "if_statement" (all ["if", call exprs, ":", call suite,
      many (node "elif_clause" (all [aligned, "elif", call exprs, ":", call suite])),
      opt (call elseClause)])
  | forStmt =>
    node "for_statement" (all [opt "async", "for", call exprs,
      opt (all ["in", call exprs]), ":", call suite,
      opt (call elseClause)])
  | whileStmt =>
    node "while_statement" (all ["while", call exprs, ":", call suite, opt (call elseClause)])
  | tryStmt =>
    node "try_statement" (all ["try", ":", call suite,
      many (node "except_clause" (all [aligned, "except", opt "*",
        opt (call exprs), ":", call suite])),
      opt (call elseClause),
      opt (node "finally_clause" (all [aligned, "finally", ":", call suite]))])
  | withStmt =>
    node "with_statement" (all [opt "async", "with", call exprs, ":", call suite])
  | matchStmt =>
    node "match_statement" (all ["match", call exprs, ":", node "block"
      (any [indented (all [many1 (all [aligned, call caseClause]), tail, zeroWidth]),
        all [outdented, call newline]])])
  | caseClause =>
    node "case_clause" (all ["case", call exprs, opt (all ["if", call expr]), ":",
      call suite])
  | simple =>
    any [
      call import_, call importFrom,
      node "pass_statement" "pass", node "break_statement" "break",
      node "continue_statement" "continue",
      node "return_statement" (all ["return", opt (all [here, call exprs])]),
      node "raise_statement" (all ["raise", opt (all [here, call exprs]),
        opt (all [here, "from", call exprs])]),
      node "delete_statement" (all ["del", call exprs]),
      node "global_statement" (all ["global", call exprs]),
      node "nonlocal_statement" (all ["nonlocal", call exprs]),
      node "assert_statement" (all ["assert", call exprs]),
      node "type_alias_statement" (all ["type", here, call expr, assign, call expr]),
      node "print_statement" (all ["print", here, any [
        all [">>", call expr, opt (all [here, ",", here, call exprs])],
        all [absent (any ["(", "[", "-", "+", "*", "."]), call exprs]]]),
      node "exec_statement" (all ["exec", here, any [call string, name],
        opt (all [here, "in", call exprs])]),
      call exprStmt]
  | import_ =>
    node "import_statement" (all ["import", sep1 (field "name" (call importName)) ",", opt ","])
  | importName =>
    any [node "aliased_import" (all [field "name" (call dotted), "as", field "alias" name]),
      call dotted]
  | importFrom =>
    let names : R := any [node "wildcard_import" "*", parens (free (list (call importName) ",")),
      all [sep1 (call importName) ",", opt ","]]
    any [
      node "future_import_statement" (all ["from", "__future__", "import", names]),
      node "import_from_statement" (all ["from",
        field "module_name" (any [
          node "relative_import" (all [node "import_prefix" (many1 "."), opt (call dotted)]),
          call dotted]),
        "import", names])]
  | dotted => node "dotted_name" (sep1 name ".")
  | exprStmt =>
    node "expression_statement" (any [
      node "assignment" (all [field "left" name, here,
        any [all [colon, field "type" (call exprs), opt (all [assign, field "right" (call rhs)])],
          all [assign, field "right" (call rhs)]]]),
      node "assignment" (all [node "pattern" (call exprs), here,
        any [all [colon, field "type" (call exprs), opt (all [assign, field "right" (call rhs)])],
          all [assign, field "right" (call rhs)]]]),
      node "augmented_assignment" (all [call exprs, here, augmented, call rhs]),
      call exprs])
  | rhs => sep1 (call exprs) assign
  | typeParams =>
    node "type_parameter" (brackets (free (list (all [opt (oneOf ["**", "*"]), call expr,
      opt (all [colon, call expr]), opt (all [assign, call expr])]) ",")))
  | params => list (call param) ","
  | param =>
    any [
      all [opt (oneOf ["**", "*"]), any [name, node "tuple_pattern" (parens (free (call params)))],
        opt (all [colon, opt "*", call expr]), opt (all [assign, call expr])],
      oneOf ["/", "*"]]
  | exprs => commas (call element)
  | element =>
    any [call yield, all [opt (oneOf ["**", "*"]), call expr]]
  | expr =>
    all [call chain, opt (all [here, ":=", call expr]),
      opt (all [here, "if", call chain, "else", call expr])]
  | chain => all [call operand, many (all [here, operator, call operand])]
  | operand =>
    any [
      call lambda,
      all [oneOf ["+", "-", "~"], call operand],
      all ["not", call operand],
      all ["await", call operand],
      all [call primary, many (all [here, call suffix])]]
  | primary =>
    let items (r : R) : R := any [all [r, many1 (call comprehension)], list r ","]
    any [
      all [call string, many (all [here, call string])], leaf "integer" number, "...",
      any (["None", "True", "False"].map lit),
      node "tuple" (parens (free (items (call element)))),
      node "list" (brackets (free (items (call element)))),
      node "dictionary" (braces (free (items (any [
        all [call expr, colon, call expr], call element])))),
      name]
  | suffix =>
    any [
      all [absent "...", ".", leaf "identifier" (identifier [])],
      call args,
      node "subscript" (brackets (free (list (any [
        all [opt (call expr), ":", opt (call expr), opt (all [":", opt (call expr)])],
        call element]) ",")))]
  | yield =>
    node "yield" (all ["yield", opt (all [here, any [all ["from", call expr], call exprs]])])
  | lambda => node "lambda" (all ["lambda", call lambdaParams, ":", call expr])
  | lambdaParams =>
    list (any [
      all [opt (oneOf ["**", "*"]), any [name, node "tuple_pattern" (parens (free (call params)))],
        opt (all [assign, call expr])],
      oneOf ["/", "*"]]) ","
  | args =>
    let item : R := any [all [name, assign, call expr], call element]
    node "argument_list" (parens (free (any [
      all [item, many1 (call comprehension)], all [opt (sep1 item ","), opt ","]])))
  | comprehension =>
    any [all [opt "async", "for", sep1 (all [opt "*", call chain]) ",", opt ",",
        opt (all ["in", call chain])],
      all ["if", call expr]]
  | string => leaf "string" stringScan

def grammar : Rules Symbol where
  symbols := (List.range 60).map Symbol.ofNat |>.eraseDups
  rule := rule
  index := Symbol.ctorIdx
  item := item
  fragments := [statement]
  context := 1
  root := "module"
  trivia := trivia

end Synopsis.Grammar.Python
