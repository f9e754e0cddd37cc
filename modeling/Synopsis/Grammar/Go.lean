import Synopsis.Grammar.Lexeme

/-! The grammar of Go. Expressions are kept flat: of them only literals with a body, which
may hold declarations, matter. -/
namespace Synopsis.Grammar.Go
open Rule Lexeme

inductive Symbol where
  | item | package | import_ | importSpec | function | method | typeDecl | typeSpec
  | varDecl | varSpec | constDecl | constSpec | typeParams | params | param | result
  | type | structType | structField | interfaceType | interfaceElem | constraint
  | block | statements | statement | simple | header | caseClause | label
  | expr | headExpr | operand | headOperand | primary | suffix | literalValue | element
  | args | exprs | headExprs
  deriving DecidableEq, Repr

open Synopsis.Grammar.Go.Symbol

abbrev R := Rule Symbol

def reserved : List String :=
  ["break", "case", "chan", "const", "continue", "default", "defer", "else", "fallthrough",
   "for", "func", "go", "goto", "if", "import", "interface", "map", "package", "range",
   "return", "select", "struct", "switch", "type", "var"]

def trivia : Tree.Source → Nat → Option (Nat × String) := slashTrivia "comment" "comment"

def name (kind : String) : R := leaf kind (identifier reserved)

/-- A line feed or the end comes before the next token. One inside a comment does not count. -/
def breaksFrom (s : Tree.Source) : Nat → Nat → Bool
  | 0, _ => true
  | fuel + 1, i =>
    if i ≥ s.size || s.char? i == some '\n' then true
    else match trivia s i with
      | some (j, _) => breaksFrom s fuel j
      | none => false

def breaks (s : Tree.Source) (i : Nat) : Bool := breaksFrom s (s.size + 1) i

/-- Continues only on the same line, where a statement might otherwise end. -/
def here : R := test fun _ s i => !breaks s i

/-- The start of the next line, after comments. -/
def nextLine (s : Tree.Source) : Nat → Nat → Nat
  | 0, i => i
  | fuel + 1, i =>
    if s.char? i == some '\n' then i + 1
    else match trivia s i with
      | some (j, _) => nextLine s fuel j
      | none => i

/-- The end of a statement: a semicolon, the end of the line, or a closing bracket. -/
def terminator : R :=
  any [";", all [test fun _ => breaks, gap fun _ s i => some (nextLine s s.size i)],
    ahead ")", ahead "\x7d"]

def stringLit : R :=
  any [leaf "raw_string_literal" (quoted '\x60' false true),
    leaf "interpreted_string_literal" (quoted '"' true false)]

def binaryOps : List String :=
  ["||", "&&", "==", "!=", "<=", ">=", "<<", ">>", "&^", "+", "-", "*", "/", "%", "&", "|", "^",
   "<", ">"]

/-- A binary operator that is not the start of an assignment or a step. -/
def binary : R :=
  all [absent (oneOf ["<<=", ">>=", "&^=", "+=", "-=", "*=", "/=", "%=", "&=", "|=", "^=",
    "++", "--", "<-"]), oneOf binaryOps]

def assignOps : R :=
  oneOf ["<<=", ">>=", "&^=", "+=", "-=", "*=", "/=", "%=", "&=", "|=", "^=", ":=", "="]

/-- Specifications in parentheses, each ended by a terminator. -/
def specs (r : R) : R := parens (many (any [all [r, terminator], ";"]))

def rule : Symbol → R
  | item =>
    any [";",
      all [any [call package, call import_, call function, call method, call statement],
        terminator]]
  | package => node "package_clause" (all ["package", name "package_identifier"])
  | import_ =>
    node "import_declaration" (all ["import",
      any [call importSpec, node "import_spec_list" (specs (call importSpec))]])
  | importSpec =>
    node "import_spec" (all [
      opt (field "name" (any [node "dot" ".", name "package_identifier"])),
      field "path" stringLit])
  | function =>
    node "function_declaration" (all ["func", field "name" (name "identifier"),
      opt (field "type_parameters" (call typeParams)), field "parameters" (call params),
      opt (call result), opt (all [here, field "body" (call block)])])
  | method =>
    node "method_declaration" (all ["func", field "receiver" (call params),
      field "name" (name "field_identifier"), opt (call typeParams),
      field "parameters" (call params), opt (call result),
      opt (all [here, field "body" (call block)])])
  | typeDecl =>
    node "type_declaration" (all ["type", any [call typeSpec, specs (call typeSpec)]])
  | typeSpec =>
    let typed (middle : R) : R := all [field "name" (name "type_identifier"), middle]
    any [
      node "type_alias" (typed (all [opt (call typeParams), "=", field "type" (call type)])),
      node "type_spec" (typed (all [field "type_parameters" (call typeParams), here,
        field "type" (call type)])),
      node "type_spec" (typed (all [here, field "type" (call type)]))]
  | varDecl =>
    node "var_declaration" (all ["var",
      any [call varSpec, node "var_spec_list" (specs (call varSpec))]])
  | varSpec =>
    node "var_spec" (all [sep1 (field "name" (name "identifier")) ",",
      opt (all [here, litUnless "=" "=", field "value" (call exprs)]) |> fun assigned =>
        any [all [here, ahead (litUnless "=" "="), assigned],
          all [here, field "type" (call type), assigned]]])
  | constDecl =>
    node "const_declaration" (all ["const", any [call constSpec, specs (call constSpec)]])
  | constSpec =>
    node "const_spec" (all [sep1 (field "name" (name "identifier")) ",",
      opt (all [here, opt (field "type" (call type)), "=", field "value" (call exprs)])])
  | typeParams =>
    node "type_parameter_list" (brackets (all [
      sep1 (node "type_parameter_declaration" (all [
        sep1 (field "name" (name "identifier")) ",", field "type" (call constraint)])) ",",
      opt ","]))
  | constraint =>
    node "type_constraint" (sep1 (all [opt "~", call type]) "|")
  | params => node "parameter_list" (parens (list (call param) ","))
  | param =>
    any [
      node "parameter_declaration" (all [sep1 (field "name" (name "identifier")) ",",
        field "type" (call type)]),
      node "variadic_parameter_declaration" (all [opt (field "name" (name "identifier")), "...",
        field "type" (call type)]),
      node "parameter_declaration" (field "type" (call type))]
  | result => all [here, field "result" (any [call params, call type])]
  | type =>
    any [
      node "parenthesized_type" (parens (call type)),
      node "pointer_type" (all ["*", call type]),
      node "slice_type" (all ["[", "]", field "element" (call type)]),
      node "implicit_length_array_type" (all ["[", "...", "]", field "element" (call type)]),
      node "array_type" (all ["[", field "length" (call expr), "]", field "element" (call type)]),
      node "map_type" (all ["map", "[", field "key" (call type), "]", field "value" (call type)]),
      node "channel_type" (all [any [all ["chan", "<-"], all ["<-", "chan"], "chan"],
        field "value" (call type)]),
      node "function_type" (all ["func", field "parameters" (call params), opt (call result)]),
      call structType,
      call interfaceType,
      node "generic_type" (all [name "type_identifier", opt (all [".", name "type_identifier"]),
        here, node "type_arguments" (brackets (all [sep1 (call constraint) ",", opt ","]))]),
      node "qualified_type" (all [name "package_identifier", ".", name "type_identifier"]),
      name "type_identifier"]
  | structType =>
    node "struct_type" (all ["struct", node "field_declaration_list"
      (braces (many (any [all [call structField, terminator], ";"])))])
  | structField =>
    node "field_declaration" (all [
      any [
        all [sep1 (field "name" (name "field_identifier")) ",", here, field "type" (call type)],
        all [opt "*", field "type" (call type)]],
      opt (all [here, field "tag" stringLit])])
  | interfaceType =>
    node "interface_type" (all ["interface",
      braces (many (any [all [call interfaceElem, terminator], ";"]))])
  | interfaceElem =>
    any [
      node "method_elem" (all [field "name" (name "field_identifier"),
        field "parameters" (call params), opt (call result)]),
      node "type_elem" (sep1 (all [opt "~", call type]) "|")]
  | block => node "block" (braces (opt (call statements)))
  | statements =>
    node "statement_list" (many1 (any [all [call statement, terminator], ";"]))
  | statement =>
    any [
      call typeDecl, call varDecl, call constDecl,
      call block,
      node "if_statement" (all ["if", call header, call block,
        opt (all [here, "else", call statement])]),
      node "for_statement" (all ["for", call header, call block]),
      node "expression_switch_statement" (all ["switch", call header,
        braces (many (call caseClause))]),
      node "select_statement" (all ["select", braces (many (call caseClause))]),
      node "return_statement" (all ["return", opt (all [here, call exprs])]),
      node "go_statement" (all ["go", call expr]),
      node "defer_statement" (all ["defer", call expr]),
      node "goto_statement" (all ["goto", name "label_name"]),
      node "break_statement" (all ["break", opt (all [here, name "label_name"])]),
      node "continue_statement" (all ["continue", opt (all [here, name "label_name"])]),
      node "fallthrough_statement" "fallthrough",
      call label,
      call simple]
  | label =>
    node "labeled_statement" (all [name "label_name", litUnless ":" "=", opt (call statement)])
  | simple =>
    all [call exprs, opt (all [here, any [
      "++", "--",
      all [assignOps, opt "range", call exprs],
      all ["<-", call expr]]])]
  | header =>
    let step : R := all [call headExprs, opt (all [here, any [
      "++", "--",
      all [assignOps, opt "range", call headExprs],
      all ["<-", call headExpr]]])]
    many (any [";", all ["range", call headExpr], step])
  | caseClause =>
    node "expression_case" (all [any [all ["case", call simple], "default"], ":",
      opt (call statements)])
  | exprs => sep1 (call expr) ","
  | headExprs => sep1 (call headExpr) ","
  | expr => sep1 (call operand) (all [here, binary])
  | headExpr => sep1 (call headOperand) (all [here, binary])
  | operand =>
    all [many (oneOf ["<-", "+", "-", "!", "^", "*", "&", "~"]), call primary,
      many (all [here, any [call suffix, call literalValue]])]
  | headOperand =>
    any [
      all [many (oneOf ["<-", "+", "-", "!", "^", "*", "&", "~"]),
        any [call structType, node "slice_type" (all ["[", "]", call type]),
          node "array_type" (all ["[", any ["...", call expr], "]", call type]),
          node "map_type" (all ["map", "[", call type, "]", call type])],
        call literalValue, many (all [here, call suffix])],
      all [many (oneOf ["<-", "+", "-", "!", "^", "*", "&", "~"]), call primary,
        many (all [here, call suffix])]]
  | primary =>
    any [
      node "func_literal" (all ["func", field "parameters" (call params), opt (call result), here,
        field "body" (call block)]),
      leaf "int_literal" number,
      leaf "rune_literal" (quoted '\'' true false),
      stringLit,
      node "parenthesized_expression" (parens (any [
        all [call expr, ahead ")"], call type])),
      name "identifier",
      call type]
  | suffix =>
    any [
      all [".", name "field_identifier"],
      all [".", "(", any ["type", call type], ")"],
      brackets (all [sep1 (opt (any [call expr, call type])) (any [":", ","])]),
      call args]
  | args =>
    node "argument_list" (parens (all [
      opt (all [sep1 (all [any [call expr, call type], opt "..."]) ",", opt ","])]))
  | literalValue => node "literal_value" (braces (list (call element) ","))
  | element =>
    let value : R := any [call literalValue, call expr]
    node "keyed_element" (all [value, opt (all [":", value])])

def grammar : Rules Symbol where
  symbols := (List.range 60).map Symbol.ofNat |>.eraseDups
  rule := rule
  index := Symbol.ctorIdx
  item := item
  root := "source_file"
  trivia := trivia

end Synopsis.Grammar.Go
