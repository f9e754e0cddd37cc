import Synopsis.Grammar.Lexeme

/-! The grammar of Java. Expressions are kept flat: of them only lambda bodies, bodies of
anonymous classes and switch blocks, which may hold declarations, matter. -/
namespace Synopsis.Grammar.Java
open Rule Lexeme

inductive Symbol where
  | item | package | import_ | module_ | typeDecl | class_ | interface | enum | record
  | annotationType | modifiers | annot | type | classType | typeArgs | typeParams | dims
  | classBody | member | interfaceBody | interfaceMember | annotationBody | annotationMember
  | enumBody | enumConstant | field_ | constant | declarator | method | constructor | compact
  | params | param | throws_ | block | statement | local_ | forHead | resources | switchBody
  | caseLabel | pattern | exprs | expr | chain | lambda | operand | primary | suffix | creator
  | args | arrayInit | elementValue | parens_
  deriving DecidableEq, Repr

open Synopsis.Grammar.Java.Symbol

abbrev R := Rule Symbol

def reserved : List String :=
  ["abstract", "assert", "boolean", "break", "byte", "case", "catch", "char", "class", "const",
   "continue", "default", "do", "double", "else", "enum", "extends", "final", "finally", "float",
   "for", "goto", "if", "implements", "import", "instanceof", "int", "interface", "long",
   "native", "new", "package", "private", "protected", "public", "return", "short", "static",
   "strictfp", "super", "switch", "synchronized", "this", "throw", "throws", "transient", "try",
   "void", "volatile", "while", "null", "true", "false"]

def isFirst (c : Char) : Bool := isWordStart c || c == '$'

def isRest (c : Char) : Bool := isWordRest c || c == '$'

def name : R := leaf "identifier" (word isFirst isRest reserved)

def stringScan : Scan := fun s i =>
  match literalEnd s ['"', '"', '"'] i with
  | some j =>
    let rec close : Nat → Nat → Option Nat
      | 0, _ => none
      | fuel + 1, k =>
        match s.char? k with
        | none => none
        | some c =>
          if c == '\\' then close fuel (k + 2)
          else match literalEnd s ['"', '"', '"'] k with
            | some e => some e
            | none => close fuel (k + 1)
    close s.size j
  | none => quoted '"' true false s i

def literal : R :=
  any [leaf "string_literal" stringScan, leaf "character_literal" (quoted '\'' true false),
    leaf "decimal_integer_literal" number]

def modifierWords : List String :=
  ["public", "protected", "private", "abstract", "static", "final", "strictfp", "default",
   "synchronized", "native", "transient", "volatile", "non-sealed", "sealed"]

/-- Operators between two operands. -/
def binary : R :=
  oneOf [">>>=", "<<=", ">>=", ">>>", "==", "!=", "<=", ">=", "&&", "||", "+=", "-=", "*=", "/=",
    "%=", "&=", "|=", "^=", "<<", ">>", "+", "-", "*", "/", "%", "&", "|", "^", "<", ">"]

def assign : R := litUnless "=" "="

def primitive : R :=
  any (["void", "byte", "short", "int", "long", "char", "float", "double", "boolean"].map lit)

def typeList : R := sep1 (call type) ","

def mods : R := opt (call modifiers)

def rule : Symbol → R
  | item =>
    any [call package, call import_, call module_, call typeDecl, call method, call statement]
  | package =>
    node "package_declaration" (all [many (call annot), "package", sep1 name ".", ";"])
  | import_ =>
    node "import_declaration" (all ["import", opt "static", sep1 name ".",
      opt (all [".", "*"]), ";"])
  | module_ =>
    node "module_declaration" (all [many (call annot), opt "open", "module", sep1 name ".",
      braces (many (all [many1 (any [name, ".", ",", "static"]), ";"]))])
  | typeDecl =>
    any [call class_, call interface, call enum, call record, call annotationType]
  | class_ =>
    node "class_declaration" (all [mods, "class", field "name" name, opt (call typeParams),
      opt (node "superclass" (all ["extends", call type])),
      opt (node "super_interfaces" (all ["implements", typeList])),
      opt (node "permits" (all ["permits", typeList])),
      field "body" (call classBody)])
  | interface =>
    node "interface_declaration" (all [mods, "interface", field "name" name, opt (call typeParams),
      opt (node "extends_interfaces" (all ["extends", typeList])),
      opt (node "permits" (all ["permits", typeList])),
      field "body" (call interfaceBody)])
  | enum =>
    node "enum_declaration" (all [mods, "enum", field "name" name,
      opt (node "super_interfaces" (all ["implements", typeList])), field "body" (call enumBody)])
  | record =>
    node "record_declaration" (all [mods, "record", field "name" name, opt (call typeParams),
      field "parameters" (call params),
      opt (node "super_interfaces" (all ["implements", typeList])), field "body" (call classBody)])
  | annotationType =>
    node "annotation_type_declaration" (all [mods, "@interface", field "name" name,
      field "body" (call annotationBody)])
  | modifiers =>
    node "modifiers" (many1 (any (call annot :: modifierWords.map lit)))
  | annot =>
    node "annotation" (all [absent "@interface", "@", sep1 name ".",
      opt (parens (list (any [all [name, assign, call elementValue], call elementValue]) ","))])
  | type =>
    all [many (call annot),
      any [call classType, primitive], opt (call dims)]
  | classType =>
    node "scoped_type_identifier" (sep1 (all [many (call annot), name, opt (call typeArgs)])
      (litUnless "." "."))
  | dims => node "dimensions" (many1 (all [many (call annot), "[", "]"]))
  | typeArgs =>
    node "type_arguments" (all ["<", opt (sep1 (any [
      all [many (call annot), "?", opt (all [any ["extends", "super"], call type])],
      call type]) ","), ">"])
  | typeParams =>
    node "type_parameters" (all ["<", sep1 (all [many (call annot), name,
      opt (all ["extends", sep1 (call type) "&"])]) ",", ">"])
  | classBody => node "class_body" (braces (many (call member)))
  | member =>
    any [";", call typeDecl, call compact, call constructor, call method, call field_,
      node "static_initializer" (all ["static", call block]), call block]
  | interfaceBody => node "interface_body" (braces (many (call interfaceMember)))
  | interfaceMember => any [";", call typeDecl, call method, call constant]
  | annotationBody => node "annotation_type_body" (braces (many (call annotationMember)))
  | annotationMember =>
    any [";", call typeDecl,
      node "annotation_type_element_declaration" (all [mods, call type, field "name" name, "(", ")",
        opt (call dims), opt (all ["default", call elementValue]), ";"]),
      call constant]
  | enumBody =>
    node "enum_body" (braces (all [opt (sep1 (call enumConstant) ","), opt ",",
      opt (node "enum_body_declarations" (all [";", many (call member)]))]))
  | enumConstant =>
    node "enum_constant" (all [mods, field "name" name, opt (call args), opt (call classBody)])
  | field_ => node "field_declaration" (all [mods, call type, sep1 (call declarator) ",", ";"])
  | constant => node "constant_declaration" (all [mods, call type, sep1 (call declarator) ",", ";"])
  | declarator =>
    node "variable_declarator" (all [field "name" name, opt (call dims),
      opt (all [litUnless "=" "=", field "value" (any [call arrayInit, call expr])])])
  | method =>
    node "method_declaration" (all [mods, opt (all [call typeParams, many (call annot)]),
      field "type" (call type), field "name" name, field "parameters" (call params),
      opt (call dims), opt (call throws_), any [field "body" (call block), ";"]])
  | constructor =>
    node "constructor_declaration" (all [mods, opt (call typeParams), field "name" name,
      field "parameters" (call params), opt (call throws_), field "body" (call block)])
  | compact =>
    node "compact_constructor_declaration" (all [mods, field "name" name,
      field "body" (call block)])
  | params =>
    node "formal_parameters" (parens (opt (sep1 (call param) ",")))
  | param =>
    any [
      node "receiver_parameter" (all [many (call annot), call type, many (all [name, "."]),
        "this"]),
      node "spread_parameter" (all [mods, call type, many (call annot), "...", name,
        opt (call dims)]),
      node "formal_parameter" (all [mods, call type, field "name" name, opt (call dims)])]
  | throws_ => node "throws" (all ["throws", typeList])
  | block => node "block" (braces (many (call statement)))
  | statement =>
    any [
      call block, ";", call typeDecl,
      node "if_statement" (all ["if", call parens_, call statement,
        opt (all ["else", call statement])]),
      node "while_statement" (all ["while", call parens_, call statement]),
      node "for_statement" (all ["for", parens (call forHead), call statement]),
      node "do_statement" (all ["do", call statement, "while", call parens_, ";"]),
      node "synchronized_statement" (all ["synchronized", call parens_, call block]),
      node "try_statement" (all ["try", opt (call resources), call block,
        many (node "catch_clause" (all ["catch",
          parens (all [mods, sep1 (call type) "|", name]), call block])),
        opt (node "finally_clause" (all ["finally", call block]))]),
      node "return_statement" (all ["return", opt (call expr), ";"]),
      node "throw_statement" (all ["throw", call expr, ";"]),
      node "break_statement" (all ["break", opt name, ";"]),
      node "continue_statement" (all ["continue", opt name, ";"]),
      node "yield_statement" (all ["yield", call expr, ";"]),
      node "assert_statement" (all ["assert", call expr, opt (all [":", call expr]), ";"]),
      node "labeled_statement" (all [name, litUnless ":" ":", call statement]),
      node "switch_expression" (all ["switch", call parens_, call switchBody]),
      call local_,
      node "expression_statement" (all [call expr, ";"])]
  | local_ =>
    node "local_variable_declaration" (all [mods, call type, sep1 (call declarator) ",", ";"])
  | forHead =>
    any [
      all [mods, call type, name, opt (call dims), litUnless ":" ":", call expr],
      all [any [call local_, all [opt (call exprs), ";"]], opt (call expr), ";",
        opt (call exprs)]]
  | resources =>
    node "resource_specification" (parens (all [sep1 (any [
      all [mods, call type, name, assign, call expr], call expr]) ";", opt ";"]))
  | switchBody =>
    node "switch_block" (braces (any [
      many1 (node "switch_rule" (all [call caseLabel, "->",
        any [call block, node "throw_statement" (all ["throw", call expr, ";"]),
          node "expression_statement" (all [call expr, ";"])]])),
      many (node "switch_block_statement_group" (all [call caseLabel, ":",
        many (any [all [call caseLabel, ":"], call statement])]))]))
  | caseLabel =>
    node "switch_label" (any [
      all ["case", sep1 (any [call pattern, "default", call chain]) ",",
        opt (node "guard" (all ["when", call expr]))],
      "default"])
  | pattern =>
    let record : R := node "record_pattern" (all [call classType,
      parens (opt (sep1 (call pattern) ",")), opt name])
    any [record, node "type_pattern" (all [mods, call type, name,
      ahead (any [",", ")", "->", ":", "when", "&&"])])]
  | exprs => sep1 (call expr) ","
  | expr => any [call lambda, call chain]
  | chain =>
    all [call operand, many (any [
      all ["?", call expr, litUnless ":" ":", call expr],
      all [assign, call expr],
      all ["instanceof", opt "final", any [call pattern, call type]],
      all [binary, call operand]])]
  | lambda =>
    node "lambda_expression" (all [
      any [name, call params, node "inferred_parameters" (parens (sep1 name ","))], "->",
      field "body" (any [call block, call expr])])
  | operand =>
    any [
      all [oneOf ["++", "--", "+", "-", "!", "~"], call operand],
      all [parens (all [primitive, opt (call dims)]), call operand],
      all [parens (sep1 (call type) "&"), absent (oneOf ["++", "--", "+", "-"]),
        any [call lambda, call operand]],
      all [call primary, many (call suffix)]]
  | primary =>
    any [
      call creator,
      node "switch_expression" (all ["switch", call parens_, call switchBody]),
      literal,
      all [call type, ahead (any ["::", all [".", "class"]])],
      call parens_,
      any (["this", "super", "null", "true", "false"].map lit),
      name]
  | suffix =>
    any [
      all [".", call creator],
      all [litUnless "." ".", any [all [opt (call typeArgs), any [name, "super"]],
        any (["this", "class"].map lit), literal]],
      all ["::", opt (call typeArgs), any ["new", name]],
      call args,
      node "array_access" (brackets (call expr)),
      oneOf ["++", "--"]]
  | args => node "argument_list" (parens (opt (call exprs)))
  | creator =>
    node "object_creation_expression" (all ["new", many (call annot), opt (call typeArgs),
      many (call annot), any [call classType, primitive],
      any [
        all [call args, opt (call classBody)],
        all [many1 (node "dimensions_expr" (all [many (call annot), brackets (call expr)])),
          opt (call dims)],
        all [call dims, call arrayInit]]])
  | arrayInit =>
    node "array_initializer" (braces (any [",", list (any [call arrayInit, call expr]) ","]))
  | elementValue =>
    any [node "element_value_array_initializer" (braces (any [",", list (call elementValue) ","])),
      call annot, call expr]
  | parens_ => node "parenthesized_expression" (parens (call expr))

def grammar : Rules Symbol where
  symbols := (List.range 80).map Symbol.ofNat |>.eraseDups
  rule := rule
  index := Symbol.ctorIdx
  item := item
  fragments := [member, statement]
  root := "program"
  trivia := slashTrivia "line_comment" "block_comment"

end Synopsis.Grammar.Java
