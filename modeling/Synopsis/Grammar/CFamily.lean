import Synopsis.Grammar.Lexeme

/-! The grammars of C and C++. Expressions are kept flat. The context says what a declared name
is: 0 a plain identifier, 1 a member of a class, 2 a type being defined. It is 3 in an
expression that a closing angle bracket ends, and 4 in a list of enumerators. -/
open Synopsis.Tree

namespace Synopsis.Grammar.CFamily
open Rule Lexeme

inductive Dialect where
  | c | cpp
  deriving DecidableEq, Repr

inductive Symbol where
  | item | plainItem | stray | blockItem | declarationList | linkage | namespace_ | template
  | templateParams | templateParam | templateItem | requires | concept | using_ | staticAssert
  | functionDef | oldFunctionDef | ctorDef | ctorDecl | castDef | castDecl | body | initList
  | declaration | emptyDeclaration | initDeclarator | typedef
  | specifiers | modifier | ctorModifier | attr | gnuAttr | attrBrackets | type | sized | class_
  | enum | enumerator
  | className | baseClause | fieldList | member | fieldDecl | friend_
  | declarator | direct | functionTail | params | param | abstract_ | declName
  | qualified | qualifiedType | scope | templateArgs | templateArg | typeDescriptor
  | operatorName | destructorName
  | includeLine | define | conditional | directive
  | compound | statement | condition | forHead | flat | flatRun
  | exprs | expr | operand | primary | suffix | parens_ | args | typeParens | newExpr | typed
  | requiresExpr | lambda | initBraces
  deriving DecidableEq, Repr

open Synopsis.Grammar.CFamily.Symbol

abbrev R := Rule Symbol

def commonReserved : List String :=
  ["break", "case", "const", "continue", "default", "do", "else", "enum", "extern", "for", "goto",
   "if", "inline", "register", "return", "sizeof", "static", "struct", "switch", "typedef",
   "union", "volatile", "while"]

def cppReserved : List String :=
  commonReserved ++ ["alignas", "alignof", "catch", "class", "co_await", "co_return", "co_yield",
    "concept", "consteval", "constexpr", "constinit", "const_cast", "decltype", "delete",
    "dynamic_cast", "explicit", "false", "friend", "mutable", "namespace", "new", "noexcept",
    "nullptr", "operator", "private", "protected", "public", "reinterpret_cast", "requires",
    "static_assert", "static_cast", "template", "this", "thread_local", "throw", "true", "try",
    "typeid", "typename", "using", "virtual"]

def sizeWords : List String := ["signed", "unsigned", "long", "short"]

def primitives : List String :=
  ["bool", "char", "int", "float", "double", "void", "size_t", "ssize_t", "ptrdiff_t", "intptr_t",
   "uintptr_t", "charptr_t", "nullptr_t", "max_align_t",
   "int8_t", "int16_t", "int32_t", "int64_t", "uint8_t", "uint16_t", "uint32_t", "uint64_t",
   "char8_t", "char16_t", "char32_t", "char64_t"]

def isFirst (c : Char) : Bool := isWordStart c || c == '$'

def isRest (c : Char) : Bool := isWordRest c || c == '$'

def reserved : Dialect → List String
  | .c => "auto" :: commonReserved ++ sizeWords ++ primitives
  | .cpp => cppReserved ++ sizeWords ++ primitives ++ ["auto"]

def name (d : Dialect) (kind : String) : R := leaf kind (word isFirst isRest (reserved d))

def primitive : R :=
  leaf "primitive_type" fun s i =>
    let j := skipWhile isRest s i
    if primitives.contains (String.ofList (between s i j)) then some j else none

/-- A name after a scope, where words for types are plain names. -/
def scopedName (kind : String) : R := leaf kind (word isFirst isRest cppReserved)

/-- Comments that a backslash carries over a line end. -/
def lineCommentEnd (s : Source) : Nat → Nat → Nat
  | 0, i => i
  | fuel + 1, i =>
    match s.char? i with
    | none => i
    | some c =>
      if c == '\\' && s.char? (i + 1) == some '\r' && s.char? (i + 2) == some '\n' then
        lineCommentEnd s fuel (i + 3)
      else if c == '\\' && i + 1 < s.size then lineCommentEnd s fuel (i + 2)
      else if c == '\n' then i
      else lineCommentEnd s fuel (i + 1)

def lineEscape (s : Source) (i : Nat) : Option Nat :=
  if s.char? i == some '\\' then
    if s.char? (i + 1) == some '\n' then some (i + 2)
    else if s.char? (i + 1) == some '\r' && s.char? (i + 2) == some '\n' then some (i + 3)
    else none
  else none

def trivia (s : Source) (i : Nat) : Option (Nat × String) :=
  match s.char? i with
  | none => none
  | some c =>
    if isSpace c || (isByteOrderMark c && i == 0) then some (i + 1, "")
    else if c == '/' then
      if s.char? (i + 1) == some '/' then some (lineCommentEnd s s.size i, "comment")
      else (blockComment s i).map (·, "comment")
    else (lineEscape s i).map (·, "")

/-- The next token stands on this line, or on one joined to it by a backslash. -/
def onLineFrom (s : Source) : Nat → Nat → Bool
  | 0, _ => false
  | fuel + 1, i =>
    match s.char? i with
    | none => false
    | some c =>
      if c == '\n' then false
      else match trivia s i with
        | some (j, _) => onLineFrom s fuel j
        | none => true

def onLine : R := test fun _ s i => onLineFrom s s.size i

/-- A directive word after a hash and blanks. -/
def hash (word : String) : R :=
  let cs := word.toList
  token ("#" ++ word) false fun s i =>
    if s.char? i == some '#' then
      let j := skipWhile (fun c => c == ' ' || c == '\t') s (i + 1)
      scanLiteral true cs s j
    else none

def anyDirective : R :=
  leaf "preproc_directive" fun s i =>
    if s.char? i == some '#' then
      let j := skipWhile (fun c => c == ' ' || c == '\t') s (i + 1)
      if (s.char? j).any Char.isAlphanum then some (skipWhile isWordRest s j) else none
    else none

/-- The rest of a directive: up to the end of the line or the start of a block comment. -/
def argEnd (s : Source) : Nat → Nat → Nat
  | 0, i => i
  | fuel + 1, i =>
    match s.char? i with
    | none => i
    | some c =>
      match lineEscape s i with
      | some j => argEnd s fuel j
      | none =>
        if c == '\n' then i
        else if c == '/' then
          match s.char? (i + 1) with
          | some '*' => i
          | some _ => argEnd s fuel (i + 2)
          | none => i
        else argEnd s fuel (i + 1)

def argument : R :=
  all [onLine, leaf "preproc_arg" fun s i =>
    match s.char? i with
    | none => none
    | some _ => some (argEnd s s.size (i + 1))]

/-- The end of a directive's line, after comments on it. -/
def lineFeed : R :=
  all [gap fun _ s i =>
      let rec go : Nat → Nat → Nat
        | 0, k => k
        | fuel + 1, k =>
          match s.char? k with
          | none => k
          | some c => if c == '\n' then k else match trivia s k with
            | some (j, _) => go fuel j
            | none => k
      some (go s.size i),
    near "" false fun s i =>
      match s.char? i with
      | none => some i
      | some '\n' => some (i + 1)
      | some _ => none]

/-- The end of a raw string whose closing mark is `mark`. -/
def rawString : Scan := fun s i =>
  let j := skipWhile (fun c => "uUL8".toList.contains c) s i
  match literalEnd s ['R', '"'] j with
  | none => none
  | some k =>
    let e := skipWhile (fun c => c != '(' && c != '"' && c != '\n') s k
    if s.char? e == some '(' then
      findEnd (')' :: between s k e ++ ['"']) s s.size (e + 1)
    else none

def marked (quote : Char) : Scan := fun s i =>
  let j := skipWhile (fun c => "uUL8".toList.contains c) s i
  quoted quote true false s j

def numberTail (s : Source) : Nat → Nat → Nat
  | 0, i => i
  | fuel + 1, i =>
    match s.char? i with
    | none => i
    | some c =>
      if c.isAlphanum || c == '_' || c == '.' then
        let next := s.char? (i + 1)
        if "eEpP".toList.contains c && (next == some '+' || next == some '-') &&
            (s.char? (i + 2)).any Char.isDigit then numberTail s fuel (i + 2)
        else numberTail s fuel (i + 1)
      else if c == '\'' && (s.char? (i + 1)).any Char.isAlphanum then numberTail s fuel (i + 1)
      else i

def numberScan : Scan := fun s i =>
  match number s i with
  | some _ => some (numberTail s s.size i)
  | none => none

def stringLit : R :=
  any [leaf "raw_string_literal" rawString, leaf "string_literal" (marked '"')]

def literal : R :=
  any [stringLit, leaf "char_literal" (marked '\''), leaf "number_literal" numberScan]

def storageWords : List String :=
  ["extern", "static", "register", "inline", "__inline", "__inline__", "__forceinline",
   "thread_local", "__thread"]

def qualifierWords : List String :=
  ["const", "constexpr", "volatile", "restrict", "__restrict__", "__extension__", "_Atomic",
   "_Noreturn", "noreturn", "_Nonnull", "mutable", "constinit", "consteval"]

def cQualifierWords : List String :=
  ["const", "constexpr", "volatile", "restrict", "__restrict__", "__extension__", "_Atomic",
   "_Noreturn", "noreturn", "_Nonnull"]

/-- Operators between two operands. -/
def binaryOps : List String :=
  ["<=>", "->*", "<<", ">>", "<=", ">=", "==", "!=", "&&", "||", ".*", "+", "-", "*", "/", "%",
   "&", "|", "^", "<", ">", "and", "bitand", "bitor", "not_eq", "or", "xor"]

def assignOps : List String :=
  ["<<=", ">>=", "+=", "-=", "*=", "/=", "%=", "&=", "|=", "^=", "and_eq", "or_eq", "xor_eq"]

/-- Words that never stand for a value. -/
def statementWords : List String :=
  ["case", "default", "if", "else", "for", "while", "do", "return", "break", "continue", "goto",
   "switch", "typedef", "struct", "union", "enum", "sizeof", "static", "extern", "const",
   "volatile", "register", "inline"]

/-- A word in an expression. Where no type can stand, the names of types are names like
others in C. -/
def exprWord : Dialect → R
  | .c => leaf "identifier" (word isFirst isRest statementWords)
  | .cpp => leaf "identifier" (word isFirst isRest (statementWords ++ sizeWords ++ primitives ++
      ["auto", "alignas", "catch", "class", "co_await", "co_return", "co_yield", "concept",
       "consteval", "constexpr", "constinit", "decltype", "delete", "explicit", "friend",
       "mutable", "namespace", "new", "operator", "private", "protected", "public",
       "requires", "static_assert", "template", "thread_local", "throw", "try", "typename",
       "using", "virtual", "and", "bitand", "bitor", "not_eq", "or", "xor"]))

/-- Conventions for calls. -/
def callWords : List String :=
  ["__cdecl", "__clrcall", "__stdcall", "__fastcall", "__thiscall", "__vectorcall"]

def callWord : R := opt (node "ms_call_modifier" (any (callWords.map lit)))

def overloadable : List String :=
  ["co_await", "<=>", "->*", "<<=", ">>=", "()", "[]", "->", "++", "--", "<<", ">>", "<=", ">=",
   "==", "!=", "&&", "||", "+=", "-=", "*=", "/=", "%=", "&=", "|=", "^=", "+", "-", "*", "/",
   "%", "&", "|", "^", "!", "~", "<", ">", "=", ","]

/-- Only in C++. -/
def cppOnly (d : Dialect) (r : R) : R := if d == .cpp then r else fail

/-- What stands between the brackets of an array type. -/
def arraySize : R :=
  all [many (any (["static", "const", "volatile", "restrict"].map lit)),
    opt (any [all ["*", ahead "]"], within (fun _ _ _ => some 0) (call exprs)])]

def inContext (k : Nat) (r : R) : R := within (fun _ _ _ => some k) r

def ifContext (k : Nat) (r : R) : R := all [test fun ctx _ _ => ctx == k, r]

def rule (d : Dialect) : Symbol → R
  | item => any [call plainItem, call stray]
  | plainItem =>
    any [call includeLine, call define, call conditional, call directive,
      call linkage, cppOnly d (call namespace_), cppOnly d (call template),
      cppOnly d (call concept), cppOnly d (call using_), cppOnly d (call staticAssert),
      call typedef, call functionDef, if d == .c then call oldFunctionDef else fail,
      cppOnly d (call ctorDef), cppOnly d (call castDef), cppOnly d (call castDecl),
      call declaration, call emptyDeclaration, call statement]
  | blockItem =>
    any [call includeLine, call define, call conditional, call directive,
      call linkage, cppOnly d (call namespace_), cppOnly d (call using_),
      cppOnly d (call staticAssert), cppOnly d (call template),
      call typedef, call functionDef, call declaration, call emptyDeclaration, call statement]
  | declarationList => node "declaration_list" (inContext 0 (braces (many (call item))))
  | linkage =>
    node "linkage_specification" (all ["extern", field "value" stringLit,
      field "body" (any [call declarationList, call functionDef, call declaration])])
  | namespace_ =>
    any [
      node "namespace_alias_definition" (all ["namespace", name d "namespace_identifier", "=",
        many1 (any [name d "namespace_identifier", "::"]), ";"]),
      node "namespace_definition" (all [opt "inline", "namespace", many (call attr),
        opt (field "name" (any [
          node "nested_namespace_specifier" (all [name d "namespace_identifier", "::",
            sep1 (all [opt "inline", name d "namespace_identifier"]) "::"]),
          name d "namespace_identifier"])),
        field "body" (call declarationList)])]
  | template =>
    any [
      node "template_declaration" (all ["template", call templateParams,
        opt (call requires), inContext 0 (call templateItem)]),
      node "template_instantiation" (all [opt "extern", "template", call specifiers,
        opt (call declarator), ";"])]
  | templateParams =>
    node "template_parameter_list" (inContext 0 (all ["<", list (call templateParam) ",", ">"]))
  | templateParam =>
    any [
      node "type_parameter_declaration" (all [opt (all ["template", call templateParams]),
        any ["class", "typename"], opt "...", opt (name d "type_identifier"),
        opt (all ["=", call typeDescriptor]), ahead (any [",", ">"])]),
      node "parameter_declaration" (all [call specifiers, opt "...",
        opt (any [call declarator, call abstract_]),
        opt (all ["=", inContext 3 (call expr)])])]
  | templateItem =>
    any [call template, cppOnly d (call concept), call using_, call friend_, call functionDef,
      call ctorDef, call castDef, call castDecl, call declaration, call ctorDecl,
      call emptyDeclaration]
  | requires =>
    node "requires_clause" (all ["requires", sep1 (any [call parens_,
      all [opt "!", any [call requiresExpr, call qualifiedType, name d "identifier"]]])
      (any ["&&", "||"])])
  | concept =>
    node "concept_definition" (all ["concept", field "name" (name d "identifier"), "=", call expr,
      ";"])
  | using_ =>
    any [
      node "alias_declaration" (all ["using", field "name" (name d "type_identifier"),
        many (call attr), "=", field "type" (call typeDescriptor), ";"]),
      node "using_declaration" (all ["using", opt (any ["namespace", "enum", "typename"]),
        many1 (any [call templateArgs, scopedName "identifier", "::", ",", call operatorName,
          "..."]),
        ";"])]
  | staticAssert =>
    node "static_assert_declaration" (all ["static_assert", call args, ";"])
  | functionDef =>
    node "function_definition" (all [callWord, call specifiers, callWord,
      field "declarator" (call declarator), call body])
  | oldFunctionDef =>
    let old : R := node "function_declarator" (all [field "declarator" (name d "identifier"),
      field "parameters" (node "parameter_list" (parens (opt (sep1 (name d "identifier") ","))))])
    node "function_definition" (all [call specifiers,
      field "declarator" (any [old, node "pointer_declarator" (all ["*", field "declarator" old])]),
      many1 (call declaration), field "body" (call compound)])
  | ctorDef =>
    node "function_definition" (all [many (call ctorModifier),
      field "declarator" (node "function_declarator" (all [
        field "declarator" (any [call qualified, call destructorName, name d "identifier"]),
        call functionTail])),
      any [all [opt (call initList), field "body" (call compound)], call body]])
  | ctorDecl =>
    node "declaration" (all [many (call ctorModifier),
      field "declarator" (node "function_declarator" (all [
        field "declarator" (any [call destructorName, name d "identifier"]),
        call functionTail])), ";"])
  | castDef =>
    node "function_definition" (all [many (call ctorModifier),
      field "declarator" (node "operator_cast" (all [many (all [call scope, "::"]), "operator",
        call specifiers, many (any ["*", "&"]), call functionTail])), call body])
  | castDecl =>
    node "declaration" (all [many (call ctorModifier),
      field "declarator" (node "operator_cast" (all [many (all [call scope, "::"]), "operator",
        call specifiers, many (any ["*", "&"]), call functionTail])),
      opt (all ["=", literal]), ";"])
  | body =>
    any [
      field "body" (call compound),
      cppOnly d (node "try_statement" (all ["try", opt (call initList), call compound,
        many1 (node "catch_clause" (all ["catch", call params, call compound]))])),
      cppOnly d (node "default_method_clause" (all ["=", "default", ";"])),
      cppOnly d (node "delete_method_clause" (all ["=", "delete", opt (call flat), ";"]))]
  | initList =>
    node "field_initializer_list" (all [litUnless ":" ":", sep1 (node "field_initializer" (all [
      any [call qualifiedType, name d "field_identifier"],
      any [call args, call initBraces], opt "..."])) ","])
  | declaration =>
    node "declaration" (all [call specifiers,
      sep1 (all [callWord, field "declarator" (call initDeclarator)]) ",", many (call attr), ";"])
  | emptyDeclaration => all [call specifiers, ";"]
  | initDeclarator =>
    let init : R := any [
      all [litUnless "=" "=", field "value" (any [call initBraces, call expr])],
      cppOnly d (field "value" (call initBraces)),
      cppOnly d (field "value" (call args))]
    any [
      node "init_declarator" (all [field "declarator" (call declarator), many (call attr),
        init]),
      all [call declarator, many (call attr),
        opt (node "bitfield_clause" (all [litUnless ":" ":", call expr]))]]
  | typedef =>
    let type : R := any [
      all [many (call modifier),
        field "type" (node "sized_type_specifier" (many1 (any (sizeWords.map lit)))),
        ahead (all [primitive, ";"])],
      call specifiers]
    node "type_definition" (all [opt "__extension__", "typedef", inContext 0 type,
      inContext 2 (sep1 (all [field "declarator" (call declarator),
        opt (all [litUnless ":" ":", call expr])]) ","), many (call attr), ";"])
  | specifiers => all [many (call modifier), field "type" (call type), many (call modifier)]
  | modifier =>
    any (((if d == .cpp then storageWords else "auto" :: storageWords).map
        fun w => node "storage_class_specifier" (lit w)) ++
      ((if d == .cpp then qualifierWords else cQualifierWords).map
        fun w => node "type_qualifier" (lit w)) ++
      [cppOnly d (node "virtual" "virtual"), cppOnly d (node "explicit" "explicit"),
       call attr])
  | ctorModifier =>
    any [node "explicit_function_specifier" (all ["explicit", call parens_]), call modifier]
  | attr => any [call gnuAttr, call attrBrackets]
  | attrBrackets => node "attribute_declaration" (all ["[[", call flatRun, "]]"])
  | gnuAttr =>
    any [
      node "attribute_specifier" (all [any ["__attribute__", "__attribute"], call flat]),
      node "ms_declspec_modifier" (all ["__declspec", call flat]),
      node "gnu_asm_expression" (all [any ["asm", "__asm__", "__asm"],
        many (any ["volatile", "inline"]), call flat]),
      node "alignas_qualifier" (all [any ["alignas", "_Alignas"],
        any [call typeParens, call parens_]])]
  | type =>
    any [call class_, call enum, call sized,
      primitive,
      cppOnly d (node "placeholder_type_specifier" (all [
        opt (any [call qualifiedType, name d "type_identifier"]),
        any ["auto", all ["decltype", "(", "auto", ")"]]])),
      cppOnly d (all [node "decltype" (all ["decltype", call parens_]), absent "::"]),
      cppOnly d (node "dependent_type" (all ["typename", call type])),
      if d == .c then
        any [node "macro_type_specifier" (all [any ["typeof", "__typeof__"], call parens_]),
          node "macro_type_specifier" (all [name d "identifier", call typeParens,
            ahead (any ["*", name d ""])])]
      else fail,
      cppOnly d (call qualifiedType),
      all [name d "type_identifier"]]
  | sized =>
    let size : R := any (sizeWords.map lit)
    let qualifier : R := any ((if d == .cpp then qualifierWords else cQualifierWords).map
      fun w => node "type_qualifier" (lit w))
    node "sized_type_specifier" (any [
      all [field "type" primitive, many1 size],
      all [many1 size, opt (any [
          all [many qualifier, any [field "type" primitive, size]],
          all [field "type" (name d "type_identifier"), absent (call attr), ahead (name d "")]]),
        many size]])
  | qualifiedType =>
    any [
      node "qualified_identifier" (all [opt (field "scope" (call scope)), "::",
        opt "template", field "name" (any [call qualifiedType, scopedName "type_identifier"])]),
      node "template_type" (all [field "name" (name d "type_identifier"),
        field "arguments" (call templateArgs)])]
  | scope =>
    all [any [
      node "template_type" (all [field "name" (name d "type_identifier"),
        field "arguments" (call templateArgs)]),
      node "decltype" (all ["decltype", call parens_]),
      name d "namespace_identifier"], ahead "::"]
  | qualified =>
    node "qualified_identifier" (all [opt (field "scope" (call scope)), "::", opt "template",
      field "name" (any [call qualified, call operatorName, call destructorName,
        node "template_function" (all [name d "identifier", call templateArgs]),
        scopedName "identifier"])])
  | templateArgs =>
    node "template_argument_list" (inContext 0 (all ["<", list (call templateArg) ",", ">"]))
  | templateArg =>
    any [all [call typeDescriptor, opt "...", ahead (any [",", ">"])],
      all [inContext 3 (call expr), opt "..."]]
  | typeDescriptor =>
    node "type_descriptor" (inContext 0 (all [call specifiers, opt (call abstract_)]))
  | abstract_ =>
    many1 (any [
      all [any ["*", "&&", "&"], many (call modifier)],
      cppOnly d (all [many1 (all [call scope, "::"]), "*", many (call modifier)]),
      node "abstract_function_declarator" (if d == .cpp then call functionTail
        else all [call params, many (call modifier)]),
      node "abstract_parenthesized_declarator" (parens (call abstract_)),
      node "abstract_array_declarator" (brackets arraySize),
      "..."])
  | class_ =>
    let cls (kind : String) (key : R) : R :=
      let head : R := many (call attr)
      let name' : R := field "name" (call className)
      any [
        node kind (all [key, head, opt name',
          cppOnly d (opt (any ["final", "override"])) |> opt,
          cppOnly d (opt (call baseClause)) |> opt,
          field "body" (call fieldList), many (call attr)]),
        node kind (all [key, head, name', many (call attr)])]
    any [cls "struct_specifier" "struct", cls "union_specifier" "union",
      cppOnly d (cls "class_specifier" "class")]
  | className => any [cppOnly d (call qualifiedType), name d "type_identifier"]
  | baseClause =>
    node "base_class_clause" (all [litUnless ":" ":", sep1 (all [
      many (any ["public", "private", "protected", "virtual"]),
      any [call qualifiedType, name d "type_identifier",
        node "decltype" (all ["decltype", call parens_])], opt "..."]) ","])
  | enum =>
    let key : R := all ["enum", cppOnly d (opt (any ["class", "struct"])) |> opt,
      many (call attr)]
    let base : R := opt (all [litUnless ":" ":", field "base" (call specifiers)])
    let enumBody : R := node "enumerator_list" (inContext 4 (braces
      (many (any [call enumerator, call stray]))))
    any [
      node "enum_specifier" (all [key, opt (field "name" (call className)), base,
        field "body" enumBody, many (call attr)]),
      node "enum_specifier" (all [key, field "name" (call className), base,
        many (call attr)])]
  | enumerator =>
    any [
      call includeLine, call define, call conditional, call directive,
      node "enumerator" (all [field "name" (name d "identifier"), many (call attr),
        opt (all ["=", field "value" (call expr)])]), ","]
  | fieldList =>
    node "field_declaration_list" (inContext 1 (braces (many (any [call member, call stray]))))
  | member =>
    any [call includeLine, call define, call conditional, call directive,
      cppOnly d (all [node "access_specifier" (any ["public", "private", "protected"]), ":"]),
      cppOnly d (call friend_), cppOnly d (call using_), cppOnly d (call staticAssert),
      cppOnly d (call template), call typedef,
      cppOnly d (inContext 0 (call ctorDef)), cppOnly d (inContext 0 (call ctorDecl)),
      cppOnly d (inContext 0 (call castDef)), cppOnly d (inContext 0 (call castDecl)),
      cppOnly d (call functionDef), call fieldDecl, ";"]
  | fieldDecl =>
    node "field_declaration" (all [call specifiers,
      opt (sep1 (all [opt (field "declarator" (call declarator)), many (call attr), opt (any [
        node "bitfield_clause" (all [litUnless ":" ":", call expr]),
        cppOnly d (field "default_value" (call initBraces)),
        all [litUnless "=" "=", field "default_value" (any [call initBraces, call expr])]])])
        ","),
      many (call attr), ";"])
  | friend_ =>
    node "friend_declaration" (inContext 0 (all [opt "constexpr", "friend", any [
      all [opt (any ["struct", "class", "union"]), call className, ";"],
      call functionDef, call declaration]]))
  | declarator =>
    any [
      node "pointer_declarator" (all ["*", many (call modifier),
        field "declarator" (call declarator)]),
      cppOnly d (node "reference_declarator" (all [oneOf ["&&", "&"], many (call modifier),
        call declarator])),
      cppOnly d (node "pointer_declarator" (all [many1 (all [call scope, "::"]), "*",
        field "declarator" (call declarator)])),
      cppOnly d (node "variadic_declarator" (all ["...", opt (call declarator)])),
      call direct]
  | direct =>
    grow
      (any [call declName,
        node "parenthesized_declarator" (parens (all [many (call attr), callWord,
          call declarator])),
        cppOnly d (node "structured_binding_declarator" (brackets
          (sep1 (name d "identifier") ",")))])
      (any [
        node "function_declarator" (all [field "declarator" left, call functionTail]),
        node "array_declarator" (all [field "declarator" left, absent "[[", "[", arraySize, "]"]),
        node "attributed_declarator" (all [left, many1 (call attrBrackets)])])
  | declName =>
    any [
      cppOnly d (all [many (call attr), call qualified]),
      cppOnly d (call operatorName),
      cppOnly d (node "template_function" (all [name d "identifier", call templateArgs,
        ahead (any ["(", "=", ";", "\x7b"])])),
      ifContext 1 (name d "field_identifier"),
      ifContext 2 (any [name d "type_identifier", leaf "primitive_type" (word isFirst isRest
        (if d == .cpp then cppReserved else commonReserved))]),
      ifContext 0 (name d "identifier")]
  | functionTail =>
    all [field "parameters" (call params), many (any [
      call modifier,
      node "ref_qualifier" (oneOf ["&&", "&"]),
      node "virtual_specifier" (any ["override", "final"]),
      node "noexcept" (all ["noexcept", opt (call parens_)]),
      node "throw_specifier" (all ["throw", parens (list (call typeDescriptor) ",")]),
      node "trailing_return_type" (all ["->", call typeDescriptor]),
      cppOnly d (call requires)]) |> fun tail =>
        if d == .cpp then tail
        else all [many (call gnuAttr), opt (all [
          many1 (any [call attr, all [name d "identifier", opt (call args)]]), ahead "\x7b"])]]
  | params => node "parameter_list" (inContext 0 (parens (opt (sep1 (call param) ","))))
  | param =>
    any [
      "...",
      node "parameter_declaration" (all [many (call attr), opt "this", call specifiers,
        any [all [opt "...", call declarator, absent "::"], opt (call abstract_)], many (call attr),
        opt (all [litUnless "=" "=", field "default_value" (any [call initBraces, call expr])]),
        ahead (any [",", ")"])])]
  | operatorName =>
    node "operator_name" (all ["operator", any [
      all [any ["new", "delete"], opt "[]"],
      all [near "\"\"" false (fun s i =>
          let j := skipWhile isSpace s i
          literalEnd s ['"', '"'] j),
        name d "identifier"],
      all [oneOf overloadable]]])
  | destructorName => node "destructor_name" (all ["~", name d "identifier"])
  | includeLine =>
    node "preproc_include" (all [any [hash "include", hash "include_next", hash "import"], onLine,
      field "path" (any [leaf "system_lib_string" (fun s i =>
          if s.char? i == some '<' then quotedEnd '>' false false s s.size (i + 1) else none),
        leaf "string_literal" (marked '"'),
        node "call_expression" (all [name d "identifier", call args]),
        name d "identifier"]),
      lineFeed])
  | define =>
    any [
      node "preproc_function_def" (all [hash "define", onLine, field "name" (name d "identifier"),
        near "(" false (scanLiteral false ['(']),
        many (any [name d "identifier", ",", "..."]), ")", opt (field "value" argument), lineFeed]),
      node "preproc_def" (all [hash "define", onLine,
        field "name" (leaf "identifier" (word isFirst isRest [])),
        opt (field "value" argument), lineFeed])]
  | conditional =>
    let items : R := any [ifContext 1 (many (call member)),
      ifContext 4 (many (call enumerator)), many (call plainItem)]
    let alternative : R := many (any [
      node "preproc_elif" (all [any [hash "elif", hash "elifdef", hash "elifndef"],
        many1 argument, lineFeed, items]),
      node "preproc_else" (all [hash "else", items])])
    any [
      node "preproc_if" (all [hash "if", many1 argument, lineFeed, items, alternative,
        hash "endif"]),
      node "preproc_ifdef" (all [any [hash "ifdef", hash "ifndef"], onLine,
        field "name" (leaf "identifier" (word isFirst isRest [])), items, alternative,
        hash "endif"])]
  | directive =>
    all [absent (any (["if", "ifdef", "ifndef", "else", "elif", "elifdef", "elifndef",
        "endif"].map hash)),
      node "preproc_call" (all [anyDirective, opt argument, lineFeed])]
  | stray =>
    all [ahead (any (["else", "elif", "elifdef", "elifndef", "endif"].map hash)),
      node "preproc_call" (all [anyDirective, opt argument, lineFeed])]
  | compound =>
    node "compound_statement" (inContext 0 (braces (many (any [call blockItem, call stray]))))
  | statement =>
    any [
      call compound, node "empty_statement" ";",
      node "if_statement" (all ["if",
        if d == .cpp then any [all ["constexpr", call condition], all [opt "not", "consteval"],
          call condition] else call condition,
        call statement, opt (all ["else", call statement])]),
      node "switch_statement" (all ["switch", call condition, call statement]),
      node "case_statement" (all [any [all ["case", call expr, opt (all ["...", call expr])],
          "default"],
        litUnless ":" ":", many (all [absent (any ["case", "default"]), call blockItem])]),
      node "while_statement" (all ["while", call condition, call statement]),
      node "for_statement" (all ["for", parens (inContext 0 (call forHead)), call statement]),
      node "do_statement" (all ["do", call statement, "while", call parens_, ";"]),
      node "return_statement" (all ["return", opt (any [call initBraces, call exprs]), ";"]),
      cppOnly d (node "co_return_statement" (all ["co_return",
        opt (any [call initBraces, call exprs]), ";"])),
      cppOnly d (node "co_yield_statement" (all ["co_yield",
        any [call initBraces, call exprs], ";"])),
      node "break_statement" (all ["break", ";"]),
      node "continue_statement" (all ["continue", ";"]),
      node "goto_statement" (all ["goto", name d "statement_identifier", ";"]),
      cppOnly d (node "try_statement" (all ["try", call compound,
        many1 (node "catch_clause" (all ["catch", call params, call compound]))])),
      cppOnly d (node "throw_statement" (all ["throw", opt (call exprs), ";"])),
      cppOnly d (call staticAssert),
      node "labeled_statement" (all [name d "statement_identifier", litUnless ":" ":",
        call blockItem]),
      node "attributed_statement" (all [many1 (call attr), call statement]),
      node "expression_statement" (all [
        if d == .c then absent (any ((sizeWords ++ primitives).map lit)) else done,
        call exprs, ";"])]
  | condition =>
    let value : R := any [
      node "declaration" (all [call specifiers, field "declarator" (call declarator),
        any [all [litUnless "=" "=", any [call initBraces, call expr]], call initBraces]]),
      call exprs]
    if d == .cpp then
      node "condition_clause" (parens (inContext 0 (any [
        all [any [call using_, call typedef, call declaration, all [opt (call exprs), ";"]], value],
        value])))
    else call parens_
  | forHead =>
    any [
      cppOnly d (all [opt (any [call using_, call typedef, call declaration,
          all [opt (call exprs), ";"]]),
        call specifiers, field "declarator" (call declarator), litUnless ":" ":",
        any [call initBraces, call expr]]),
      all [any [call declaration, all [opt (call exprs), ";"]], opt (call exprs), ";",
        opt (call exprs)]]
  | flat => node "argument_list" (parens (call flatRun))
  | flatRun =>
    many (any [
      literal, call flat, node "subscript_expression" (brackets (call flatRun)),
      node "initializer_list" (braces (call flatRun)),
      token "word" false (word isFirst isRest []),
      oneOf [",", ":", ";", "...", "->", ".", "+", "-", "*", "/", "%", "&", "|", "^", "!", "~",
        "?", "<", ">", "="]])
  | exprs => sep1 (call expr) ","
  | expr =>
    within (fun ctx _ _ => some (if ctx == 3 then 3 else 0)) (all [call operand, many (any [
      all ["?", opt (inContext 0 (call exprs)), litUnless ":" ":", call expr],
      all [any [oneOf assignOps, litUnless "=" "="], any [call initBraces, call expr]],
      all [ifContext 3 (oneOf (binaryOps.filter fun o => !o.startsWith ">")), call operand],
      all [ifContext 0 (oneOf binaryOps), call operand]])])
  | operand =>
    any [
      all [oneOf ["++", "--", "&&", "!", "~", "-", "+", "*", "&"], call operand],
      all [any (["sizeof", "__extension__", "__real__", "__imag__"].map lit), call operand],
      cppOnly d (all [any (["co_await", "not", "compl"].map lit), call operand]),
      cppOnly d (call newExpr),
      cppOnly d (all [opt "::", "delete", opt (all ["[", "]"]), call operand]),
      all [call typeParens, call operand],
      all [call primary, many (call suffix)]]
  | newExpr =>
    let type : R := inContext 0 (all [call specifiers, many (any ["*", "&"]),
      many (brackets (call exprs)), opt (any [call args, call initBraces])])
    all [opt "::", "new", any [all [call args, type], type, all [call typeParens, opt (call args)]]]
  | primary =>
    let w := exprWord d
    any [
      cppOnly d (call lambda),
      all [stringLit, many (any [stringLit, w])],
      all [w, stringLit, many (any [stringLit, w])],
      leaf "char_literal" (marked '\''), leaf "number_literal" numberScan,
      all [call typeParens, call initBraces],
      call parens_,
      all ["sizeof", call typeParens],
      cppOnly d (all ["sizeof", "...", call parens_]),
      all [any (["alignof", "_Alignof", "__alignof__", "__alignof"].map lit), call typeParens],
      all ["offsetof", "(", call typeDescriptor, ",", w, ")"],
      all ["_Generic", "(", call expr, ",", sep1 (all [call typeDescriptor, litUnless ":" ":",
        call expr]) ",", ")"],
      node "gnu_asm_expression" (all [any ["asm", "__asm__", "__asm"],
        many (any ["volatile", "inline", "goto"]), call flat]),
      cppOnly d (call requiresExpr),
      cppOnly d (all ["typeid", call typeParens]),
      cppOnly d (call operatorName),
      cppOnly d (call typed),
      w]
  | typed =>
    let named : R := any [
      all [call qualified],
      all [exprWord d, call templateArgs,
        absent (any [token "word" false (word isFirst isRest []), literal])]]
    any [
      all [named, opt (call initBraces)],
      all [exprWord d, call initBraces],
      all [any [primitive, node "decltype" (all ["decltype", call parens_]), "auto",
        all ["typename", call qualifiedType]],
        any [call args, call initBraces]]]
  | suffix =>
    any [
      call args,
      node "subscript_expression" (brackets (inContext 0
        (list (any [call initBraces, call expr]) ","))),
      all [absent "...", oneOf ["->", "."], any [
        cppOnly d (all [call destructorName, opt (all [call templateArgs, ahead "("])]),
        cppOnly d (all [many (all [call scope, "::"]), call operatorName]),
        all [opt "template", exprWord d,
          cppOnly d (opt (all [call templateArgs, ahead "("])) |> opt,
          many (all [cppOnly d "::", any [exprWord d, call destructorName]])]]],
      oneOf ["++", "--"]]
  | args =>
    node "argument_list" (parens (inContext 0 (list (any [all [call expr, opt "..."],
      call initBraces, if d == .c then call compound else fail]) ",")))
  | parens_ =>
    node "parenthesized_expression" (parens (inContext 0 (any [
      all [call exprs, ahead ")"],
      cppOnly d (all [call expr, oneOf ("," :: binaryOps), "...",
        opt (all [oneOf ("," :: binaryOps), call expr])]),
      cppOnly d (all ["...", oneOf ("," :: binaryOps), call expr]),
      call compound])))
  | typeParens => parens (call typeDescriptor)
  | requiresExpr =>
    node "requires_expression" (all ["requires", opt (call params), braces (many (any [
      all ["typename", call qualifiedType, ";"],
      all [call requires, ";"],
      all [braces (call expr), opt "noexcept",
        opt (node "trailing_return_type" (all ["->", call typeDescriptor])), ";"],
      all [call exprs, ";"]]))])
  | lambda =>
    node "lambda_expression" (all [
      brackets (inContext 0 (list (any [all [oneOf ["&", "="], ahead (any [",", "]"])],
        all [opt "&", "...", call expr], all [call expr, opt "..."]]) ",")),
      opt (call templateParams),
      opt (all [call params, many (any ["mutable", "constexpr", "consteval", "static",
        node "noexcept" (all ["noexcept", opt (call parens_)]), call attr]),
        opt (node "trailing_return_type" (all ["->", call typeDescriptor])),
        opt (call requires)]),
      call compound])
  | initBraces =>
    let value : R := all [any [call initBraces, call expr], opt "..."]
    node "initializer_list" (inContext 0 (braces (list (any [
      all [many1 (any [brackets (all [call expr, opt (all ["...", call expr])]),
        all [".", exprWord d]]), "=", value],
      all [".", exprWord d, call initBraces],
      all [exprWord d, litUnless ":" ":", value],
      value]) ",")))

def grammar (d : Dialect) : Rules Symbol where
  symbols := (List.range 120).map Symbol.ofNat |>.eraseDups
  rule := rule d
  index := Symbol.ctorIdx
  item := item
  fragments := [plainItem, member]
  root := "translation_unit"
  trivia := trivia

end Synopsis.Grammar.CFamily
