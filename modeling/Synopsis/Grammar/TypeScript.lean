import Synopsis.Grammar.Lexeme

/-! The grammar of TypeScript, with JavaScript as a part of it. Expressions and types are kept
flat. The context is 1 where a line end can close a statement, 0 inside brackets, and 2 where
moreover a colon does not start the result type of an arrow function. -/
open Synopsis.Tree

namespace Synopsis.Grammar.TypeScript
open Rule Lexeme

inductive Symbol where
  | item | statement | export_ | exportSpecifier | import_ | importAttribute | ambient
  | function | generator | functionSignature | class_ | abstractClass | heritage
  | lexical | variable_ | declarator | enum | interface | typeAlias | module_ | moduleBody
  | block | ifStmt | forStmt | switchStmt | tryStmt | labeled | declaration | decorator
  | classBody | classMember | method | methodSignature | fieldDef | memberModifier | propName
  | callSignature | returnType | params | param | pattern
  | typeParams | typeArgs | type | typeOperand | typePrimary | objectType | typeMember
  | typeAnnotation | tupleElement
  | exprs | expr | value | unary | primary | suffix | arrow | functionExpr | classExpr | object
  | objectMember | array | args | template | parens_ | binaryTail
  | jsx | jsxAttribute | jsxChild | jsxName
  deriving DecidableEq, Repr

open Synopsis.Grammar.TypeScript.Symbol

abbrev R := Rule Symbol

def isNameChar (c : Char) : Bool :=
  c.isAlphanum || c == '_' || c == '$' ||
    (c.toNat ≥ 128 && !(c.toNat == 0xA0 || c.toNat == 0xFEFF || c.toNat == 0x2060 ||
      c.toNat == 0x200B || c.toNat == 0x2028 || c.toNat == 0x2029 || c.toNat == 0x1680 ||
      (0x2000 ≤ c.toNat && c.toNat ≤ 0x200A) || c.toNat == 0x202F || c.toNat == 0x205F ||
      c.toNat == 0x3000))

def isNameStart (c : Char) : Bool := isNameChar c && !c.isDigit

def isScriptSpace (c : Char) : Bool :=
  isSpace c || (c.toNat ≥ 128 && !isNameChar c)

/-- Only blanks stand before the position on its line. -/
def startsLine (s : Source) : Nat → Bool
  | 0 => true
  | i + 1 =>
    match s.char? i with
    | some '\n' => true
    | some c => isScriptSpace c && startsLine s i
    | none => true

def trivia (s : Source) (i : Nat) : Option (Nat × String) :=
  match s.char? i with
  | none => none
  | some c =>
    if isScriptSpace c then some (i + 1, "")
    else if c == '/' then
      match lineComment ['/', '/'] s i with
      | some j => some (j, "comment")
      | none => (blockComment s i).map (·, "comment")
    else if c == '<' then
      (lineComment ['<', '!', '-', '-'] s i).map (·, "html_comment")
    else if c == '-' && startsLine s i then
      (lineComment ['-', '-', '>'] s i).map (·, "html_comment")
    else none

/-- The end of the comments that start on this line. -/
def sameLineComments (s : Source) : Nat → Nat → Nat → Nat
  | 0, _, last => last
  | fuel + 1, i, last =>
    match s.char? i with
    | none => last
    | some c =>
      if c == '\n' then last
      else if isScriptSpace c then sameLineComments s fuel (i + 1) last
      else if c == '/' then
        match trivia s i with
        | some (j, _) => sameLineComments s fuel j j
        | none => last
      else last

def isLetter (c : Char) : Bool := c.isAlpha || c.toNat ≥ 128

/-- Whether the token at a position, first on its line, lets a statement end before it. After
an expression, a bracket goes on with it. `signature` says that a body may follow. -/
def endsBefore (afterExpr signature : Bool) (s : Source) (i : Nat) : Bool :=
  match s.char? i with
  | none => true
  | some c =>
    if "\x60,.;*%><=?^|&/:".toList.contains c then false
    else if c == '\x7b' then !signature
    else if c == '(' || c == '[' then !afterExpr
    else if c == '+' then s.char? (i + 1) == some '+'
    else if c == '-' then s.char? (i + 1) == some '-'
    else if c == '!' then s.char? (i + 1) != some '='
    else if c == 'i' then
      if s.char? (i + 1) != some 'n' then true
      else if !(s.char? (i + 2)).any isLetter then false
      else match literalEnd s "stanceof".toList (i + 2) with
        | some j => (s.char? j).any isLetter
        | none => true
    else true

/-- A semicolon may be left out at a position: at the end, before a closing brace, or at a
line end whose next token does not continue. -/
def omitted (afterExpr signature : Bool) (s : Source) : Nat → Nat → Bool
  | 0, _ => true
  | fuel + 1, i =>
    match s.char? i with
    | none => true
    | some c =>
      if c == '\x7d' then
        let j := skipWhile isScriptSpace s (i + 1)
        if s.char? j == some ':' then afterExpr else true
      else if c == '\n' then
        let j := (skipTrivia trivia [] s s.size (s.size + 1) (i + 1) []).2
        endsBefore afterExpr signature s j
      else if isScriptSpace c then omitted afterExpr signature s fuel (i + 1)
      else false

def ends (afterExpr signature : Bool) (s : Source) (i : Nat) : Bool :=
  omitted afterExpr signature s s.size (sameLineComments s s.size i i)

def zeroWidth : R := near "" false fun _ i => some i

/-- A semicolon left out, after the comments on its line. -/
def automatic (afterExpr signature : Bool) : R :=
  all [test fun _ => ends afterExpr signature,
    gap fun _ s i => some (sameLineComments s s.size i i), zeroWidth]

def semicolon : R := any [";", automatic true false]

def typeSemicolon : R := any [";", automatic false false]

/-- No statement end here. -/
def goesOn : R := test fun ctx s i => ctx != 1 || !ends true false s i

def typeGoesOn : R := test fun ctx s i => ctx != 1 || !ends false false s i

/-- The next token stands on this line. -/
def here : R := test fun _ s i => sameLine trivia s i

def free (r : R) : R := within (fun _ _ _ => some 0) r

def lines (r : R) : R := within (fun _ _ _ => some 1) r

def colonless (r : R) : R := within (fun _ _ _ => some 2) r

def reserved : List String :=
  ["break", "case", "catch", "class", "const", "continue", "debugger", "default", "delete", "do",
   "else", "enum", "export", "extends", "finally", "for", "function", "if", "import", "in",
   "instanceof", "new", "return", "super", "switch", "this", "throw", "try", "typeof", "var",
   "void", "while", "with", "null", "true", "false"]

def isHexDigit (c : Char) : Bool :=
  c.isDigit || ('a' ≤ c && c ≤ 'f') || ('A' ≤ c && c ≤ 'F')

/-- The end of a letter written as an escape: four digits, or any number of them in braces. -/
def escapeEnd : Scan := fun s i =>
  match literalEnd s ['\\', 'u', '\x7b'] i with
  | some j =>
    let k := skipWhile isHexDigit s j
    if j < k then literalEnd s ['\x7d'] k else none
  | none => do
    let j ← literalEnd s ['\\', 'u'] i
    if j + 4 ≤ skipWhile isHexDigit s j then some (j + 4) else none

/-- The end of the first letter of a name. -/
def firstEnd : Scan := fun s i =>
  if (s.char? i).any isNameStart then some (i + 1) else escapeEnd s i

/-- The end of the rest of a name. -/
def nameEnd (s : Source) : Nat → Nat → Nat
  | 0, i => i
  | fuel + 1, i =>
    if (s.char? i).any isNameChar then nameEnd s fuel (i + 1)
    else match escapeEnd s i with
      | some j => nameEnd s fuel j
      | none => i

/-- A name, in which letters may be escapes, that is not reserved. -/
def scriptName (reserved : List String) : Scan :=
  let taken := reserved.map String.toList
  fun s i => do
    let j ← firstEnd s i
    let k := nameEnd s s.size j
    if taken.contains (between s i k) then none else some k

def ident (kind : String) : R := leaf kind (scriptName reserved)

def privateName : Scan := fun s i =>
  if s.char? i == some '#' then scriptName [] s (i + 1) else none

def anyIdent (kind : String) : R := leaf kind (scriptName [])

/-- Keywords that are plain identifiers where they end a statement. -/
def softWords : List String :=
  ["declare", "namespace", "type", "public", "private", "protected", "override", "readonly",
   "module", "any", "number", "boolean", "string", "symbol", "export", "object", "new", "get",
   "set", "async", "static", "let"]

def string : R :=
  leaf "string" fun s i => (quoted '"' true false s i).or (quoted '\'' true false s i)

/-- The end of a regular expression after its opening slash. -/
def regexEnd (s : Source) : Nat → Bool → Nat → Option Nat
  | 0, _, _ => none
  | fuel + 1, inClass, i =>
    match s.char? i with
    | none => none
    | some c =>
      if c == '\n' then none
      else if c == '\\' then regexEnd s fuel inClass (i + 2)
      else if c == '[' then regexEnd s fuel true (i + 1)
      else if c == ']' then regexEnd s fuel false (i + 1)
      else if c == '/' && !inClass then some (skipWhile isNameChar s (i + 1))
      else regexEnd s fuel inClass (i + 1)

def regex : R :=
  leaf "regex" fun s i =>
    if s.char? i == some '/' then regexEnd s s.size false (i + 1) else none

def templateChars (s : Source) : Nat → Nat → Nat
  | 0, i => i
  | fuel + 1, i =>
    match s.char? i with
    | none => i
    | some c =>
      if c == '\x60' then i
      else if c == '$' && s.char? (i + 1) == some '\x7b' then i
      else if c == '\\' && i + 1 < s.size then templateChars s fuel (i + 2)
      else templateChars s fuel (i + 1)

def jsxTextEnd : Scan := fun s i =>
  let j := skipWhile (fun c => c != '<' && c != '>' && c != '\x7b' && c != '\x7d') s i
  if j > i then some j else none

def binaryOps : R :=
  oneOf [">>>=", "**=", "<<=", ">>=", "&&=", "||=", "??=", ">>>", "===", "!==", "**", "<<", ">>",
    "<=", ">=", "==", "!=", "&&", "||", "??", "+=", "-=", "*=", "/=", "%=", "&=", "|=", "^=",
    "+", "-", "*", "/", "%", "&", "|", "^", "<", ">", "instanceof", "in"]

def assign : R := litUnless "=" "=>"

def from_ : R := all ["from", field "source" string]

/-- The word is a modifier: a name follows, not a parameter list or an assignment. -/
def modifierWord (w : String) : R :=
  all [lit w, ahead (any [call propName, "*", "#", "["])]

def asyncWord : R := all ["async", here]

def rule (tsx : Bool) : Symbol → R
  | item =>
    any [leaf "hash_bang_line" fun s i =>
        if i == 0 then lineComment ['#', '!'] s i else none,
      call statement]
  | statement =>
    any [
      node "expression_statement" (all [oneOf softWords, automatic true false]),
      call export_, call import_, call declaration,
      call block, node "empty_statement" ";",
      call ifStmt, call forStmt, call switchStmt, call tryStmt,
      node "while_statement" (all ["while", call parens_, call statement]),
      node "do_statement" (all ["do", call statement, "while", call parens_, opt semicolon]),
      node "with_statement" (all ["with", call parens_, call statement]),
      node "break_statement" (all ["break", opt (all [here, ident "statement_identifier"]),
        semicolon]),
      node "continue_statement" (all ["continue", opt (all [here, ident "statement_identifier"]),
        semicolon]),
      node "debugger_statement" (all ["debugger", semicolon]),
      node "return_statement" (all ["return", opt (all [typeGoesOn, call exprs]), semicolon]),
      node "throw_statement" (all ["throw", call exprs, semicolon]),
      call labeled,
      node "expression_statement" (all [call exprs, semicolon])]
  | declaration =>
    any [call function, call generator, call functionSignature, call class_, call abstractClass,
      call enum, call lexical, call variable_, call interface, call typeAlias, call module_,
      call ambient,
      node "import_alias" (all ["import", ident "identifier", assign, sep1 (ident "identifier") ".",
        semicolon])]
  | export_ =>
    let clause : R := node "export_clause" (braces (free (list (call exportSpecifier) ",")))
    node "export_statement" (all [many (field "decorator" (call decorator)), "export", any [
      all ["*", from_, opt (call importAttribute), semicolon],
      all [node "namespace_export" (all ["*", "as", any [anyIdent "identifier", string]]), from_,
        opt (call importAttribute), semicolon],
      all [opt "type", clause, from_, opt (call importAttribute), semicolon],
      all [opt "type", clause, semicolon],
      all ["=", call expr, semicolon],
      all ["as", "namespace", ident "identifier", semicolon],
      all ["default", any [
        field "declaration" (call declaration),
        all [field "value" (node "expression" (call expr)), semicolon]]],
      field "declaration" (call declaration)]])
  | exportSpecifier =>
    let nm : R := any [anyIdent "identifier", string]
    any [
      node "export_specifier" (all [any ["type", "typeof"], absent (any ["as", ",", "\x7d"]),
        field "name" nm, opt (all ["as", field "alias" nm])]),
      node "export_specifier" (all [field "name" nm, opt (all ["as", field "alias" nm])])]
  | import_ =>
    let named : R := node "named_imports" (braces (free (list (node "import_specifier" (all [
      opt (all ["type", ahead (any [anyIdent "", string])]), any [anyIdent "identifier", string],
      opt (all ["as", ident "identifier"])])) ",")))
    let star : R := node "namespace_import" (all ["*", "as", ident "identifier"])
    node "import_statement" (all ["import", any [
      all [opt (all [any ["type", "typeof"], ahead (ident "identifier")]),
        node "import_require_clause" (all [ident "identifier", assign, "require", "(",
          field "source" string, ")"]), opt (call importAttribute), semicolon],
      all [field "source" string, opt (call importAttribute), semicolon],
      all [opt (all [any ["type", "typeof"],
          ahead (any [ident "identifier", "\x7b", "*"]), absent (all ["from", string])]),
        node "import_clause" (any [star, named,
          all [ident "identifier", opt (all [",", any [star, named]])]]),
        from_, opt (call importAttribute), semicolon]]])
  | importAttribute =>
    node "import_attribute" (all [any ["with", "assert"], call object])
  | ambient =>
    node "ambient_declaration" (all ["declare", any [
      all ["global", call block],
      call declaration]])
  | function =>
    node "function_declaration" (all [opt asyncWord, "function", field "name" (ident "identifier"),
      call callSignature, field "body" (call block)])
  | generator =>
    node "generator_function_declaration" (all [opt asyncWord, "function", "*",
      field "name" (ident "identifier"), call callSignature, field "body" (call block)])
  | functionSignature =>
    node "function_signature" (all [opt asyncWord, "function", field "name" (ident "identifier"),
      call callSignature, any [";", automatic false true]])
  | class_ =>
    node "class_declaration" (all [many (field "decorator" (call decorator)), "class",
      field "name" (ident "type_identifier"), opt (call typeParams), opt (call heritage),
      field "body" (call classBody), opt (automatic false false)])
  | abstractClass =>
    node "abstract_class_declaration" (all [many (field "decorator" (call decorator)), "abstract",
      "class", field "name" (ident "type_identifier"), opt (call typeParams), opt (call heritage),
      field "body" (call classBody)])
  | heritage =>
    node "class_heritage" (many1 (any [
      node "extends_clause" (all ["extends", sep1 (all [call unary, opt (call typeArgs)]) ","]),
      node "implements_clause" (all ["implements", sep1 (free (call type)) ","])]))
  | lexical =>
    node "lexical_declaration" (all [any ["let", "const"], absent "enum",
      sep1 (call declarator) ",", semicolon])
  | variable_ =>
    node "variable_declaration" (all ["var", sep1 (call declarator) ",", semicolon])
  | declarator =>
    node "variable_declarator" (all [
      field "name" (any [ident "identifier", call object, call array]),
      opt "!", opt (call typeAnnotation),
      opt (all [goesOn, assign, field "value" (call value)])])
  | enum =>
    node "enum_declaration" (all [opt "const", "enum", field "name" (ident "identifier"),
      field "body" (node "enum_body" (braces (free (list (all [call propName,
        opt (all [assign, call expr])]) ","))))])
  | interface =>
    node "interface_declaration" (all ["interface", field "name" (ident "type_identifier"),
      opt (call typeParams),
      opt (node "extends_type_clause" (all ["extends", sep1 (free (call typeOperand)) ","])),
      field "body" (node "interface_body" (call objectType))])
  | typeAlias =>
    node "type_alias_declaration" (all ["type", field "name" (ident "type_identifier"),
      opt (call typeParams), assign, field "value" (call type), typeSemicolon])
  | module_ =>
    any [node "internal_module" (all ["namespace", call moduleBody]),
      node "module" (all ["module", call moduleBody])]
  | moduleBody =>
    all [field "name" (any [string, sep1 (ident "identifier") "."]),
      any [field "body" (call block), typeSemicolon]]
  | block =>
    node "statement_block" (all [lines (braces (many (call statement))),
      opt (automatic false false)])
  | ifStmt =>
    node "if_statement" (all ["if", call parens_, call statement,
      opt (node "else_clause" (all ["else", call statement]))])
  | forStmt =>
    any [
      node "for_in_statement" (all ["for", opt "await", "(", free (all [
        opt (any ["const", "let", "var", all ["using", ahead (ident "identifier")]]),
        any [all [any [ident "identifier", call object, call array], any ["of", "in"]],
          all [call unary, any ["of", "in"]]],
        call exprs]), ")", call statement]),
      node "for_statement" (all ["for", "(", free (all [
        any [call lexical, call variable_, ";", all [call exprs, ";"]],
        any [";", all [call exprs, ";"]], opt (call exprs)]), ")", call statement])]
  | switchStmt =>
    node "switch_statement" (all ["switch", call parens_, node "switch_body" (lines (braces (many
      (any [
        node "switch_case" (all ["case", free (call exprs), ":",
          many (all [absent (any ["case", "default"]), call statement])]),
        node "switch_default" (all ["default", ":",
          many (all [absent (any ["case", "default"]), call statement])])]))))])
  | tryStmt =>
    node "try_statement" (all ["try", call block,
      opt (node "catch_clause" (all ["catch",
        opt (all ["(", free (all [call pattern, opt (call typeAnnotation)]), ")"]), call block])),
      opt (node "finally_clause" (all ["finally", call block]))])
  | labeled =>
    node "labeled_statement" (all [ident "statement_identifier", ":", call statement])
  | decorator =>
    node "decorator" (all ["@", any [call parens_,
      all [sep1 (anyIdent "identifier") ".", many (all [opt (call typeArgs), call args])]]])
  | classBody => node "class_body" (lines (braces (many (call classMember))))
  | classMember =>
    any [
      ";",
      node "class_static_block" (all ["static", call block]),
      all [many (call decorator), call method, opt (any [";", automatic false false])],
      all [call methodSignature, any [",", ";", automatic false true]],
      all [node "index_signature" (all [many (call memberModifier),
          "[", ident "identifier", any [all [":", free (call type)],
            all ["in", free (call type), opt (all ["as", free (call type)])]],
          "]", opt (oneOf ["-?", "+?", "?"]), opt (call typeAnnotation)]),
        any [",", typeSemicolon]],
      all [call fieldDef, any [",", semicolon]]]
  | memberModifier =>
    any ((["declare", "public", "private", "protected", "static", "override", "readonly",
      "abstract", "accessor", "async", "get", "set"]).map modifierWord)
  | method =>
    node "method_definition" (all [many (call memberModifier), opt "*",
      field "name" (call propName), opt "?", call callSignature, field "body" (call block)])
  | methodSignature =>
    any [
      node "abstract_method_signature" (all [many (all [absent "abstract", call memberModifier]),
        modifierWord "abstract", many (call memberModifier), opt "*",
        field "name" (call propName), opt "?", call callSignature]),
      node "method_signature" (all [many (call memberModifier), opt "*",
        field "name" (call propName), opt "?", call callSignature])]
  | fieldDef =>
    node "public_field_definition" (all [many (field "decorator" (call decorator)),
      many (call memberModifier), field "name" (call propName), opt (oneOf ["?", "!"]),
      opt (call typeAnnotation),
      opt (all [goesOn, assign, field "value" (call value)])])
  | propName =>
    any [
      leaf "private_property_identifier" privateName,
      anyIdent "property_identifier", string, leaf "number" number,
      node "computed_property_name" (brackets (free (call exprs)))]
  | callSignature =>
    all [opt (field "type_parameters" (call typeParams)), field "parameters" (call params),
      opt (field "return_type" (call returnType))]
  | returnType => node "type_annotation" (all [":", call type])
  | params => node "formal_parameters" (parens (free (list (call param) ",")))
  | param =>
    node "required_parameter" (all [many (call decorator),
      many (any ((["public", "private", "protected", "override", "readonly"]).map fun w =>
        all [lit w, ahead (call pattern)])),
      field "pattern" (call pattern), opt "?", opt (call typeAnnotation),
      opt (all [assign, field "value" (call expr)])])
  | pattern =>
    any [all ["...", call pattern], call object, call array, "this",
      leaf "identifier" (scriptName reserved)]
  | typeAnnotation => field "type" (node "type_annotation" (all [":", call type]))
  | typeParams =>
    node "type_parameters" (all ["<", free (all [sep1 (node "type_parameter" (all [
      many (any [all ["const", ahead (ident "")], all ["in", ahead (ident "")],
        all ["out", ahead (ident "")]]),
      ident "type_identifier", opt (all ["extends", call type]),
      opt (all [assign, call type])])) ",", opt ","]), ">"])
  | typeArgs => node "type_arguments" (all ["<", free (all [sep1 (call type) ",", opt ","]), ">"])
  | type =>
    all [call typeOperand, many (all [typeGoesOn, any [
      all [oneOf ["|", "&"], call typeOperand],
      all ["extends", call typeOperand,
        many (all [typeGoesOn, oneOf ["|", "&"], call typeOperand]),
        "?", call type, ":", call type],
      all ["is", call typeOperand]]])]
  | typeOperand =>
    all [opt (oneOf ["|", "&"]),
      many (any ((["keyof", "unique", "readonly", "asserts"]).map fun w =>
        all [lit w, ahead (call typePrimary)])),
      any [all ["infer", ident "type_identifier", opt (all ["extends", call typeOperand])],
        call typePrimary],
      many (all [typeGoesOn, any [all ["[", "]"],
        all ["[", free (call type), "]"]]])]
  | typePrimary =>
    any [
      node "function_type" (all [opt (any [all ["abstract", "new"], "new"]), opt (call typeParams),
        call params, "=>", call type]),
      node "parenthesized_type" (parens (free (call type))),
      node "object_type" (call objectType),
      node "tuple_type" (brackets (free (list (call tupleElement) ","))),
      call template, string, leaf "number" number, all ["-", leaf "number" number],
      node "type_query" (all ["typeof", sep1 (any [all ["import", call args],
          all [any [leaf "private_property_identifier" privateName, anyIdent "identifier",
            call parens_], opt (brackets (free (call type)))]])
        (litUnless "." "."), opt (all [here, call typeArgs])]),
      all ["import", call parens_, many (all [".", anyIdent "identifier"]), opt (call typeArgs)],
      node "this_type" "this",
      any (["void", "null", "true", "false"].map lit),
      all [sep1 (leaf "type_identifier" (scriptName reserved)) ".",
        opt (all [here, call typeArgs])]]
  | tupleElement =>
    all [opt "...", opt (all [anyIdent "identifier", opt "?", ":"]), call type, opt "?"]
  | objectType =>
    lines (all ["\x7b", opt (oneOf ["|", ",", ";"]), many (all [call typeMember,
      any [",", typeSemicolon, ahead "\x7d"]]), "\x7d"])
  | typeMember =>
    any [
      node "call_signature" (all [opt (any [all ["abstract", "new"], "new"]), call callSignature]),
      node "index_signature" (all [many (any ["readonly", oneOf ["+", "-"]]), "[",
        ident "identifier", any [all [":", free (call type)],
          all ["in", free (call type), opt (all ["as", free (call type)])]],
        "]", opt (oneOf ["-?", "+?", "?"]), opt (call typeAnnotation)]),
      node "method_signature" (all [many (call memberModifier), field "name" (call propName),
        opt "?", call callSignature]),
      node "property_signature" (all [many (call memberModifier), field "name" (call propName),
        opt "?", opt (call typeAnnotation)])]
  | exprs => sep1 (call expr) ","
  | expr => all [call unary, many (all [goesOn, call binaryTail])]
  | value =>
    any [all [call arrow, absent (all [goesOn, any [call suffix, call binaryTail]])],
      node "expression" (call expr)]
  | binaryTail =>
    any [
      all [absent "=>", litUnless "=" "=>", call expr],
      all [absent "?.", "?", free (call expr), ":", call expr],
      all [absent "?.", "?", colonless (call expr), ":", call expr],
      all [here, any ["as", "satisfies"], any [all ["const", absent (ident "")], call type]],
      all [binaryOps, call unary]]
  | unary =>
    any [
      all [call arrow, many (all [goesOn, call suffix])],
      all ["yield", opt "*", opt (all [here, call expr])],
      all [many (any [oneOf ["...", "++", "--", "!", "~", "+", "-"],
          any (["typeof", "void", "delete", "await"].map lit), all ["new", absent "."]]),
        call primary, many (all [goesOn, call suffix])]]
  | primary =>
    any [
      call functionExpr, call classExpr, call parens_, call array, call object, call template,
      string, leaf "number" number, regex,
      all ["import", any [ahead "(", all [".", "meta"]]],
      all ["new", ".", "target"],
      any (["this", "super", "null", "true", "false"].map lit),
      leaf "private_property_identifier" privateName,
      if tsx then call jsx else all ["<", free (call type), ">", call unary],
      ident "identifier"]
  | suffix =>
    any [
      all [oneOf ["?.", "."], any [leaf "private_property_identifier" privateName,
        anyIdent "property_identifier"]],
      all [opt "?.", call args],
      all [opt "?.", brackets (free (call exprs))],
      call template,
      all [here, oneOf ["++", "--"]],
      all [here, litUnless "!" "="],
      all [call typeArgs, any [call args, call template,
        absent (any [ident "", string, leaf "number" number, "(", "[", "\x7b"])]]]
  | arrow =>
    node "arrow_function" (all [
      any [
        all [opt asyncWord, field "parameter" (ident "identifier"), here, "=>"],
        all [opt asyncWord, test fun ctx _ _ => ctx != 2, call callSignature, "=>"],
        all [opt asyncWord, test fun ctx _ _ => ctx == 2,
          opt (field "type_parameters" (call typeParams)), field "parameters" (call params),
          "=>"]],
      field "body" (any [call block, call expr])])
  | functionExpr =>
    node "function_expression" (all [opt asyncWord, "function", opt "*",
      opt (field "name" (ident "identifier")), call callSignature, field "body" (call block)])
  | classExpr =>
    node "class" (all [many (call decorator), opt (all ["abstract", ahead "class"]), "class",
      opt (all [absent (any ["extends", "implements"]), field "name" (ident "type_identifier")]),
      opt (call typeParams), opt (call heritage), field "body" (call classBody)])
  | object => node "object" (braces (free (list (call objectMember) ",")))
  | objectMember =>
    any [
      all ["...", call expr],
      call method,
      node "pair" (all [field "key" (call propName), ":",
        field "value" (call value)]),
      all [ident "shorthand_property_identifier", opt (all [assign, call expr])]]
  | array => node "array" (brackets (free (all [many ",", list (call expr) (many1 ",")])))
  | args => node "arguments" (parens (free (list (call expr) ",")))
  | template =>
    node "template_string" (all ["\x60",
      many (any [
        near "string_fragment" true (fun s i =>
          let j := templateChars s s.size i
          if j > i then some j else none),
        node "template_substitution" (all [near "$\x7b" false (scanLiteral false ['$', '\x7b']),
          free (any [all [call exprs, ahead "\x7d"], call type]), "\x7d"])]),
      near "\x60" false (scanLiteral false ['\x60'])])
  | parens_ =>
    node "parenthesized_expression" (parens (free (all [call exprs, opt (call typeAnnotation)])))
  | jsx =>
    let children : R := many (any [near "jsx_text" true jsxTextEnd, call jsxChild])
    any [
      node "jsx_self_closing_element" (all ["<", call jsxName, opt (call typeArgs),
        many (call jsxAttribute), "/", ">"]),
      node "jsx_element" (all ["<", opt (all [call jsxName, opt (call typeArgs),
        many (call jsxAttribute)]), ">", children, "<", "/", opt (call jsxName), ">"])]
  | jsxName =>
    all [leaf "identifier" (word isNameStart (fun c => isNameChar c || c == '-') []),
      many (all [oneOf [".", ":"],
        leaf "identifier" (word isNameStart (fun c => isNameChar c || c == '-') [])])]
  | jsxAttribute =>
    any [
      node "jsx_expression" (braces (free (opt (call exprs)))),
      node "jsx_attribute" (all [call jsxName, opt (all ["=", any [
        leaf "string" (fun s i => (quoted '"' false true s i).or (quoted '\'' false true s i)),
        node "jsx_expression" (braces (free (opt (call exprs)))), call jsx]])])]
  | jsxChild =>
    any [node "jsx_expression" (braces (free (opt (call exprs)))),
      all [absent (all ["<", "/"]), call jsx]]

def grammar (tsx : Bool) : Rules Symbol where
  symbols := (List.range 120).map Symbol.ofNat |>.eraseDups
  rule := rule tsx
  index := Symbol.ctorIdx
  item := item
  fragments := [statement, classMember]
  context := 1
  root := "program"
  trivia := trivia

end Synopsis.Grammar.TypeScript
