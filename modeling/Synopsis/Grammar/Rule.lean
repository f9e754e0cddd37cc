import Synopsis.Tree.Node

/-! Grammars as values: rules with ordered choice that build syntax trees, and their
interpreter. Blanks and comments may stand before every token; a comment becomes a child of
the innermost node with tokens on both sides of it. Rules run in a context, a number that a
language uses as it likes, for instance for the indentation of a block. -/
open Synopsis.Tree

namespace Synopsis.Grammar

/-- Given a source and a position, the end of a token that starts there. -/
abbrev Scan := Source → Nat → Option Nat

/-- A rule over the symbols `σ`. -/
inductive Rule (σ : Type) where
  /-- Consumes nothing. -/
  | done
  /-- Consumes nothing and fails. -/
  | fail
  /-- A token after blanks and comments; without a kind it leaves no node. -/
  | token (kind : String) (named : Bool) (scan : Scan)
  /-- A token that starts right here. -/
  | near (kind : String) (named : Bool) (scan : Scan)
  /-- The blanks and comments up to the position `scan` gives in the context. -/
  | gap (scan : Nat → Scan)
  /-- A condition on the context and the position, before blanks and comments. -/
  | test (p : Nat → Source → Nat → Bool)
  /-- Runs a rule in the context that `f` computes from the one here. -/
  | within (f : Nat → Source → Nat → Option Nat) (a : Rule σ)
  | call (s : σ)
  | seq (a b : Rule σ)
  /-- The first of two rules that succeeds. -/
  | alt (a b : Rule σ)
  /-- As often as it succeeds and consumes something. -/
  | many (a : Rule σ)
  | node (kind : String) (a : Rule σ)
  | field (name : String) (a : Rule σ)
  /-- Succeeds where `a` does, and consumes nothing. -/
  | ahead (a : Rule σ)
  /-- Succeeds where `a` fails, and consumes nothing. -/
  | absent (a : Rule σ)
  /-- `base`, then `step` as often as it succeeds; `left` in `step` is what came before. -/
  | grow (base step : Rule σ)
  /-- `step` as often as it succeeds, each time with what came before as `left`. -/
  | growing (step : Rule σ)
  | left

namespace Rule

instance : Inhabited (Rule σ) := ⟨done⟩

def isWordChar (c : Char) : Bool := c.isAlphanum || c == '_' || c == '$' || c.toNat ≥ 128

/-- The characters stand at a position; gives the position after them. -/
def literalEnd (s : Source) : List Char → Nat → Option Nat
  | [], i => some i
  | c :: cs, i => if s.char? i == some c then literalEnd s cs (i + 1) else none

def isWordAt (s : Source) (i : Nat) : Bool := (s.char? i).any isWordChar

/-- A literal; a word must end where the literal ends. -/
def scanLiteral (word : Bool) (cs : List Char) : Scan := fun s i =>
  match literalEnd s cs i with
  | some j => if word && isWordAt s j then none else some j
  | none => none

/-- A keyword or a piece of punctuation. -/
def lit (text : String) : Rule σ :=
  let cs := text.toList
  token text false (scanLiteral (cs.getLast?.any isWordChar) cs)

instance : Coe String (Rule σ) := ⟨lit⟩

/-- Punctuation that no character of `stop` may follow. -/
def litUnless (text stop : String) : Rule σ :=
  let cs := text.toList
  let st := stop.toList
  token text false fun s i =>
    match literalEnd s cs i with
    | some j => if (s.char? j).any st.contains then none else some j
    | none => none

/-- The longest of several literals, given longest first, that no character of `stop` follows. -/
def oneOf (texts : List String) : Rule σ :=
  let ts := texts.map fun t => (t.toList, t.toList.getLast?.any isWordChar)
  token "operator" false fun s i => ts.findSome? fun t => scanLiteral t.2 t.1 s i

def leaf (kind : String) (scan : Scan) : Rule σ := token kind true scan

def all : List (Rule σ) → Rule σ
  | [] => done
  | [r] => r
  | r :: rs => seq r (all rs)

def any : List (Rule σ) → Rule σ
  | [] => fail
  | [r] => r
  | r :: rs => alt r (any rs)

def opt (r : Rule σ) : Rule σ := alt r done

def many1 (r : Rule σ) : Rule σ := seq r (many r)

def sep1 (r s : Rule σ) : Rule σ := seq r (many (seq s r))

def parens (r : Rule σ) : Rule σ := all ["(", r, ")"]

def brackets (r : Rule σ) : Rule σ := all ["[", r, "]"]

def braces (r : Rule σ) : Rule σ := all ["\x7b", r, "\x7d"]

/-- Possibly none, and possibly a separator at the end. -/
def list (r s : Rule σ) : Rule σ := opt (all [sep1 r s, opt s])

end Rule

/-- A grammar: a rule per symbol, the symbol of one top-level item, the symbols of constructs
that stand on their own, the context of items, the kind of the root, and the blanks and
comments: the end of a piece at a position, with the kind of a comment. -/
structure Rules (σ : Type) where
  symbols : List σ
  rule : σ → Rule σ
  index : σ → Nat
  item : σ
  fragments : List σ := [item]
  context : Nat := 0
  root : String
  trivia : Source → Nat → Option (Nat × String)

/-- The kinds of named nodes that a rule can build. -/
def Rule.kinds : Rule σ → List String
  | token kind named _ | near kind named _ => if named then [kind] else []
  | node kind a => kind :: a.kinds
  | seq a b | alt a b | grow a b => a.kinds ++ b.kinds
  | many a | field _ a | growing a | within _ a => a.kinds
  | _ => []

/-- The fields that a rule can set. -/
def Rule.fields : Rule σ → List String
  | field name a => name :: a.fields
  | seq a b | alt a b | grow a b => a.fields ++ b.fields
  | many a | node _ a | growing a | within _ a => a.fields
  | _ => []

/-- What a run remembers: the results of symbols by position, each for a symbol and a context,
the furthest position where a token was missing, and the closing tokens that were. -/
structure Memo where
  results : Array (List ((Nat × Nat) × Option (List Node × Nat)))
  reach : Nat := 0
  wanted : List (Nat × String) := []

namespace Memo

def empty (n : Nat) : Memo := { results := Array.replicate (n + 1) [] }

/-- Tokens that end a construct. -/
def closers : List String := [")", "]", "\x7d", ";", ">", "\x60"]

/-- Records that a token was missing at a position. -/
def miss (m : Memo) (i : Nat) (kind : String) : Memo :=
  let wanted :=
    if closers.contains kind && !m.wanted.contains (i, kind) then (i, kind) :: m.wanted
    else m.wanted
  { m with reach := max m.reach i, wanted }

def record (m : Memo) (pos : Nat) (key : Nat × Nat) (res : Option (List Node × Nat)) : Memo :=
  { m with results := m.results.modify pos ((key, res) :: ·) }

def forget (m : Memo) : Memo := { m with reach := 0, wanted := [] }

end Memo

/-- Changes that make a source fit: closing tokens put in where they are missing, and
stretches of text left out, each as a node by the position where it starts. -/
structure Repairs where
  inserted : List (Nat × String) := []
  dropped : List (Nat × Node) := []

def mkNode (s : Source) (kind : String) (named : Bool) (start stop : Nat)
    (children : List Node) : Node :=
  { kind, named, field := "", start, stop, row := s.row start, endRow := s.row stop, children }

/-- The blanks, comments and dropped stretches from `i` up to `limit`: the nodes they leave in
reverse, and the position after them. -/
def skipTrivia (trivia : Source → Nat → Option (Nat × String)) (dropped : List (Nat × Node))
    (s : Source) (limit : Nat) : Nat → Nat → List Node → List Node × Nat
  | 0, i, acc => (acc, i)
  | fuel + 1, i, acc =>
    if i ≥ limit then (acc, i)
    else match dropped.lookup i with
      | some n =>
        if n.stop ≤ i then (acc, i) else skipTrivia trivia dropped s limit fuel n.stop (n :: acc)
      | none =>
        match trivia s i with
        | some (j, kind) =>
          if j ≤ i then (acc, i)
          else skipTrivia trivia dropped s limit fuel j
            (if kind == "" then acc else mkNode s kind true i j [] :: acc)
        | none => (acc, i)

/-- A node that may stand anywhere: a comment, or text left out. -/
def isExtra (n : Node) : Bool := n.isComment || n.kind == "html_comment" || n.kind == "ERROR"

/-- Wraps items (in reverse) into a node: comments before its first token stay outside. -/
def wrap (s : Source) (kind : String) (pos : Nat) (items acc : List Node) : List Node :=
  let (lead, inner) := items.reverse.span isExtra
  let start := (inner.head?.map (·.start)).getD pos
  let stop := (items.head?.map (·.stop)).getD pos
  mkNode s kind true start (max start stop) (inner.filter (·.kind != "")) :: (lead.reverse ++ acc)

variable {σ : Type}

/-- Runs a rule at a position. Items are collected in reverse onto `acc`. -/
def Rules.run (g : Rules σ) (fix : Repairs) (s : Source) :
    Nat → Rule σ → Nat → List Node → Nat → List Node → Memo → Option (List Node × Nat) × Memo
  | 0, _, _, _, _, _, m => (none, m)
  | fuel + 1, r, ctx, lf, pos, acc, m =>
    match r with
    | .done => (some (acc, pos), m)
    | .fail => (none, m)
    | .token kind named scan =>
      let (acc', i) := skipTrivia g.trivia fix.dropped s s.size (s.size + 1) pos acc
      match scan s i with
      | some j => (some (mkNode s kind named i j [] :: acc', j), m)
      | none =>
        if fix.inserted.contains (i, kind) then
          (some (mkNode s kind named pos pos [] :: acc, pos), m)
        else (none, m.miss i kind)
    | .near kind named scan =>
      match scan s pos with
      | some j => (some (mkNode s kind named pos j [] :: acc, j), m)
      | none =>
        if fix.inserted.contains (pos, kind) then
          (some (mkNode s kind named pos pos [] :: acc, pos), m)
        else (none, m.miss pos kind)
    | .gap scan =>
      match scan ctx s pos with
      | some j => (some (skipTrivia g.trivia fix.dropped s j (s.size + 1) pos acc), m)
      | none => (none, m)
    | .test p => (if p ctx s pos then some (acc, pos) else none, m)
    | .within f a =>
      match f ctx s pos with
      | some ctx => g.run fix s fuel a ctx lf pos acc m
      | none => (none, m)
    | .call sym =>
      let key := (g.index sym, ctx)
      match (m.results[pos]?.getD []).lookup key with
      | some none => (none, m)
      | some (some (items, j)) => (some (items ++ acc, j), m)
      | none =>
        let (res, m) := g.run fix s fuel (g.rule sym) ctx [] pos [] m
        let m := m.record pos key res
        match res with
        | some (items, j) => (some (items ++ acc, j), m)
        | none => (none, m)
    | .seq a b =>
      match g.run fix s fuel a ctx lf pos acc m with
      | (some (acc, j), m) => g.run fix s fuel b ctx lf j acc m
      | (none, m) => (none, m)
    | .alt a b =>
      match g.run fix s fuel a ctx lf pos acc m with
      | (some res, m) => (some res, m)
      | (none, m) => g.run fix s fuel b ctx lf pos acc m
    | .many a =>
      match g.run fix s fuel a ctx lf pos acc m with
      | (some (acc', j), m) =>
        if j ≤ pos then (some (acc, pos), m) else g.run fix s fuel (.many a) ctx lf j acc' m
      | (none, m) => (some (acc, pos), m)
    | .node kind a =>
      match g.run fix s fuel a ctx lf pos [] m with
      | (some (items, j), m) => (some (wrap s kind pos items acc, j), m)
      | (none, m) => (none, m)
    | .field name a =>
      match g.run fix s fuel a ctx lf pos [] m with
      | (some (items, j), m) =>
        (some (items.map (fun n => if isExtra n then n else { n with field := name }) ++ acc, j), m)
      | (none, m) => (none, m)
    | .ahead a =>
      match g.run fix s fuel a ctx lf pos [] m with
      | (some _, m) => (some (acc, pos), m)
      | (none, m) => (none, m)
    | .absent a =>
      let reach := m.reach
      let wanted := m.wanted
      match g.run fix s fuel a ctx lf pos [] m with
      | (some _, m) => (none, { m with reach, wanted })
      | (none, m) => (some (acc, pos), { m with reach, wanted })
    | .grow a b =>
      match g.run fix s fuel a ctx lf pos [] m with
      | (some (items, j), m) => g.run fix s fuel (.growing b) ctx items j acc m
      | (none, m) => (none, m)
    | .growing b =>
      match g.run fix s fuel b ctx lf pos [] m with
      | (some (items, j), m) =>
        if j ≤ pos then (some (lf ++ acc, pos), m)
        else g.run fix s fuel (.growing b) ctx items j acc m
      | (none, m) => (some (lf ++ acc, pos), m)
    | .left => (some (lf ++ acc, pos), m)

end Synopsis.Grammar
