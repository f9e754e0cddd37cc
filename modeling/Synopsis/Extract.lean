import Synopsis.Registry
import Synopsis.Tree.Doc

/-! Declarations and imports of one source text. -/
open Synopsis.Tree

namespace Synopsis

/-- What a match says about a declaration. -/
structure Candidate where
  name : String := ""
  text : String := ""
  doc : Option String := none
  line : Nat := 0
  endLine : Nat := 0
  decl : Option Place := none
  kindNode : Option Node := none

namespace Candidate

/-- Adds a capture; captures without a role say nothing. -/
def add (p : Profile) (s : Source) (c : Candidate) (capture : String × Place) : Candidate :=
  let (role, place) := capture
  let node := place.node
  if !p.roles.contains role then c
  else match role with
    | "name" => { c with name := node.text s }
    | "signature" =>
      { c with
        text := Text.trimmed (node.text s)
        line := node.row + 1
        endLine := node.endRow + 1
        decl := some place }
    | "doc" => { c with doc := some (Comment.cleaned (node.text s)) }
    | "kind" => { c with kindNode := some node }
    | _ => c

def ofMatch (p : Profile) (s : Source) (m : Match) : Candidate := m.captures.foldl (add p s) {}

/-- The kind of node that decides the kind of the declaration. -/
def nodeKind? (c : Candidate) : Option String :=
  (c.kindNode.map (·.kind)).or (c.decl.map (·.node.kind))

/-- The kind of an acceptable candidate: it has a node, the language keeps it, and its name
and text are not empty. -/
def accept? (p : Profile) (c : Candidate) : Option Kind := do
  let nodeKind ← c.nodeKind?
  let kind ← p.reclassify nodeKind (p.kindOf nodeKind) c.text
  if c.name.isEmpty || c.text.isEmpty then none else some kind

def signature (p : Profile) (s : Source) (tag : String) (o : Options) (c : Candidate)
    (kind : Kind) : Signature where
  name := c.name
  kind := kind
  text := if o.includeBody then c.text else p.strip kind c.text
  doc := c.doc.getD ((c.decl.map (·.doc s)).getD "")
  line := c.line
  endLine := c.endLine
  language := tag
  exported := p.isExported c.name c.text o

end Candidate

/-- The signatures of candidates: the first acceptable one of each line, and of these the
public ones unless all are wanted. -/
def signaturesOf (p : Profile) (s : Source) (tag : String) (o : Options) :
    List Nat → List Candidate → List Signature
  | _, [] => []
  | seen, c :: cs =>
    match c.accept? p with
    | none => signaturesOf p s tag o seen cs
    | some kind =>
      if seen.contains c.line then signaturesOf p s tag o seen cs
      else
        let rest := signaturesOf p s tag o (c.line :: seen) cs
        if o.includePrivate || p.isExported c.name c.text o then
          c.signature p s tag o kind :: rest
        else rest

/-- A dependency being read from a match, and whether a marker makes it an export. -/
structure DependencyDraft where
  direction : Direction := .import_
  path : String := ""
  name : String := ""
  line : Nat := 0
  marked : Bool := false
  deriving DecidableEq, Repr, Inhabited

namespace DependencyDraft

def add (p : Profile) (s : Source) (d : DependencyDraft) (capture : String × Place) :
    DependencyDraft :=
  let node := capture.2.node
  match capture.1 with
  | "import_path" =>
    { d with
      path := p.normalizeImport (node.text s), line := node.row + 1, direction := .import_ }
  | "export_name" =>
    { d with name := node.text s, line := node.row + 1, direction := .export_ }
  | "export_type" => { d with marked := true }
  | _ => d

/-- The record, if the match gave a path or a name. -/
def finish (d : DependencyDraft) : Option Dependency :=
  if d.path.isEmpty && d.name.isEmpty then none
  else some {
    direction := if d.marked && !d.path.isEmpty then .export_ else d.direction
    path := d.path, name := d.name, line := d.line }

end DependencyDraft

/-- Keeps the first record of each direction, path and name. -/
def firstRecords (seen : List (Direction × String × String)) :
    List Dependency → List Dependency
  | [] => []
  | d :: ds =>
    let key := (d.direction, d.path, d.name)
    if seen.contains key then firstRecords seen ds
    else d :: firstRecords (key :: seen) ds

def dependenciesOf (p : Profile) (s : Source) (ms : List Match) : List Dependency :=
  firstRecords [] (ms.filterMap fun m => (m.captures.foldl (DependencyDraft.add p s) {}).finish)

/-- Everything extracted from one source text. -/
structure Extraction where
  language : String
  signatures : List Signature
  imports : List Dependency
  deriving DecidableEq, Repr, Inhabited

/-- Why nothing is extracted from a source. -/
inductive ExtractError where
  | unsupportedLanguage (tag : String)
  | parseFailed (tag reason : String)
  deriving DecidableEq, Repr

def ExtractError.message : ExtractError → String
  | unsupportedLanguage tag => "unsupported language: " ++ tag
  | parseFailed tag reason => "failed to parse " ++ tag ++ " source: " ++ reason

/-- The declarations in the tree of a source, and its imports if they are wanted. -/
def Compiled.extractFrom (c : Compiled) (tag : String) (s : Source) (root : Node) (o : Options) :
    Extraction where
  language := tag
  signatures := signaturesOf c.profile s tag o []
    ((c.query.matchesIn s root).map (Candidate.ofMatch c.profile s))
  imports :=
    match o.includeImports, c.importQuery with
    | true, some q => dependenciesOf c.profile s (q.matchesIn s root)
    | _, _ => []

/-- Extracts from the tree of a source, if there is one. -/
def Compiled.extract (c : Compiled) (tag source : String) (o : Options) :
    Except ExtractError Extraction :=
  match c.profile.parser.tree source with
  | .ok root => .ok (c.extractFrom tag (.ofString source) root o)
  | .error reason => .error (.parseFailed tag reason)

def Registry.extract (r : Registry) (source tag : String) (o : Options) :
    Except ExtractError Extraction :=
  match r.get? tag with
  | some c => c.extract tag source o
  | none => .error (.unsupportedLanguage tag)

end Synopsis
