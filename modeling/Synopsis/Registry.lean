import Synopsis.Profile

/-! Languages by tag, with their queries read. -/
open Synopsis.Tree

namespace Synopsis

/-- A profile with its queries read. -/
structure Compiled where
  profile : Profile
  query : Query
  importQuery : Option Query

/-- What a query of a language looks for. -/
inductive QueryRole where
  | signature
  | import_
  deriving DecidableEq, Repr

def QueryRole.word : QueryRole → String
  | signature => "signature"
  | import_ => "import"

/-- Why a language cannot be added. -/
inductive RegisterError where
  | grammar (tag reason : String)
  | query (role : QueryRole) (tag reason : String)
  deriving DecidableEq, Repr

def RegisterError.message : RegisterError → String
  | grammar tag reason =>
    "grammar for " ++ tag ++ " is incompatible with the tree-sitter runtime: " ++ reason
  | query role tag reason =>
    role.word ++ " query for " ++ tag ++ " failed to compile: " ++ reason

/-- Reads a query of a profile. -/
def Profile.readQuery (tag : String) (p : Profile) (role : QueryRole) (text : String) :
    Except RegisterError Query :=
  (p.parser.readQuery text).mapError (.query role tag)

/-- Reads the queries of a profile whose grammar fits the library. -/
def Profile.compile (tag : String) (p : Profile) : Except RegisterError Compiled :=
  match p.parser.refusal with
  | some reason => .error (.grammar tag reason)
  | none => do
    let query ← p.readQuery tag .signature p.query
    let importQuery ← p.importQuery.mapM (p.readQuery tag .import_)
    return ⟨p, query, importQuery⟩

/-- Languages in the order of their tags, each tag once. -/
structure Registry where
  entries : List (String × Compiled)

namespace Registry

def empty : Registry := ⟨[]⟩

def get? (r : Registry) (tag : String) : Option Compiled := r.entries.lookup tag

def languages (r : Registry) : List String := r.entries.map (·.1)

/-- Puts an entry in its place by tag, instead of one with the same tag. -/
def insertEntry (tag : String) (c : Compiled) :
    List (String × Compiled) → List (String × Compiled)
  | [] => [(tag, c)]
  | (t, d) :: rest =>
    if tag < t then (tag, c) :: (t, d) :: rest
    else if tag = t then (tag, c) :: rest
    else (t, d) :: insertEntry tag c rest

def insert (r : Registry) (tag : String) (c : Compiled) : Registry :=
  ⟨insertEntry tag c r.entries⟩

/-- Adds or replaces a language that compiles. -/
def register (r : Registry) (tag : String) (p : Profile) : Except RegisterError Registry :=
  (p.compile tag).map (r.insert tag)

/-- Adds the languages that compile. -/
def addAll (r : Registry) (ps : List (String × Profile)) : Registry :=
  ps.foldl (fun r (tag, p) => ((r.register tag p).toOption).getD r) r

end Registry

end Synopsis
