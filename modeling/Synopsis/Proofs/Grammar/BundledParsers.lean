import Synopsis.Builtin
import Synopsis.Proofs.Grammar.Compiling
import Synopsis.Proofs.Grammar.EdgedScripts
import Synopsis.Proofs.LineSpan
import Synopsis.Proofs.LoneComment

/-! The parsers that come with the program keep the laws of a parsing library, and all built-in
languages compile over them. So what holds over lawful parsers holds over these, and where a source
fits its grammar, the lines of a signature are those of its text but for directives. -/
open Synopsis.Tree

namespace Synopsis

namespace Grammar

variable {σ : Type}

theorem sited_inductive (s : Source) : Inductive s (Sited s) where
  node _ _ _ _ _ horder hchildren := .mk _ rfl rfl horder hchildren
  field n name hn := by
    obtain ⟨_, hrow, hend, horder, hchildren⟩ := hn
    exact .mk _ hrow hend horder hchildren

/-- The parser of an orderly grammar is lawful. -/
theorem Orderly.lawful_parser {g : Rules σ} (hg : Orderly g) : g.parser.Lawful where
  query := lawful_of_readQuery g.vocabulary
  names := names_of_readQuery g.vocabulary
  sited text root h := by
    obtain rfl : g.parse text = root := Option.some.inj h
    exact (sited_inductive _).parse g hg text

/-! ### Edges of nodes -/

/-- The characters between two positions of a text. -/
def span (cs : List Char) (i j : Nat) : List Char := (cs.take j).drop i

theorem text_ofString (source : String) (n : Node) :
    (n.text (Source.ofString source)).toList = span source.toList n.start n.stop := by
  simp [Node.text, Source.slice, Source.ofString, span, List.drop_take]

theorem char?_ofString (source : String) (i : Nat) :
    (Source.ofString source).char? i = source.toList[i]? := by
  simp [Source.char?, Source.ofString]

theorem size_ofString (source : String) :
    (Source.ofString source).size = source.toList.length := by
  simp [Source.size, Source.ofString]

/-- A solid blank is U+0085, in the languages that take it for a letter. -/
theorem control_of_isSolid (control : Bool) (c : Char) (hsolid : isSolid control c = true)
    (hblank : Text.isBlank c = true) : control = true ∧ c = '\u0085' := by
  simp only [isSolid, hblank, Bool.not_true, Bool.false_or, Bool.and_eq_true, beq_iff_eq] at hsolid
  refine ⟨hsolid.1, ?_⟩
  rw [← Char.ofNat_toNat c, hsolid.2]

variable {control : Bool} {source : String} {i j : Nat}

theorem getElem?_span (cs : List Char) (i j k : Nat) :
    (span cs i j)[k]? = if i + k < j then cs[i+k]? else none := by
  simp [span, List.getElem?_drop, List.getElem?_take]

/-- Trimming a stretch that starts with a solid character takes no line feed from its start, unless
it takes that character too. -/
theorem control_of_feed_lead (hstart : Solid control (Source.ofString source) i)
    (hfeed : '\n' ∈ Text.lead (span source.toList i j)) :
    control = true ∧ '\u0085' ∈ Text.lead (span source.toList i j) := by
  obtain ⟨c, hchar, hc⟩ := (Option.any_eq_true _ _).mp hstart
  rw [char?_ofString] at hchar
  cases hspan : span source.toList i j with
  | nil => simp [hspan, Text.lead] at hfeed
  | cons d cs =>
    have hfirst := getElem?_span source.toList i j 0
    rw [hspan, Nat.add_zero, hchar, List.getElem?_cons_zero] at hfirst
    obtain rfl : d = c := by
      split_ifs at hfirst
      simpa using hfirst
    -- a first character that is no blank stops the trimming at once
    rw [hspan] at hfeed
    by_cases hblank : Text.isBlank d = true
    · obtain ⟨hcontrol, rfl⟩ := control_of_isSolid control d hc hblank
      exact ⟨hcontrol, by simp [Text.lead, hblank]⟩
    · simp [Text.lead, hblank] at hfeed

/-- Nor from its end, if it has a solid character on its last line. -/
theorem control_of_feed_trail (hstop : Firm control (Source.ofString source) j)
    (hfeed : '\n' ∈ Text.trail (span source.toList i j)) :
    control = true ∧ '\u0085' ∈ Text.trail (span source.toList i j) := by
  obtain ⟨us, vs, htrail⟩ := List.append_of_mem hfeed
  -- the stretch, cut at the line feed: behind it there are blanks only
  generalize hfront : Text.lead (span source.toList i j) ++ Text.trim (span source.toList i j) ++
    us = front
  have hspan : span source.toList i j = front ++ '\n' :: vs := by
    rw [← hfront, List.append_assoc, ← htrail, Text.lead_trim_trail]
  have hpos : (span source.toList i j)[front.length]? = some '\n' := by simp [hspan]
  rw [getElem?_span] at hpos
  split_ifs at hpos with hlt
  obtain ⟨k, hlk, hkj, hsolid⟩ := hstop.exists_solid hlt ((char?_ofString source _).trans hpos)
  obtain ⟨c, hchar, hc⟩ := (Option.any_eq_true _ _).mp hsolid
  have hmem : c ∈ vs := by
    have hget : (span source.toList i j)[k-i]? = some c := by
      rw [getElem?_span, Nat.add_sub_cancel' (by omega), if_pos hkj, ← char?_ofString, hchar]
    obtain ⟨m, hm⟩ : ∃ m, k - i = front.length + (m+1) := ⟨k - i - front.length - 1, by omega⟩
    rw [hspan, hm, List.getElem?_append_right (Nat.le_add_right _ _), Nat.add_sub_cancel_left,
      List.getElem?_cons_succ] at hget
    exact List.mem_of_getElem? hget
  have hc' : c ∈ Text.trail (span source.toList i j) := by
    rw [htrail]
    exact List.mem_append_right _ (List.mem_cons_of_mem _ hmem)
  obtain ⟨hcontrol, rfl⟩ :=
    control_of_isSolid control c hc (Text.isBlank_of_mem_trail _ c hc')
  exact ⟨hcontrol, hc'⟩

end Grammar

/-! ### The tables of the languages -/

/-- The kinds in the tables of the languages that no query captures as a declaration: they are of
parts of one. -/
def partKinds : List String :=
  ["variable_declaration", "variable_declarator", "arrow_function", "assignment"]

/-- The queries of a language can be read, and the kinds of what they capture as a declaration are
in its table and no parts. -/
structure Profile.Tabled (p : Profile) (v : Grammar.Patterns.Vocabulary) : Prop where
  readable : ∀ text ∈ p.query :: p.importQuery.toList, ∃ q, Grammar.readQuery v text = .ok q
  declared : ∀ q, Grammar.Patterns.parse v p.query = .ok q → ∀ kind,
    ("signature", kind) ∈ q.roles → kind ∈ p.kinds.map Prod.fst ∧ kind ∉ partKinds

/-- What is tested of the roles of a query. -/
def Profile.declares (p : Profile) (role : String × String) : Bool :=
  role.1 != "signature" || (p.kinds.map Prod.fst).contains role.2 && !partKinds.contains role.2

/-- The texts are given as characters, so that reading them can be evaluated. -/
theorem Profile.tabled_of_reads (p : Profile) (v : Grammar.Patterns.Vocabulary)
    (cs ds : List Char) (hquery : p.query = String.ofList cs)
    (himport : p.importQuery = some (String.ofList ds))
    (h : ((Grammar.Patterns.ofChars v cs).toOption.any (fun q => q.roles.all p.declares) &&
      (Grammar.Patterns.ofChars v ds).toOption.any fun _ => true) = true) : p.Tabled v := by
  obtain ⟨hcs, hds⟩ := Bool.and_eq_true_iff.mp h
  obtain ⟨q, hq, hroles⟩ := exists_of_any _ _ hcs
  obtain ⟨r, hr, _⟩ := exists_of_any _ _ hds
  constructor
  · intro text htext
    rw [hquery, himport] at htext
    simp only [Option.toList_some, List.mem_cons, List.not_mem_nil, or_false] at htext
    rcases htext with rfl | rfl
    · exact ⟨q.query, Grammar.readQuery_ofList v cs q hq⟩
    · exact ⟨r.query, Grammar.readQuery_ofList v ds r hr⟩
  · intro q' hq' kind hkind
    rw [hquery, Grammar.Patterns.parse_ofList, hq] at hq'
    obtain rfl := Except.ok.inj hq'
    have hrole := List.all_eq_true.mp hroles _ hkind
    simpa [declares] using hrole

/-! ### The parsers that come with the program -/

/-- The source fits the grammar of a built-in language. -/
def accepted (tag source : String) : Bool :=
  match tag with
  | "go" => Grammar.Go.grammar.accepts source
  | "typescript" | "javascript" => (Grammar.TypeScript.grammar false).accepts source
  | "tsx" | "jsx" => (Grammar.TypeScript.grammar true).accepts source
  | "python" => Grammar.Python.grammar.accepts source
  | "c" => (Grammar.CFamily.grammar .c).accepts source
  | "cpp" => (Grammar.CFamily.grammar .cpp).accepts source
  | "java" => Grammar.Java.grammar.accepts source
  | _ => false

/-- The languages that take U+0085 for a letter. -/
def scriptTags : List String := ["typescript", "javascript", "tsx", "jsx"]

/-- The kinds of nodes that end behind their line. -/
def directiveKinds : List String := ["preproc_def", "preproc_function_def"]

/-- What is known of a built-in language: its grammar with an outline, which says all about the
kinds of declarations but for directives. -/
structure Language.Outlined (tag : String) (p : Profile) {σ : Type} (g : Grammar.Rules σ)
    (o : Grammar.Outline σ) : Prop where
  outlined : Grammar.Outlined o g
  parser : p.parser = g.parser
  accepts : ∀ source, accepted tag source = g.accepts source
  control : o.control = true → tag ∈ scriptTags
  tabled : p.Tabled g.vocabulary
  kinds : ∀ kind ∈ p.kinds.map Prod.fst,
    kind ∈ partKinds ∨ kind ∈ o.kinds ∨ kind ∈ directiveKinds

set_option maxRecDepth 30000 in
theorem outlined_script (elements : Bool) (tag : String) (htag : tag ∈ scriptTags)
    (haccepts : ∀ source, accepted tag source =
      (Grammar.TypeScript.grammar elements).accepts source) :
    Language.Outlined tag (Profile.script (Grammar.TypeScript.grammar elements).parser)
      (Grammar.TypeScript.grammar elements) Grammar.TypeScript.outline where
  outlined := Grammar.TypeScript.outlined elements
  parser := rfl
  accepts := haccepts
  control _ := htag
  tabled := by
    refine Profile.tabled_of_reads _ _ _ _ rfl rfl ?_
    cases elements <;> decide +kernel
  kinds := by cases elements <;> decide

set_option maxRecDepth 30000 in
theorem outlined_of_builtin (tag : String) (p : Profile) (hp : (tag, p) ∈ builtins) :
    ∃ (σ : Type) (g : Grammar.Rules σ) (o : Grammar.Outline σ), Language.Outlined tag p g o := by
  simp only [builtins, Parsers.builtins, List.mem_cons, Prod.mk.injEq, List.not_mem_nil,
    or_false] at hp
  rcases hp with ⟨rfl, rfl⟩ | ⟨rfl, rfl⟩ | ⟨rfl, rfl⟩ | ⟨rfl, rfl⟩ | ⟨rfl, rfl⟩ |
    ⟨rfl, rfl⟩ | ⟨rfl, rfl⟩ | ⟨rfl, rfl⟩ | ⟨rfl, rfl⟩
  · exact ⟨_, _, _, Grammar.Go.outlined, rfl, fun _ => rfl, by simp,
      Profile.tabled_of_reads _ _ _ _ rfl rfl (by decide +kernel), by decide⟩
  · exact ⟨_, _, _, outlined_script false _ (by decide) fun _ => rfl⟩
  · exact ⟨_, _, _, outlined_script false _ (by decide) fun _ => rfl⟩
  · exact ⟨_, _, _, outlined_script true _ (by decide) fun _ => rfl⟩
  · exact ⟨_, _, _, outlined_script true _ (by decide) fun _ => rfl⟩
  · exact ⟨_, _, _, Grammar.Python.outlined, rfl, fun _ => rfl, by simp,
      Profile.tabled_of_reads _ _ _ _ rfl rfl (by decide +kernel), by decide⟩
  · exact ⟨_, _, _, Grammar.CFamily.outlined .c, rfl, fun _ => rfl, by simp,
      Profile.tabled_of_reads _ _ _ _ rfl rfl (by decide +kernel), by decide⟩
  · exact ⟨_, _, _, Grammar.CFamily.outlined .cpp, rfl, fun _ => rfl, by simp,
      Profile.tabled_of_reads _ _ _ _ rfl rfl (by decide +kernel), by decide⟩
  · exact ⟨_, _, _, Grammar.Java.outlined, rfl, fun _ => rfl, by simp,
      Profile.tabled_of_reads _ _ _ _ rfl rfl (by decide +kernel), by decide⟩

/-- The parsers that come with the program are lawful. -/
theorem lawful_bundled (tag : String) (p : Profile) (hp : (tag, p) ∈ builtins) :
    p.parser.Lawful := by
  obtain ⟨σ, g, o, hlang⟩ := outlined_of_builtin tag p hp
  exact hlang.parser ▸ hlang.outlined.orderly.lawful_parser

/-- Over them all built-in languages compile, and every source has a tree. -/
theorem total_bundled : Parsers.bundled.Total where
  readable := by
    rintro ⟨tag, p⟩ hp
    obtain ⟨σ, g, o, hlang⟩ := outlined_of_builtin tag p hp
    constructor
    · rw [hlang.parser]
      rfl
    · intro text htext
      rw [hlang.parser]
      exact hlang.tabled.readable text htext
  tree := by
    rintro ⟨tag, p⟩ hp source
    obtain ⟨σ, g, o, hlang⟩ := outlined_of_builtin tag p hp
    exact ⟨g.parse source, by rw [hlang.parser]; rfl⟩

/-- The nodes of a place in a source that fits its grammar are as the outline says. -/
theorem neat_of_in {σ : Type} {o : Grammar.Outline σ} {s : Source} {root : Node} {d : Place}
    (hd : d.In root) (hroot : Grammar.Neat o s root) : Grammar.Neat o s d.node := by
  refine hd.holds (Grammar.Neat o s) hroot fun n hn => ?_
  obtain ⟨_, _, _, _, hchildren⟩ := hn
  exact hchildren

/-- In a source that fits its grammar, only a directive starts or ends with a line feed among
blanks, or a node that starts or ends with U+0085 in a scripting language. The lines of every other
signature are those of its text. -/
theorem line_span_bundled (tag : String) (p : Profile) (hp : (tag, p) ∈ builtins) (c : Compiled)
    (hc : p.compile tag = .ok c) (source : String) (haccepted : accepted tag source = true)
    (root : Node) (hroot : p.parser.parse source = some root) (o : Options)
    (ho : o.includeBody = true) (g : Signature) (d : Place)
    (hd : DeclaredAt c tag (.ofString source) root o g d) :
    (g.endLine = g.line + g.text.toList.count '\n' ∧ Occupies source g) ∨
      d.node.kind ∈ directiveKinds ∨
      tag ∈ scriptTags ∧ '\u0085' ∈ edgeBlanks source d.node := by
  obtain ⟨σ, grammar, outline, hlang⟩ := outlined_of_builtin tag p hp
  have hlawful := lawful_bundled tag p hp
  obtain ⟨_, _, hread, _⟩ := (p.compile_eq_ok tag c).mp hc
  have hplace := hd.inTree (hlawful.query _ _ hread)
  rw [hlang.parser] at hread hroot
  obtain ⟨q, hq, hquery⟩ := Grammar.readQuery_eq_ok _ _ _ hread
  obtain ⟨m, hm, hcaptured⟩ := hd.captured
  rw [hquery] at hm
  have hrole := (q.captured_query _ _ m hm _ hcaptured).role
  obtain rfl : grammar.parse source = root := Option.some.inj hroot
  have hneat := neat_of_in hplace (hlang.outlined.parse source (by rw [← hlang.accepts, haccepted]))
  obtain ⟨_, hle, hbound, hedges, _⟩ := hneat
  rw [Grammar.size_ofString] at hbound
  have hsited := (hplace.isSited (hlang.outlined.orderly.lawful_parser.sited _ _ rfl)).node
  have hin := Inside.of_sited source d.node hsited hle hbound
  have hspans := hd.spans ho
  by_cases hfeed : '\n' ∈ edgeBlanks source d.node
  · right
    obtain ⟨htable, hpart⟩ := hlang.tabled.declared q hq _ hrole
    rcases (hlang.kinds _ htable).resolve_left hpart with hkind | hkind
    · obtain ⟨hstart, hstop⟩ := hedges hkind
      -- solid edges are no blanks but for U+0085
      have hcontrol : outline.control = true ∧ '\u0085' ∈ edgeBlanks source d.node := by
        rw [edgeBlanks, Grammar.text_ofString, List.mem_append] at hfeed ⊢
        rcases hfeed with hfeed | hfeed
        · exact (Grammar.control_of_feed_lead hstart hfeed).imp_right .inl
        · exact (Grammar.control_of_feed_trail hstop hfeed).imp_right .inr
      exact .inr (hcontrol.imp_left hlang.control)
    · exact .inl hkind
  · left
    exact ⟨(endLine_eq_iff source g d.node hin hspans).mpr hfeed,
      occupies_of_not_mem source g d.node hin hspans hfeed⟩

end Synopsis
