import Synopsis.Proofs.CommentBlock
import Synopsis.Proofs.Declared
import Synopsis.Proofs.Grammar.Compiling

/-! A comment directly above a declaration. It is part of the documentation exactly if a line end
stands between it and what comes before it in the tree; a node that takes in the end of its own line
leaves none, and the comment below it is lost. -/
open Synopsis.Tree

namespace Synopsis

namespace Tree

/-! ### A comment above a place -/

theorem join_eq_empty (sep : String) (ts : List String) (t : String) (ht : t ∈ ts)
    (h : Text.join sep ts = "") : t = "" := by
  induction ts with
  | nil => cases ht
  | cons u ts ih =>
    cases ts with
    | nil =>
      obtain rfl := List.mem_singleton.mp ht
      exact h
    | cons v ts =>
      -- the first text, the separator and the rest are all empty
      rw [Text.join, String.append_eq_empty_iff, String.append_eq_empty_iff] at h
      rcases List.mem_cons.mp ht with rfl | ht
      · exact h.1.1
      · exact ih ht h.2

theorem prevNamed?_eq (p : Place) : p.prevNamed? = p.preceding.head?.map Place.node := by
  have hback (parent : Option Place) (before : List Node) : before.find? (·.named) =
      (((Place.backwards parent before).filter (·.node.named)).head?).map Place.node := by
    induction before with
    | nil => rfl
    | cons n before ih =>
      rw [Place.backwards]
      by_cases hn : n.named = true
      · simp [hn, Place.node]
      · simp [hn, Place.node, ih]
  exact hback p.parent p.before

theorem suffix_of_mem_backwards (parent : Option Place) (before : List Node) (m : Place)
    (hm : m ∈ Place.backwards parent before) : m.node :: m.before <:+ before := by
  induction before with
  | nil => cases hm
  | cons n before ih =>
    rcases List.mem_cons.mp hm with rfl | hm
    · exact List.suffix_rfl
    · exact (ih hm).trans (List.suffix_cons n before)

/-- Below a comment nothing is climbed. -/
theorem anchor_of_comment (d m : Place) (hm : d.preceding.head? = some m)
    (hcomment : m.node.isComment = true) : d.anchor = d := by
  have hself : IsAnchor d d := by
    refine ⟨.refl, fun b hb => ?_⟩
    have hnone := hb.uncommented m.node (by simp [prevNamed?_eq, hm])
    rw [hcomment] at hnone
    cases hnone
  exact (isAnchor_anchor d).unique hself

/-- A comment directly above a place is part of its documentation exactly if it extends the place;
otherwise there is no documentation. -/
theorem doc_ne_empty_iff (s : Source) (d m : Place) (hm : d.preceding.head? = some m)
    (hcomment : m.node.isComment = true) (hclean : Comment.cleaned (m.node.text s) ≠ "") :
    d.doc s ≠ "" ↔ Extends d m := by
  obtain ⟨run, hrun, heq⟩ := commentRun_isBlock d d.parent d.before
  obtain ⟨ms, hms⟩ := List.head?_eq_some_iff.mp hm
  change (Place.backwards d.parent d.before).filter (·.node.named) = m :: ms at hms
  rw [hms] at hrun
  rw [Place.doc, anchor_of_comment d m hm hcomment, heq]
  constructor
  · intro hdoc
    by_contra hnot
    have hnil : run = [] := by
      cases run with
      | nil => rfl
      | cons x run =>
        obtain rfl := (List.cons_prefix_cons.mp hrun.directly).1
        exact absurd (List.isChain_cons_cons.mp hrun.chain).1 hnot
    rw [hnil] at hdoc
    exact hdoc rfl
  · intro hextends hdoc
    -- the comment alone is a block, so the longest one starts with it
    have hone := hrun.longest [m] (by simp) (List.isChain_cons_cons.mpr
      ⟨hextends, List.isChain_singleton m⟩)
    cases run with
    | nil => simp at hone
    | cons x run =>
      obtain rfl := (List.cons_prefix_cons.mp hrun.directly).1
      exact hclean (join_eq_empty _ _ _ (by simp [hclean]) hdoc)

end Tree

/-! ### Comments that are kept -/

/-- The place is that of the comment before a declaration, and ends on the row just above it. -/
structure LiesAbove (d m : Place) : Prop where
  sibling : d.preceding.head? = some m
  comment : m.node.isComment = true
  above : m.node.endRow + 1 = d.node.row

theorem start_le_of_cleaned (source : String) (n : Node)
    (h : Comment.cleaned (n.text (.ofString source)) ≠ "") : n.start ≤ source.toList.length := by
  by_contra hlt
  have htext : n.text (.ofString source) = "" := by
    simp [Node.text, Source.slice, Source.ofString, List.drop_eq_nil_of_le (not_le.mp hlt).le]
  rw [htext] at h
  exact h rfl

/-- A comment above a place extends it exactly if a line feed stands before the comment, back to the
end of the sibling before it. -/
theorem extends_iff_of_liesAbove (source : String) (d m : Place)
    (hd : d.IsSited (.ofString source)) (hm : LiesAbove d m)
    (hclean : Comment.cleaned (m.node.text (.ofString source)) ≠ "") :
    Extends d m ↔
      ∀ q ∈ m.before.head?, '\n' ∈ (source.toList.take m.node.start).drop q.stop := by
  -- what stands before the comment also stands before the place
  have hmem := (List.mem_filter.mp (List.mem_of_head? hm.sibling)).1
  have hsuffix := suffix_of_mem_backwards _ _ m hmem
  obtain ⟨_, hrow, _, _, _⟩ := hd.before m.node (hsuffix.subset List.mem_cons_self)
  have halone : Extends d m ↔ ∀ q ∈ m.before.head?, q.endRow ≠ m.node.row :=
    ⟨Extends.alone, fun h => ⟨hm.comment, hm.above.ge, h⟩⟩
  rw [halone]
  refine forall₂_congr fun q hq => ?_
  have hq : q ∈ m.before := List.mem_of_head? hq
  obtain ⟨_, _, hend, _, _⟩ := hd.before q (hsuffix.subset (List.mem_cons_of_mem _ hq))
  have hstop : q.stop ≤ m.node.start := by
    have horder := List.Pairwise.sublist hsuffix.sublist (List.pairwise_reverse.mp hd.order)
    exact (List.pairwise_cons.mp horder).1 q hq hm.comment
  rw [hend, hrow, row_ne_iff source _ _ hstop (start_le_of_cleaned source m.node hclean)]

/-- The place where a signature is declared decides about the comment above it. -/
theorem DeclaredAt.documented_iff {c : Compiled} {tag source : String} {root : Node} {o : Options}
    {g : Signature} {d : Place} (h : DeclaredAt c tag (.ofString source) root o g d)
    (hquery : c.query.Lawful) (hdocs : "doc" ∉ c.query.captureNames)
    (hsited : Sited (.ofString source) root) (m : Place) (hm : LiesAbove d m)
    (hclean : Comment.cleaned (m.node.text (.ofString source)) ≠ "") :
    g.doc ≠ "" ↔
      ∀ q ∈ m.before.head?, '\n' ∈ (source.toList.take m.node.start).drop q.stop := by
  rw [h.doc_eq hquery hdocs, doc_ne_empty_iff _ d m hm.sibling hm.comment hclean]
  exact extends_iff_of_liesAbove source d m ((h.inTree hquery).isSited hsited) hm hclean

/-- Let the query of a language be lawful and capture no documentation, and let a source have a tree
with its rows right and its comments in order. Then a declaration with a comment directly above it,
which is more than marks, has documentation exactly if a line feed stands between the comment and
the node before it. Nothing else about that node matters; but one that ends behind its own line
feed, as a directive does, leaves none. -/
theorem comment_documents (c : Compiled) (hquery : c.query.Lawful)
    (hdocs : "doc" ∉ c.query.captureNames) (tag source : String) (root : Node)
    (hroot : c.profile.parser.tree source = .ok root) (hsited : Sited (.ofString source) root)
    (o : Options) :
    ∃ e, c.extract tag source o = .ok e ∧ ∀ g ∈ e.signatures,
      (∃ d, DeclaredAt c tag (.ofString source) root o g d) ∧
      ∀ d, DeclaredAt c tag (.ofString source) root o g d →
        ∀ m, LiesAbove d m → Comment.cleaned (m.node.text (.ofString source)) ≠ "" →
          (g.doc ≠ "" ↔
            ∀ q ∈ m.before.head?, '\n' ∈ (source.toList.take m.node.start).drop q.stop) := by
  refine ⟨_, extract_of_tree c tag root o source hroot, fun g hg => ?_⟩
  refine ⟨exists_declaredAt c tag _ root o g hg, fun d hd m hm hclean => ?_⟩
  exact hd.documented_iff hquery hdocs hsited m hm hclean

/-! ### The built-in languages -/

theorem not_infix_of_chars (w cs : List Char) (text : String) (htext : text = String.ofList cs)
    (h : decide (w <:+: cs) = false) : ¬ w <:+: text.toList := by
  rw [htext, String.toList_ofList]
  exact of_decide_eq_false h

set_option maxRecDepth 30000 in
/-- No built-in language asks for documentation in its query. -/
theorem doc_not_captured (P : Parsers) (tag : String) (p : Profile) (hp : (tag, p) ∈ P.builtins)
    (hlawful : p.parser.Lawful) (c : Compiled) (hc : p.compile tag = .ok c) :
    "doc" ∉ c.query.captureNames := by
  have hquery : ¬ '@' :: "doc".toList <:+: p.query.toList := by
    refine builtin_cases P (fun p => ¬ '@' :: "doc".toList <:+: p.query.toList)
      ?go ?script ?python ?c ?cpp ?java tag p hp
    all_goals exact fun parser => not_infix_of_chars _ _ _ rfl (by decide +kernel)
  intro hdoc
  obtain ⟨_, _, hread, _⟩ := (p.compile_eq_ok tag c).mp hc
  exact hquery (hlawful.names p.query c.query hread "doc" hdoc)

/-- Over lawful parsers, this goes for all built-in languages and all their sources. -/
theorem documented_builtin (P : Parsers) (tag : String) (p : Profile)
    (hp : (tag, p) ∈ P.builtins) (hlawful : p.parser.Lawful) (c : Compiled)
    (hc : p.compile tag = .ok c) (source : String) (root : Node)
    (hroot : p.parser.parse source = some root) (o : Options) (g : Signature) (d m : Place)
    (hd : DeclaredAt c tag (.ofString source) root o g d) (hm : LiesAbove d m)
    (hclean : Comment.cleaned (m.node.text (.ofString source)) ≠ "") :
    g.doc ≠ "" ↔
      ∀ q ∈ m.before.head?, '\n' ∈ (source.toList.take m.node.start).drop q.stop := by
  obtain ⟨_, _, hread, _⟩ := (p.compile_eq_ok tag c).mp hc
  exact hd.documented_iff (hlawful.query _ _ hread) (doc_not_captured P tag p hp hlawful c hc)
    (hlawful.sited source root hroot) m hm hclean

/-! ### A declaration and a directive before the comment -/

/-- A comment with this text, first on its line and with something before it, stands above a place
at the top level. -/
structure IsNote (source text : String) (d m : Place) : Prop where
  top : ∀ up ∈ d.parent, up.parent.isNone = true
  above : LiesAbove d m
  text : Comment.cleaned (m.node.text (.ofString source)) = text
  first : (source.toList.take m.node.start).getLast? = some '\n'
  preceded : m.before.head?.isSome = true

/-- A signature of the source has the documentation, and all declarations are below a note. -/
def Compiled.sample (source : String) (root : Node) (text doc : String) (c : Compiled) : Bool :=
  (c.extractFrom "c" (.ofString source) root {}).signatures.any (·.doc == doc) &&
    (c.query.matchesIn (.ofString source) root).all fun x =>
      (placeIn c.profile x.captures "signature").all fun d =>
        d.parent.all (·.parent.isNone) && d.preceding.head?.any fun m =>
          m.node.isComment && m.node.endRow + 1 == d.node.row &&
            Comment.cleaned (m.node.text (.ofString source)) == text &&
            (source.toList.take m.node.start).getLast? == some '\n' && m.before.head?.isSome

theorem exists_note (c : Compiled) (source : String) (root : Node) (text doc : String)
    (h : c.sample source root text doc = true) :
    ∃ g ∈ (c.extractFrom "c" (.ofString source) root {}).signatures,
      ∃ d m, DeclaredAt c "c" (.ofString source) root {} g d ∧ IsNote source text d m ∧
        g.doc = doc := by
  obtain ⟨hdoc, hall⟩ := Bool.and_eq_true_iff.mp h
  obtain ⟨g, hg, hdoc⟩ := List.any_eq_true.mp hdoc
  obtain ⟨d, hd⟩ := exists_declaredAt c "c" _ root {} g hg
  obtain ⟨x, hx, _, _, hplace⟩ := id hd
  -- the test holds of all declarations, so of the one this signature has
  have hnote := List.all_eq_true.mp hall x hx
  rw [hplace, Option.all_some, Bool.and_eq_true, Option.any_eq_true] at hnote
  obtain ⟨htop, m, hm, hnote⟩ := hnote
  simp only [Bool.and_eq_true, beq_iff_eq] at hnote
  obtain ⟨⟨⟨⟨hcomment, hrow⟩, htext⟩, hfirst⟩, hpreceded⟩ := hnote
  have htop : ∀ up ∈ d.parent, up.parent.isNone = true := by
    intro up hup
    rw [hup] at htop
    exact htop
  exact ⟨g, hg, d, m, hd, ⟨htop, ⟨hm, hcomment, hrow⟩, htext, hfirst, hpreceded⟩,
    by simpa using hdoc⟩

def variableSource : String := "int x;\n//b\nint f();"

/-- The tree of `variableSource`. -/
def variableTree : Node :=
  ⟨"translation_unit", true, "", 0, 19, 0, 2, [
    .flat "declaration" "" 0 6 0 [
      .flat "primitive_type" "type" 0 3 0 [],
      .flat "identifier" "declarator" 4 5 0 [],
      .mark ";" 5 0],
    .flat "comment" "" 7 10 1 [],
    .flat "declaration" "" 11 19 2 [
      .flat "primitive_type" "type" 11 14 2 [],
      .flat "function_declarator" "declarator" 15 18 2 [
        .flat "identifier" "declarator" 15 16 2 [],
        .flat "parameter_list" "parameters" 16 18 2 [.mark "(" 16 2, .mark ")" 17 2]],
      .mark ";" 18 2]]⟩

set_option maxRecDepth 30000 in
theorem comment_documents_below_variable :
    ∃ c e g d m,
      (Profile.c (Grammar.parserOf variableSource variableTree)).compile "c" = .ok c ∧
      c.extract "c" variableSource {} = .ok e ∧ g ∈ e.signatures ∧
      DeclaredAt c "c" (.ofString variableSource) variableTree {} g d ∧
      IsNote variableSource "b" d m ∧ g.doc ≠ "" ∧
      ∃ q ∈ m.before.head?, '\n' ∈ (variableSource.toList.take m.node.start).drop q.stop := by
  obtain ⟨c, hc, hquery, hroot, htest⟩ := Grammar.exists_compiled
    (Profile.c (Grammar.parserOf variableSource variableTree)) _ _ rfl "c" _ _ rfl rfl
    (fun c => c.sample variableSource variableTree "b" "b" && !c.query.captureNames.contains "doc")
    (by decide +kernel)
  obtain ⟨hsample, hdocs⟩ := Bool.and_eq_true_iff.mp htest
  have hdocs : "doc" ∉ c.query.captureNames := by simpa using hdocs
  have hsited : Sited (.ofString variableSource) variableTree :=
    sited_of_all _ _ (by decide +kernel)
  obtain ⟨e, he, hall⟩ := comment_documents c hquery hdocs "c" variableSource variableTree hroot
    hsited {}
  obtain rfl := Except.ok.inj (he.symm.trans (extract_of_tree c "c" _ {} variableSource hroot))
  obtain ⟨g, hg, d, m, hd, hnote, hdoc⟩ := exists_note c _ _ _ _ hsample
  have hdoc : g.doc ≠ "" := by
    rw [hdoc]
    decide
  -- the variable stands before the comment, so the condition says something about it
  obtain ⟨q, hq⟩ := Option.isSome_iff_exists.mp hnote.preceded
  have hclean : Comment.cleaned (m.node.text (.ofString variableSource)) ≠ "" := by
    rw [hnote.text]
    decide
  have hfeed := ((hall g hg).2 d hd m hnote.above hclean).mp hdoc
  exact ⟨c, _, g, d, m, hc, he, hg, hd, hnote, hdoc, q, hq, hfeed q hq⟩

def includeSource : String := "#include <stdio.h>\n/* Adds. */\nint add(int a, int b);\n"

/-- The tree of `includeSource`. The directive takes in the end of its line. -/
def includeTree : Node :=
  ⟨"translation_unit", true, "", 0, 54, 0, 3, [
    ⟨"preproc_include", true, "", 0, 19, 0, 1, [
      .mark "#include" 0 0,
      .flat "system_lib_string" "path" 9 18 0 []]⟩,
    .flat "comment" "" 19 30 1 [],
    .flat "declaration" "" 31 53 2 [
      .flat "primitive_type" "type" 31 34 2 [],
      .flat "function_declarator" "declarator" 35 52 2 [
        .flat "identifier" "declarator" 35 38 2 [],
        .flat "parameter_list" "parameters" 38 52 2 [
          .mark "(" 38 2,
          .flat "parameter_declaration" "" 39 44 2 [
            .flat "primitive_type" "type" 39 42 2 [],
            .flat "identifier" "declarator" 43 44 2 []],
          .mark "," 44 2,
          .flat "parameter_declaration" "" 46 51 2 [
            .flat "primitive_type" "type" 46 49 2 [],
            .flat "identifier" "declarator" 50 51 2 []],
          .mark ")" 51 2]],
      .mark ";" 52 2]]⟩

set_option maxRecDepth 30000 in
/-- A directive ends behind its line feed, so that a comment on a line of its own below it counts as
one behind code. -/
theorem directive_hides_comment :
    Sited (.ofString includeSource) includeTree ∧
    ∃ c e g d m, (Profile.c (Grammar.parserOf includeSource includeTree)).compile "c" = .ok c ∧
      c.extract "c" includeSource {} = .ok e ∧ g ∈ e.signatures ∧
      DeclaredAt c "c" (.ofString includeSource) includeTree {} g d ∧
      IsNote includeSource "Adds." d m ∧ g.doc = "" := by
  refine ⟨sited_of_all _ _ (by decide +kernel), ?_⟩
  obtain ⟨c, hc, _, hroot, hsample⟩ := Grammar.exists_compiled
    (Profile.c (Grammar.parserOf includeSource includeTree)) _ _ rfl "c" _ _ rfl rfl
    (Compiled.sample includeSource includeTree "Adds." "") (by decide +kernel)
  obtain ⟨g, hg, d, m, hd, hnote, hdoc⟩ := exists_note c _ _ _ _ hsample
  have hextract := extract_of_tree c "c" _ {} includeSource hroot
  exact ⟨c, _, g, d, m, hc, hextract, hg, hd, hnote, hdoc⟩

end Synopsis
