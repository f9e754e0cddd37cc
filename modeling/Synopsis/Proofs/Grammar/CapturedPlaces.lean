import Mathlib.Tactic.SplitIfs
import Synopsis.Grammar.Parser
import Synopsis.Proofs.SitedTree

/-! What patterns capture. Every place in a match lies in the tree and is of the kind that the
pattern names, and the name it is captured under stands in the text that the patterns were read
from. So the queries of a grammar's parser are lawful. -/
open Synopsis.Tree

namespace Synopsis.Grammar

mutual

/-- The names under which a pattern captures, each with the kind of the nodes. -/
def Pattern.roles : Pattern → List (String × String)
  | .mk _ kind _ captures children => Pattern.rolesList children ++ captures.map (·, kind)

def Pattern.rolesList : List Pattern → List (String × String)
  | [] => []
  | p :: ps => p.roles ++ Pattern.rolesList ps

end

mutual

theorem Pattern.roles_names : (p : Pattern) → p.roles.map Prod.fst = p.captureNames
  | .mk _ _ _ captures children => by
    rw [Pattern.roles, Pattern.captureNames, List.map_append, Pattern.rolesList_names children]
    simp [Function.comp_def]

theorem Pattern.rolesList_names :
    (ps : List Pattern) → (Pattern.rolesList ps).map Prod.fst = Pattern.captureNamesList ps
  | [] => rfl
  | p :: ps => by
    rw [Pattern.rolesList, Pattern.captureNamesList, List.map_append, Pattern.roles_names p,
      Pattern.rolesList_names ps]

end

/-- A capture in one of the roles, of a place in the tree. -/
structure Captured (root : Node) (roles : List (String × String)) (x : String × Place) :
    Prop where
  role : (x.1, x.2.node.kind) ∈ roles
  place : x.2.In root

variable {root : Node}

theorem Captured.mono {roles roles' : List (String × String)} {x : String × Place}
    (h : Captured root roles x) (hsub : roles ⊆ roles') : Captured root roles' x :=
  ⟨hsub h.role, h.place⟩

/-! ### Patterns -/

theorem mem_candidates (adjacent : Bool) (places : List Place) (x : Place × List Place)
    (hx : x ∈ candidates adjacent places) : x.1 ∈ places ∧ x.2 ⊆ places := by
  induction places with
  | nil => cases hx
  | cons p places ih =>
    have hlater (h : x ∈ candidates adjacent places) : x.1 ∈ p :: places ∧ x.2 ⊆ p :: places := by
      obtain ⟨hplace, hrest⟩ := ih h
      exact ⟨List.mem_cons_of_mem p hplace, List.subset_cons_of_subset p hrest⟩
    unfold candidates at hx
    split_ifs at hx
    · rw [List.mem_singleton.mp hx]
      exact ⟨List.mem_cons_self, List.subset_cons_self p places⟩
    · exact hlater hx
    · rcases List.mem_cons.mp hx with rfl | hx
      · exact ⟨List.mem_cons_self, List.subset_cons_self p places⟩
      · exact hlater hx

mutual

theorem Pattern.captures_at (depth : Nat) (place : Place) (seen : Captures)
    (hplace : place.In root) (f : Way) : (pattern : Pattern) →
    f ∈ Pattern.at depth place seen pattern →
      ∀ x ∈ f.captures, x ∈ seen ∨ Captured root pattern.roles x
  | .mk field kind adjacent captures children, hf, x, hx => by
    unfold Pattern.at at hf
    dsimp only at hf
    split_ifs at hf with hnode
    -- a capture among the children, an earlier one, or one of this node
    · have hchildren : ∀ c ∈ place.children, c.In root := fun c hc => .child place c hplace hc
      rcases Pattern.captures_among _ place.children _ hchildren f children hf x hx with hx | hx
      · rcases List.mem_append.mp hx with hx | hx
        · exact .inl hx
        · obtain ⟨name, hname, rfl⟩ := List.mem_map.mp hx
          have hkind : place.node.kind = kind := by
            simp only [Bool.and_eq_true, beq_iff_eq] at hnode
            exact hnode.1.2
          refine .inr ⟨?_, hplace⟩
          rw [Pattern.roles]
          exact List.mem_append_right _ (List.mem_map.mpr ⟨name, hname, by rw [hkind]⟩)
      · refine .inr (hx.mono ?_)
        rw [Pattern.roles]
        exact List.subset_append_left _ _
    · cases hf

theorem Pattern.captures_among (depth : Nat) (places : List Place)
    (found : Way) (hplaces : ∀ p ∈ places, p.In root) (f : Way) : (patterns : List Pattern) →
    f ∈ Pattern.among depth places found patterns →
      ∀ x ∈ f.captures, x ∈ found.captures ∨ Captured root (Pattern.rolesList patterns) x
  | [], hf, x, hx => by
    rw [Pattern.among, List.mem_singleton] at hf
    exact .inl (hf ▸ hx)
  | p :: rest, hf, x, hx => by
    rw [Pattern.among] at hf
    obtain ⟨⟨place, later⟩, hcandidate, hf⟩ := List.mem_flatMap.mp hf
    obtain ⟨f', hf', hf⟩ := List.mem_flatMap.mp hf
    obtain ⟨hplace, hlater⟩ := mem_candidates p.adjacent places _ hcandidate
    rw [Pattern.rolesList]
    -- captured by what comes later, by this pattern, or before
    rcases Pattern.captures_among depth later f' (fun q hq => hplaces q (hlater hq)) f rest hf
      x hx with hx | hx
    · rcases Pattern.captures_at depth place found.captures (hplaces place hplace) f' p hf' x hx
        with hx | hx
      · exact .inl hx
      · exact .inr (hx.mono (List.subset_append_left _ _))
    · exact .inr (hx.mono (List.subset_append_right _ _))

end

/-! ### Queries -/

/-- The places of the siblings `ns` behind those `before`. -/
def rowFrom (parent : Option Place) (before : List Node) : List Node → List Place
  | [] => []
  | n :: ns => .mk n before parent :: rowFrom parent (n :: before) ns

theorem childrenFrom_eq_rowFrom (p : Place) (before ns : List Node) :
    Place.childrenFrom p before ns = rowFrom (some p) before ns := by
  induction ns generalizing before with
  | nil => rfl
  | cons n ns ih => rw [Place.childrenFrom, rowFrom, ih]

theorem groupMatches_captured (number depth : Nat) (n : Node)
    (before : List Node) (parent : Option Place) (rest : List Node) (group : List Pattern)
    (hplace : (Place.mk n before parent).In root)
    (hrest : ∀ p ∈ rowFrom parent (n :: before) rest, p.In root) (m : RankedMatch)
    (hm : m ∈ groupMatches number depth (.mk n before parent) rest group) :
    ∀ x ∈ m.captures, Captured root (Pattern.rolesList group) x := by
  intro x hx
  cases group with
  | nil => cases hm
  | cons p ps =>
    unfold groupMatches at hm
    obtain ⟨f, hf, hm⟩ := List.mem_flatMap.mp hm
    obtain ⟨f', hf', rfl⟩ := List.mem_map.mp hm
    -- the places after this one, where a group goes on
    obtain ⟨later, hlater, hf'⟩ :
        ∃ later, (∀ q ∈ later, q.In root) ∧ f' ∈ Pattern.among depth later f ps := by
      split at hf'
      · exact ⟨[], by simp, hf'⟩
      next up _ hparent _ =>
        obtain rfl : parent = some up := hparent
        rw [childrenFrom_eq_rowFrom] at hf'
        exact ⟨_, hrest, hf'⟩
      · exact ⟨[], by simp, hf'⟩
    rw [Pattern.rolesList]
    rcases Pattern.captures_among depth later f hlater f' ps hf' x hx with hx | hx
    · rcases Pattern.captures_at depth _ [] hplace f p hf x hx with hx | hx
      · cases hx
      · exact hx.mono (List.subset_append_left _ _)
    · exact hx.mono (List.subset_append_right _ _)

/-- The roles of all groups of a numbered query. -/
def numberedRoles (q : List (Nat × List Pattern)) : List (String × String) :=
  q.flatMap fun x => Pattern.rolesList x.2

mutual

theorem siblingMatches_captured (q : List (Nat × List Pattern)) (depth : Nat)
    (parent : Option Place) (before : List Node) : (ns : List Node) →
    (∀ p ∈ rowFrom parent before ns, p.In root) → ∀ m ∈ siblingMatches q depth parent before ns,
      ∀ x ∈ m.captures, Captured root (numberedRoles q) x
  | [], _, m, hm, _, _ => by
    rw [siblingMatches] at hm
    cases hm
  | n :: ns, hrow, m, hm, x, hx => by
    obtain ⟨hplace, hrest⟩ := List.forall_mem_cons.mp hrow
    rw [siblingMatches] at hm
    rcases List.mem_append.mp hm with hm | hm
    · obtain ⟨⟨number, group⟩, hgroup, hm⟩ := List.mem_flatMap.mp hm
      have hcaptured := groupMatches_captured number depth n before parent ns group hplace hrest
        m hm x hx
      refine hcaptured.mono fun role hrole => ?_
      exact List.mem_flatMap.mpr ⟨_, hgroup, hrole⟩
    · rcases List.mem_append.mp hm with hm | hm
      · exact innerMatches_captured q depth before parent n hplace m hm x hx
      · exact siblingMatches_captured q depth parent (n :: before) ns hrest m hm x hx

theorem innerMatches_captured (q : List (Nat × List Pattern)) (depth : Nat)
    (before : List Node) (parent : Option Place) : (n : Node) → (Place.mk n before parent).In root →
    ∀ m ∈ innerMatches q depth (.mk n before parent) n,
      ∀ x ∈ m.captures, Captured root (numberedRoles q) x
  | ⟨_, _, _, _, _, _, _, children⟩, hplace, m, hm, x, hx => by
    rw [innerMatches] at hm
    refine siblingMatches_captured q (depth+1) _ [] children ?_ m hm x hx
    intro p hp
    rw [← childrenFrom_eq_rowFrom] at hp
    exact Place.In.child _ p hplace hp

end

/-- The roles in which patterns capture. -/
def Patterns.roles (q : Patterns) : List (String × String) := q.flatMap Pattern.rolesList

theorem Patterns.roles_names (q : Patterns) :
    q.roles.map Prod.fst = q.flatMap Pattern.captureNamesList := by
  simp only [Patterns.roles, List.map_flatMap, Pattern.rolesList_names]

/-- What a match holds: names that the patterns use, and places in the tree of the kinds they
name. -/
theorem Patterns.captured (q : Patterns) (m : RankedMatch) (hm : m ∈ q.ranked root) :
    ∀ x ∈ m.captures, Captured root q.roles x := by
  intro x hx
  have hm := List.mem_mergeSort.mp hm
  have hroot : ∀ p ∈ rowFrom none [] [root], p.In root := by
    intro p hp
    obtain rfl := List.mem_singleton.mp hp
    exact .root
  have hcaptured := siblingMatches_captured _ 0 none [] [root] hroot m hm x hx
  refine hcaptured.mono fun role hrole => ?_
  obtain ⟨⟨i, group⟩, hgroup, hrole⟩ := List.mem_flatMap.mp hrole
  obtain ⟨⟨g, j⟩, hmem, heq⟩ := List.mem_map.mp hgroup
  cases heq
  exact List.mem_flatMap.mpr ⟨group, List.fst_mem_of_mem_zipIdx hmem, hrole⟩

theorem Patterns.captured_query (q : Patterns) (s : Source) (root : Node) (m : Match)
    (hm : m ∈ q.query.matchesIn s root) : ∀ x ∈ m.captures, Captured root q.roles x := by
  obtain ⟨ranked, hranked, rfl⟩ := List.mem_map.mp hm
  exact q.captured ranked hranked

theorem Patterns.lawful_query (q : Patterns) : q.query.Lawful := by
  constructor
  · intro s root m hm x hx
    have hname := List.mem_map_of_mem (f := Prod.fst) (q.captured_query s root m hm x hx).role
    rw [Patterns.roles_names] at hname
    exact List.mem_eraseDups.mpr hname
  · exact fun s root m hm x hx => (q.captured_query s root m hm x hx).place

/-! ### The text of a query -/

theorem Pattern.captureNamesList_eq_flatMap (ps : List Pattern) :
    Pattern.captureNamesList ps = ps.flatMap Pattern.captureNames := by
  induction ps with
  | nil => rfl
  | cons p ps ih => rw [Pattern.captureNamesList, ih, List.flatMap_cons]

namespace Patterns

/-- All captures among the tokens have the property. -/
def Words (W : String → Prop) (ts : List (Nat × Token)) : Prop :=
  ∀ pos w, (pos, .capture w) ∈ ts → W w

variable {W : String → Prop}

theorem Words.tail {t : Nat × Token} {ts : List (Nat × Token)} (h : Words W (t :: ts)) :
    Words W ts :=
  fun pos w hw => h pos w (List.mem_cons_of_mem t hw)

theorem Words.takeCaptures (ts : List (Nat × Token)) (h : Words W ts) :
    (∀ w ∈ (takeCaptures ts).1, W w) ∧ Words W (takeCaptures ts).2 := by
  fun_induction Patterns.takeCaptures ts with
  | case1 pos w ts ws r heq ih =>
    obtain ⟨hws, hr⟩ := ih h.tail
    rw [heq] at hws hr
    refine ⟨?_, hr⟩
    intro v hv
    rcases List.mem_cons.mp hv with rfl | hv
    · exact h pos v List.mem_cons_self
    · exact hws v hv
  | case2 ts => exact ⟨by simp, h⟩

/-- Sibling patterns capture under words among the tokens they were read from. -/
theorem Words.siblings (v : Vocabulary) (stop fuel : Nat) (field : String) (adjacent : Bool)
    (ts : List (Nat × Token)) (h : Words W ts) (ps : List Pattern) (r : List (Nat × Token))
    (hread : siblings v stop fuel field adjacent ts = .ok (ps, r)) :
    (∀ w ∈ Pattern.captureNamesList ps, W w) ∧ Words W r := by
  induction fuel generalizing field adjacent ts ps r with
  | zero =>
    rw [Patterns.siblings] at hread
    cases hread
  | succ fuel ih =>
    unfold Patterns.siblings at hread
    split at hread
    next r' => exact ih _ _ r' h.tail ps r hread
    next pos f r' =>
      split_ifs at hread
      exact ih _ _ r' h.tail ps r hread
    next pos kind r' =>
      split_ifs at hread
      split at hread
      next children rest hchildren =>
        -- the children, the captures and the later siblings are read in this order
        obtain ⟨hchildren, hrest⟩ := ih _ _ r' h.tail.tail _ _ hchildren
        obtain ⟨hcaptures, hafter⟩ := Words.takeCaptures rest hrest.tail
        generalize Patterns.takeCaptures rest = taken at hread hcaptures hafter
        obtain ⟨captures, after⟩ := taken
        dsimp only at hread
        split at hread
        next ps' r'' hps =>
          cases hread
          obtain ⟨hps, hr⟩ := ih _ _ _ hafter _ _ hps
          refine ⟨?_, hr⟩
          intro w hw
          simp only [Pattern.captureNamesList, Pattern.captureNames, List.mem_append] at hw
          rcases hw with (hw | hw) | hw
          · exact hchildren w hw
          · exact hcaptures w hw
          · exact hps w hw
        next => cases hread
      next => cases hread
      next => cases hread
    next =>
      cases hread
      exact ⟨by simp [Pattern.captureNamesList], h⟩
    next =>
      cases hread
      exact ⟨by simp [Pattern.captureNamesList], h⟩
    next => cases hread

theorem Words.groups (v : Vocabulary) (stop fuel : Nat) (ts : List (Nat × Token))
    (h : Words W ts) (q : Patterns) (hread : groups v stop fuel ts = .ok q) :
    ∀ group ∈ q, ∀ w ∈ Pattern.captureNamesList group, W w := by
  induction fuel generalizing ts q with
  | zero =>
    cases hread
    simp
  | succ fuel ih =>
    -- what was read first, before the groups after it
    have hmore (first rest : Patterns) (r : List (Nat × Token)) (hr : Words W r)
        (hfirst : ∀ group ∈ first, ∀ w ∈ Pattern.captureNamesList group, W w)
        (hread : (Patterns.groups v stop fuel r).map (first ++ ·) = .ok rest) :
        ∀ group ∈ rest, ∀ w ∈ Pattern.captureNamesList group, W w := by
      cases hlater : Patterns.groups v stop fuel r with
      | error e =>
        rw [hlater] at hread
        cases hread
      | ok later =>
        rw [hlater] at hread
        cases hread
        intro group hgroup
        rcases List.mem_append.mp hgroup with hgroup | hgroup
        · exact hfirst group hgroup
        · exact ih r hr later hlater group hgroup
    have hapart (ps : List Pattern) (hps : ∀ w ∈ Pattern.captureNamesList ps, W w) :
        ∀ group ∈ ps.map ([·]), ∀ w ∈ Pattern.captureNamesList group, W w := by
      intro group hgroup w hw
      obtain ⟨p, hp, rfl⟩ := List.mem_map.mp hgroup
      rw [Pattern.captureNamesList_eq_flatMap] at hps hw
      refine hps w (List.mem_flatMap.mpr ⟨p, hp, ?_⟩)
      simpa using hw
    unfold Patterns.groups at hread
    split at hread
    next =>
      cases hread
      simp
    next pos r =>
      split at hread
      next ps pos' r' hps =>
        obtain ⟨hps, hr⟩ := h.tail.siblings v stop fuel "" false _ ps _ hps
        exact hmore [ps] q r' hr.tail (by simpa using hps) hread
      next => cases hread
      next => cases hread
    next r _ =>
      split at hread
      next ps hps =>
        cases hread
        exact hapart ps (h.siblings v stop fuel "" false _ ps _ hps).1
      next ps pos t r' hps =>
        obtain ⟨hps, hr⟩ := h.siblings v stop fuel "" false _ ps _ hps
        split_ifs at hread
        exact hmore (ps.map ([·])) q _ hr (hapart ps hps) hread
      next => cases hread
    next => cases hread

/-- Patterns capture under words of their text. -/
theorem names_of_parse (v : Vocabulary) (text : String) (q : Patterns)
    (hq : Patterns.parse v text = .ok q) (W : String → Prop)
    (h : Words W (tokensFrom 0 0 false text.toList)) : ∀ w ∈ q.captureNames, W w := by
  intro w hw
  obtain ⟨group, hgroup, hw⟩ := List.mem_flatMap.mp (List.mem_eraseDups.mp hw)
  exact h.groups v _ _ _ q hq group hgroup w hw

theorem Words.suffix {c : Char} {cs : List Char} {ts : List (Nat × Token)}
    (h : Words (fun w => '@' :: w.toList <:+: cs) ts) :
    Words (fun w => '@' :: w.toList <:+: c :: cs) ts :=
  fun pos w hw => (h pos w hw).trans (List.suffix_cons c cs).isInfix

theorem Words.past {t : Token} {ts : List (Nat × Token)} (ht : ∀ w, t ≠ .capture w)
    (h : Words W ts) (i : Nat) : Words W ((i, t) :: ts) := by
  intro pos w hw
  rcases List.mem_cons.mp hw with hw | hw
  · exact absurd (Prod.mk.inj hw).2.symm (ht w)
  · exact h pos w hw

/-- A word that is read as a capture stands in the text behind its mark. -/
theorem words_tokensFrom (pos skip : Nat) (inComment : Bool) (cs : List Char) :
    Words (fun w => '@' :: w.toList <:+: cs) (tokensFrom pos skip inComment cs) := by
  fun_induction tokensFrom pos skip inComment cs with
  | case1 =>
    intro i w hw
    cases hw
  | case9 pos skip inComment c cs _ _ _ _ _ _ _ hmark word ih =>
    obtain rfl : c = '@' := eq_of_beq hmark
    intro i w hw
    rcases List.mem_cons.mp hw with hw | hw
    · rw [Token.capture.inj (Prod.mk.inj hw).2, String.toList_ofList]
      have hword : word <+: cs := List.takeWhile_prefix _
      exact (List.cons_prefix_cons.mpr ⟨rfl, hword⟩).isInfix
    · exact ih.suffix i w hw
  | case2 | case3 | case4 | case5 => exact Words.suffix ‹_›
  | case6 | case7 | case8 | case10 | case11 | case12 =>
    exact (Words.suffix ‹_›).past (by simp) _

end Patterns

/-! ### The parser of a grammar -/

theorem readQuery_eq_ok (v : Patterns.Vocabulary) (text : String) (q : Query)
    (h : readQuery v text = .ok q) : ∃ ps, Patterns.parse v text = .ok ps ∧ q = ps.query := by
  unfold readQuery at h
  split at h
  next ps hps => exact ⟨ps, hps, (Except.ok.inj h).symm⟩
  · cases h

theorem lawful_of_readQuery (v : Patterns.Vocabulary) (text : String) (q : Query)
    (h : readQuery v text = .ok q) : q.Lawful := by
  obtain ⟨ps, _, rfl⟩ := readQuery_eq_ok v text q h
  exact ps.lawful_query

theorem names_of_readQuery (v : Patterns.Vocabulary) (text : String) (q : Query)
    (h : readQuery v text = .ok q) : ∀ w ∈ q.captureNames, '@' :: w.toList <:+: text.toList := by
  obtain ⟨ps, hps, rfl⟩ := readQuery_eq_ok v text q h
  exact Patterns.names_of_parse v text ps hps _ (Patterns.words_tokensFrom 0 0 false text.toList)

end Synopsis.Grammar
