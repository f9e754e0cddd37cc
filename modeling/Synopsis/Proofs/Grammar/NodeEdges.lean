import Synopsis.Proofs.Grammar.RuleParts
import Synopsis.Proofs.Grammar.TokenEdges

/-! The first and the last line of a node. Whether the nodes of a rule start and end with solid
tokens can be read off the rule: its shape is computed from the shapes of its parts, with a table
for the symbols it calls. What a shape promises of nodes is kept when nodes are put one behind the
other, under a construct or under a field, and when blanks and comments stand before them. -/
open Synopsis.Tree

namespace Synopsis.Grammar

/-! ### Shapes -/

/-- What a rule promises of the nodes it finds: that they end at a solid token, that they do if they
follow one, and that the first of them starts with one. -/
structure Shape where
  closes : Bool
  keeps : Bool
  opens : Bool
  deriving DecidableEq, Repr

namespace Shape

/-- The shape of a solid token. -/
def solid : Shape := ⟨true, true, true⟩

/-- The shape of what leaves no node. -/
def hollow : Shape := ⟨false, true, true⟩

/-- The shape of blanks and comments: they promise nothing of their end. -/
def blank : Shape := ⟨false, false, true⟩

/-- No promise. -/
def rough : Shape := ⟨false, false, false⟩

/-- The shape of a token that is solid if `b`. -/
def token (b : Bool) : Shape := ⟨b, b, b⟩

def seq (a b : Shape) : Shape where
  closes := b.closes || a.closes && b.keeps
  keeps := b.closes || a.keeps && b.keeps
  opens := a.opens && (a.closes || b.opens)

def alt (a b : Shape) : Shape where
  closes := a.closes && b.closes
  keeps := a.keeps && b.keeps
  opens := a.opens && b.opens

def many (a : Shape) : Shape := { a with closes := false }

def node (a : Shape) : Shape := { a with opens := a.opens && a.closes }

/-- The first shape promises nothing that the second does not. -/
def below (a b : Shape) : Bool :=
  (!a.closes || b.closes) && (!a.keeps || b.keeps) && (!a.opens || b.opens)

theorem below_refl (a : Shape) : a.below a = true := by
  rcases a with ⟨_ | _, _ | _, _ | _⟩ <;> rfl

theorem alt_below_left (a b : Shape) : (a.alt b).below a = true := by
  rcases a with ⟨_ | _, _ | _, _ | _⟩ <;> rcases b with ⟨_ | _, _ | _, _ | _⟩ <;> rfl

theorem alt_below_right (a b : Shape) : (a.alt b).below b = true := by
  rcases a with ⟨_ | _, _ | _, _ | _⟩ <;> rcases b with ⟨_ | _, _ | _, _ | _⟩ <;> rfl

theorem many_below_hollow (a : Shape) : a.many.below .hollow = true := by
  rcases a with ⟨_ | _, _ | _, _ | _⟩ <;> rfl

/-- One round more promises no less. -/
theorem many_below_seq (a : Shape) : a.many.below (a.seq a.many) = true := by
  rcases a with ⟨_ | _, _ | _, _ | _⟩ <;> rfl

theorem token_below (b : Bool) : (token b).below (blank.seq (token b)) = true := by
  cases b <;> rfl

end Shape

variable {σ : Type}

/-- What is claimed of a grammar: whether U+0085 passes for a letter, the kinds of nodes with solid
edges, the kinds of tokens without, whether gaps end with a comment, and the shapes of symbols. -/
structure Outline (σ : Type) where
  control : Bool
  kinds : List String
  ragged : List String
  gaps : Bool
  shape : σ → Shape

namespace Rule

/-- What a rule promises if the symbols keep their promises. -/
def shape (o : Outline σ) : Rule σ → Shape
  | done | test _ | ahead _ | absent _ => .hollow
  | fail => .solid
  | token kind _ _ => .token (!o.ragged.contains kind)
  | near kind _ _ =>
    if kind == "" then ⟨false, !o.ragged.contains kind, false⟩
    else .token (!o.ragged.contains kind)
  | gap _ => ⟨false, o.gaps, true⟩
  | call x => o.shape x
  | within _ a | field _ a => a.shape o
  | seq a b => (a.shape o).seq (b.shape o)
  | alt a b => (a.shape o).alt (b.shape o)
  | many a => (a.shape o).many
  | node _ a => (a.shape o).node
  | grow .. | growing _ | left => .rough

/-- Kinds of nodes that may stand anywhere. -/
def extraKinds : List String := Node.commentKinds ++ ["html_comment", "ERROR"]

/-- No token has a kind with solid edges, all nodes of such kinds have them, no token or node passes
for a comment, and a construct that grows puts what came before first. -/
def framed (o : Outline σ) : Rule σ → Bool
  | token kind _ _ | near kind _ _ => !extraKinds.contains kind && !o.kinds.contains kind
  | node kind a =>
    !extraKinds.contains kind &&
      (!o.kinds.contains kind || (a.shape o).opens && (a.shape o).closes) && a.framed o
  | within _ a | many a | field _ a | ahead a | absent a => a.framed o
  | seq a b | alt a b => a.framed o && b.framed o
  | grow a b => a.framed o && b.framed o && b.leftFirst
  | growing b => b.framed o && b.leftFirst
  | done | fail | gap _ | test _ | call _ | left => true

end Rule

/-! ### Comments before a position -/

/-- Blanks and comments lead from one position to another, a comment last. -/
inductive Commented (trivia : Source → Nat → Option (Nat × String)) (s : Source) : Nat → Nat → Prop
  | last (i j : Nat) (kind : String) (h : trivia s i = some (j, kind)) (hkind : kind ≠ "")
      (hlt : i < j) : Commented trivia s i j
  | step (i k j : Nat) (kind : String) (h : trivia s i = some (k, kind)) (hlt : i < k)
      (more : Commented trivia s k j) : Commented trivia s i j

/-- The scanner stays where it is or ends behind a comment. -/
def Lands (trivia : Source → Nat → Option (Nat × String)) (scan : Scan) : Prop :=
  ∀ s i j, scan s i = some j → j ≤ i ∨ Commented trivia s i j

/-! ### Grammars that keep their outline -/

/-- A token has solid edges, unless it need not, and a gap lands behind a comment. -/
def Rule.EdgedPart (o : Outline σ) (trivia : Source → Nat → Option (Nat × String)) :
    Rule σ → Prop
  | token kind _ scan => Edged o.control scan ∨ kind ∈ o.ragged ∧ Bounded scan
  | near kind _ scan =>
    if kind = "" ∧ kind ∉ o.ragged then ∀ s i j, scan s i = some j → j = i
    else Edged o.control scan ∨ kind ∈ o.ragged ∧ Bounded scan
  | gap scan => o.gaps = true → ∀ ctx, Lands trivia (scan ctx)
  | _ => True

/-- Blanks or a comment between two positions: they lie inside the source, a comment has the kind of
one, and where gaps end with comments it is solid. -/
structure Outline.Piece (o : Outline σ) (s : Source) (i j : Nat) (kind : String) : Prop where
  lt : i < j
  le : j ≤ s.size
  comment : kind ≠ "" → kind ∈ Rule.extraKinds ∧ (o.gaps = true → Firm o.control s j)

theorem Outline.Piece.blank {o : Outline σ} {s : Source} {i j : Nat} (hlt : i < j)
    (hle : j ≤ s.size) : o.Piece s i j "" :=
  ⟨hlt, hle, fun hne => absurd rfl hne⟩

theorem Outline.Piece.of_edges {o : Outline σ} {s : Source} {i j : Nat} {kind : String}
    (h : Edges o.control s i j) (hkind : kind ∈ Rule.extraKinds) : o.Piece s i j kind :=
  ⟨h.lt, h.stop.le, fun _ => ⟨hkind, fun _ => h.stop⟩⟩

/-- All that a scanner takes for blanks or a comment is such a piece. -/
def Outline.Trivia (o : Outline σ) (trivia : Source → Nat → Option (Nat × String)) : Prop :=
  ∀ s i j kind, trivia s i = some (j, kind) → o.Piece s i j kind

/-- The grammar is as outlined. -/
structure Outlined (o : Outline σ) (g : Rules σ) : Prop where
  edged : ∀ x, (g.rule x).Each (Rule.EdgedPart o g.trivia)
  framed : ∀ x, (g.rule x).framed o = true
  leftFirst : ∀ x, (g.rule x).leftFirst = true
  shape : ∀ x, (o.shape x).below ((g.rule x).shape o) = true
  index : Function.Injective g.index
  root : g.root ∉ o.kinds
  plain : ∀ kind ∈ Rule.extraKinds, kind ∉ o.kinds
  trivia : o.Trivia g.trivia

/-! ### Outlined grammars are orderly -/

theorem Rule.EdgedPart.advances {o : Outline σ} {trivia : Source → Nat → Option (Nat × String)}
    {kind : String} {named : Bool} {scan : Scan}
    (h : EdgedPart o trivia (near kind named scan) ∨ EdgedPart o trivia (token kind named scan)) :
    Advances scan := by
  simp only [EdgedPart] at h
  split_ifs at h
  · rcases h with h | h | ⟨_, h⟩
    · exact fun s i j hscan => (h s i j hscan).ge
    · exact h.advances
    · exact h.advances
  · rcases h with (h | ⟨_, h⟩) | h | ⟨_, h⟩
    all_goals exact h.advances

theorem Rule.orderly_of_framed {o : Outline σ} {trivia : Source → Nat → Option (Nat × String)}
    (r : Rule σ) (hframed : r.framed o = true) (hedged : r.Each (EdgedPart o trivia)) :
    r.Orderly := by
  -- by induction on the rule, whose parts are framed and edged as it is
  induction r with
  | token kind named scan => exact EdgedPart.advances (.inr hedged)
  | near kind named scan => exact EdgedPart.advances (.inl hedged)
  | node kind a iha =>
    simp only [framed, Bool.and_eq_true, Bool.not_eq_true', List.contains_eq_mem,
      decide_eq_false_iff_not] at hframed
    obtain ⟨⟨hplain, _⟩, hframed⟩ := hframed
    exact ⟨fun hmem => hplain (List.mem_append_left _ hmem), iha hframed hedged⟩
  | seq a b iha ihb | alt a b iha ihb =>
    obtain ⟨ha, hb⟩ := Bool.and_eq_true_iff.mp hframed
    exact ⟨iha ha hedged.1, ihb hb hedged.2⟩
  | grow a b iha ihb =>
    obtain ⟨hboth, hleft⟩ := Bool.and_eq_true_iff.mp hframed
    obtain ⟨ha, hb⟩ := Bool.and_eq_true_iff.mp hboth
    exact ⟨iha ha hedged.1, ihb hb hedged.2, hleft⟩
  | growing b ihb =>
    obtain ⟨hb, hleft⟩ := Bool.and_eq_true_iff.mp hframed
    exact ⟨ihb hb hedged, hleft⟩
  | within _ a iha | many a iha | field _ a iha | ahead a iha | absent a iha =>
    exact iha hframed hedged
  | done | fail | gap _ | test _ | call _ | left => trivial

theorem Outlined.orderly {o : Outline σ} {g : Rules σ} (hg : Outlined o g) : Orderly g :=
  ⟨fun x => Rule.orderly_of_framed _ (hg.framed x) (hg.edged x), hg.leftFirst⟩

/-! ### Nodes between two positions -/

/-- The node lies inside the source, has solid edges if its kind does, and so do all below it. -/
inductive Neat (o : Outline σ) (s : Source) : Node → Prop
  | mk (n : Node) (le : n.start ≤ n.stop) (bound : n.stop ≤ s.size)
      (edges : n.kind ∈ o.kinds → Solid o.control s n.start ∧ Firm o.control s n.stop)
      (children : ∀ c ∈ n.children, Neat o s c) : Neat o s n

/-- The last of the nodes, given in reverse, ends at the position; without nodes it is the first
position. -/
def EndsAt (pos : Nat) (ns : List Node) (j : Nat) : Prop := (ns.head?.map (·.stop)).getD pos = j

theorem isExtra_iff (n : Node) : isExtra n = true ↔ n.kind ∈ Rule.extraKinds := by
  simp [isExtra, Node.isComment, Rule.extraKinds, or_assoc]

theorem EndsAt.append {pos i j : Nat} {ns ms : List Node} (hms : EndsAt i ms j)
    (hns : ms = [] → EndsAt pos ns i) : EndsAt pos (ms ++ ns) j := by
  cases ms with
  | nil =>
    obtain rfl : i = j := hms
    exact hns rfl
  | cons m ms => exact hms

/-- A construct is put before what was found before it. -/
theorem wrap_append (s : Source) (kind : String) (pos : Nat) (items acc : List Node) :
    wrap s kind pos items acc = wrap s kind pos items [] ++ acc := by
  simp [wrap]

/-- Nodes (in reverse) that a rule of some shape finds from one position to another. -/
structure Found (o : Outline σ) (s : Source) (sh : Shape) (pos : Nat) (ns : List Node) (j : Nat) :
    Prop where
  le : pos ≤ j
  bound : j ≤ s.size
  starts : ∀ n ∈ ns, n.start ≤ j
  neat : ∀ n ∈ ns, Neat o s n
  closes : sh.closes = true →
    EndsAt pos ns j ∧ Firm o.control s j ∧ ∃ n ∈ ns, isExtra n = false
  keeps : sh.keeps = true → EndsAt pos ns j ∧ (Firm o.control s pos → Firm o.control s j)
  opens : sh.opens = true →
    ∀ n, ns.reverse.find? (!isExtra ·) = some n → Solid o.control s n.start

namespace Found

variable {o : Outline σ} {s : Source} {sh sh' : Shape} {pos i j : Nat} {ns ms : List Node}

theorem hollow (hpos : pos ≤ s.size) : Found o s .hollow pos [] pos where
  le := le_rfl
  bound := hpos
  starts := by simp
  neat := by simp
  closes := by simp [Shape.hollow]
  keeps _ := ⟨rfl, id⟩
  opens := by simp

theorem mono (h : Found o s sh pos ns j) (hsh : sh'.below sh = true) :
    Found o s sh' pos ns j := by
  simp only [Shape.below, Bool.and_eq_true, Bool.or_eq_true, Bool.not_eq_true'] at hsh
  obtain ⟨⟨hcloses, hkeeps⟩, hopens⟩ := hsh
  refine ⟨h.le, h.bound, h.starts, h.neat, fun hc => h.closes ?_, fun hk => h.keeps ?_,
    fun ho => h.opens ?_⟩
  · simpa [hc] using hcloses
  · simpa [hk] using hkeeps
  · simpa [ho] using hopens

/-- Among nodes that close there is one that is no comment. -/
theorem exists_first (h : Found o s sh pos ns j) (hc : sh.closes = true) :
    ∃ n, ns.reverse.find? (!isExtra ·) = some n := by
  obtain ⟨_, _, m, hm, hextra⟩ := h.closes hc
  apply Option.isSome_iff_exists.mp
  rw [List.find?_isSome]
  exact ⟨m, List.mem_reverse.mpr hm, by simp [hextra]⟩

/-- Nodes of one rule, and behind them nodes of another. -/
theorem seq (h : Found o s sh pos ns i) (h' : Found o s sh' i ms j) :
    Found o s (sh.seq sh') pos (ms ++ ns) j where
  le := h.le.trans h'.le
  bound := h'.bound
  starts n hn := by
    rcases List.mem_append.mp hn with hn | hn
    · exact h'.starts n hn
    · exact (h.starts n hn).trans h'.le
  neat n hn := (List.mem_append.mp hn).elim (h'.neat n) (h.neat n)
  closes hc := by
    simp only [Shape.seq, Bool.or_eq_true, Bool.and_eq_true] at hc
    rcases hc with hc | ⟨hc, hk⟩
    · obtain ⟨hends, hfirm, n, hn, hextra⟩ := h'.closes hc
      refine ⟨hends.append fun hnil => ?_, hfirm, n, List.mem_append_left _ hn, hextra⟩
      simp [hnil] at hn
    · obtain ⟨hends, hfirm, n, hn, hextra⟩ := h.closes hc
      obtain ⟨hends', hfirm'⟩ := h'.keeps hk
      exact ⟨hends'.append fun _ => hends, hfirm' hfirm, n, List.mem_append_right _ hn, hextra⟩
  keeps hk := by
    simp only [Shape.seq, Bool.or_eq_true, Bool.and_eq_true] at hk
    rcases hk with hc | ⟨hk, hk'⟩
    · obtain ⟨hends, hfirm, n, hn, _⟩ := h'.closes hc
      refine ⟨hends.append fun hnil => ?_, fun _ => hfirm⟩
      simp [hnil] at hn
    · obtain ⟨hends, hfirm⟩ := h.keeps hk
      obtain ⟨hends', hfirm'⟩ := h'.keeps hk'
      exact ⟨hends'.append fun _ => hends, fun hpos => hfirm' (hfirm hpos)⟩
  opens ho n hn := by
    simp only [Shape.seq, Bool.or_eq_true, Bool.and_eq_true] at ho
    rw [List.reverse_append, List.find?_append, Option.or_eq_some_iff] at hn
    rcases hn with hn | ⟨hnone, hn⟩
    · exact h.opens ho.1 n hn
    · rcases ho.2 with hc | ho'
      · -- the first rule has found a node that is no comment
        obtain ⟨m, hm⟩ := h.exists_first hc
        simp [hnone] at hm
      · exact h'.opens ho' n hn

/-- A token, or another node without children. -/
theorem leaf (kind : String) (named : Bool) (hij : i ≤ j) (hj : j ≤ s.size)
    (hkind : kind ∉ o.kinds)
    (hcloses : sh.closes = true → Firm o.control s j ∧ kind ∉ Rule.extraKinds)
    (hkeeps : sh.keeps = true → Firm o.control s i → Firm o.control s j)
    (hopens : sh.opens = true → kind ∉ Rule.extraKinds → Solid o.control s i) :
    Found o s sh i [mkNode s kind named i j []] j := by
  have hextra : isExtra (mkNode s kind named i j []) = false ↔ kind ∉ Rule.extraKinds := by
    rw [← Bool.not_eq_true, isExtra_iff]
    rfl
  refine ⟨hij, hj, ?_, ?_, fun hc => ?_, fun hk => ⟨rfl, hkeeps hk⟩, fun ho n hn => ?_⟩
  · simpa [mkNode] using hij
  · intro n hn
    obtain rfl := List.mem_singleton.mp hn
    exact .mk _ hij hj (fun hmem => absurd hmem hkind) (by simp [mkNode])
  · obtain ⟨hfirm, hplain⟩ := hcloses hc
    exact ⟨rfl, hfirm, _, List.mem_singleton_self _, hextra.mpr hplain⟩
  · rw [List.reverse_singleton, List.find?_singleton] at hn
    split_ifs at hn with hplain
    cases hn
    exact hopens ho (hextra.mp (by simpa using hplain))

/-- The nodes of a rule under a construct. -/
theorem node (h : Found o s sh pos ns j) (kind : String) (hkind : kind ∉ Rule.extraKinds)
    (hedges : kind ∈ o.kinds → sh.opens = true ∧ sh.closes = true) :
    Found o s sh.node pos (wrap s kind pos ns []) j := by
  obtain ⟨lead, inner, _, hmem, hleading, hfind, heq⟩ := exists_wrap s kind pos ns []
  rw [heq]
  have hstart : (inner.head?.map (·.start)).getD pos ≤ j := by
    cases inner with
    | nil => exact h.le
    | cons n inner => exact h.starts n (hmem n (.inr List.mem_cons_self))
  have hstop : (ns.head?.map (·.stop)).getD pos ≤ s.size := by
    cases hns : ns with
    | nil => exact h.le.trans h.bound
    | cons n ns' =>
      obtain ⟨_, _, hbound, _, _⟩ := h.neat n (by simp [hns])
      exact hbound
  have hends : sh.keeps = true ∨ sh.closes = true → max ((inner.head?.map (·.start)).getD pos)
      ((ns.head?.map (·.stop)).getD pos) = j := by
    intro hsh
    have heq : EndsAt pos ns j := hsh.elim (fun hk => (h.keeps hk).1) fun hc => (h.closes hc).1
    rw [show (ns.head?.map (·.stop)).getD pos = j from heq]
    exact max_eq_right hstart
  have hopened (hsh : sh.opens = true ∧ sh.closes = true) :
      Solid o.control s ((inner.head?.map (·.start)).getD pos) := by
    obtain ⟨n, hn⟩ := h.exists_first hsh.2
    have hhead : inner.head? = some n := hfind.symm.trans hn
    rw [hhead]
    exact h.opens hsh.1 n hn
  generalize (inner.head?.map (·.start)).getD pos = start at hstart hends hopened ⊢
  generalize (ns.head?.map (·.stop)).getD pos = stop at hstop hends ⊢
  generalize hn : mkNode s kind true start (max start stop) (inner.filter (·.kind != "")) = n
  have hplain : isExtra n = false := by
    rw [← Bool.not_eq_true, isExtra_iff, ← hn]
    exact hkind
  have hneat : Neat o s n := by
    rw [← hn]
    refine .mk _ (le_max_left _ _) (max_le (hstart.trans h.bound) hstop) ?_ fun c hc => ?_
    · intro hmem
      obtain ⟨hopens, hcloses⟩ := hedges hmem
      have hfirm := (h.closes hcloses).2.1
      refine ⟨hopened ⟨hopens, hcloses⟩, ?_⟩
      change Firm o.control s (max start stop)
      rwa [hends (.inr hcloses)]
    · exact h.neat c (hmem c (.inr (List.mem_filter.mp hc).1))
  have hlast (hsh : sh.keeps = true ∨ sh.closes = true) : n.stop = j := by
    rw [← hn]
    exact hends hsh
  refine ⟨h.le, h.bound, ?_, ?_, fun hc => ?_, fun hk => ?_, fun ho m hm => ?_⟩
  · intro m hm
    rcases List.mem_cons.mp hm with rfl | hm
    · rw [← hn]
      exact hstart
    · exact h.starts m (hmem m (.inl (by simpa using hm)))
  · intro m hm
    rcases List.mem_cons.mp hm with rfl | hm
    · exact hneat
    · exact h.neat m (hmem m (.inl (by simpa using hm)))
  · exact ⟨hlast (.inr hc), (h.closes hc).2.1, n, List.mem_cons_self, hplain⟩
  · exact ⟨hlast (.inl hk), (h.keeps hk).2⟩
  · -- before the construct there are comments only
    have hnone : lead.find? (!isExtra ·) = none := by simpa using hleading
    simp only [List.append_nil, List.reverse_cons, List.reverse_reverse, List.find?_append, hnone,
      Option.none_or, List.find?_singleton, hplain, Bool.not_false, if_true,
      Option.some.injEq] at hm
    simp only [Shape.node, Bool.and_eq_true] at ho
    rw [← hm, ← hn]
    exact hopened ho

/-- Setting a field changes nothing here. -/
theorem field (h : Found o s sh pos ns j) (name : String) :
    Found o s sh pos (ns.map fun n => if isExtra n then n else { n with field := name }) j := by
  choose name' hname' using exists_field name
  simp only [hname']
  have hends : EndsAt pos ns j → EndsAt pos (ns.map fun n => { n with field := name' n }) j := by
    cases ns <;> exact id
  have hfind : (ns.map fun n : Node => { n with field := name' n }).reverse.find? (!isExtra ·) =
      (ns.reverse.find? (!isExtra ·)).map fun n => { n with field := name' n } := by
    rw [← List.map_reverse, List.find?_map]
    rfl
  refine ⟨h.le, h.bound, ?_, ?_, fun hc => ?_, fun hk => ?_, fun ho n hn => ?_⟩
  · intro n hn
    obtain ⟨n', hn', rfl⟩ := List.mem_map.mp hn
    exact h.starts n' hn'
  · intro n hn
    obtain ⟨n', hn', rfl⟩ := List.mem_map.mp hn
    obtain ⟨_, hle, hbound, hedges, hchildren⟩ := h.neat n' hn'
    exact .mk _ hle hbound hedges hchildren
  · obtain ⟨heq, hfirm, n, hn, hextra⟩ := h.closes hc
    exact ⟨hends heq, hfirm, _, List.mem_map_of_mem hn, hextra⟩
  · exact (h.keeps hk).imp_left hends
  · rw [hfind] at hn
    obtain ⟨n', hn', rfl⟩ := Option.map_eq_some_iff.mp hn
    exact h.opens ho n' hn'

end Found

/-! ### Blanks and comments -/

theorem Found.blank {o : Outline σ} {s : Source} {i j : Nat} (hij : i ≤ j) (hj : j ≤ s.size) :
    Found o s .blank i [] j :=
  ⟨hij, hj, by simp, by simp, by simp [Shape.blank], by simp [Shape.blank], by simp⟩

section Trivia
variable {o : Outline σ} {trivia : Source → Nat → Option (Nat × String)} {s : Source}

/-- The node that a piece of blanks or a comment leaves, if any. -/
def triviaNodes (s : Source) (i j : Nat) (kind : String) : List Node :=
  if kind == "" then [] else [mkNode s kind true i j []]

/-- One step over blanks and comments. -/
theorem skipTrivia_succ (limit fuel i j : Nat) (kind : String) (acc : List Node)
    (hi : i < limit) (h : trivia s i = some (j, kind)) (hij : i < j) :
    skipTrivia trivia [] s limit (fuel+1) i acc =
      skipTrivia trivia [] s limit fuel j (triviaNodes s i j kind ++ acc) := by
  rw [skipTrivia, if_neg (by omega), List.lookup_nil]
  simp only [h]
  rw [if_neg (by omega), triviaNodes]
  split <;> rfl

theorem skipTrivia_of_le (limit fuel i : Nat) (acc : List Node) (hi : limit ≤ i) :
    skipTrivia trivia [] s limit fuel i acc = (acc, i) := by
  cases fuel with
  | zero => rfl
  | succ fuel => rw [skipTrivia, if_pos hi]

theorem skipTrivia_of_none (limit fuel i : Nat) (acc : List Node) (h : trivia s i = none) :
    skipTrivia trivia [] s limit fuel i acc = (acc, i) := by
  cases fuel with
  | zero => rfl
  | succ fuel =>
    rw [skipTrivia, List.lookup_nil]
    simp [h]

theorem Commented.lt {i j : Nat} (h : Commented trivia s i j) : i < j := by
  induction h with
  | last i j kind h hkind hlt => exact hlt
  | step i k j kind h hlt more ih => exact hlt.trans ih

theorem Commented.trans {i k j : Nat} (h : Commented trivia s i k) (h' : Commented trivia s k j) :
    Commented trivia s i j := by
  induction h with
  | last i k kind h hkind hlt => exact .step i k j kind h hlt h'
  | step i l k kind h hlt more ih => exact .step i l j kind h hlt (ih h')

variable (ht : o.Trivia trivia) (hplain : ∀ kind ∈ Rule.extraKinds, kind ∉ o.kinds)
include ht hplain

theorem found_trivia (i j : Nat) (kind : String) (h : trivia s i = some (j, kind)) :
    Found o s .blank i (triviaNodes s i j kind) j := by
  obtain ⟨hlt, hj, hcomment⟩ := ht s i j kind h
  unfold triviaNodes
  split
  · exact .blank hlt.le hj
  next hne =>
    obtain ⟨hextra, _⟩ := hcomment (by simpa using hne)
    exact .leaf kind true hlt.le hj (hplain kind hextra) (by simp [Shape.blank])
      (by simp [Shape.blank]) fun _ hnot => absurd hextra hnot

/-- Blanks and comments leave their nodes behind those found before. -/
theorem found_skipTrivia (limit fuel pos : Nat) (acc : List Node) (hpos : pos ≤ s.size) :
    ∃ ns j, skipTrivia trivia [] s limit fuel pos acc = (ns ++ acc, j) ∧
      Found o s .blank pos ns j := by
  induction fuel generalizing pos acc with
  | zero => exact ⟨[], pos, rfl, .blank le_rfl hpos⟩
  | succ fuel ih =>
    rcases Nat.lt_or_ge pos limit with hlt | hge
    · cases htrivia : trivia s pos with
      | none => exact ⟨[], pos, skipTrivia_of_none _ _ _ acc htrivia, .blank le_rfl hpos⟩
      | some piece =>
        obtain ⟨k, kind⟩ := piece
        obtain ⟨hk, hsize, _⟩ := ht s pos k kind htrivia
        obtain ⟨ns, j, heq, hns⟩ := ih k (triviaNodes s pos k kind ++ acc) hsize
        refine ⟨ns ++ triviaNodes s pos k kind, j, ?_, ?_⟩
        · rw [skipTrivia_succ limit fuel pos k kind acc hlt htrivia hk, heq, List.append_assoc]
        · exact ((found_trivia ht hplain pos k kind htrivia).seq hns).mono rfl
    · exact ⟨[], pos, skipTrivia_of_le _ _ _ acc hge, .blank le_rfl hpos⟩

/-- Blanks and comments up to the end of a comment. -/
theorem found_commented (hgaps : o.gaps = true) (i j : Nat) (h : Commented trivia s i j)
    (fuel : Nat) (hfuel : s.size < fuel + i) (acc : List Node) :
    ∃ ns, skipTrivia trivia [] s j fuel i acc = (ns ++ acc, j) ∧ Found o s .blank i ns j ∧
      ns ≠ [] ∧ EndsAt i ns j ∧ Firm o.control s j := by
  -- by induction on the pieces; each is a step forward, so the fuel lasts
  induction h generalizing fuel acc with
  | last i j kind h hkind hlt =>
    have hfound := found_trivia ht hplain i j kind h
    obtain ⟨fuel, rfl⟩ : ∃ n, fuel = n+1 := ⟨fuel-1, by have := hfound.bound; omega⟩
    obtain ⟨_, _, hcomment⟩ := ht s i j kind h
    refine ⟨_, ?_, hfound, ?_, ?_, (hcomment hkind).2 hgaps⟩
    · rw [skipTrivia_succ j fuel i j kind acc hlt h hlt, skipTrivia_of_le _ _ _ _ le_rfl]
    · simp [triviaNodes, hkind]
    · simp [triviaNodes, hkind, EndsAt, mkNode]
  | step i k j kind h hlt more ih =>
    obtain ⟨_, hsize, _⟩ := ht s i k kind h
    obtain ⟨fuel, rfl⟩ : ∃ n, fuel = n+1 := ⟨fuel-1, by omega⟩
    obtain ⟨ns, heq, hns, hne, hends, hfirm⟩ := ih fuel (by omega) (triviaNodes s i k kind ++ acc)
    refine ⟨ns ++ triviaNodes s i k kind, ?_, ?_, by simp [hne], ?_, hfirm⟩
    · rw [skipTrivia_succ j fuel i k kind acc (hlt.trans more.lt) h hlt, heq, List.append_assoc]
    · exact ((found_trivia ht hplain i k kind h).seq hns).mono rfl
    · exact hends.append fun hnil => absurd hnil hne

/-- A gap that lands behind a comment, or nowhere. -/
theorem found_gap (scan : Scan) (hscan : o.gaps = true → Lands trivia scan) (pos j : Nat)
    (h : scan s pos = some j) (acc : List Node) (hpos : pos ≤ s.size) :
    ∃ ns k, skipTrivia trivia [] s j (s.size+1) pos acc = (ns ++ acc, k) ∧
      Found o s ⟨false, o.gaps, true⟩ pos ns k := by
  cases hgaps : o.gaps with
  | false => exact found_skipTrivia ht hplain j _ pos acc hpos
  | true =>
    rcases hscan hgaps s pos j h with hle | hcommented
    · exact ⟨[], pos, skipTrivia_of_le _ _ _ acc hle, .hollow hpos⟩
    · obtain ⟨ns, heq, hns, _, hends, hfirm⟩ :=
        found_commented ht hplain hgaps pos j hcommented (s.size+1) (by omega) acc
      exact ⟨ns, j, heq, hns.le, hns.bound, hns.starts, hns.neat, by simp,
        fun _ => ⟨hends, fun _ => hfirm⟩, fun _ => hns.opens rfl⟩

end Trivia

end Synopsis.Grammar
