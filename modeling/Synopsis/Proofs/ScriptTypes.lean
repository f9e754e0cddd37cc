import Synopsis.Proofs.Enclosed

/-! Types and their texts: names, type arguments, object types, function types, arrays and unions.
The text of a type closes what it opens, at every nesting. -/
namespace Synopsis.Script
open Delimiter Text

/-! ### Syntax and its text -/

/-- Letters, digits, `_`, `$` and whatever lies above the ASCII range, blanks apart. -/
def isNameChar (c : Char) : Bool :=
  (c.isAlphanum || c == '_' || c == '$' || 128 ≤ c.toNat) && !isBlank c

structure Name where
  chars : List Char
  nonempty : chars ≠ []
  valid : chars.all isNameChar = true

/-- A name that does not end in the word after which `<` is no bracket. -/
structure TypeName extends Name where
  notOperator : ¬ "operator".toList <:+ chars

/-- A blank on either side, unless there is nothing to set apart. -/
def padded (cs : List Char) : List Char :=
  if cs.isEmpty then [] else " ".toList ++ cs ++ " ".toList

inductive TypeExpr where
  | named (x : TypeName)
  | applied (x : TypeName) (first : TypeExpr) (others : List TypeExpr)
  | object (fields : List (Name × TypeExpr))
  | function (params : List (Name × TypeExpr)) (result : TypeExpr)
  | array (t : TypeExpr)
  | union (t u : TypeExpr)

namespace TypeExpr

mutual

def text : TypeExpr → List Char
  | named x => x.chars
  | applied x t ts => x.chars ++ '<' :: (text t ++ argsText ts ++ ['>'])
  | object fs => '\x7b' :: (padded (fieldsText "; ".toList fs) ++ ['\x7d'])
  | function ps t => '(' :: (fieldsText ", ".toList ps ++ [')']) ++ " => ".toList ++ text t
  | array t => text t ++ "[]".toList
  | union t u => text t ++ " | ".toList ++ text u

/-- Type arguments after the first. -/
def argsText : List TypeExpr → List Char
  | [] => []
  | t :: ts => ", ".toList ++ text t ++ argsText ts

/-- Fields or parameters with a separator between them. -/
def fieldsText (sep : List Char) : List (Name × TypeExpr) → List Char
  | [] => []
  | [f] => fieldText f
  | f :: g :: fs => fieldText f ++ sep ++ fieldsText sep (g :: fs)

def fieldText : Name × TypeExpr → List Char
  | (x, t) => x.chars ++ ": ".toList ++ text t

end

/-- No function type stands outside all type arguments and object types. -/
def hidesArrows : TypeExpr → Bool
  | named _ | applied _ _ _ | object _ => true
  | function _ _ => false
  | array t => t.hidesArrows
  | union t u => t.hidesArrows && u.hidesArrows

end TypeExpr

/-! ### Names -/

/-- What has a meaning in code, continues a token or is a blank, is an ASCII character and stands
in no name. -/
theorem nameChar_of_reserved (u : Char)
    (h : isSpecial u = true ∨ isContinuation u = true ∨ isAsciiBlank u = true) :
    u.toNat < 128 ∧ isNameChar u = false := by
  simp only [isSpecial, isContinuation, isQuote, isAsciiBlank, String.reduceToList,
    List.contains_cons, List.contains_nil, Bool.or_false, Bool.or_eq_true, beq_iff_eq,
    or_assoc] at h
  -- one case for each character of the three sets
  repeat' rcases h with rfl | h
  all_goals decide

namespace Name
variable (x : Name)

/-- A byte of a name is none of those, for its other bytes lie above the ASCII range. -/
theorem byte_free (u : Char) (hu : u ∈ bytes x.chars) :
    isSpecial u = false ∧ isContinuation u = false ∧ isAsciiBlank u = false := by
  have hfree : ¬ (isSpecial u = true ∨ isContinuation u = true ∨ isAsciiBlank u = true) := by
    intro h
    obtain ⟨hlow, hname⟩ := nameChar_of_reserved u h
    rcases mem_bytes_cases x.chars u hu with hmem | hhigh
    · rw [List.all_eq_true.mp x.valid u hmem] at hname
      cases hname
    · omega
  simpa [not_or] using hfree

theorem plain : (bytes x.chars).any isSpecial = false := by
  rw [List.any_eq_false]
  intro u hu
  simp [(x.byte_free u hu).1]

theorem bytes_ne_nil : bytes x.chars ≠ [] := fun h => x.nonempty (eq_nil_of_bytes _ h)

theorem closed (s : Settings) (quiet : Bool) : ClosedAnywhere s quiet x.chars :=
  closedAnywhere_plain x.plain

theorem inert (rest : List Char) : Inert (bytes x.chars ++ rest) := by
  intro u hu
  rw [List.head?_append_of_ne_nil _ x.bytes_ne_nil] at hu
  exact (x.byte_free u (List.mem_of_mem_head? hu)).2.1

end Name

theorem blank_of_nameChar (c : Char) (h : isNameChar c = true) : isBlank c = false := by
  have hnot := (Bool.and_eq_true_iff.mp h).2
  simpa using hnot

/-- Behind a type name that nothing runs into, `<` is a bracket. -/
theorem TypeName.not_afterOperator (x : TypeName) (before : List Char) (h : Loose before) :
    afterOperator ((bytes x.chars).reverse ++ before) = false := by
  by_contra hword
  have hword : afterOperator ((bytes x.chars).reverse ++ before) = true := by simpa using hword
  -- the last byte of the name is no blank, so the look back starts with it
  have hdrop : ((bytes x.chars).reverse ++ before).dropWhile isAsciiBlank =
      (bytes x.chars).reverse ++ before := by
    cases hrev : (bytes x.chars).reverse with
    | nil => exact absurd (List.reverse_eq_nil_iff.mp hrev) x.toName.bytes_ne_nil
    | cons u us =>
      have hu : u ∈ bytes x.chars := by
        rw [← List.mem_reverse, hrev]
        exact List.mem_cons_self
      have hblank := (x.toName.byte_free u hu).2.2
      rw [List.cons_append, List.dropWhile_cons_of_neg (by simp [hblank])]
  have hname : "rotarepo".toList.isPrefixOf (bytes x.chars).reverse = true := by
    rw [afterOperator, hdrop] at hword
    cases before with
    | nil => rwa [List.append_nil] at hword
    | cons c before =>
      rwa [isPrefixOf_append_of_not_mem _ _ _ _ (h c rfl)] at hword
  obtain ⟨rest, hrest⟩ := List.isPrefixOf_iff_prefix.mp hname
  have hbytes : bytes x.chars = rest.reverse ++ 'o' :: "perator".toList := by
    have hreverse := congrArg List.reverse hrest
    rw [List.reverse_reverse, List.reverse_append] at hreverse
    exact hreverse.symm
  obtain ⟨head, tail, hsplit, _, htail⟩ := split_before_ascii x.chars _ _ 'o' (by decide) hbytes
  have hword : tail = "perator".toList := eq_of_bytes_ascii tail _ (by simp) htail
  apply x.notOperator
  exact ⟨head, by rw [hsplit, hword]; rfl⟩

/-! ### Types -/

namespace TypeExpr

/-- A type begins with a byte that continues nothing. -/
theorem inert_text (t : TypeExpr) (rest : List Char) : Inert (bytes t.text ++ rest) := by
  cases t with
  | named x =>
    rw [text]
    exact x.toName.inert rest
  | applied x t ts =>
    rw [text, bytes_append, List.append_assoc]
    exact x.toName.inert _
  | object fs =>
    rw [text, bytes_cons, List.append_assoc]
    exact inert_cons _ _ rfl
  | function ps t =>
    rw [text, List.cons_append, List.cons_append, bytes_cons, List.append_assoc]
    exact inert_cons _ _ rfl
  | array t =>
    rw [text, bytes_append, List.append_assoc]
    exact inert_text t _
  | union t u =>
    rw [text, bytes_append, bytes_append, List.append_assoc, List.append_assoc]
    exact inert_text t _

/-- A type ends in no blank. -/
theorem text_ends (t : TypeExpr) : ∃ front c, t.text = front ++ [c] ∧ isBlank c = false := by
  cases t with
  | named x =>
    refine ⟨x.chars.dropLast, x.chars.getLast x.nonempty, ?_, ?_⟩
    · rw [text, List.dropLast_append_getLast]
    · exact blank_of_nameChar _ (List.all_eq_true.mp x.valid _ (List.getLast_mem _))
  | applied x t ts => exact ⟨x.chars ++ '<' :: (text t ++ argsText ts), '>', by simp [text], rfl⟩
  | object fs =>
    exact ⟨'\x7b' :: padded (fieldsText "; ".toList fs), '\x7d', by simp [text], rfl⟩
  | function ps t =>
    obtain ⟨front, c, ht, hc⟩ := text_ends t
    exact ⟨'(' :: (fieldsText ", ".toList ps ++ [')']) ++ " => ".toList ++ front, c,
      by simp only [text, ht, List.append_assoc], hc⟩
  | array t => exact ⟨text t ++ ['['], ']', by simp [text], rfl⟩
  | union t u =>
    obtain ⟨front, c, hu, hc⟩ := text_ends u
    exact ⟨text t ++ " | ".toList ++ front, c, by simp only [text, hu, List.append_assoc], hc⟩

theorem spaced_separators (s : Settings) (quiet : Bool) :
    ClosedAnywhere s quiet "; ".toList ∧ ClosedAnywhere s quiet ", ".toList ∧
      ClosedAnywhere s quiet " | ".toList ∧ ClosedAnywhere s quiet " ".toList := by
  refine ⟨?_, ?_, ?_, ?_⟩ <;> exact closedAnywhere_plain (by decide)

theorem closed_padded {s : Settings} {cs : List Char} (h : Closed s false cs) :
    Closed s false (padded cs) := by
  unfold padded
  split_ifs
  · exact closed_nil
  · obtain ⟨_, _, _, hspace⟩ := spaced_separators s false
    exact (closed_nil.spaced hspace rfl h).append hspace

/-- Type arguments in their brackets after a name. -/
theorem closed_applied (s : Settings) (hs : s.angles = true) (x : TypeName) (args : List Char)
    (hargs : Closed s false args) (hinert : ∀ rest, Inert (bytes args ++ rest)) :
    Closed s true (x.chars ++ '<' :: (args ++ ['>'])) := by
  intro after before hbefore
  refine ClosedIn.append (x.toName.closed s true _ before) ?_
  refine closedIn_group s hs .angle args hargs after _ ?_
  exact codeAction_openAngle s hs _ _ (hinert _) (x.not_afterOperator before hbefore)

mutual

/-- The text of a type is closed, and quiet if the type hides its arrows. -/
theorem closed_text (s : Settings) (hs : s.angles = true) (t : TypeExpr) :
    Closed s t.hidesArrows t.text := by
  -- inside brackets only closedness is asked for, so arguments, fields and parameters may be noisy
  cases t with
  | named x =>
    rw [text]
    exact (x.toName.closed s _).closed
  | applied x t ts =>
    rw [text]
    have hargs : Closed s false (t.text ++ argsText ts) :=
      closed_args s hs ts t.text (closed_text s hs t).noisy
    have hinert (rest : List Char) : Inert (bytes (t.text ++ argsText ts) ++ rest) := by
      rw [bytes_append, List.append_assoc]
      exact inert_text t _
    exact closed_applied s hs x _ hargs hinert
  | object fs =>
    rw [text]
    obtain ⟨hsep, _, _, _⟩ := spaced_separators s false
    have hfields := closed_padded (closed_fields s hs "; ".toList fs hsep rfl)
    exact (closedAnywhere_group s hs .brace (by decide) _ hfields).closed
  | function ps t =>
    rw [text]
    obtain ⟨_, hsep, _, hspace⟩ := spaced_separators s false
    have hparams := closed_fields s hs ", ".toList ps hsep rfl
    have hgroup := closedAnywhere_group s hs .paren (by decide) _ hparams
    have harrow : ClosedAnywhere s false " => ".toList :=
      (hspace.append closedAnywhere_arrow).append hspace
    exact Closed.spaced hgroup.closed.noisy harrow rfl (closed_text s hs t).noisy
  | array t =>
    rw [text]
    have hgroup := closedAnywhere_group s hs .bracket (by decide) [] closed_nil
    exact (closed_text s hs t).append (hgroup.mono fun _ => rfl)
  | union t u =>
    have ht : Closed s (t.hidesArrows && u.hidesArrows) t.text :=
      (closed_text s hs t).mono fun h => (Bool.and_eq_true_iff.mp h).1
    have hu : Closed s (t.hidesArrows && u.hidesArrows) u.text :=
      (closed_text s hs u).mono fun h => (Bool.and_eq_true_iff.mp h).2
    rw [text, hidesArrows]
    exact ht.spaced (spaced_separators s _).2.2.1 rfl hu

theorem closed_args (s : Settings) (hs : s.angles = true) (ts : List TypeExpr) (cs : List Char)
    (hcs : Closed s false cs) : Closed s false (cs ++ argsText ts) := by
  cases ts with
  | nil =>
    rw [argsText, List.append_nil]
    exact hcs
  | cons t ts =>
    obtain ⟨_, hsep, _, _⟩ := spaced_separators s false
    have hlonger := closed_args s hs ts _ (hcs.spaced hsep rfl (closed_text s hs t).noisy)
    rw [argsText]
    simpa only [List.append_assoc] using hlonger

theorem closed_fields (s : Settings) (hs : s.angles = true) (sep : List Char)
    (fs : List (Name × TypeExpr)) (hsep : ClosedAnywhere s false sep)
    (hend : sep.getLast? = some ' ') : Closed s false (fieldsText sep fs) := by
  match fs with
  | [] =>
    rw [fieldsText]
    exact closed_nil
  | [f] =>
    rw [fieldsText]
    exact closed_field s hs f
  | f :: g :: fs =>
    rw [fieldsText]
    exact (closed_field s hs f).spaced hsep hend (closed_fields s hs sep (g :: fs) hsep hend)

theorem closed_field (s : Settings) (hs : s.angles = true) (f : Name × TypeExpr) :
    Closed s false (fieldText f) := by
  obtain ⟨x, t⟩ := f
  rw [fieldText]
  have hcolon : ClosedAnywhere s false ": ".toList :=
    closedAnywhere_colon.append (spaced_separators s false).2.2.2
  exact Closed.spaced (x.closed s false).closed hcolon rfl (closed_text s hs t).noisy

end

end TypeExpr

end Synopsis.Script
