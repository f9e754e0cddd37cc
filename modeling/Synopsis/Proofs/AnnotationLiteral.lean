import Synopsis.Extract
import Synopsis.Profile.Java
import Synopsis.Proofs.ModifierList

/-! String literals among the arguments of an annotation. Modifiers are read word by word and
arguments by their parens, without regard for literals: what a literal holds goes unnoticed as long
as it leaves as many parens open as it found and is never read as the end of the list. -/
open Synopsis.Tree

namespace Synopsis.Visibility
open Text

/-! ### One character at a time -/

/-- Where the reading of a declaration stands: in a word, read so far; in an annotation with its
argument list begun, and so many parens open; or at its answer. -/
inductive Reading where
  | word (read : List Char)
  | inside (depth : Nat)
  | settled (isPrivate : Bool)
  deriving DecidableEq, Repr

namespace Reading

/-- A word has ended. -/
def endWord (w : List Char) : Reading :=
  if w.head? == some '@' && w != "@interface".toList then .word []
  else if w == "private".toList then .settled true
  else if endsModifiers w then .settled false
  else .word []

def step : Reading → Char → Reading
  | .word w, c =>
    if isBlank c then endWord w
    else if w.head? == some '@' && c == '(' then .inside 1
    else .word (w ++ [c])
  | .inside d, c => if isBlank c && d == 0 then .word [] else .inside (parenBalance d [c])
  | .settled b, _ => .settled b

/-- The answer where the text ends. -/
def answer : Reading → Bool
  | .word w => privateAmong 0 [w]
  | .inside _ => false
  | .settled b => b

/-- A word has no blanks, and an annotation is read as one from its first paren on. -/
def Sound : Reading → Prop
  | .word w => (∀ c ∈ w, isBlank c = false) ∧ (w.head? = some '@' → '(' ∉ w)
  | _ => True

/-- What the words of the rest say from here on. -/
def verdict : Reading → List Char → Bool
  | .word w, cs => privateAmong 0 (splitWhere isBlank (w ++ cs))
  | .inside d, cs =>
    match splitWhere isBlank cs with
    | [] => false
    | w :: ws => privateAmong (parenBalance d w) ws
  | .settled b, _ => b

theorem sound_endWord (w : List Char) : (endWord w).Sound := by
  unfold endWord
  split_ifs <;> simp [Sound]

theorem sound_step (r : Reading) (c : Char) (hr : r.Sound) : (r.step c).Sound := by
  cases r with
  | settled b => trivial
  | inside d =>
    simp only [step]
    split_ifs <;> simp [Sound]
  | word w =>
    obtain ⟨hblank, hmark⟩ := hr
    simp only [step]
    split_ifs with hc hopen
    · exact sound_endWord w
    · trivial
    -- the word goes on: a paren behind the mark would have opened the arguments
    · refine ⟨?_, ?_⟩
      · intro a ha
        rcases List.mem_append.mp ha with ha | ha
        · exact hblank a ha
        · rw [List.mem_singleton.mp ha]
          simpa using hc
      · intro hhead hparen
        cases w with
        | nil =>
          obtain rfl : c = '@' := by simpa using hhead
          exact absurd hparen (by decide)
        | cons a w =>
          have ha : (a :: w).head? = some '@' := hhead
          rcases List.mem_append.mp hparen with hparen | hparen
          · exact hmark ha hparen
          · have hc' : '(' = c := List.mem_singleton.mp hparen
            simp [ha, ← hc'] at hopen

/-- Without a paren that opens, none is open. -/
theorem parenBalance_closed (w : List Char) (hw : '(' ∉ w) : parenBalance 0 w = 0 := by
  induction w with
  | nil => rfl
  | cons c w ih =>
    obtain ⟨hc, hw⟩ : '(' ≠ c ∧ '(' ∉ w := by simpa using hw
    have hcons := parenBalance_append 0 [c] w
    have hone : parenBalance 0 [c] = 0 := by simp [parenBalance_singleton, Ne.symm hc]
    rw [hone, ih hw] at hcons
    exact hcons

theorem privateAmong_endWord (w : List Char) (ws : List (List Char))
    (hmark : w.head? = some '@' → '(' ∉ w) :
    privateAmong 0 (w :: ws) =
      match endWord w with
      | .settled b => b
      | _ => privateAmong 0 ws := by
  rw [privateAmong, if_neg (lt_irrefl 0), endWord]
  split_ifs with huse
  · have hhead : w.head? = some '@' := by simpa using (Bool.and_eq_true_iff.mp huse).1
    rw [parenBalance_closed w (hmark hhead)]
  all_goals rfl

theorem verdict_endWord (w : List Char) (cs : List Char) (hmark : w.head? = some '@' → '(' ∉ w) :
    privateAmong 0 (w :: splitWhere isBlank cs) = (endWord w).verdict cs := by
  rw [privateAmong_endWord w _ hmark]
  unfold endWord
  split_ifs <;> rfl

theorem verdict_nil (r : Reading) (hr : r.Sound) : r.verdict [] = r.answer := by
  cases r with
  | settled b => rfl
  | inside d => rfl
  | word w => rw [verdict, List.append_nil, splitWhere_unbroken isBlank w hr.1, answer]

/-- Characters that are no blanks lengthen the first piece of what follows them. -/
theorem splitWhere_unbroken_append (w cs : List Char) (hw : ∀ c ∈ w, isBlank c = false) :
    ∃ u us, splitWhere isBlank cs = u :: us ∧ splitWhere isBlank (w ++ cs) = (w ++ u) :: us := by
  induction w with
  | nil =>
    obtain ⟨u, us, hsplit⟩ := List.exists_cons_of_ne_nil (splitWhere_ne_nil isBlank cs)
    exact ⟨u, us, hsplit, hsplit⟩
  | cons a w ih =>
    have ha := hw a List.mem_cons_self
    obtain ⟨u, us, hsplit, hall⟩ := ih fun c hc => hw c (List.mem_cons_of_mem a hc)
    exact ⟨u, us, hsplit, by rw [List.cons_append, splitWhere, hall]; simp [ha]⟩

theorem verdict_inside_cons (d : Nat) (c : Char) (cs : List Char) :
    (inside d).verdict (c :: cs) = ((inside d).step c).verdict cs := by
  cases hc : isBlank c with
  | true =>
    have hblank : (inside d).verdict (c :: cs) = privateAmong d (splitWhere isBlank cs) := by
      rw [verdict, splitWhere, if_pos hc]
      rfl
    rw [hblank, step, hc, parenBalance_blank d c hc]
    rcases Nat.eq_zero_or_pos d with rfl | hd
    · rfl
    · -- inside the list the next word counts by its parens too
      have hne : (d == 0) = false := by simpa using hd.ne'
      obtain ⟨w, ws, hsplit⟩ := List.exists_cons_of_ne_nil (splitWhere_ne_nil isBlank cs)
      rw [hne, Bool.and_false, if_neg Bool.false_ne_true, verdict, hsplit,
        privateAmong_inside d w ws hd]
  | false =>
    obtain ⟨w, ws, hsplit, hcons⟩ := splitWhere_unbroken_append [c] cs (by simpa using hc)
    rw [List.singleton_append] at hcons
    rw [verdict, hcons, step, hc, Bool.false_and, if_neg Bool.false_ne_true, verdict, hsplit]
    simp only [parenBalance_append]

/-- The first paren of a word with the mark begins the arguments of an annotation. -/
theorem verdict_opened (w cs : List Char) (hblank : ∀ c ∈ w, isBlank c = false)
    (hhead : w.head? = some '@') (hparen : '(' ∉ w) :
    (word w).verdict ('(' :: cs) = (inside 1).verdict cs := by
  have hunbroken : ∀ c ∈ w ++ ['('], isBlank c = false := by
    intro c hc
    rcases List.mem_append.mp hc with hc | hc
    · exact hblank c hc
    · rw [List.mem_singleton.mp hc]
      rfl
  -- the word goes on with the first piece of what follows
  obtain ⟨u, us, hcs, hsplit⟩ := splitWhere_unbroken_append (w ++ ['(']) cs hunbroken
  simp only [List.append_assoc, List.singleton_append] at hsplit
  have hmark : (w ++ '(' :: u).head? = some '@' := by
    cases w with
    | nil => cases hhead
    | cons a w => exact hhead
  have huse : w ++ '(' :: u ≠ "@interface".toList := by
    intro heq
    have hmem : '(' ∈ w ++ '(' :: u := by simp
    rw [heq] at hmem
    exact absurd hmem (by decide)
  have hopen : parenBalance 0 (w ++ '(' :: u) = parenBalance 1 u := by
    rw [parenBalance_append, parenBalance_closed w hparen]
    rfl
  have hcond : ((w ++ '(' :: u).head? == some '@' &&
      w ++ '(' :: u != "@interface".toList) = true := by
    simpa [hmark] using huse
  calc (word w).verdict ('(' :: cs)
      = privateAmong 0 ((w ++ '(' :: u) :: us) := by rw [verdict, hsplit]
    _ = privateAmong (parenBalance 0 (w ++ '(' :: u)) us := by
        rw [privateAmong, if_neg (lt_irrefl 0), if_pos hcond]
    _ = privateAmong (parenBalance 1 u) us := by rw [hopen]
    _ = (inside 1).verdict cs := by rw [verdict, hcs]

theorem verdict_cons (r : Reading) (c : Char) (cs : List Char) (hr : r.Sound) :
    r.verdict (c :: cs) = (r.step c).verdict cs := by
  cases r with
  | settled b => rfl
  | inside d => exact verdict_inside_cons d c cs
  | word w =>
    obtain ⟨hblank, hmark⟩ := hr
    cases hc : isBlank c with
    | true =>
      rw [verdict, splitWhere_append_cons isBlank w cs c hc, splitWhere_unbroken isBlank w hblank,
        List.singleton_append, verdict_endWord w cs hmark, step, if_pos hc]
    | false =>
      rw [step, hc, if_neg Bool.false_ne_true]
      split_ifs with hopen
      · obtain ⟨hhead, rfl⟩ : w.head? = some '@' ∧ c = '(' := by simpa using hopen
        exact verdict_opened w cs hblank hhead (hmark hhead)
      · rw [verdict, verdict, List.append_assoc, List.singleton_append]

/-- The words of a text say what its characters say one after the other. -/
theorem verdict_eq_answer (r : Reading) (cs : List Char) (hr : r.Sound) :
    r.verdict cs = (cs.foldl step r).answer := by
  induction cs generalizing r with
  | nil => exact verdict_nil r hr
  | cons c cs ih => rw [verdict_cons r c cs hr, ih _ (sound_step r c hr), List.foldl_cons]

end Reading

/-- Where the reading stands after a text. -/
def reading (cs : List Char) : Reading := cs.foldl Reading.step (.word [])

theorem javaPrivate_eq_answer (cs : List Char) :
    javaPrivate (String.ofList cs) = (reading cs).answer := by
  have hsound : (Reading.word []).Sound := by simp [Reading.Sound]
  rw [javaPrivate, String.toList_ofList, words, privateAmong_filter, reading,
    ← Reading.verdict_eq_answer _ _ hsound]
  rfl

theorem reading_append (front cs : List Char) :
    reading (front ++ cs) = cs.foldl Reading.step (reading front) := List.foldl_append

/-! ### Inside an argument list -/

/-- Inside a list with `d` parens open the text leaves as many open, and at none of its blanks is
the list taken to be closed. -/
structure Neutral (d : Nat) (cs : List Char) : Prop where
  balanced : parenBalance d cs = d
  blanks_inside : ∀ n, (h : n < cs.length) → isBlank cs[n] = true →
    0 < parenBalance d (cs.take n)

/-- Where no blank follows a closed list the reading stays in it. -/
theorem foldl_step_inside (d : Nat) (cs : List Char)
    (h : ∀ n, (h : n < cs.length) → isBlank cs[n] = true → 0 < parenBalance d (cs.take n)) :
    cs.foldl Reading.step (.inside d) = .inside (parenBalance d cs) := by
  induction cs generalizing d with
  | nil => rfl
  | cons c cs ih =>
    have hcons (front : List Char) :
        parenBalance d (c :: front) = parenBalance (parenBalance d [c]) front :=
      parenBalance_append d [c] front
    have hstep : (Reading.inside d).step c = .inside (parenBalance d [c]) := by
      rw [Reading.step, if_neg]
      intro hclosed
      obtain ⟨hc, rfl⟩ : isBlank c = true ∧ d = 0 := by simpa using hclosed
      exact absurd (h 0 (by simp) hc) (lt_irrefl 0)
    rw [List.foldl_cons, hstep, hcons cs]
    apply ih
    intro n hn hb
    rw [← hcons]
    exact h (n + 1) (by simpa using hn) hb

theorem parenBalance_of_no_parens (d : Nat) (cs : List Char) (hopen : '(' ∉ cs)
    (hclose : ')' ∉ cs) : parenBalance d cs = d := by
  induction cs with
  | nil => rfl
  | cons c cs ih =>
    obtain ⟨hc, hcs⟩ : '(' ≠ c ∧ '(' ∉ cs := by simpa using hopen
    obtain ⟨hc', hcs'⟩ : ')' ≠ c ∧ ')' ∉ cs := by simpa using hclose
    have hone : parenBalance d [c] = d := by
      simp [parenBalance_singleton, Ne.symm hc, Ne.symm hc']
    have hcons := parenBalance_append d [c] cs
    rwa [hone, ih hcs hcs'] at hcons

/-- A text without parens is neutral in every list. -/
theorem neutral_of_no_parens (d : Nat) (cs : List Char) (hd : 0 < d) (hopen : '(' ∉ cs)
    (hclose : ')' ∉ cs) : Neutral d cs := by
  refine ⟨parenBalance_of_no_parens d cs hopen hclose, ?_⟩
  intro n _ _
  rw [parenBalance_of_no_parens d (cs.take n) (fun h => hopen (List.mem_of_mem_take h))
    (fun h => hclose (List.mem_of_mem_take h))]
  exact hd

/-- A text with a string literal in it. -/
def withLiteral (front contents rest : List Char) : List Char :=
  front ++ '"' :: (contents ++ '"' :: rest)

theorem reading_withLiteral (front cs rest : List Char) :
    reading (withLiteral front cs rest) =
      rest.foldl Reading.step (reading (withLiteral front cs [])) := by
  rw [← reading_append]
  simp [withLiteral]

/-- A neutral literal leaves the reading where it was. -/
theorem reading_neutral (front cs : List Char) (d : Nat) (hfront : reading front = .inside d)
    (hcs : Neutral d cs) : reading (withLiteral front cs []) = .inside d := by
  have hquote (e : Nat) : (Reading.inside e).step '"' = .inside e := rfl
  calc reading (withLiteral front cs [])
      = ('"' :: (cs ++ ['"'])).foldl Reading.step (.inside d) := by
        rw [withLiteral, reading_append, hfront]
    _ = (cs.foldl Reading.step (.inside d)).step '"' := by
        rw [List.foldl_cons, hquote, List.foldl_append, List.foldl_cons, List.foldl_nil]
    _ = (Reading.inside d).step '"' := by
        rw [foldl_step_inside d cs hcs.blanks_inside, hcs.balanced]
    _ = .inside d := hquote d

theorem foldl_step_settled (b : Bool) (cs : List Char) :
    cs.foldl Reading.step (.settled b) = .settled b := by
  induction cs with
  | nil => rfl
  | cons c cs ih => exact ih

theorem reading_settled (front cs : List Char) (b : Bool) (hfront : reading front = .settled b) :
    reading (withLiteral front cs []) = .settled b := by
  rw [withLiteral, reading_append, hfront, foldl_step_settled]

/-- Parens that close, and then a modifier. -/
def thenPrivate (n : Nat) : List Char := List.replicate n ')' ++ " private".toList

/-- The modifier is seen exactly if the parens before it close the list. -/
theorem answer_thenPrivate (d n : Nat) :
    ((thenPrivate n).foldl Reading.step (.inside d)).answer = decide (d ≤ n) := by
  have hclose : (List.replicate n ')').foldl Reading.step (.inside d) = .inside (d - n) := by
    induction n generalizing d with
    | zero => rfl
    | succ n ih =>
      have hstep : (Reading.inside d).step ')' = .inside (d - 1) := rfl
      rw [List.replicate_succ, List.foldl_cons, hstep, ih, Nat.sub_sub, Nat.add_comm]
  rw [thenPrivate, List.foldl_append, hclose]
  rcases Nat.eq_zero_or_pos (d - n) with hzero | hpos
  · rw [hzero]
    have hle : d ≤ n := by omega
    simp only [hle, decide_true]
    decide
  · -- no letter of the word closes a paren
    have hneutral : Neutral (d - n) " private".toList :=
      neutral_of_no_parens _ _ hpos (by decide) (by decide)
    have hstay := foldl_step_inside _ _ hneutral.blanks_inside
    have hlt : ¬ d ≤ n := by omega
    rw [hstay]
    simp [Reading.answer, hlt]

/-- A word that is no annotation ends the modifiers once it holds a semicolon. -/
theorem answer_semicolon (w : List Char) (n : Nat) (hw : w.head? ≠ some '@') :
    ((';' :: thenPrivate n).foldl Reading.step (.word w)).answer = false := by
  have hcloses (v : List Char) (k : Nat) :
      (List.replicate k ')').foldl Reading.step (.word v) = .word (v ++ List.replicate k ')') := by
    induction k generalizing v with
    | zero => simp
    | succ k ih =>
      have hstep : (Reading.word v).step ')' = .word (v ++ [')']) := by simp [Reading.step, isBlank]
      rw [List.replicate_succ, List.foldl_cons, hstep, ih, List.append_assoc, List.singleton_append]
  have hsemicolon : (Reading.word w).step ';' = .word (w ++ [';']) := by
    simp [Reading.step, isBlank]
  -- the word that the next blank ends
  let v := w ++ [';'] ++ List.replicate n ')'
  have hend : (Reading.word v).step ' ' = .settled false := by
    have hmem : ';' ∈ v := by simp [v]
    have hmark : (v.head? == some '@') = false := by
      cases w with
      | nil => rfl
      | cons a w => simpa [v] using hw
    have hprivate : (v == "private".toList) = false := by
      rw [beq_eq_false_iff_ne]
      intro heq
      rw [heq] at hmem
      exact absurd hmem (by decide)
    have hbegins : endsModifiers v = true := (endsModifiers_iff v).mpr (.inr ⟨';', hmem, by decide⟩)
    have hblank : isBlank ' ' = true := rfl
    simp only [Reading.step, hblank, ↓reduceIte, Reading.endWord, hmark, hprivate, hbegins,
      Bool.false_and, Bool.false_eq_true]
  rw [List.foldl_cons, hsemicolon, thenPrivate, List.foldl_append, hcloses]
  change ("private".toList.foldl Reading.step ((Reading.word v).step ' ')).answer = false
  rw [hend, foldl_step_settled]
  rfl

/-- From any other place in its reading than inside the list, at the same depth, some end of the
declaration is read otherwise. -/
theorem exists_told_apart (r : Reading) (d : Nat) (hd : 0 < d) (hr : r ≠ .inside d) :
    ∃ rest : List Char, (rest.foldl Reading.step (.inside d)).answer ≠
      (rest.foldl Reading.step r).answer := by
  cases r with
  | settled b =>
    cases b with
    | true => exact ⟨[], by simp [Reading.answer]⟩
    | false =>
      refine ⟨thenPrivate d, ?_⟩
      rw [answer_thenPrivate, foldl_step_settled]
      simp [Reading.answer]
  | inside e =>
    have hne : e ≠ d := by
      rintro rfl
      exact hr rfl
    -- as many parens as close the one that is less deep
    refine ⟨thenPrivate (min d e), ?_⟩
    rw [answer_thenPrivate, answer_thenPrivate]
    rcases Nat.lt_or_gt_of_ne hne with hlt | hlt
    · have hmin : min d e = e := by omega
      have hno : ¬ d ≤ e := by omega
      simp [hmin, hno]
    · have hmin : min d e = d := by omega
      have hno : ¬ e ≤ d := by omega
      simp [hmin, hno]
  | word w =>
    by_cases hw : w.head? = some '@'
    · -- a paren opens the arguments of another annotation, and here one more list
      refine ⟨'(' :: thenPrivate d, ?_⟩
      have hinside : (Reading.inside d).step '(' = .inside (d + 1) := rfl
      have hword : (Reading.word w).step '(' = .inside 1 := by simp [Reading.step, isBlank, hw]
      have hle : 1 ≤ d := hd
      rw [List.foldl_cons, List.foldl_cons, hinside, hword, answer_thenPrivate,
        answer_thenPrivate]
      simp [hle]
    -- a semicolon settles the word, and inside the list it is nothing
    · refine ⟨';' :: thenPrivate d, ?_⟩
      have hinside : (Reading.inside d).step ';' = .inside d := rfl
      rw [answer_semicolon w d hw, List.foldl_cons, hinside, answer_thenPrivate]
      simp

/-! ### Declarations that differ in a literal -/

/-- The declaration is a field. -/
def IsField (p : Profile) (c : Candidate) : Prop :=
  ∃ k, c.nodeKind? = some k ∧ p.kindOf k = .field

/-- Two texts of a declaration that make no difference to its visibility: to the check for a
modifier, to the exported flag, and to whether the declaration is kept. The last takes that a field
is marked as static in both or in neither. -/
structure SameVisibility (t u : String) : Prop where
  isPrivate : javaPrivate t = javaPrivate u
  isExported (parser : Parser) (name : String) (o : Options) :
    (Profile.java parser).isExported name t o = (Profile.java parser).isExported name u o
  isKept (parser : Parser) (s : Source) (tag : String) (o : Options) (seen : List Nat)
    (c : Candidate) (hstatic : IsField (Profile.java parser) c →
      containsWord "static" t = containsWord "static" u) :
    (signaturesOf (Profile.java parser) s tag o seen [{ c with text := t }]).isEmpty =
      (signaturesOf (Profile.java parser) s tag o seen [{ c with text := u }]).isEmpty

theorem accept?_with_text (parser : Parser) (c : Candidate) (t u : String) (ht : t ≠ "")
    (hu : u ≠ "") (hstatic : IsField (Profile.java parser) c →
      containsWord "static" t = containsWord "static" u) :
    ({ c with text := t } : Candidate).accept? (Profile.java parser) =
      ({ c with text := u } : Candidate).accept? (Profile.java parser) := by
  let p := Profile.java parser
  have hreclassify (k : String) (hk : c.nodeKind? = some k) :
      Profile.javaReclassify k (p.kindOf k) t = Profile.javaReclassify k (p.kindOf k) u := by
    unfold Profile.javaReclassify
    by_cases hfield : p.kindOf k = .field
    · rw [hstatic ⟨k, hk, hfield⟩]
    · rw [if_neg hfield, if_neg hfield]
  unfold Candidate.accept?
  change (c.nodeKind?.bind fun k => (Profile.javaReclassify k (p.kindOf k) t).bind _) =
    c.nodeKind?.bind fun k => (Profile.javaReclassify k (p.kindOf k) u).bind _
  cases hk : c.nodeKind? with
  | none => rfl
  | some k =>
    simp only [Option.bind_some]
    rw [hreclassify k hk]
    simp [ht, hu]

theorem isEmpty_signaturesOf_singleton (p : Profile) (s : Source) (tag : String) (o : Options)
    (seen : List Nat) (c : Candidate) :
    (signaturesOf p s tag o seen [c]).isEmpty =
      match c.accept? p with
      | none => true
      | some _ => seen.contains c.line || !(o.includePrivate || p.isExported c.name c.text o) := by
  rw [signaturesOf]
  cases c.accept? p with
  | none => rfl
  | some kind =>
    dsimp only
    cases seen.contains c.line with
    | true => rfl
    | false => cases o.includePrivate || p.isExported c.name c.text o <;> rfl

theorem sameVisibility_of_private (t u : String) (ht : t ≠ "") (hu : u ≠ "")
    (h : javaPrivate t = javaPrivate u) : SameVisibility t u := by
  have hexported (parser : Parser) (name : String) (o : Options) :
      (Profile.java parser).isExported name t o = (Profile.java parser).isExported name u o := by
    change (!name.isEmpty && !javaPrivate t) = (!name.isEmpty && !javaPrivate u)
    rw [h]
  refine ⟨h, hexported, ?_⟩
  intro parser s tag o seen c hstatic
  have haccept := accept?_with_text parser c t u ht hu hstatic
  rw [isEmpty_signaturesOf_singleton, isEmpty_signaturesOf_singleton, haccept]
  dsimp only
  rw [hexported parser c.name o]

theorem withLiteral_ne_empty (front cs rest : List Char) :
    String.ofList (withLiteral front cs rest) ≠ "" := by
  simp [withLiteral]

/-- What a literal among the arguments of an annotation holds makes no difference to the visibility
of the declaration, whatever follows, as long as it is neutral there. Where the literal is reached
with no answer yet, other contents make no difference exactly if they too leave the reading inside
the list with as many parens open. -/
theorem literal_in_arguments (front cs ds : List Char) (d : Nat) (hd : 0 < d)
    (hfront : reading front = .inside d ∨ ∃ b, reading front = .settled b)
    (hcs : Neutral d cs) :
    (Neutral d ds → ∀ rest, SameVisibility (String.ofList (withLiteral front cs rest))
      (String.ofList (withLiteral front ds rest))) ∧
    (reading front = .inside d →
      ((∀ rest, javaPrivate (String.ofList (withLiteral front cs rest)) =
          javaPrivate (String.ofList (withLiteral front ds rest))) ↔
        reading (withLiteral front ds []) = .inside d)) := by
  have hprivate (es rest : List Char) : javaPrivate (String.ofList (withLiteral front es rest)) =
      (rest.foldl Reading.step (reading (withLiteral front es []))).answer := by
    rw [javaPrivate_eq_answer, reading_withLiteral]
  constructor
  · intro hds rest
    have hsame : reading (withLiteral front cs []) = reading (withLiteral front ds []) := by
      rcases hfront with hfront | ⟨b, hfront⟩
      · rw [reading_neutral front cs d hfront hcs, reading_neutral front ds d hfront hds]
      · rw [reading_settled front cs b hfront, reading_settled front ds b hfront]
    apply sameVisibility_of_private _ _ (withLiteral_ne_empty _ _ _) (withLiteral_ne_empty _ _ _)
    rw [hprivate, hprivate, hsame]
  · intro hinside
    simp only [hprivate, reading_neutral front cs d hinside hcs]
    constructor
    · intro hall
      by_contra hne
      -- some end of the text closes the list at the one depth and not at the other
      obtain ⟨rest, hrest⟩ := exists_told_apart _ d hd hne
      exact hrest (hall rest)
    · intro hds rest
      rw [hds]

/-- A literal in a nested annotation, replaced by one with balanced parens, a keyword and the
modifier itself, before the modifier and before none. -/
theorem literal_in_arguments_nested :
    let front := "public @Roles(@Role(name = ".toList
    let cs := "admin".toList
    let ds := "class (private) = x".toList
    reading front = .inside 2 ∧ Neutral 2 cs ∧ Neutral 2 ds ∧
      ∀ rest, SameVisibility (String.ofList (withLiteral front cs rest))
        (String.ofList (withLiteral front ds rest)) := by
  intro front cs ds
  have hfront : reading front = .inside 2 := by decide +kernel
  have hcs : Neutral 2 cs := neutral_of_no_parens 2 cs (by decide) (by decide) (by decide)
  have hds : Neutral 2 ds := ⟨by decide +kernel, by decide +kernel⟩
  exact ⟨hfront, hcs, hds,
    (literal_in_arguments front cs ds 2 (by decide) (.inl hfront) hcs).1 hds⟩

/-- A paren in the literal hides the modifier behind the annotation. -/
theorem paren_hides_private :
    reading "@Named(".toList = .inside 1 ∧
      javaPrivate "@Named(\"n\") private void run() \x7b\x7d" = true ∧
      javaPrivate "@Named(\"(\") private void run() \x7b\x7d" = false ∧
      javaPrivate "@Named(value = \") private \") void run() \x7b\x7d" = true := by
  decide +kernel

end Synopsis.Visibility
