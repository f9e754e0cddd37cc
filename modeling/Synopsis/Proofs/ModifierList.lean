import Mathlib.Data.List.Induction
import Synopsis.Proofs.Text
import Synopsis.Visibility

/-! Modifiers before a Java declaration: plain words and annotations, up to a word with which the
declaration proper begins. `private` counts where it is one of the plain words, and nothing else
of the text does. -/
namespace Synopsis.Visibility
open Text

/-! ### Modifier lists -/

/-- A word of the declaration proper: a keyword, or one with a delimiter. -/
def Begins (w : List Char) : Prop :=
  w ∈ javaKeywords ∨ ∃ c ∈ w, c ∈ ['(', '\x7b', '=', ';']

theorem endsModifiers_iff (w : List Char) : endsModifiers w = true ↔ Begins w := by
  simp [endsModifiers, Begins, or_assoc]

instance : DecidablePred Begins := fun w => decidable_of_iff _ (endsModifiers_iff w)

/-- A modifier that is no annotation. -/
structure PlainWord where
  chars : List Char
  unbroken : chars.any isBlank = false
  no_mark : chars.head? ≠ some '@'
  modifies : ¬ Begins chars

/-- A name behind `@`, with at most one argument list at its end, which alone may hold blanks. The
fields count the parens before a character or after the last. -/
structure AnnotationUse where
  chars : List Char
  mark : chars.head? = some '@'
  uses : chars ≠ "@interface".toList
  matched : ∀ n ≤ chars.length, (chars.take n).count ')' ≤ (chars.take n).count '('
  balanced : chars.count ')' = chars.count '('
  blanks_inside : ∀ n, (h : n < chars.length) → isBlank chars[n] = true →
    (chars.take n).count ')' < (chars.take n).count '('
  closes_last : ∀ n < chars.length, '(' ∈ chars.take n →
    (chars.take n).count ')' ≠ (chars.take n).count '('

inductive Modifier where
  | word (w : PlainWord)
  | use (a : AnnotationUse)

def Modifier.chars : Modifier → List Char
  | .word w => w.chars
  | .use a => a.chars

/-- What stands between two words. -/
structure Gap where
  chars : List Char
  blank : chars.all isBlank = true
  nonempty : chars ≠ []

/-- The first word of the declaration proper. -/
structure Opener where
  chars : List Char
  unbroken : chars.any isBlank = false
  not_private : chars ≠ "private".toList
  /-- It starts no annotation: of the keywords only this one begins with the mark. -/
  no_use : chars.head? = some '@' → chars = "@interface".toList
  begins : Begins chars

/-- Modifiers, each with the gap after it. -/
def modifiersText : List (Modifier × Gap) → List Char
  | [] => []
  | (m, g) :: items => m.chars ++ (g.chars ++ modifiersText items)

/-- The modifiers that are no annotations. -/
def plainWords : List (Modifier × Gap) → List (List Char)
  | [] => []
  | (.word w, _) :: items => w.chars :: plainWords items
  | (.use _, _) :: items => plainWords items

/-! ### Parens -/

theorem parenBalance_append (d : Nat) (us vs : List Char) :
    parenBalance d (us ++ vs) = parenBalance (parenBalance d us) vs := List.foldl_append

theorem parenBalance_singleton (d : Nat) (c : Char) :
    parenBalance d [c] = if c = '(' then d+1 else if c = ')' then d-1 else d := by
  simp [parenBalance]

/-- Where no paren closes too much, the balance is the number of open ones. -/
theorem parenBalance_eq_count (cs : List Char)
    (h : ∀ front, front <+: cs → front.count ')' ≤ front.count '(') :
    parenBalance 0 cs + cs.count ')' = cs.count '(' := by
  induction cs using List.reverseRecOn with
  | nil => rfl
  | append_singleton cs c ih =>
    have hcs := ih fun front hfront => h front (hfront.trans (List.prefix_append cs [c]))
    have hall := h _ List.prefix_rfl
    rw [parenBalance_append, parenBalance_singleton]
    rw [List.count_append, List.count_append, List.count_singleton, List.count_singleton] at *
    by_cases hopen : c = '('
    · subst hopen
      simp only [reduceIte, Char.reduceBEq, Bool.false_eq_true] at hall ⊢
      omega
    · by_cases hclose : c = ')'
      · subst hclose
        -- a paren is open before it, so the subtraction is a true one
        simp only [reduceIte, Char.reduceBEq, Char.reduceEq, Bool.false_eq_true] at hall ⊢
        omega
      · simp only [hopen, hclose, beq_iff_eq, reduceIte]
        omega

theorem parenBalance_blank (d : Nat) (c : Char) (hc : isBlank c = true) :
    parenBalance d [c] = d := by
  have hopen : c ≠ '(' := by
    rintro rfl
    cases hc
  have hclose : c ≠ ')' := by
    rintro rfl
    cases hc
  rw [parenBalance_singleton, if_neg hopen, if_neg hclose]

theorem parenBalance_cons_blank (d : Nat) (c : Char) (cs : List Char) (hc : isBlank c = true) :
    parenBalance d (c :: cs) = parenBalance d cs := by
  have hcons := parenBalance_append d [c] cs
  rwa [parenBalance_blank d c hc] at hcons

namespace AnnotationUse
variable (a : AnnotationUse)

theorem balance_front (front rest : List Char) (h : a.chars = front ++ rest) :
    parenBalance 0 front + front.count ')' = front.count '(' := by
  apply parenBalance_eq_count
  intro f hf
  have hprefix : f <+: a.chars := hf.trans (h ▸ List.prefix_append front rest)
  rw [List.prefix_iff_eq_take.mp hprefix]
  exact a.matched f.length hprefix.length_le

theorem balance_chars : parenBalance 0 a.chars = 0 := by
  have h := a.balance_front a.chars [] (List.append_nil _).symm
  have hbalanced := a.balanced
  omega

theorem balance_at_blank (front rest : List Char) (c : Char) (h : a.chars = front ++ c :: rest)
    (hc : isBlank c = true) : 0 < parenBalance 0 front := by
  have hfront := a.balance_front front (c :: rest) h
  have hblank := a.blanks_inside front.length (by simp [h]) (by simpa [h] using hc)
  rw [h, List.take_left] at hblank
  omega

/-- Once the argument list is open it stays so up to the last character. -/
theorem balance_inside (front rest : List Char) (h : a.chars = front ++ rest) (hrest : rest ≠ [])
    (hopen : '(' ∈ front) : 0 < parenBalance 0 front := by
  have hfront := a.balance_front front rest h
  have hlength : front.length < a.chars.length := by
    have hpos := List.length_pos_iff.mpr hrest
    rw [h, List.length_append]
    omega
  have hne := a.closes_last front.length hlength
  rw [h, List.take_left] at hne
  have hdepth := hne hopen
  omega

end AnnotationUse

/-! ### Word by word -/

theorem privateAmong_inside (d : Nat) (w : List Char) (ws : List (List Char)) (hd : 0 < d) :
    privateAmong d (w :: ws) = privateAmong (parenBalance d w) ws := by
  rw [privateAmong, if_pos hd]

theorem privateAmong_empty (d : Nat) (ws : List (List Char)) :
    privateAmong d ([] :: ws) = privateAmong d ws := by
  rcases Nat.eq_zero_or_pos d with rfl | hd
  · rfl
  · exact privateAmong_inside d [] ws hd

/-- Empty pieces between blanks count for nothing. -/
theorem privateAmong_filter (d : Nat) (ws : List (List Char)) :
    privateAmong d (ws.filter fun w => !w.isEmpty) = privateAmong d ws := by
  induction ws generalizing d with
  | nil => rfl
  | cons w ws ih =>
    cases w with
    | nil => rw [privateAmong_empty, List.filter_cons_of_neg (by simp), ih]
    | cons c w =>
      rw [List.filter_cons_of_pos (by simp), privateAmong, privateAmong]
      simp only [ih]

theorem privateAmong_blanks (d : Nat) (blanks cs : List Char)
    (hblanks : blanks.all isBlank = true) :
    privateAmong d (splitWhere isBlank (blanks ++ cs)) =
      privateAmong d (splitWhere isBlank cs) := by
  induction blanks with
  | nil => rfl
  | cons c blanks ih =>
    obtain ⟨hc, hblanks⟩ : isBlank c = true ∧ blanks.all isBlank = true := by simpa using hblanks
    rw [List.cons_append, splitWhere, if_pos hc, privateAmong_empty, ih hblanks]

/-- Up to the end of an argument list every word counts only by its parens. -/
theorem privateAmong_arguments (d : Nat) (cs : List Char) (ws : List (List Char))
    (h : ∀ front rest, cs = front ++ rest → rest ≠ [] → 0 < parenBalance d front) :
    privateAmong d (splitWhere isBlank cs ++ ws) = privateAmong (parenBalance d cs) ws := by
  induction cs generalizing d with
  | nil => exact privateAmong_empty d ws
  | cons c cs ih =>
    have hd : 0 < d := h [] (c :: cs) rfl (by simp)
    have hcons (front : List Char) :
        parenBalance d (c :: front) = parenBalance (parenBalance d [c]) front :=
      parenBalance_append d [c] front
    have hnext : ∀ front rest, cs = front ++ rest → rest ≠ [] →
        0 < parenBalance (parenBalance d [c]) front := by
      intro front rest hcs hrest
      rw [← hcons]
      exact h (c :: front) rest (by rw [hcs, List.cons_append]) hrest
    have hlater := ih (parenBalance d [c]) hnext
    rw [hcons cs, ← hlater]
    by_cases hc : isBlank c = true
    · rw [splitWhere, if_pos hc, List.cons_append, privateAmong_empty, parenBalance_blank d c hc]
    · obtain ⟨w, pieces, hsplit⟩ := List.exists_cons_of_ne_nil (splitWhere_ne_nil isBlank cs)
      rw [splitWhere, if_neg hc, hsplit]
      simp only [List.cons_append]
      rw [privateAmong_inside d (c :: w) _ hd, hcons w]
      -- the depth is zero behind `c` only where `c` is the last character
      rcases Nat.eq_zero_or_pos (parenBalance d [c]) with hzero | hpos
      · have hnil : cs = [] := by
          by_contra hne
          have := hnext [] cs rfl hne
          simp only [parenBalance, List.foldl_nil] at this hzero
          omega
        subst hnil
        cases hsplit
        rw [privateAmong_empty]
        rfl
      · rw [privateAmong_inside _ w _ hpos]

/-- An annotation is passed over whatever its arguments. -/
theorem privateAmong_use (a : AnnotationUse) (ws : List (List Char)) :
    privateAmong 0 (splitWhere isBlank a.chars ++ ws) = privateAmong 0 ws := by
  have hstart (w : List Char) (pieces : List (List Char)) (hw : w.head? = some '@')
      (hne : w ≠ "@interface".toList) :
      privateAmong 0 (w :: pieces) = privateAmong (parenBalance 0 w) pieces := by
    have hcond : (w.head? == some '@' && w != "@interface".toList) = true := by simpa [hw] using hne
    rw [privateAmong, if_neg (lt_irrefl 0), if_pos hcond]
  cases hfind : a.chars.find? isBlank with
  | none =>
    have hunbroken : ∀ c ∈ a.chars, isBlank c = false := by
      simpa using List.find?_eq_none.mp hfind
    rw [splitWhere_unbroken isBlank a.chars hunbroken, List.singleton_append,
      hstart a.chars ws a.mark a.uses, a.balance_chars]
  | some b =>
    obtain ⟨hb, first, rest, hchars, hfirst⟩ := List.find?_eq_some_iff_append.mp hfind
    have hunbroken : ∀ c ∈ first, isBlank c = false := by simpa using hfirst
    -- the first word ends at a blank, so the argument list is open behind it
    have hpos := a.balance_at_blank first rest b hchars hb
    have hopen : '(' ∈ first := by
      have hcount := a.balance_front first (b :: rest) hchars
      exact List.count_pos_iff.mp (by omega)
    have hmark : first.head? = some '@' := by
      have hmark := a.mark
      cases first with
      | nil => cases hopen
      | cons c first => rwa [hchars] at hmark
    have huses : first ≠ "@interface".toList := by
      rintro rfl
      exact absurd hopen (by decide)
    have hinside : ∀ front tail, rest = front ++ tail → tail ≠ [] →
        0 < parenBalance (parenBalance 0 first) front := by
      intro front tail hrest htail
      have hsplit : a.chars = (first ++ b :: front) ++ tail := by
        rw [hchars, hrest, List.append_assoc, List.cons_append]
      have hdepth := a.balance_inside _ tail hsplit htail (List.mem_append_left _ hopen)
      rwa [parenBalance_append, parenBalance_cons_blank _ b front hb] at hdepth
    have hend : parenBalance (parenBalance 0 first) rest = 0 := by
      have hzero := a.balance_chars
      rwa [hchars, parenBalance_append, parenBalance_cons_blank _ b rest hb] at hzero
    rw [hchars, splitWhere_append_cons isBlank first rest b hb,
      splitWhere_unbroken isBlank first hunbroken, List.append_assoc, List.singleton_append,
      hstart first _ hmark huses, privateAmong_arguments _ rest ws hinside, hend]

theorem privateAmong_word (w : PlainWord) (ws : List (List Char)) :
    privateAmong 0 (w.chars :: ws) = (w.chars == "private".toList || privateAmong 0 ws) := by
  have hmark : (w.chars.head? == some '@') = false := by simpa using w.no_mark
  have hends : endsModifiers w.chars = false := by
    rw [Bool.eq_false_iff, Ne, endsModifiers_iff]
    exact w.modifies
  rw [privateAmong, if_neg (lt_irrefl 0), hmark, Bool.false_and, if_neg Bool.false_ne_true, hends]
  cases w.chars == "private".toList <;> rfl

theorem privateAmong_opener (w : Opener) (ws : List (List Char)) :
    privateAmong 0 (w.chars :: ws) = false := by
  have hmark : (w.chars.head? == some '@' && w.chars != "@interface".toList) = false := by
    rw [Bool.and_eq_false_imp]
    intro h
    simpa using w.no_use (by simpa using h)
  have hprivate : (w.chars == "private".toList) = false := by simpa using w.not_private
  rw [privateAmong, if_neg (lt_irrefl 0), hmark, if_neg Bool.false_ne_true, hprivate,
    if_neg Bool.false_ne_true, if_pos ((endsModifiers_iff _).mpr w.begins)]

/-- One modifier and the gap behind it. -/
theorem privateAmong_modifier (m : Modifier) (g : Gap) (cs : List Char) :
    privateAmong 0 (splitWhere isBlank (m.chars ++ (g.chars ++ cs))) =
      match m with
      | .word w => w.chars == "private".toList || privateAmong 0 (splitWhere isBlank cs)
      | .use _ => privateAmong 0 (splitWhere isBlank cs) := by
  obtain ⟨b, blanks, hgap⟩ := List.exists_cons_of_ne_nil g.nonempty
  obtain ⟨hb, hblanks⟩ : isBlank b = true ∧ blanks.all isBlank = true := by
    simpa [hgap] using g.blank
  rw [hgap, List.cons_append, splitWhere_append_cons isBlank _ _ b hb]
  cases m with
  | word w =>
    rw [Modifier.chars, splitWhere_unbroken isBlank _ (by simpa using w.unbroken),
      List.singleton_append, privateAmong_word, privateAmong_blanks 0 blanks cs hblanks]
  | use a =>
    rw [Modifier.chars, privateAmong_use, privateAmong_blanks 0 blanks cs hblanks]

theorem privateAmong_modifiers (items : List (Modifier × Gap)) (cs : List Char) :
    privateAmong 0 (splitWhere isBlank (modifiersText items ++ cs)) =
      ((plainWords items).contains "private".toList || privateAmong 0 (splitWhere isBlank cs)) := by
  induction items with
  | nil => rfl
  | cons item items ih =>
    obtain ⟨m, g⟩ := item
    rw [modifiersText, List.append_assoc, List.append_assoc, privateAmong_modifier, ih]
    cases m with
    | word w => rw [plainWords, List.contains_cons, Bool.or_assoc, Bool.beq_comm]
    | use a => rw [plainWords]

/-- A declaration is private exactly when `private` is one of the plain words before its first
proper word. Neither the arguments of annotations nor the rest of the text are looked at. -/
theorem javaPrivate_modifiers (lead : List Char) (items : List (Modifier × Gap)) (opener : Opener)
    (rest : List Char) (hlead : lead.all isBlank = true)
    (hrest : rest.head?.all isBlank = true) :
    javaPrivate (String.ofList (lead ++ (modifiersText items ++ (opener.chars ++ rest)))) = true ↔
      "private".toList ∈ plainWords items := by
  have hword : ∀ c ∈ opener.chars, isBlank c = false := by simpa using opener.unbroken
  have hopener : privateAmong 0 (splitWhere isBlank (opener.chars ++ rest)) = false := by
    cases rest with
    | nil =>
      rw [List.append_nil, splitWhere_unbroken isBlank _ hword]
      exact privateAmong_opener opener []
    | cons b rest =>
      rw [splitWhere_append_cons isBlank _ rest b hrest,
        splitWhere_unbroken isBlank _ hword]
      exact privateAmong_opener opener _
  rw [javaPrivate, String.toList_ofList, words, privateAmong_filter,
    privateAmong_blanks 0 lead _ hlead, privateAmong_modifiers, hopener, Bool.or_false,
    List.contains_iff_mem]

/-- `private` and a keyword among the arguments of an annotation that holds blanks and nested
parens, with the modifier itself behind it and without. -/
theorem javaPrivate_modifiers_annotated :
    let front := "@Named(\"private\", at = (class Object))\n".toList
    let record := "record R(int private) \x7b \x7d".toList
    " R(int private) \x7b \x7d".toList.head?.all isBlank = true ∧
      javaPrivate (String.ofList (front ++ "private static ".toList ++ record)) = true ∧
      ¬ javaPrivate (String.ofList (front ++ "static ".toList ++ record)) = true := by
  intro front record
  let named : AnnotationUse := ⟨"@Named(\"private\", at = (class Object))".toList,
    by decide +kernel, by decide +kernel, by decide +kernel, by decide +kernel, by decide +kernel,
    by decide +kernel⟩
  let hidden : PlainWord := ⟨"private".toList, by decide, by decide, by decide⟩
  let shared : PlainWord := ⟨"static".toList, by decide, by decide, by decide⟩
  let opener : Opener := ⟨"record".toList, by decide, by decide, by decide, by decide⟩
  let line : Gap := ⟨['\n'], by decide, by decide⟩
  let space : Gap := ⟨[' '], by decide, by decide⟩
  have hrest : " R(int private) \x7b \x7d".toList.head?.all isBlank = true := by decide
  have hprivate := javaPrivate_modifiers [] [(.use named, line), (.word hidden, space),
    (.word shared, space)] opener _ rfl hrest
  have hpublic := javaPrivate_modifiers [] [(.use named, line), (.word shared, space)]
    opener _ rfl hrest
  have htext : [] ++ (modifiersText [(.use named, line), (.word hidden, space),
      (.word shared, space)] ++ (opener.chars ++ " R(int private) \x7b \x7d".toList)) =
      front ++ "private static ".toList ++ record := by decide +kernel
  have htext' : [] ++ (modifiersText [(.use named, line), (.word shared, space)] ++
      (opener.chars ++ " R(int private) \x7b \x7d".toList)) =
      front ++ "static ".toList ++ record := by decide +kernel
  rw [htext] at hprivate
  rw [htext'] at hpublic
  refine ⟨hrest, hprivate.mpr (by decide), ?_⟩
  intro h
  exact absurd (hpublic.mp h) (by decide)

end Synopsis.Visibility
