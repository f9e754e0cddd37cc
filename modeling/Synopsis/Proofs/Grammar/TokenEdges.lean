import Mathlib.Tactic.SplitIfs
import Mathlib.Tactic.Tauto
import Synopsis.Grammar.Lexeme
import Synopsis.Proofs.Grammar.NodeOrder

/-! The first and the last line of a token. A token starts with a character that is no blank and has
such a character on its last line too, so that trimming takes no line feed from it. The control
character U+0085 is a blank, but the scripting languages take it for a letter. -/
open Synopsis.Tree

namespace Synopsis.Grammar

/-- The character is no blank; `control` says that U+0085 passes for a letter. -/
def isSolid (control : Bool) (c : Char) : Bool :=
  !Text.isBlank c || (control && c.toNat == 0x85)

/-- A solid character stands at the position. -/
def Solid (control : Bool) (s : Source) (i : Nat) : Prop :=
  (s.char? i).any (isSolid control) = true

/-- Before the position, on its line, stands a solid character. -/
structure Firm (control : Bool) (s : Source) (j : Nat) : Prop where
  le : j ≤ s.size
  before : ∃ k < j, Solid control s k ∧ ∀ l, k < l → l < j → s.char? l ≠ some '\n'

/-- A stretch that starts with a solid character and has one on its last line. -/
structure Edges (control : Bool) (s : Source) (i j : Nat) : Prop where
  start : Solid control s i
  lt : i < j
  stop : Firm control s j

/-- No line feed stands between two positions of the source. -/
structure Unbroken (s : Source) (i j : Nat) : Prop where
  le : i ≤ j
  bound : j ≤ s.size
  flat : ∀ l, i ≤ l → l < j → s.char? l ≠ some '\n'

/-- The character ends the stretch, and stands in it. -/
def ClosedBy (s : Source) (c : Char) (i j : Nat) : Prop := ∃ k ≥ i, j = k+1 ∧ s.char? k = some c

/-- A token of the scanner starts with a solid character and has one on its last line. -/
def Edged (control : Bool) (scan : Scan) : Prop :=
  ∀ s i j, scan s i = some j → Edges control s i j

/-- A token of the scanner stays inside the source, and does not end before its start. -/
def Bounded (scan : Scan) : Prop :=
  ∀ s i j, scan s i = some j → i ≤ j ∧ (i ≤ s.size → j ≤ s.size)

variable {control : Bool} {s : Source}

/-! ### Characters -/

theorem isSolid_of_not_isBlank (c : Char) (h : Text.isBlank c = false) :
    isSolid control c = true := by
  simp [isSolid, h]

theorem lt_size_of_char? {i : Nat} {c : Char} (h : s.char? i = some c) : i < s.size :=
  (Array.getElem?_eq_some_iff.mp h).1

theorem lt_size_of_any {i : Nat} {p : Char → Bool} (h : (s.char? i).any p = true) :
    i < s.size := by
  obtain ⟨c, hc, _⟩ := (Option.any_eq_true _ _).mp h
  exact lt_size_of_char? hc

theorem Solid.lt_size {i : Nat} (h : Solid control s i) : i < s.size := lt_size_of_any h

theorem solid_of_any {i : Nat} {p : Char → Bool} (hp : ∀ c, p c = true → isSolid control c = true)
    (h : (s.char? i).any p = true) : Solid control s i := by
  obtain ⟨c, hc, hpc⟩ := (Option.any_eq_true _ _).mp h
  simp [Solid, hc, hp c hpc]

theorem solid_of_char? {i : Nat} {c : Char} (hc : Text.isBlank c = false)
    (h : s.char? i = some c) : Solid control s i := by
  simp [Solid, h, isSolid_of_not_isBlank c hc]

/-! ### Stretches -/

namespace Unbroken

variable {i j k : Nat}

theorem refl (hi : i ≤ s.size) : Unbroken s i i :=
  ⟨le_rfl, hi, fun l hl hlt => by omega⟩

theorem trans (h : Unbroken s i k) (h' : Unbroken s k j) : Unbroken s i j := by
  refine ⟨h.le.trans h'.le, h'.bound, fun l hl hlt => ?_⟩
  rcases Nat.lt_or_ge l k with hk | hk
  · exact h.flat l hl hk
  · exact h'.flat l hk hlt

theorem single {c : Char} (hchar : s.char? i = some c) (hc : c ≠ '\n') :
    Unbroken s i (i+1) := by
  refine ⟨Nat.le_succ i, lt_size_of_char? hchar, fun l hl hlt => ?_⟩
  obtain rfl : l = i := by omega
  simp [hchar, hc]

end Unbroken

theorem Solid.unbroken {i : Nat} (h : Solid control s i) : Unbroken s i (i+1) := by
  obtain ⟨c, hchar, hc⟩ := (Option.any_eq_true _ _).mp h
  refine .single hchar ?_
  rintro rfl
  simp [isSolid, Text.isBlank] at hc

namespace Edges

variable {i j : Nat}

/-- A stretch on one line. -/
theorem flat (hstart : Solid control s i) (hlt : i < j) (hflat : Unbroken s i j) :
    Edges control s i j :=
  ⟨hstart, hlt, hflat.bound, i, hlt, hstart, fun l hl hlt => hflat.flat l hl.le hlt⟩

/-- A stretch that ends with a solid character. -/
theorem closed (hstart : Solid control s i) (hij : i ≤ j) (hj : Solid control s j) :
    Edges control s i (j+1) :=
  ⟨hstart, by omega, hj.lt_size, j, Nat.lt_succ_self j, hj, fun l hl hlt => by omega⟩

/-- What comes before a stretch may start it. -/
theorem after {k : Nat} (h : Edges control s k j) (hik : i ≤ k) (hstart : Solid control s i) :
    Edges control s i j :=
  ⟨hstart, hik.trans_lt h.lt, h.stop⟩

/-- The last line of a stretch may go on. -/
theorem append {k : Nat} (h : Edges control s i k) (hkj : Unbroken s k j) :
    Edges control s i j := by
  obtain ⟨l, hl, hsolid, hflat⟩ := h.stop.before
  refine ⟨h.start, h.lt.trans_le hkj.le, hkj.bound, l, hl.trans_le hkj.le, hsolid, ?_⟩
  intro m hm hmj
  rcases Nat.lt_or_ge m k with hk | hk
  · exact hflat m hm hk
  · exact hkj.flat m hk hmj

end Edges

namespace ClosedBy

variable {c : Char} {i i' j : Nat}

theorem here (h : s.char? i = some c) : ClosedBy s c i (i+1) := ⟨i, le_rfl, rfl, h⟩

theorem mono (h : ClosedBy s c i' j) (hi : i ≤ i') : ClosedBy s c i j := by
  obtain ⟨k, hk, hj⟩ := h
  exact ⟨k, hi.trans hk, hj⟩

theorem lt (h : ClosedBy s c i j) : i < j := by
  obtain ⟨k, hk, rfl, _⟩ := h
  exact Nat.lt_succ_of_le hk

theorem edges (h : ClosedBy s c i j) (hc : Text.isBlank c = false) (hstart : Solid control s i) :
    Edges control s i j := by
  obtain ⟨k, hk, rfl, hchar⟩ := h
  exact .closed hstart hk (solid_of_char? hc hchar)

end ClosedBy

/-- A line feed before a firm position is followed by a solid character. -/
theorem Firm.exists_solid {j l : Nat} (h : Firm control s j) (hlt : l < j)
    (hfeed : s.char? l = some '\n') : ∃ k, l < k ∧ k < j ∧ Solid control s k := by
  obtain ⟨k, hk, hsolid, hflat⟩ := h.before
  refine ⟨k, ?_, hk, hsolid⟩
  by_contra hle
  rcases (not_lt.mp hle).lt_or_eq with hbefore | rfl
  · exact hflat l hbefore hlt hfeed
  · simp [Solid, hfeed, isSolid, Text.isBlank] at hsolid

theorem Edged.advances {scan : Scan} (h : Edged control scan) : Advances scan :=
  fun s i j hscan => (h s i j hscan).lt.le

theorem Bounded.advances {scan : Scan} (h : Bounded scan) : Advances scan :=
  fun s i j hscan => (h s i j hscan).1

theorem Edged.or {a b : Scan} (ha : Edged control a) (hb : Edged control b) :
    Edged control fun s i => (a s i).or (b s i) := by
  intro s i j h
  rcases Option.or_eq_some_iff.mp h with h | ⟨_, h⟩
  · exact ha s i j h
  · exact hb s i j h

/-! ### Runs of characters -/

namespace Lexeme

theorem runEnd_ge (p : Char → Bool) (s : Source) (fuel i : Nat) : i ≤ runEnd p s fuel i := by
  induction fuel generalizing i with
  | zero => exact le_rfl
  | succ fuel ih =>
    unfold runEnd
    split
    · exact (Nat.le_succ i).trans (ih (i+1))
    · exact le_rfl

theorem skipWhile_ge (p : Char → Bool) (s : Source) (i : Nat) : i ≤ skipWhile p s i :=
  runEnd_ge p s s.size i

theorem unbroken_runEnd (p : Char → Bool) (hp : p '\n' = false) (s : Source) (fuel i : Nat)
    (hi : i ≤ s.size) : Unbroken s i (runEnd p s fuel i) := by
  induction fuel generalizing i with
  | zero => exact .refl hi
  | succ fuel ih =>
    unfold runEnd
    split
    next h =>
      obtain ⟨c, hchar, hc⟩ := (Option.any_eq_true _ _).mp h
      have hfeed : c ≠ '\n' := by
        rintro rfl
        simp [hp] at hc
      exact (Unbroken.single hchar hfeed).trans (ih (i+1) (lt_size_of_char? hchar))
    · exact .refl hi

theorem unbroken_skipWhile (p : Char → Bool) (hp : p '\n' = false) (s : Source) (i : Nat)
    (hi : i ≤ s.size) : Unbroken s i (skipWhile p s i) :=
  unbroken_runEnd p hp s s.size i hi

theorem runEnd_le (p : Char → Bool) (s : Source) (fuel i : Nat) (hi : i ≤ s.size) :
    runEnd p s fuel i ≤ s.size := by
  induction fuel generalizing i with
  | zero => exact hi
  | succ fuel ih =>
    unfold runEnd
    split
    next h => exact ih (i+1) (lt_size_of_any h)
    · exact hi

theorem skipWhile_le (p : Char → Bool) (s : Source) (i : Nat) (hi : i ≤ s.size) :
    skipWhile p s i ≤ s.size := runEnd_le p s s.size i hi

/-- What a run passes over satisfies the predicate. -/
theorem any_of_lt_runEnd (p : Char → Bool) (s : Source) (fuel i l : Nat) (hi : i ≤ l)
    (hl : l < runEnd p s fuel i) : (s.char? l).any p = true := by
  induction fuel generalizing i with
  | zero =>
    unfold runEnd at hl
    omega
  | succ fuel ih =>
    unfold runEnd at hl
    split at hl
    next h =>
      rcases Nat.eq_or_lt_of_le hi with rfl | hi
      · exact h
      · exact ih (i+1) hi hl
    · omega

theorem lt_skipWhile (p : Char → Bool) (s : Source) (i : Nat)
    (h : (s.char? i).any p = true) : i < skipWhile p s i := by
  obtain ⟨fuel, hfuel⟩ : ∃ fuel, s.size = fuel+1 := ⟨s.size-1, by have := lt_size_of_any h; omega⟩
  rw [skipWhile, hfuel, runEnd, if_pos h]
  exact runEnd_ge p s fuel (i+1)

/-! ### Literals -/

/-- There are characters, and none of them is a blank. -/
def isPlain (cs : List Char) : Bool := !cs.isEmpty && cs.all fun c => !Text.isBlank c

theorem isBlank_of_isPlain (cs : List Char) (hcs : isPlain cs = true) (c : Char) (hc : c ∈ cs) :
    Text.isBlank c = false := by
  simp only [isPlain, Bool.and_eq_true, List.all_eq_true, Bool.not_eq_true'] at hcs
  exact hcs.2 c hc

theorem unbroken_literalEnd (s : Source) (cs : List Char) (hcs : '\n' ∉ cs) (i j : Nat)
    (hi : i ≤ s.size) (h : Rule.literalEnd s cs i = some j) : Unbroken s i j := by
  induction cs generalizing i with
  | nil => exact (Option.some.inj h) ▸ .refl hi
  | cons c cs ih =>
    obtain ⟨hc, hcs⟩ : '\n' ≠ c ∧ '\n' ∉ cs := by simpa using hcs
    unfold Rule.literalEnd at h
    split_ifs at h with hchar
    have hone : Unbroken s i (i+1) := .single (by simpa using hchar) hc.symm
    exact hone.trans (ih hcs (i+1) hone.bound h)

theorem edges_literalEnd (s : Source) (cs : List Char) (hcs : isPlain cs = true) (i j : Nat)
    (h : Rule.literalEnd s cs i = some j) : Edges control s i j := by
  cases cs with
  | nil => cases hcs
  | cons c cs =>
    obtain ⟨hc, hall⟩ : Text.isBlank c = false ∧ ∀ d ∈ cs, Text.isBlank d = false := by
      simpa [isPlain] using hcs
    unfold Rule.literalEnd at h
    split_ifs at h with hchar
    have hchar : s.char? i = some c := by simpa using hchar
    have hfeed (d : Char) (hd : Text.isBlank d = false) : d ≠ '\n' := by
      rintro rfl
      cases hd
    have hone : Unbroken s i (i+1) := .single hchar (hfeed c hc)
    have hrest := unbroken_literalEnd s cs (fun hmem => hfeed _ (hall _ hmem) rfl) (i+1) j
      hone.bound h
    exact .flat (solid_of_char? hc hchar) hrest.le (hone.trans hrest)

@[simp] theorem edged_scanLiteral (word : Bool) (cs : List Char) (hcs : isPlain cs = true) :
    Edged control (Rule.scanLiteral word cs) := by
  intro s i j h
  unfold Rule.scanLiteral at h
  split at h
  next k hk =>
    split_ifs at h
    cases h
    exact edges_literalEnd s cs hcs i _ hk
  · cases h

theorem closedBy_literalEnd (s : Source) (cs : List Char) (c : Char) (i j : Nat)
    (h : Rule.literalEnd s (cs ++ [c]) i = some j) : ClosedBy s c i j := by
  induction cs generalizing i with
  | nil =>
    simp only [List.nil_append, Rule.literalEnd] at h
    split_ifs at h with hchar
    cases h
    exact .here (by simpa using hchar)
  | cons d cs ih =>
    simp only [List.cons_append, Rule.literalEnd] at h
    split_ifs at h
    exact (ih (i+1) h).mono (Nat.le_succ i)

/-- A mark that is searched for stands where it is found. -/
theorem exists_literal_of_findEnd (mark : List Char) (s : Source) (fuel i j : Nat)
    (h : findEnd mark s fuel i = some j) : ∃ k ≥ i, Rule.literalEnd s mark k = some j := by
  induction fuel generalizing i with
  | zero => cases h
  | succ fuel ih =>
    unfold findEnd at h
    split at h
    next hend =>
      cases h
      exact ⟨i, le_rfl, hend⟩
    · split_ifs at h
      obtain ⟨k, hk, hend⟩ := ih (i+1) h
      exact ⟨k, by omega, hend⟩

/-! ### Words, numbers, texts in quotes and comments -/

theorem toNat_of_isAlphanum (c : Char) (h : c.isAlphanum = true) :
    48 ≤ c.toNat ∧ c.toNat ≤ 122 := by
  have hrange (a b : Char) (ha : 48 ≤ a.toNat) (hb : b.toNat ≤ 122)
      (h : a.val ≤ c.val ∧ c.val ≤ b.val) : 48 ≤ c.toNat ∧ c.toNat ≤ 122 :=
    ⟨ha.trans (UInt32.le_iff_toNat_le.mp h.1), (UInt32.le_iff_toNat_le.mp h.2).trans hb⟩
  rcases Bool.or_eq_true_iff.mp h with halpha | hdigit
  · rcases Bool.or_eq_true_iff.mp halpha with hupper | hlower
    · exact hrange 'A' 'Z' (by decide) (by decide) (of_decide_eq_true hupper)
    · obtain ⟨ha, hz⟩ := Bool.and_eq_true_iff.mp hlower
      exact hrange 'a' 'z' (by decide) (by decide) ⟨of_decide_eq_true ha, of_decide_eq_true hz⟩
  · obtain ⟨hzero, hnine⟩ := Bool.and_eq_true_iff.mp hdigit
    exact hrange '0' '9' (by decide) (by decide) ⟨of_decide_eq_true hzero, of_decide_eq_true hnine⟩

/-- Letters and digits lie between those blanks that are ASCII and the others. -/
theorem isBlank_of_isAlphanum (c : Char) (h : c.isAlphanum = true) : Text.isBlank c = false := by
  obtain ⟨hlow, hhigh⟩ := toNat_of_isAlphanum c h
  simp only [Text.isBlank, Bool.or_eq_false_iff, Bool.and_eq_false_iff, decide_eq_false_iff_not,
    beq_eq_false_iff_ne]
  omega

theorem isBlank_of_isWordRest (c : Char) (h : isWordRest c = true) : Text.isBlank c = false := by
  simp only [isWordRest, isWide, Bool.or_eq_true, Bool.and_eq_true, beq_iff_eq,
    Bool.not_eq_true'] at h
  rcases h with (h | rfl) | ⟨_, h⟩
  · exact isBlank_of_isAlphanum c h
  · rfl
  · exact h

theorem isWordRest_of_isWordStart (c : Char) (h : isWordStart c = true) :
    isWordRest c = true := by
  simp only [isWordStart, isWordRest, Char.isAlphanum, Bool.or_eq_true] at h ⊢
  tauto

theorem edged_word (first rest : Char → Bool) (reserved : List String)
    (hfirst : ∀ c, first c = true → isSolid control c = true) (hrest : rest '\n' = false) :
    Edged control (word first rest reserved) := by
  intro s i j h
  simp only [word] at h
  split_ifs at h with hany
  cases h
  have hstart : Solid control s i := solid_of_any hfirst hany
  have hskip := unbroken_skipWhile rest hrest s (i+1) hstart.lt_size
  exact .flat hstart hskip.le (hstart.unbroken.trans hskip)

@[simp] theorem edged_identifier (reserved : List String) :
    Edged control (identifier reserved) := by
  refine edged_word _ _ _ (fun c hc => ?_) (by decide)
  exact isSolid_of_not_isBlank c (isBlank_of_isWordRest c (isWordRest_of_isWordStart c hc))

theorem isBlank_of_dollarRest (c : Char) (h : (isWordRest c || c == '$') = true) :
    Text.isBlank c = false := by
  simp only [Bool.or_eq_true, beq_iff_eq] at h
  rcases h with h | rfl
  · exact isBlank_of_isWordRest c h
  · rfl

/-- Words in which a dollar sign counts as a letter. -/
theorem edged_dollarWord (reserved : List String) : Edged control
    (word (fun c => isWordStart c || c == '$') (fun c => isWordRest c || c == '$') reserved) := by
  refine edged_word _ _ _ (fun c hc => isSolid_of_not_isBlank c ?_) (by decide)
  apply isBlank_of_dollarRest
  simp only [Bool.or_eq_true] at hc ⊢
  exact hc.imp_left (isWordRest_of_isWordStart c)

theorem unbroken_numberEnd (s : Source) (fuel i : Nat) (hi : i ≤ s.size) :
    Unbroken s i (numberEnd s fuel i) := by
  induction fuel generalizing i with
  | zero => exact .refl hi
  | succ fuel ih =>
    unfold numberEnd
    split
    next c hchar =>
      split
      next hc =>
        have hone : Unbroken s i (i+1) := by
          refine .single hchar ?_
          rintro rfl
          revert hc
          decide
        dsimp only
        split_ifs with hsign
        · -- the sign after an exponent mark
          have htwo : Unbroken s (i+1) (i+2) := by
            simp only [Bool.and_eq_true, Bool.or_eq_true, beq_iff_eq] at hsign
            rcases hsign.1.2 with hsign | hsign <;> exact .single hsign (by decide)
          exact hone.trans (htwo.trans (ih (i+2) htwo.bound))
        · exact hone.trans (ih (i+1) hone.bound)
      · exact .refl hi
    · exact .refl hi

theorem numberEnd_ge (s : Source) (fuel i : Nat) : i ≤ numberEnd s fuel i := by
  induction fuel generalizing i with
  | zero => exact le_rfl
  | succ fuel ih =>
    have hone := ih (i+1)
    have htwo := ih (i+2)
    unfold numberEnd
    split
    · dsimp only
      split_ifs <;> omega
    · exact le_rfl

theorem lt_numberEnd (s : Source) (fuel i : Nat) (c : Char) (hchar : s.char? i = some c)
    (hc : (c.isAlphanum || c == '_' || c == '.') = true) : i < numberEnd s (fuel+1) i := by
  have hone := numberEnd_ge s fuel (i+1)
  have htwo := numberEnd_ge s fuel (i+2)
  unfold numberEnd
  simp only [hchar, hc, if_true]
  split_ifs <;> omega

/-- A number starts with one of its characters. -/
theorem exists_char_of_number (s : Source) (i j : Nat) (h : number s i = some j) :
    j = numberEnd s s.size i ∧
      ∃ c, s.char? i = some c ∧ (c.isAlphanum || c == '_' || c == '.') = true := by
  unfold number at h
  split at h
  next c hchar =>
    split_ifs at h with hc
    cases h
    refine ⟨rfl, c, hchar, ?_⟩
    simp only [Char.isAlphanum, Bool.or_eq_true, Bool.and_eq_true] at hc ⊢
    tauto
  · cases h

@[simp] theorem edged_number : Edged control number := by
  intro s i j h
  obtain ⟨rfl, c, hchar, hc⟩ := exists_char_of_number s i j h
  have hblank : Text.isBlank c = false := by
    simp only [Bool.or_eq_true, beq_iff_eq] at hc
    rcases hc with (hc | rfl) | rfl
    · exact isBlank_of_isAlphanum c hc
    · rfl
    · rfl
  have hlt := lt_size_of_char? hchar
  obtain ⟨fuel, hfuel⟩ : ∃ fuel, s.size = fuel+1 := ⟨s.size-1, by omega⟩
  have hend : i < numberEnd s s.size i := hfuel ▸ lt_numberEnd s fuel i c hchar hc
  exact .flat (solid_of_char? hblank hchar) hend (unbroken_numberEnd s s.size i hlt.le)

theorem closedBy_quotedEnd (quote : Char) (escapes lines : Bool) (s : Source) (fuel i j : Nat)
    (h : quotedEnd quote escapes lines s fuel i = some j) : ClosedBy s quote i j := by
  induction fuel generalizing i with
  | zero => cases h
  | succ fuel ih =>
    unfold quotedEnd at h
    split at h
    · cases h
    next c hchar =>
      split_ifs at h with hquote
      · cases h
        obtain rfl : c = quote := by simpa using hquote
        exact .here hchar
      · -- an escape is taken with the character behind it
        exact (ih (i+2) h).mono (Nat.le_add_right i 2)
      · exact (ih (i+1) h).mono (Nat.le_succ i)

@[simp] theorem edged_quoted (quote : Char) (hquote : Text.isBlank quote = false)
    (escapes lines : Bool) : Edged control (quoted quote escapes lines) := by
  intro s i j h
  unfold quoted at h
  split_ifs at h with hchar
  have hstart : Solid control s i := solid_of_char? hquote (by simpa using hchar)
  exact ((closedBy_quotedEnd _ _ _ s _ _ j h).mono (Nat.le_succ i)).edges hquote hstart

theorem edged_lineComment (mark : List Char) (hmark : isPlain mark = true) :
    Edged control (lineComment mark) := by
  intro s i j h
  obtain ⟨k, hk, rfl⟩ := Option.map_eq_some_iff.mp h
  have hopen : Edges control s i k := edges_literalEnd s mark hmark i k hk
  have hfeed : '\n' ∉ mark := fun hmem =>
    absurd (isBlank_of_isPlain mark hmark _ hmem) (by decide)
  have hmarked := unbroken_literalEnd s mark hfeed i k hopen.start.lt_size.le hk
  have hskip := unbroken_skipWhile (· != '\n') (by decide) s k hmarked.bound
  exact .flat hopen.start (hopen.lt.trans_le hskip.le) (hmarked.trans hskip)

theorem edged_blockComment : Edged control blockComment := by
  intro s i j h
  obtain ⟨k, hk, hend⟩ := Option.bind_eq_some_iff.mp h
  have hopen : Edges control s i k := edges_literalEnd s _ (by decide) i k hk
  obtain ⟨l, hl, hclose⟩ := exists_literal_of_findEnd _ s s.size k j hend
  have hclosing : Edges control s l j := edges_literalEnd s _ (by decide) l j hclose
  exact hclosing.after (hopen.lt.le.trans hl) hopen.start

/-- A run that a solid character follows starts with one. -/
theorem solid_of_skipWhile (p : Char → Bool)
    (hp : ∀ c, p c = true → Text.isBlank c = false) (s : Source) (i : Nat)
    (hafter : Solid control s (skipWhile p s i)) : Solid control s i := by
  rcases (skipWhile_ge p s i).eq_or_lt with heq | hlt
  · rwa [← heq] at hafter
  · exact solid_of_any (fun c hc => isSolid_of_not_isBlank c (hp c hc))
      (any_of_lt_runEnd p s s.size i i le_rfl hlt)

end Lexeme
end Synopsis.Grammar
