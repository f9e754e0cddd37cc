import Synopsis.Builtin
import Synopsis.Proofs.BraceCut
import Synopsis.Proofs.ScriptTypes

/-! Headers of functions and bindings, with parameters and a result of any type. A function is cut
right before its body, and a binding right before its arrow whatever follows. -/
namespace Synopsis.Script
open Delimiter Text

/-! ### Headers and their text -/

/-- Parameters in parentheses and the type of the result. -/
def signature (params : List (Name × TypeExpr)) (result : TypeExpr) : List Char :=
  '(' :: (TypeExpr.fieldsText ", ".toList params ++ [')']) ++ ": ".toList ++ result.text

/-- As in `function f(x: T): U`. -/
def functionHeader (f : Name) (params : List (Name × TypeExpr)) (result : TypeExpr) : List Char :=
  "function ".toList ++ f.chars ++ signature params result

/-- As in `const f = (x: T): U`. -/
def bindingHeader (f : Name) (params : List (Name × TypeExpr)) (result : TypeExpr) : List Char :=
  "const ".toList ++ f.chars ++ " = ".toList ++ signature params result

section Headers
variable (s : Settings) (hs : s.angles = true) (f : Name) (params : List (Name × TypeExpr))
  (result : TypeExpr)
include hs

theorem closed_params : Closed s false (TypeExpr.fieldsText ", ".toList params) := by
  obtain ⟨_, hcomma, _, _⟩ := TypeExpr.spaced_separators s false
  exact TypeExpr.closed_fields s hs _ params hcomma rfl

theorem closed_signature : ClosedAnywhere s result.hidesArrows (signature params result) := by
  have hgroup := closedAnywhere_group s hs .paren (by decide) _ (closed_params s hs params)
  have hcolon : ClosedAnywhere s result.hidesArrows ": ".toList :=
    closedAnywhere_colon.append (TypeExpr.spaced_separators s _).2.2.2
  exact ClosedAnywhere.spaced (hgroup.mono fun _ => rfl) hcolon rfl
    (TypeExpr.closed_text s hs result)

theorem closed_functionHeader :
    ClosedAnywhere s result.hidesArrows (functionHeader f params result) := by
  have hword : ClosedAnywhere s result.hidesArrows "function ".toList :=
    closedAnywhere_plain (by decide)
  exact (hword.append (f.closed s _)).append (closed_signature s hs params result)

theorem closed_bindingHeader :
    ClosedAnywhere s result.hidesArrows (bindingHeader f params result) := by
  have hword : ClosedAnywhere s result.hidesArrows "const ".toList :=
    closedAnywhere_plain (by decide)
  exact ((hword.append (f.closed s _)).append closedAnywhere_equals).append
    (closed_signature s hs params result)

/-- The parameter list of a function is closed at top level. -/
theorem params_closed (rest : List Char) :
    ∃ e ∈ scan s (functionHeader f params result ++ rest),
      e.token = .closing .paren ∧ e.topLevel = true := by
  have hword : ClosedAnywhere s false "function ".toList := closedAnywhere_plain (by decide)
  have htext : functionHeader f params result ++ rest = "function ".toList ++ f.chars ++
      ('(' :: (TypeExpr.fieldsText ", ".toList params ++ [')'])) ++
        (": ".toList ++ result.text ++ rest) := by
    unfold functionHeader signature
    simp only [List.append_assoc]
  rw [htext]
  exact closing_mem_scan s hs .paren (by decide) _ _ _ (hword.append (f.closed s false))
    (closed_params s hs params)

end Headers

/-- A header and a blank, with the blank trimmed. -/
theorem trimEnd_signature (front : List Char) (params : List (Name × TypeExpr))
    (result : TypeExpr) :
    trimEnd (front ++ signature params result ++ " ".toList) =
      front ++ signature params result := by
  obtain ⟨text, c, htext, hc⟩ := result.text_ends
  have hblank (cs : List Char) : trimEnd (cs ++ " ".toList) = trimEnd cs :=
    List.rdropWhile_concat_pos isBlank cs ' ' rfl
  rw [hblank, signature, htext, ← List.append_assoc, ← List.append_assoc]
  exact trimEnd_concat _ c hc

/-! ### Words at the beginning -/

theorem trimStart_append (w rest : List Char) (hw : w.head?.any isBlank = false) (hne : w ≠ []) :
    trimStart (w ++ rest) = w ++ rest := by
  cases w with
  | nil => exact absurd rfl hne
  | cons c w => exact trimStart_cons c (w ++ rest) (by simpa using hw)

theorem words_append (w rest : List Char) (hw : w.any isBlank = false) (hne : w ≠ []) :
    words (w ++ ' ' :: rest) = w :: words rest := by
  have hunbroken : ∀ c ∈ w, isBlank c = false := by simpa using hw
  rw [words, splitWhere_append_cons isBlank w rest ' ' rfl, splitWhere_unbroken isBlank w hunbroken,
    List.singleton_append, List.filter_cons_of_pos (by simpa)]
  rfl

/-- A word that is no lead word says whether the text binds a name. -/
theorem isBinding_append (w rest : List Char) (hw : w.any isBlank = false) (hne : w ≠ [])
    (hlead : Profile.leadWords.contains w = false) :
    Profile.isBinding (w ++ ' ' :: rest) =
      (["const", "let", "var"].map String.toList).contains w := by
  rw [Profile.isBinding, words_append w rest hw hne,
    List.find?_cons_of_pos (by simp only [hlead, Bool.not_false])]

/-- A function's header starts with no blank and binds no name. -/
theorem functionHeader_begins (f : Name) (params : List (Name × TypeExpr)) (result : TypeExpr)
    (rest : List Char) :
    trimStart (functionHeader f params result ++ rest) = functionHeader f params result ++ rest ∧
      Profile.isBinding (functionHeader f params result ++ rest) = false := by
  have hwords : functionHeader f params result ++ rest =
      "function ".toList ++ (f.chars ++ signature params result ++ rest) := by
    unfold functionHeader
    simp only [List.append_assoc]
  rw [hwords]
  refine ⟨trimStart_append _ _ (by decide) (by decide), ?_⟩
  exact isBinding_append "function".toList _ (by decide) (by decide) (by decide)

theorem bindingHeader_begins (f : Name) (params : List (Name × TypeExpr)) (result : TypeExpr)
    (rest : List Char) :
    trimStart (bindingHeader f params result ++ rest) = bindingHeader f params result ++ rest ∧
      Profile.isBinding (bindingHeader f params result ++ rest) = true := by
  have hwords : bindingHeader f params result ++ rest =
      "const ".toList ++ (f.chars ++ " = ".toList ++ signature params result ++ rest) := by
    unfold bindingHeader
    simp only [List.append_assoc]
  rw [hwords]
  refine ⟨trimStart_append _ _ (by decide) (by decide), ?_⟩
  exact isBinding_append "const".toList _ (by decide) (by decide) (by decide)

/-! ### Cuts -/

/-- After a closed text without arrows of its own, the arrow that follows is the first. -/
theorem arrow?_closed (head tail : List Char)
    (hhead : ClosedAnywhere { angles := true } true head) :
    Body.arrow? (head ++ ("=>".toList ++ tail)) = some (byteLength head) := by
  have hbytes : bytes (head ++ ("=>".toList ++ tail)) =
      bytes head ++ '=' :: '>' :: bytes tail := by
    rw [bytes_append, bytes_append]
    rfl
  have harrow (before : List Char) :
      step { angles := true } before '=' ('>' :: bytes tail) {} =
        (⟨.skip 1 .code, {}⟩, some (.arrow, true)) := rfl
  obtain ⟨hstate, hevents⟩ := hhead ('=' :: '>' :: bytes tail) [] 0 {}
  -- the search passes over the head, whose arrows are all enclosed
  have hnone : (eventsFrom { angles := true } ('=' :: '>' :: bytes tail) [] 0 {}
      (bytes head)).find? (fun e => e.topLevel && e.token == .arrow) = none := by
    rw [List.find?_eq_none]
    intro e he hfound
    obtain ⟨htop, htoken⟩ : e.topLevel = true ∧ e.token = .arrow := by simpa using hfound
    exact (hevents e he htop).2 rfl htoken
  have hfirst : Body.firstTop? .arrow
      (scan { angles := true } (head ++ ("=>".toList ++ tail))) = some (byteLength head) := by
    rw [Body.firstTop?, scan, hbytes, scanFrom_append, hstate, scanFrom_cons, harrow,
      List.find?_append, hnone]
    simp [emitted, length_bytes]
  rw [Body.arrow?, hfirst]
  rfl

/-- A function with a balanced body is cut before the blank and the brace. -/
theorem strip_function (f : Name) (params : List (Name × TypeExpr)) (result : TypeExpr)
    (body : List Char) (hbody : Balanced { angles := true } body) :
    Profile.scriptStrip .function
        (functionHeader f params result ++ " \x7b ".toList ++ body ++ " \x7d".toList) =
      some (functionHeader f params result) := by
  let head : List Char := functionHeader f params result ++ " ".toList
  let block : List Char := '\x7b' :: (" ".toList ++ body ++ " ".toList ++ ['\x7d'])
  have htext : functionHeader f params result ++ " \x7b ".toList ++ body ++ " \x7d".toList =
      functionHeader f params result ++ (" ".toList ++ block) := by
    simp [block]
  obtain ⟨hstart, hbinding⟩ := functionHeader_begins f params result (" ".toList ++ block)
  have htrim : trim (functionHeader f params result ++ (" ".toList ++ block)) = head ++ block := by
    rw [trim, hstart, ← List.append_assoc]
    exact Body.trimEnd_braced head _
  have hstate : stateAfter { angles := true } head = {} :=
    ((closed_functionHeader _ rfl f params result).append (closedAnywhere_plain (by decide))
      [] [] 0 {}).1
  -- the parameters were closed before, so the brace behind the head may open the body
  have hbrace : Body.brace? true true (head ++ block) = some (byteLength head) := by
    rw [Body.brace?, Body.braceOf_braced true true head _ hstate
      (fun _ => params_closed _ rfl f params result _) hbody.spaced]
  have hhead : trimEnd head = functionHeader f params result :=
    trimEnd_signature ("function ".toList ++ f.chars) params result
  have hne : trimEnd head ≠ [] := by
    rw [hhead]
    exact List.append_ne_nil_of_right_ne_nil _ (by simp [signature])
  have hstrip := Body.stripAt?_head (Body.brace? true true) _ head block htrim hbrace hne
  rw [← List.append_assoc] at hbinding
  calc Profile.scriptStrip .function
        (functionHeader f params result ++ " \x7b ".toList ++ body ++ " \x7d".toList)
      = Body.stripAt? (Body.brace? true true)
          (functionHeader f params result ++ (" ".toList ++ block)) := by
        rw [htext, Profile.scriptStrip, htrim, hbinding, if_neg (by simp), Body.stripBraced?]
    _ = some (trimEnd head) := hstrip
    _ = some (functionHeader f params result) := by rw [hhead]

/-- A binding whose result shows no arrow is cut before the blank and its own arrow. -/
theorem strip_binding (f : Name) (params : List (Name × TypeExpr)) (result : TypeExpr)
    (tail : List Char) (hresult : result.hidesArrows = true) :
    Profile.scriptStrip .function (bindingHeader f params result ++ " => ".toList ++ tail) =
      some (bindingHeader f params result) := by
  let head : List Char := bindingHeader f params result ++ " ".toList
  let rest : List Char := "=>".toList ++ trimEnd (' ' :: tail)
  -- trailing blanks are trimmed only behind the arrow
  have htrim : trim (bindingHeader f params result ++ " => ".toList ++ tail) = head ++ rest := by
    have htext : bindingHeader f params result ++ (" => ".toList ++ tail) =
        bindingHeader f params result ++ " =".toList ++ '>' :: ' ' :: tail := by
      simp
    rw [trim, List.append_assoc, (bindingHeader_begins f params result _).1, htext,
      trimEnd_append_cons _ _ _ rfl]
    simp [head, rest]
  have hbinding : Profile.isBinding (head ++ rest) = true := by
    rw [List.append_assoc]
    exact (bindingHeader_begins f params result _).2
  have hclosed : ClosedAnywhere { angles := true } true head := by
    have hheader := closed_bindingHeader { angles := true } rfl f params result
    rw [hresult] at hheader
    exact hheader.append (closedAnywhere_plain (by decide))
  have hhead : trimEnd head = bindingHeader f params result :=
    trimEnd_signature ("const ".toList ++ f.chars ++ " = ".toList) params result
  have hne : trimEnd head ≠ [] := by
    rw [hhead]
    exact List.append_ne_nil_of_right_ne_nil _ (by simp [signature])
  have hstrip := Body.stripAt?_head Body.arrow? _ head rest htrim (arrow?_closed head _ hclosed) hne
  calc Profile.scriptStrip .function (bindingHeader f params result ++ " => ".toList ++ tail)
      = Body.stripAt? Body.arrow? (bindingHeader f params result ++ " => ".toList ++ tail) := by
        rw [Profile.scriptStrip, htrim, hbinding, if_pos rfl, Body.stripArrow?]
    _ = some (trimEnd head) := hstrip
    _ = some (bindingHeader f params result) := by rw [hhead]

/-- A function whose body is balanced is cut right before the blank and the body's brace, and a
binding whose result shows no arrow right before its own arrow, whatever the text after it. -/
theorem strip_header (parser : Tree.Parser) (f : Name) (params : List (Name × TypeExpr))
    (result : TypeExpr) :
    (∀ body, Balanced { angles := true } body →
      (Profile.script parser).stripBody .function
          (functionHeader f params result ++ " \x7b ".toList ++ body ++ " \x7d".toList) =
        some (functionHeader f params result)) ∧
    (result.hidesArrows = true → ∀ tail,
      (Profile.script parser).stripBody .function
          (bindingHeader f params result ++ " => ".toList ++ tail) =
        some (bindingHeader f params result)) := by
  have hstrip : (Profile.script parser).stripBody = Profile.scriptStrip := rfl
  rw [hstrip]
  constructor
  · intro body hbody
    exact strip_function f params result body hbody
  · intro hresult tail
    exact strip_binding f params result tail hresult

/-- Doubled closing angle brackets, function types as a parameter and in an object type, a body with
a brace in a literal, and after the arrow a text that never closes what it opens. -/
theorem strip_header_nested :
    let header := "(f: T<T<T[]>>, g: (f: T) => T): \x7b f: () => T \x7d".toList
    let p := Profile.script Parsers.bundled.typescript
    p.stripBody .function
        ("function f".toList ++ header ++ " \x7b return \x7b f: () => '\x7d' \x7d \x7d".toList) =
      some ("function f".toList ++ header) ∧
    p.stripBody .function
        ("const f = ".toList ++ header ++ " => (\x7b [ \"".toList) =
      some ("const f = ".toList ++ header) := by
  intro header p
  let f : Name := ⟨['f'], by decide, by decide⟩
  let g : Name := ⟨['g'], by decide, by decide⟩
  let t : TypeName := ⟨⟨['T'], by decide, by decide⟩, by decide⟩
  let params : List (Name × TypeExpr) :=
    [(f, .applied t (.applied t (.array (.named t)) []) []),
      (g, .function [(f, .named t)] (.named t))]
  let result : TypeExpr := .object [(f, .function [] (.named t))]
  let body : List Char := "return \x7b f: () => '\x7d' \x7d".toList
  have hbody : Balanced { angles := true } body := ⟨by decide +kernel, by decide +kernel⟩
  have hfunction := (strip_header Parsers.bundled.typescript f params result).1 body hbody
  have hbinding :=
    (strip_header Parsers.bundled.typescript f params result).2 rfl "(\x7b [ \"".toList
  have hheader : signature params result = header := by decide +kernel
  have hf : functionHeader f params result = "function f".toList ++ header := by
    rw [← hheader]
    rfl
  have hc : bindingHeader f params result = "const f = ".toList ++ header := by
    rw [← hheader]
    rfl
  rw [hf] at hfunction
  rw [hc] at hbinding
  exact ⟨hfunction, hbinding⟩

end Synopsis.Script
