import Mathlib.Data.String.Basic
import Synopsis.Builtin
import Synopsis.Extract
import Synopsis.Proofs.Registered

/-! A registry in use: what it answers after any steps is told by the steps alone. A tag stands for
the definition last registered under it with success, and a failed registration leaves no trace. -/
open Synopsis.Tree

namespace Synopsis

theorem Profile.compile_isOk_iff (p : Profile) (tag : String) :
    (p.compile tag).isOk = true ↔ ∃ c, p.compile tag = .ok c := by
  cases p.compile tag with
  | error e => simp [Except.isOk, Except.toBool]
  | ok c => simp [Except.isOk, Except.toBool]

namespace Registry

/-! ### Order of the tags -/

theorem mem_languages_iff (r : Registry) (tag : String) :
    tag ∈ r.languages ↔ (r.get? tag).isSome = true := by
  unfold languages get?
  rw [List.lookup_isSome_iff, List.mem_map]
  refine exists_congr fun x => and_congr_right fun _ => ?_
  rw [beq_iff_eq]
  exact eq_comm

theorem mem_languages_insert (r : Registry) (tag s : String) (c : Compiled) :
    s ∈ (r.insert tag c).languages ↔ s = tag ∨ s ∈ r.languages := by
  rw [mem_languages_iff, mem_languages_iff, get?_insert]
  split_ifs with hs
  · simp [hs]
  · simp [hs]

/-- An entry put in its place keeps the tags in strict order. -/
theorem sorted_insertEntry (tag : String) (c : Compiled) (es : List (String × Compiled))
    (h : (es.map (·.1)).Pairwise (· < ·)) :
    ((insertEntry tag c es).map (·.1)).Pairwise (· < ·) := by
  induction es with
  | nil => simp [insertEntry]
  | cons e es ih =>
    obtain ⟨t, d⟩ := e
    obtain ⟨hfirst, hrest⟩ := List.pairwise_cons.mp h
    unfold insertEntry
    -- the entry goes before this one, takes its place, or goes further on
    split_ifs with hbefore hsame
    · refine List.pairwise_cons.mpr ⟨?_, h⟩
      intro s hs
      rcases List.mem_cons.mp hs with rfl | hs
      · exact hbefore
      · exact lt_trans hbefore (hfirst s hs)
    · rw [hsame]
      exact List.pairwise_cons.mpr ⟨hfirst, hrest⟩
    · have hafter : t < tag := lt_of_le_of_ne (not_lt.mp hbefore) (Ne.symm hsame)
      refine List.pairwise_cons.mpr ⟨?_, ih hrest⟩
      intro s hs
      rcases (mem_languages_insert ⟨es⟩ tag s c).mp hs with rfl | hs
      · exact hafter
      · exact hfirst s hs

/-! ### Steps and their answers -/

/-- One use of a registry. -/
inductive Step where
  | register (tag : String) (p : Profile)
  | get (tag : String)
  | languages
  | parse (source tag : String) (o : Options)

inductive Answer where
  | registered (result : Except RegisterError Unit)
  | found (c : Option Compiled)
  | listed (tags : List String)
  | parsed (result : Except ExtractError Extraction)

/-- The registry after a step, and the step's answer. -/
def Step.act (r : Registry) : Step → Registry × Answer
  | .register tag p =>
    match r.register tag p with
    | .ok r' => (r', .registered (.ok ()))
    | .error e => (r, .registered (.error e))
  | .get tag => (r, .found (r.get? tag))
  | .languages => (r, .listed r.languages)
  | .parse source tag o => (r, .parsed (r.extract source tag o))

/-- The registry after some steps, and their answers. -/
def run (r : Registry) : List Step → Registry × List Answer
  | [] => (r, [])
  | x :: xs =>
    let rest := run (x.act r).1 xs
    (rest.1, (x.act r).2 :: rest.2)

theorem run_append (r : Registry) (xs ys : List Step) :
    r.run (xs ++ ys) = (((r.run xs).1.run ys).1, (r.run xs).2 ++ ((r.run xs).1.run ys).2) := by
  induction xs generalizing r with
  | nil => rfl
  | cons x xs ih => rw [List.cons_append, run, ih, run, List.cons_append]

theorem length_answers (r : Registry) (xs : List Step) : (r.run xs).2.length = xs.length := by
  induction xs generalizing r with
  | nil => rfl
  | cons x xs ih => rw [run, List.length_cons, List.length_cons, ih]

/-- A registration that succeeds inserts, and one that fails does nothing. -/
theorem act_register (r : Registry) (tag : String) (p : Profile) :
    (∃ c, p.compile tag = .ok c ∧
      Step.act r (.register tag p) = (r.insert tag c, .registered (.ok ()))) ∨
    (∃ e, p.compile tag = .error e ∧
      Step.act r (.register tag p) = (r, .registered (.error e))) := by
  rw [Step.act, register]
  cases hc : p.compile tag with
  | ok c => exact .inl ⟨c, rfl, rfl⟩
  | error e => exact .inr ⟨e, rfl, rfl⟩

/-! ### The history of a tag -/

/-- The definition that a step puts under a tag with success. -/
def Step.defines? (tag : String) : Step → Option Profile
  | .register t p => if t = tag ∧ (p.compile tag).isOk = true then some p else none
  | _ => none

/-- What a registry holds from the start. -/
inductive Origin where
  | empty
  | builtins (P : Parsers)

def Origin.registry : Origin → Registry
  | .empty => Registry.empty
  | .builtins P => P.registry

/-- The definition of a tag from the start: the built-in one, if it compiles. -/
def Origin.definition? : Origin → String → Option Profile
  | .empty, _ => none
  | .builtins P, tag => (P.builtins.lookup tag).filter fun p => (p.compile tag).isOk

/-- The definition of a tag after some steps: of the last step that gave it one, else the one
before them all. -/
def latest (initial : String → Option Profile) (steps : List Step) (tag : String) :
    Option Profile :=
  (steps.reverse.findSome? (Step.defines? tag)).or (initial tag)

/-- The registry is the one that the definitions of all tags describe. -/
structure Describes (definition? : String → Option Profile) (r : Registry) : Prop where
  get : ∀ tag, (∃ p c, definition? tag = some p ∧ p.compile tag = .ok c ∧ r.get? tag = some c) ∨
    (definition? tag = none ∧ r.get? tag = none)
  sorted : r.languages.Pairwise (· < ·)

theorem latest_cons (initial : String → Option Profile) (x : Step) (xs : List Step) :
    latest initial (x :: xs) = latest (fun tag => (x.defines? tag).or (initial tag)) xs := by
  funext tag
  unfold latest
  rw [List.reverse_cons, List.findSome?_append, Option.or_assoc, List.findSome?_singleton]

theorem defines?_of_compile (t tag : String) (p : Profile) (c : Compiled)
    (hc : p.compile t = .ok c) :
    Step.defines? tag (.register t p) = if t = tag then some p else none := by
  rw [Step.defines?]
  by_cases ht : t = tag
  · subst ht
    rw [if_pos ⟨rfl, (p.compile_isOk_iff t).mpr ⟨c, hc⟩⟩, if_pos rfl]
  · rw [if_neg fun h => ht h.1, if_neg ht]

theorem defines?_of_error (t tag : String) (p : Profile) (e : RegisterError)
    (he : p.compile t = .error e) : Step.defines? tag (.register t p) = none := by
  refine if_neg ?_
  rintro ⟨rfl, hok⟩
  rw [he] at hok
  cases hok

/-- One step changes the registry as it changes the history. -/
theorem describes_act (definition? : String → Option Profile) (r : Registry) (x : Step)
    (h : Describes definition? r) :
    Describes (fun tag => (x.defines? tag).or (definition? tag)) (x.act r).1 := by
  cases x with
  | get tag => exact h
  | languages => exact h
  | parse source tag o => exact h
  | register t p =>
    -- if the language is readable both change, and otherwise neither
    rcases act_register r t p with ⟨c, hc, hact⟩ | ⟨e, he, hact⟩
    · rw [hact]
      refine ⟨fun tag => ?_, sorted_insertEntry t c r.entries h.sorted⟩
      rw [get?_insert, defines?_of_compile t tag p c hc]
      by_cases ht : t = tag
      · subst ht
        exact .inl ⟨p, c, by simp, hc, by simp⟩
      · simpa [ht, Ne.symm ht] using h.get tag
    · rw [hact]
      refine ⟨fun tag => ?_, h.sorted⟩
      rw [defines?_of_error t tag p e he, Option.none_or]
      exact h.get tag

theorem describes_run (initial : String → Option Profile) (r : Registry) (steps : List Step)
    (h : Describes initial r) : Describes (latest initial steps) (r.run steps).1 := by
  induction steps generalizing initial r with
  | nil =>
    have hnone : latest initial [] = initial := by
      funext tag
      rfl
    rw [hnone]
    exact h
  | cons x xs ih =>
    rw [latest_cons]
    exact ih _ _ (describes_act initial r x h)

/-! ### The built-in languages as steps -/

theorem addAll_eq_run (r : Registry) (ps : List (String × Profile)) :
    r.addAll ps = (r.run (ps.map fun x => .register x.1 x.2)).1 := by
  induction ps generalizing r with
  | nil => rfl
  | cons x ps ih =>
    obtain ⟨tag, p⟩ := x
    have hstep : ((r.register tag p).toOption).getD r = (Step.act r (.register tag p)).1 := by
      rw [Step.act]
      cases r.register tag p <;> rfl
    rw [addAll, List.foldl_cons, List.map_cons, run]
    dsimp only
    rw [hstep]
    exact ih _

/-- Of languages, each under a tag of its own, those that compile are registered. -/
theorem latest_register (ps : List (String × Profile)) (hnodup : (ps.map (·.1)).Nodup)
    (tag : String) :
    latest (fun _ => none) (ps.map fun x => .register x.1 x.2) tag =
      (ps.lookup tag).filter fun p => (p.compile tag).isOk := by
  unfold latest
  rw [Option.or_none]
  induction ps with
  | nil => rfl
  | cons x ps ih =>
    obtain ⟨t, p⟩ := x
    obtain ⟨hfresh, hnodup⟩ := List.nodup_cons.mp hnodup
    rw [List.map_cons, List.reverse_cons, List.findSome?_append, ih hnodup,
      List.findSome?_singleton, Step.defines?, List.lookup_cons]
    by_cases ht : t = tag
    · -- the tag occurs only here, so nothing later replaces it
      subst ht
      have hnone : ps.lookup t = none := by
        rw [List.lookup_eq_none_iff]
        intro y hy
        rw [bne_iff_ne]
        intro ht
        exact hfresh (List.mem_map.mpr ⟨y, hy, ht.symm⟩)
      simp [hnone, Option.filter]
    · rw [beq_false_of_ne (Ne.symm ht), if_neg fun h => ht h.1, Option.or_none]

theorem describes_empty : Describes (fun _ => none) empty := by
  constructor
  · intro tag
    exact .inr ⟨rfl, rfl⟩
  · exact List.Pairwise.nil

theorem describes_origin (o : Origin) : Describes o.definition? o.registry := by
  cases o with
  | empty => exact describes_empty
  | builtins P =>
    have hnodup : (P.builtins.map (·.1)).Nodup := by
      change ["go", "typescript", "javascript", "tsx", "jsx", "python", "c", "cpp", "java"].Nodup
      decide
    have hsame : (Origin.builtins P).definition? =
        latest (fun _ => none) (P.builtins.map fun x => .register x.1 x.2) := by
      funext tag
      exact (latest_register P.builtins hnodup tag).symm
    have hrun := describes_run _ empty
      (P.builtins.map fun x => .register x.1 x.2) describes_empty
    rw [← hsame, ← addAll_eq_run] at hrun
    exact hrun

/-! ### What the answers are -/

theorem mem_languages_of_describes (definition? : String → Option Profile) (r : Registry)
    (h : Describes definition? r) (tag : String) :
    tag ∈ r.languages ↔ (definition? tag).isSome = true := by
  rw [mem_languages_iff]
  rcases h.get tag with ⟨p, c, hp, _, hc⟩ | ⟨hp, hc⟩
  · simp [hp, hc]
  · simp [hp, hc]

/-- Extraction names the tags unsupported that are not listed, and for the others answers as their
language does. -/
theorem extract_eq (r : Registry) (source tag : String) (o : Options) :
    (tag ∈ r.languages ∧ ∃ c, r.get? tag = some c ∧
      r.extract source tag o = c.extract tag source o) ∨
    (tag ∉ r.languages ∧ r.extract source tag o = .error (.unsupportedLanguage tag)) := by
  rw [mem_languages_iff]
  unfold extract
  cases r.get? tag with
  | none => exact .inr ⟨by simp, rfl⟩
  | some c => exact .inl ⟨rfl, c, rfl, rfl⟩

/-- No language calls itself unsupported. -/
theorem extract_ne_unsupported (c : Compiled) (source tag : String) (o : Options) :
    c.extract tag source o ≠ .error (.unsupportedLanguage tag) := by
  unfold Compiled.extract
  cases c.profile.parser.tree source <;> simp

theorem extract_unsupported_iff (r : Registry) (source tag : String) (o : Options) :
    r.extract source tag o = .error (.unsupportedLanguage tag) ↔ tag ∉ r.languages := by
  rcases extract_eq r source tag o with ⟨hmem, c, _, heq⟩ | ⟨hmem, herror⟩
  · simp [hmem, heq, extract_ne_unsupported c source tag o]
  · simp [hmem, herror]

/-- A registration that fails can be left out of a run, with its own answer. -/
theorem run_without_failed (r : Registry) (before after : List Step) (tag : String)
    (p : Profile) (e : RegisterError) (he : p.compile tag = .error e) :
    ∃ earlier later, earlier.length = before.length ∧
      r.run (before ++ .register tag p :: after) =
        ((r.run (before ++ after)).1, earlier ++ .registered (.error e) :: later) ∧
      (r.run (before ++ after)).2 = earlier ++ later := by
  have hact : Step.act (r.run before).1 (.register tag p) =
      ((r.run before).1, .registered (.error e)) := by
    rw [Step.act, register, he]
    rfl
  refine ⟨(r.run before).2, ((r.run before).1.run after).2, length_answers r before, ?_, ?_⟩
  · rw [run_append, run_append, run, hact]
  · rw [run_append]

theorem answer_at (r : Registry) (before after : List Step) (x : Step) :
    (r.run (before ++ x :: after)).2[before.length]? = some (x.act (r.run before).1).2 := by
  rw [run_append, run]
  have hlength := length_answers r before
  simp [← hlength]

/-- After any steps from an empty registry or the built-in one: a tag has the compiled form of the
definition last registered for it with success, or the one from the start, or none; the tags that
have one are listed in strict order; and extraction calls exactly the others unsupported. Each
step is answered by the registry reached before it. A registration is answered with success if its
language is readable; if not, with an error, and all other answers and the registry at the end are
those of the run without it. -/
theorem runs_follow_history (o : Origin) (steps : List Step) :
    (∀ tag, (∃ p c, latest o.definition? steps tag = some p ∧ p.compile tag = .ok c ∧
        (o.registry.run steps).1.get? tag = some c) ∨
      (latest o.definition? steps tag = none ∧ (o.registry.run steps).1.get? tag = none)) ∧
    (o.registry.run steps).1.languages.Pairwise (· < ·) ∧
    (∀ tag, tag ∈ (o.registry.run steps).1.languages ↔
      (latest o.definition? steps tag).isSome = true) ∧
    (∀ source tag options,
      (o.registry.run steps).1.extract source tag options = .error (.unsupportedLanguage tag) ↔
        tag ∉ (o.registry.run steps).1.languages) ∧
    (∀ before x after, steps = before ++ x :: after →
      (o.registry.run steps).2[before.length]? = some (x.act (o.registry.run before).1).2) ∧
    (∀ before tag p after, steps = before ++ .register tag p :: after → p.Readable →
      (o.registry.run steps).2[before.length]? = some (.registered (.ok ()))) ∧
    (∀ before tag p after, steps = before ++ .register tag p :: after → ¬ p.Readable →
      ∃ e earlier later, earlier.length = before.length ∧
        o.registry.run steps = ((o.registry.run (before ++ after)).1,
          earlier ++ .registered (.error e) :: later) ∧
        (o.registry.run (before ++ after)).2 = earlier ++ later) := by
  have h := describes_run o.definition? o.registry steps (describes_origin o)
  refine ⟨h.get, h.sorted, mem_languages_of_describes _ _ h, ?_, ?_, ?_, ?_⟩
  · intro source tag options
    exact extract_unsupported_iff _ source tag options
  · rintro before x after rfl
    exact answer_at o.registry before after x
  · rintro before tag p after rfl hp
    obtain ⟨c, hc⟩ := (p.readable_iff_compile tag).mp hp
    rw [answer_at]
    rcases act_register (o.registry.run before).1 tag p with ⟨_, _, hact⟩ | ⟨e, he, _⟩
    · rw [hact]
    · rw [hc] at he
      cases he
  · rintro before tag p after rfl hp
    cases hc : p.compile tag with
    | ok c => exact absurd ((p.readable_iff_compile tag).mpr ⟨c, hc⟩) hp
    | error e => exact ⟨e, run_without_failed o.registry before after tag p e hc⟩

/-- A language whose first query can be read and whose second cannot does not take the place of a
built-in one. -/
theorem runs_follow_history_broken_import :
    let p : Profile := { Profile.go Parsers.bundled.go with query := "", importQuery := some "(" }
    (∃ q, p.parser.readQuery p.query = .ok q) ∧ ¬ p.Readable ∧
      ∃ e, (withBuiltins.run [.register "go" p, .get "go"]).2 =
        [.registered (.error e), .found (withBuiltins.get? "go")] := by
  intro p
  have hbroken : ¬ p.Readable := by
    rintro ⟨_, hp⟩
    obtain ⟨q, hq⟩ := hp "(" (by simp [p])
    have hnone : (p.parser.readQuery "(").toOption.isNone = true := by decide +kernel
    rw [hq] at hnone
    cases hnone
  obtain ⟨_, _, _, _, _, _, hfailed⟩ :=
    runs_follow_history (.builtins .bundled) [.register "go" p, .get "go"]
  obtain ⟨e, earlier, later, hlength, hrun, hanswers⟩ := hfailed [] "go" p _ rfl hbroken
  obtain rfl : earlier = [] := List.length_eq_zero_iff.mp hlength
  refine ⟨⟨_, rfl⟩, hbroken, e, ?_⟩
  change ((Origin.builtins .bundled).registry.run _).2 = _
  rw [hrun, List.nil_append, ← List.nil_append later, ← hanswers]
  rfl

end Registry

end Synopsis
