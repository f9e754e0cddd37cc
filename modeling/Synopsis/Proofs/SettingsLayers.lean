import Mathlib
import Synopsis.Cli
import Synopsis.Proofs.FormatNames

/-! Settings from the command line, the environment and the configuration file. Of each setting
the uppermost layer decides the value, but a value below it can still make a run fail: what file
and environment give is validated before the command line is looked at. -/
namespace Synopsis.Cli

/-- The format by layers: the flag, else the variable, else what the file says. -/
def Invocation.chosenFormat (i : Invocation) (env : Config.Environment) (file : Config) : String :=
  (i.format.or (env.lookup "BRIEF_FORMAT")).getD file.output.format

/-- The size limit by layers; a variable counts if it can be read. -/
def Invocation.chosenSize (i : Invocation) (env : Config.Environment) (file : Config) : Nat :=
  (i.maxSize.or (env.lookup "BRIEF_MAX_FILE_SIZE" >>= Config.sizeOfText?)).getD
    file.scan.maxFileSize

/-- A format that is unknown, or a limit of zero. -/
def Unacceptable (format : String) (size : Nat) : Prop :=
  format.map Config.foldCase ∉ Config.formats ∨ size = 0

theorem adjust_format (i : Invocation) (env : Config.Environment) (file : Config) :
    (i.adjust (file.withEnvironment env)).output.format = i.chosenFormat env file := by
  unfold Invocation.chosenFormat
  cases hflag : i.format with
  | some f => simp [Invocation.adjust, hflag]
  | none =>
    cases hvar : env.lookup "BRIEF_FORMAT" <;>
      simp [Invocation.adjust, Config.withEnvironment, Config.override, hflag, hvar]

theorem adjust_size (i : Invocation) (env : Config.Environment) (file : Config) :
    (i.adjust (file.withEnvironment env)).scan.maxFileSize = i.chosenSize env file := by
  unfold Invocation.chosenSize
  cases hflag : i.maxSize with
  | some n => simp [Invocation.adjust, hflag]
  | none => simp [Invocation.adjust, Config.withEnvironment, Config.override, hflag]

theorem validate_error_iff (c : Config) :
    (∃ e, c.validate = .error e) ↔ Unacceptable c.output.format c.scan.maxFileSize := by
  have hok := Config.validate_eq_ok c
  have hnot : (∃ e, c.validate = .error e) ↔ c.validate ≠ .ok () := by
    cases c.validate <;> simp
  rw [hnot, Ne, hok, not_and_or, not_not]
  rfl

theorem adjust_nothing (c : Config) : ({} : Invocation).adjust c = c := by
  simp [Invocation.adjust]

/-- Settings as they are, if they pass validation. -/
def accepted (c : Config) : Except ConfigError Config :=
  (c.validate.mapError .rejected).map fun _ => c

theorem accepted_of_error (c : Config) (e : SettingsError) (h : c.validate = .error e) :
    accepted c = .error (.rejected e) := by
  rw [accepted, h]
  rfl

theorem accepted_of_ok (c : Config) (h : c.validate = .ok ()) : accepted c = .ok c := by
  rw [accepted, h]
  rfl

/-- Settings are validated below the command line and then with it. -/
theorem settings_eq (t : FileTree) (env : Config.Environment) (i : Invocation) (path : String)
    (file : Config) (hfile : Config.ofFile t (configRoot t path) = .ok file) :
    settings t env i path =
      accepted (file.withEnvironment env) >>= fun c => accepted (i.adjust c) := by
  have hload : Config.load t (configRoot t path) env = accepted (file.withEnvironment env) := by
    rw [Config.load, hfile]
    cases hvalidate : (file.withEnvironment env).validate with
    | error e => simp [hvalidate, accepted_of_error _ e hvalidate, bind, Except.bind]
    | ok u => simp [hvalidate, accepted_of_ok _ hvalidate, bind, Except.bind, pure, Except.pure]
  rw [settings, hload]
  -- the command line comes in only now, behind the first validation
  congr 1
  funext c
  cases hvalidate : (i.adjust c).validate with
  | error e => simp [hvalidate, accepted_of_error _ e hvalidate]
  | ok u => simp [hvalidate, accepted_of_ok _ hvalidate, pure, Except.pure]

theorem settings_rejected_iff (t : FileTree) (env : Config.Environment) (i : Invocation)
    (path : String) (file : Config) (hfile : Config.ofFile t (configRoot t path) = .ok file) :
    (∃ e, settings t env i path = .error (.rejected e)) ↔
      Unacceptable (i.chosenFormat env file) (i.chosenSize env file) ∨
        Unacceptable (({} : Invocation).chosenFormat env file)
          (({} : Invocation).chosenSize env file) := by
  have hwhole := validate_error_iff (i.adjust (file.withEnvironment env))
  have hbelow := validate_error_iff (({} : Invocation).adjust (file.withEnvironment env))
  rw [adjust_format, adjust_size] at hwhole hbelow
  rw [adjust_nothing] at hbelow
  rw [← hwhole, ← hbelow, settings_eq t env i path file hfile]
  cases hfirst : (file.withEnvironment env).validate with
  | error e => simp [accepted_of_error _ e hfirst, bind, Except.bind]
  | ok u =>
    cases hsecond : (i.adjust (file.withEnvironment env)).validate with
    | error e => simp [accepted_of_ok _ hfirst, accepted_of_error _ e hsecond, bind, Except.bind]
    | ok u => simp [accepted_of_ok _ hfirst, accepted_of_ok _ hsecond, bind, Except.bind]

theorem eq_adjust_of_settings (t : FileTree) (env : Config.Environment) (i : Invocation)
    (path : String) (file c : Config) (hfile : Config.ofFile t (configRoot t path) = .ok file)
    (h : settings t env i path = .ok c) : c = i.adjust (file.withEnvironment env) := by
  rw [settings_eq t env i path file hfile] at h
  cases hfirst : (file.withEnvironment env).validate with
  | error e => simp [accepted_of_error _ e hfirst, bind, Except.bind] at h
  | ok u =>
    cases hsecond : (i.adjust (file.withEnvironment env)).validate with
    | error e =>
      simp [accepted_of_ok _ hfirst, accepted_of_error _ e hsecond, bind, Except.bind] at h
    | ok u =>
      simp [accepted_of_ok _ hfirst, accepted_of_ok _ hsecond, bind, Except.bind] at h
      exact h.symm

/-- A step that does not fail for its settings. -/
def NoConfigError {α : Type} (x : Except RunError α) : Prop := ∀ e, x ≠ .error (.config e)

theorem noConfigError_ok {α : Type} (a : α) : NoConfigError (.ok a) := by
  intro e h
  cases h

theorem NoConfigError.bind {α β : Type} {x : Except RunError α} {f : α → Except RunError β}
    (hx : NoConfigError x) (hf : ∀ a, NoConfigError (f a)) : NoConfigError (x >>= f) := by
  intro e h
  cases x with
  | error e' =>
    obtain rfl : e' = .config e := Except.error.inj h
    exact hx e rfl
  | ok a => exact hf a e h

theorem noConfigError_mapError {ε α : Type} (x : Except ε α) (f : ε → RunError)
    (hf : ∀ d e, f d ≠ .config e) : NoConfigError (x.mapError f) := by
  intro e h
  cases x with
  | error d => exact hf d e (Except.error.inj h)
  | ok a => cases h

theorem noConfigError_writeOutput (t : FileTree) (path content : String) :
    NoConfigError (writeOutput t path content) := by
  have hwrite (t : FileTree) : NoConfigError ((t.write path (Utf8.encode content)).mapError
      fun _ => RunError.cannotWrite path) := by
    apply noConfigError_mapError
    rintro d e ⟨⟩
  unfold writeOutput
  cases Path.parent? path with
  | none => exact hwrite t
  | some parent =>
    refine NoConfigError.bind (noConfigError_mapError _ _ ?_) hwrite
    rintro d e ⟨⟩

/-- What a run does with its settings. -/
def packWith (lib : Libraries) (t : FileTree) (path : String) (c : Config) :
    Except RunError Report := do
  let p ← (t.package lib.parsers.registry c path lib.encoding?).mapError .package
  let summary := some (Summary.ofPackage p)
  match c.output.path with
  | some out => return { summary, written := some out, files := ← writeOutput t out p.content }
  | none => return { stdout := p.content, summary, files := t }

theorem noConfigError_packWith (lib : Libraries) (t : FileTree) (path : String) (c : Config) :
    NoConfigError (packWith lib t path c) := by
  unfold packWith
  refine NoConfigError.bind (noConfigError_mapError _ _ ?_) ?_
  · rintro d e ⟨⟩
  · intro p
    cases c.output.path with
    | none => exact noConfigError_ok _
    | some out =>
      exact (noConfigError_writeOutput t out p.content).bind fun _ => noConfigError_ok _

/-- A run that packs a path first finds its settings. -/
theorem run_eq_packWith (lib : Libraries) (i : Invocation) (env : Config.Environment) (t : FileTree)
    (hlanguages : i.languages = false) (hmode : i.mode.getD "sig" = "sig")
    (hpath : t.exists_ (i.path.getD ".") = true) :
    i.runWith lib env t =
      (settings t env i (i.path.getD ".")).mapError .config >>=
        packWith lib t (i.path.getD ".") := by
  unfold Invocation.runWith
  simp only [hlanguages, hmode, hpath, Bool.false_eq_true, ne_eq, not_true_eq_false, Bool.not_true,
    if_false]
  rfl

theorem run_config_error_iff (lib : Libraries) (i : Invocation) (env : Config.Environment)
    (t : FileTree) (e : ConfigError) (hpath : t.exists_ (i.path.getD ".") = true) :
    i.runWith lib env t = .error (.config e) ↔
      i.languages = false ∧ i.mode.getD "sig" = "sig" ∧
        settings t env i (i.path.getD ".") = .error e := by
  cases hlanguages : i.languages with
  | true => simp [Invocation.runWith, hlanguages, pure, Except.pure]
  | false =>
    by_cases hmode : i.mode.getD "sig" = "sig"
    · rw [run_eq_packWith lib i env t hlanguages hmode hpath]
      cases settings t env i (i.path.getD ".") with
      | error e' => simp [hmode, Except.mapError, bind, Except.bind]
      | ok c =>
        have hrest : packWith lib t (i.path.getD ".") c ≠ .error (.config e) :=
          noConfigError_packWith lib t (i.path.getD ".") c e
        simpa [hmode, Except.mapError, bind, Except.bind] using hrest
    · simp [Invocation.runWith, hlanguages, hmode, throw, throwThe, MonadExceptOf.throw, bind,
        Except.bind]

/-- A run on an existing path is refused for its settings exactly if it gets as far as looking at
them and the format or the limit is unacceptable, as the layers up to the command line give it or
as those below it do. The values themselves are those of the uppermost layer. -/
theorem run_rejected_iff (lib : Libraries) (i : Invocation) (env : Config.Environment)
    (t : FileTree) (file : Config) (hpath : t.exists_ (i.path.getD ".") = true)
    (hfile : Config.ofFile t (configRoot t (i.path.getD ".")) = .ok file) :
    ((∃ e, i.runWith lib env t = .error (.config (.rejected e))) ↔
      i.languages = false ∧ i.mode.getD "sig" = "sig" ∧
        (Unacceptable (i.chosenFormat env file) (i.chosenSize env file) ∨
          Unacceptable (({} : Invocation).chosenFormat env file)
            (({} : Invocation).chosenSize env file))) ∧
    ∀ c, settings t env i (i.path.getD ".") = .ok c →
      c.output.format = i.chosenFormat env file ∧ c.scan.maxFileSize = i.chosenSize env file := by
  constructor
  · have hsettings := settings_rejected_iff t env i (i.path.getD ".") file hfile
    constructor
    · rintro ⟨e, hrun⟩
      obtain ⟨hlanguages, hmode, he⟩ := (run_config_error_iff lib i env t _ hpath).mp hrun
      exact ⟨hlanguages, hmode, hsettings.mp ⟨e, he⟩⟩
    · rintro ⟨hlanguages, hmode, hrefused⟩
      obtain ⟨e, he⟩ := hsettings.mpr hrefused
      exact ⟨e, (run_config_error_iff lib i env t _ hpath).mpr ⟨hlanguages, hmode, he⟩⟩
  · intro c hc
    rw [eq_adjust_of_settings t env i _ file c hfile hc]
    exact ⟨adjust_format i env file, adjust_size i env file⟩

/-- A format in the file that is unknown, and another one on the command line. -/
theorem run_rejected_below_flag :
    let t : FileTree :=
      ⟨[([".brief", "config.toml"], .file (Utf8.encode "[output]\nformat = \"yaml\"\n"))]⟩
    let i : Invocation := { format := some "json", maxSize := some 9 }
    let file : Config := { output := { format := "yaml" } }
    t.exists_ (i.path.getD ".") = true ∧
      Config.ofFile t (configRoot t (i.path.getD ".")) = .ok file ∧
      ∃ e, i.run [("BRIEF_MAX_FILE_SIZE", "no")] t = .error (.config (.rejected e)) := by
  intro t i file
  have hpath : t.exists_ (i.path.getD ".") = true := by decide +kernel
  have hfile : Config.ofFile t (configRoot t (i.path.getD ".")) = .ok file := by decide +kernel
  have hrejected :=
    (run_rejected_iff .bundled i [("BRIEF_MAX_FILE_SIZE", "no")] t file hpath hfile).1
  refine ⟨hpath, hfile, hrejected.mpr ⟨rfl, rfl, .inr (.inl ?_)⟩⟩
  decide +kernel

/-- A variable with an unknown format makes the run fail, though the format on the command line
is a known one. -/
theorem overridden_format_rejects :
    let i : Invocation := { format := some "md", noTokens := true }
    let env : Config.Environment := [("BRIEF_FORMAT", "yaml")]
    FileTree.empty.exists_ "." = true ∧ Config.ofFile .empty (configRoot .empty ".") = .ok {} ∧
      ¬ Unacceptable (i.chosenFormat env {}) (i.chosenSize env {}) ∧
      i.run env .empty = .error (.config (.rejected (.unknownFormat "yaml"))) := by
  intro i env
  have hpath : FileTree.empty.exists_ "." = true := by decide +kernel
  have hsettings : settings .empty env i "." = .error (.rejected (.unknownFormat "yaml")) := by
    decide +kernel
  have hchosen : ¬ Unacceptable (i.chosenFormat env {}) (i.chosenSize env {}) := by
    unfold Unacceptable
    decide +kernel
  exact ⟨hpath, by decide +kernel, hchosen,
    (run_config_error_iff .bundled i env .empty _ hpath).mpr ⟨rfl, rfl, hsettings⟩⟩

end Synopsis.Cli
