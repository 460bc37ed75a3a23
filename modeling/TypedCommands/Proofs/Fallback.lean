import TypedCommands.Proofs.FrontEnds

/-! What a broken settings file does. The one in the home directory is passed over as a whole, as if
it were missing; one that the arguments name ends every action before it begins. -/
namespace TypedCommands

namespace Settings

variable {content : Except SystemError ByteArray} {reason : String → String}

/-- In the home directory it does not matter what the reader says of a text without settings. -/
theorem ofHome?_eq_toOption (content : Except SystemError ByteArray) (reason : String → String) :
    ofHome? content = (ofFile content reason).toOption := by
  cases content with
  | error cause => rfl
  | ok bytes =>
    simp only [ofHome?, ofFile]
    cases String.fromUTF8? bytes with
    | none => rfl
    | some text =>
      dsimp only
      cases ofText? text <;> rfl

theorem ofHome?_eq_some_iff {s : Settings} :
    ofHome? content = some s ↔ ofFile content reason = .ok s := by
  rw [ofHome?_eq_toOption content reason]
  cases ofFile content reason <;> simp [Except.toOption]

theorem ofHome?_eq_none_iff : ofHome? content = none ↔ ∃ e, ofFile content reason = .error e := by
  rw [ofHome?_eq_toOption content reason]
  cases ofFile content reason <;> simp [Except.toOption]

end Settings

namespace Invocation

/-- A flag is set alike whether or not a settings file has been named. -/
theorem Given.setFlag_named {g g' : Given} {flag : Flag} (path : String)
    (h : g.setFlag flag = .ok g') :
    g'.config = g.config ∧ { g with config := some path }.setFlag flag =
      .ok { g' with config := some path } := by
  rcases setFlag_eq_ok_iff.mp h with ⟨rfl, unset, rfl⟩ | ⟨rfl, unset, rfl⟩
  · exact ⟨rfl, setFlag_eq_ok_iff.mpr (.inl ⟨rfl, unset, rfl⟩)⟩
  · exact ⟨rfl, setFlag_eq_ok_iff.mpr (.inr ⟨rfl, unset, rfl⟩)⟩

theorem key?_none {name : String} {key : Key} (h : key? none name = some key) : key = .config := by
  unfold key? at h
  split at h
  · exact (Option.some.inj h).symm
  · cases h
  · cases h

/-- If no settings file is named in front of an action's name, the arguments there are read alike
when one has been named before them. -/
theorem Reads.named {g g' : Given} {args left : List String} (h : Reads none 0 g args g' left)
    (path : String) (more : left ≠ []) (unnamed : g'.config = none) :
    g.config = none ∧
      Reads none 0 { g with config := some path } args { g' with config := some path } left := by
  induction h with
  | nil => exact absurd rfl more
  | name shape before => exact ⟨unnamed, .name shape before⟩
  | divider => exact absurd rfl more
  | step takes first reads ih =>
    obtain ⟨unnamed, reads⟩ := ih more unnamed
    cases takes with
    | text shape behind => cases behind
    | flag shape known =>
      obtain ⟨same, first⟩ := Given.setFlag_named path first
      exact ⟨same.symm.trans unnamed, .step (.flag shape known) first reads⟩
    | joined shape known | separate shape unflagged known shape' =>
      -- Here a settings file would be named.
      obtain rfl := key?_none known
      rcases Given.setKey_eq_ok_iff.mp first with ⟨-, -, -, rfl⟩ | ⟨⟨⟩, -⟩
      cases unnamed

theorem parse_config_cons {args : List String} {i : Invocation} {path : String}
    (h : parse args = .ok i) (unnamed : i.config = none) (nonempty : path ≠ "") :
    parse (("--config=" ++ path) :: args) = .ok { i with config := some path } := by
  obtain ⟨reads, known, reads', complete⟩ := parse_eq_ok_iff.mp h
  obtain ⟨behind, before⟩ := Option.or_eq_none_iff.mp unnamed
  obtain ⟨-, reads⟩ := reads.named path (List.cons_ne_nil _ _) before
  have first : Given.nothing.setKey .config path =
      .ok { Given.nothing with config := some path } :=
    Given.setKey_eq_ok_iff.mpr (.inl ⟨rfl, rfl, nonempty, rfl⟩)
  have front := Reads.step (.joined (Shape.of_config path) rfl) first reads
  have asks := Asks.intro front known reads' complete
  rw [behind, Option.none_or] at asks
  exact parse_eq_ok_iff.mpr asks

end Invocation

namespace CommandLine

variable {files : Files} {reason : String → String} {args : List String} {i : Invocation}
variable {e : Settings.FileError}

theorem start_of_parse (read : Invocation.parse args = .ok i) :
    start files args reason = plan files i reason := by
  rw [start, read]

/-- Any action but a service ends. -/
theorem plan_ends (files : Files) (reason : String → String)
    (ends : ∀ port, i.action ≠ .serve port) : ∃ r, plan files i reason = .done r := by
  obtain ⟨registry, plans⟩ := exists_registry
  rw [plans]
  cases settings files i reason with
  | error message => exact ⟨_, rfl⟩
  | ok s =>
    obtain ⟨r, -, done, -, -⟩ := perform_agree ⟨registry, if i.simple then .simple else s.mode⟩
      .simple s ends
    exact ⟨r, done⟩

/-- Unless a file is named, nothing of the one in the home directory counts but its settings. -/
theorem plan_congr {files' : Files} (unnamed : i.config = none)
    (same : Settings.ofHome? files.home = Settings.ofHome? files'.home) :
    plan files i reason = plan files' i reason := by
  simp only [plan, settings, unnamed, same]

/-- The file that is named decides, whatever there is in the home directory. -/
theorem plan_of_broken {path : String} (named : i.config = some path)
    (broken : Settings.ofFile (files.read path) reason = .error e) :
    plan files i reason = .done ⟨1, "", e.message path ++ "\n"⟩ := by
  simp only [plan, settings, named, broken]
  rfl

/-- A settings file counts as a whole or not at all, whatever is in it. In the home directory it
brings the settings that it would bring if it were named. If it is broken there, an action goes as
without the file; but if it is named, in front of the same arguments or anywhere among others, every
action ends with the report on the file. -/
theorem broken_settings_passed_over (content : Except SystemError ByteArray)
    (reason : String → String) :
    (∀ s, Settings.ofHome? content = some s ↔ Settings.ofFile content reason = .ok s) ∧
    (Settings.ofHome? content = none ↔ ∃ e, Settings.ofFile content reason = .error e) ∧
    ∀ e, Settings.ofFile content reason = .error e →
      (∀ read args i, Invocation.parse args = .ok i → i.config = none →
        (∀ cause, start ⟨read, content⟩ args reason = start ⟨read, .error cause⟩ args reason) ∧
        ((∀ port, i.action ≠ .serve port) → ∃ r, start ⟨read, content⟩ args reason = .done r) ∧
        ∀ path home, path ≠ "" → read path = content →
          start ⟨read, home⟩ (("--config=" ++ path) :: args) reason =
            .done ⟨1, "", e.message path ++ "\n"⟩) ∧
      ∀ files args i path, Invocation.parse args = .ok i → i.config = some path →
        files.read path = content →
        start files args reason = .done ⟨1, "", e.message path ++ "\n"⟩ := by
  refine ⟨fun s => Settings.ofHome?_eq_some_iff, Settings.ofHome?_eq_none_iff, fun e broken => ?_⟩
  have report : ∀ files args i path, Invocation.parse args = .ok i → i.config = some path →
      files.read path = content →
      start files args reason = .done ⟨1, "", e.message path ++ "\n"⟩ := by
    intro files args i path parsed named found
    rw [start_of_parse parsed]
    exact plan_of_broken named (by rw [found, broken])
  refine ⟨fun read args i parsed unnamed => ⟨fun cause => ?_, fun ends => ?_, ?_⟩, report⟩
  · rw [start_of_parse parsed, start_of_parse parsed]
    exact plan_congr unnamed (Settings.ofHome?_eq_none_iff.mpr ⟨e, broken⟩)
  · rw [start_of_parse parsed]
    exact plan_ends _ _ ends
  · intro path home nonempty found
    exact report _ _ _ path (Invocation.parse_config_cons parsed unnamed nonempty) rfl found

/-- The entry that asks for short reports could be read, but the rule behind it lacks its texts. -/
theorem broken_settings_passed_over_late_fault :
    let faulty : Except SystemError ByteArray :=
      .ok "diagnostics: simple\nrules:\n- name: a\n".toUTF8
    let missing : Except SystemError ByteArray := .error .noSuchFile
    let reason := fun _ => "missing field"
    let report : Plan := .done ⟨1, "", "invalid config a.yaml: missing field\n"⟩
    Settings.ofFile faulty reason = .error (.invalid "missing field") ∧
      start ⟨fun _ => faulty, faulty⟩ ["run", "Add 1"] reason =
        start ⟨fun _ => faulty, missing⟩ ["run", "Add 1"] reason ∧
      (∃ r, start ⟨fun _ => faulty, faulty⟩ ["run", "Add 1"] reason = .done r) ∧
      start ⟨fun _ => faulty, missing⟩ ["--config=a.yaml", "run", "Add 1"] reason = report ∧
      start ⟨fun _ => faulty, missing⟩ ["rules", "--config", "a.yaml"] reason = report := by
  intro faulty missing reason report
  have none : Settings.ofText? "diagnostics: simple\nrules:\n- name: a\n" = none := by
    decide +kernel
  have broken : Settings.ofFile faulty reason = .error (.invalid "missing field") := by
    simp only [faulty, reason, Settings.ofFile, fromUTF8?_toUTF8, none]
  have parsed : Invocation.parse ["run", "Add 1"] = .ok ⟨false, .none, .run "Add 1"⟩ := rfl
  have named : Invocation.parse ["rules", "--config", "a.yaml"] =
      .ok ⟨false, some "a.yaml", .rules⟩ := rfl
  obtain ⟨-, -, passed⟩ := broken_settings_passed_over faulty reason
  obtain ⟨unnamed, reported⟩ := passed _ broken
  obtain ⟨same, ends, front⟩ := unnamed (fun _ => faulty) _ _ parsed rfl
  exact ⟨broken, same _, ends (by simp), front "a.yaml" missing (by decide) rfl,
    reported _ _ _ "a.yaml" named rfl rfl⟩

end CommandLine

end TypedCommands
