import TypedCommands.CommandLine
import TypedCommands.Proofs.Loading
import TypedCommands.Proofs.Options

/-! The mode of the reports, which settings and arguments choose, shows only in the reports that go
to the error output: neither the exit code nor what is printed depends on it. -/
namespace TypedCommands.CommandLine

/-- Results that differ in their reports at most. -/
structure Agree (a b : Result) : Prop where
  exit : a.exit = b.exit
  output : a.output = b.output

theorem Agree.refl (r : Result) : Agree r r := ⟨rfl, rfl⟩

theorem agree_failure (e e' : String) : Agree (failure e) (failure e') := ⟨rfl, rfl⟩

section Modes

variable (env : Environment Unit) (mode : Mode)

theorem checkText_agree (text : String) :
    Agree (checkText { env with mode } text) (checkText env text) := by
  have same : ({ env with mode } : Environment Unit).check text = env.check text := rfl
  unfold checkText
  rw [same]
  cases env.check text with
  | ok call => exact .refl _
  | error e => exact agree_failure _ _

theorem runText_agree (text : String) :
    Agree (runText { env with mode } text) (runText env text) := by
  have same : ({ env with mode } : Environment Unit).run text = env.run text := rfl
  unfold runText
  rw [same]
  cases (env.run text ()).1 with
  | ok v => exact .refl _
  | error e => exact agree_failure _ _

/-- A rule whose texts passed the check has failed for a handler's reason, if it has failed, and
that reads the same in every mode. -/
theorem firingLine_eq {rules : List Rule} {f : Rule.Firing}
    (h : RuleSet.Accounted env rules f) : firingLine mode f = firingLine env.mode f := by
  obtain ⟨name, outcome⟩ := f
  obtain ⟨r, -, -, failed⟩ := h
  cases outcome with
  | skipped => rfl
  | fired v => rfl
  | failed e =>
    obtain ⟨part, ⟨-, -, -⟩⟩ := failed e rfl
    rfl

theorem fireRules_agree (rules : List Rule) :
    Agree (fireRules { env with mode } rules) (fireRules env rules) := by
  have loads : RuleSet.load { env with mode } rules = RuleSet.load env rules :=
    RuleSet.load_congr (fun _ => rfl) rules
  unfold fireRules
  rw [loads]
  cases loaded : RuleSet.load env rules with
  | error e => exact agree_failure _ _
  | ok set =>
    obtain ⟨rfl, passes⟩ := RuleSet.load_eq_ok_iff.mp loaded
    have fires : RuleSet.fire { env with mode } ⟨rules⟩ = RuleSet.fire env ⟨rules⟩ :=
      RuleSet.fireAll_mode env mode rules
    have lines : ((RuleSet.fire env ⟨rules⟩ ()).1).map (firingLine mode) =
        ((RuleSet.fire env ⟨rules⟩ ()).1).map (firingLine env.mode) :=
      List.map_congr_left fun f mem =>
        firingLine_eq env mode (RuleSet.fireAll_accounted passes () f mem)
    dsimp only
    rw [fires, lines]
    exact .refl _

/-- An action that ends has the same exit code and output in every mode. -/
theorem perform_agree (s : Settings) {action : Invocation.Action}
    (ends : ∀ port, action ≠ .serve port) : ∃ r r', perform env s action = .done r ∧
      perform { env with mode } s action = .done r' ∧ Agree r' r := by
  cases action with
  | check text => exact ⟨_, _, rfl, rfl, checkText_agree env mode text⟩
  | run text => exact ⟨_, _, rfl, rfl, runText_agree env mode text⟩
  | usage name types => cases name <;> exact ⟨_, _, rfl, rfl, .refl _⟩
  | list types => exact ⟨_, _, rfl, rfl, .refl _⟩
  | rules => exact ⟨_, _, rfl, rfl, fireRules_agree env mode s.rules⟩
  | serve port => exact absurd rfl (ends port)

end Modes

/-- Without settings only that is reported; with them the built-in commands are always there. -/
theorem exists_registry : ∃ r : Registry Unit, ∀ files i reason, plan files i reason =
    match settings files i reason with
    | .error message => .done (failure message)
    | .ok s => perform ⟨r, if i.simple then .simple else s.mode⟩ s i.action := by
  obtain ⟨r, built⟩ := Builtin.build_declarations (σ := Unit)
  refine ⟨r, fun files i reason => ?_⟩
  unfold plan
  cases settings files i reason with
  | error message => rfl
  | ok s =>
    have known : environment i s = .ok ⟨r, if i.simple then .simple else s.mode⟩ := by
      rw [environment, Environment.ofDeclarations, built]
      rfl
    simp only [known]

/-- An invocation that ends and does not ask for short reports, next to the same one that does: they
agree, and the second is like the first under settings of which only the mode is another one. -/
theorem plan_brief (files : Files) (reason : String → String) {i : Invocation}
    (plain : i.simple = false) (ends : ∀ port, i.action ≠ .serve port) :
    ∃ r r', plan files i reason = .done r ∧ plan files i.brief reason = .done r' ∧ Agree r' r ∧
      ∀ files', settings files' i reason =
          (settings files i reason).map ({ · with mode := .simple }) →
        plan files' i reason = .done r' := by
  obtain ⟨registry, plans⟩ := exists_registry
  have read : settings files i.brief reason = settings files i reason := rfl
  have asked : i.brief.simple = true := rfl
  have same : i.brief.action = i.action := rfl
  simp only [plans, read, asked, same, plain, if_true, Bool.false_eq_true, if_false]
  cases settings files i reason with
  | error message =>
    refine ⟨_, _, rfl, rfl, .refl _, fun files' other => ?_⟩
    rw [other]
    rfl
  | ok s =>
    obtain ⟨r, r', done, done', agree⟩ := perform_agree ⟨registry, s.mode⟩ .simple s ends
    refine ⟨r, r', done, done', agree, fun files' other => ?_⟩
    rw [other, ← done']
    cases i.action <;> rfl

/-- Asking for short reports, in front of the arguments of an invocation that ends or anywhere else
where it is understood, changes neither the exit code nor what is printed. The whole result is then
the one that the invocation has without, under settings of which only the mode is another one. -/
theorem simple_affects_reports (files : Files) (reason : String → String) {args : List String}
    {i : Invocation} (read : Invocation.parse args = .ok i) (plain : i.simple = false)
    (ends : ∀ port, i.action ≠ .serve port) :
    ∃ r r', start files args reason = .done r ∧
      start files ("--simple" :: args) reason = .done r' ∧
      r'.exit = r.exit ∧ r'.output = r.output ∧
      (∀ pre post i', args = pre ++ post →
        Invocation.parse (pre ++ "--simple" :: post) = .ok i' → i'.simple = true →
        start files (pre ++ "--simple" :: post) reason = .done r') ∧
      ∀ files', settings files' i reason =
          (settings files i reason).map ({ · with mode := .simple }) →
        start files' args reason = .done r' := by
  obtain ⟨r, r', done, done', agree, like⟩ := plan_brief files reason plain ends
  have starts (files : Files) {args : List String} {i : Invocation}
      (read : Invocation.parse args = .ok i) : start files args reason = plan files i reason := by
    rw [start, read]
  refine ⟨r, r', (starts files read).trans done,
    (starts files (Invocation.parse_simple_cons read plain)).trans done', agree.exit, agree.output,
    fun pre post i' split read' asked => ?_, fun files' other =>
    (starts files' read).trans (like files' other)⟩
  subst split
  obtain rfl := Invocation.parse_insert read plain read' asked
  exact (starts files read').trans done'

/-- The request stands behind the text. Without it, the home directory has settings that ask for
short reports. -/
theorem simple_affects_reports_behind :
    let missing : Files := ⟨fun _ => .error .noSuchFile, .error .noSuchFile⟩
    let simple : Files := ⟨fun _ => .error .noSuchFile, .ok "diagnostics: simple\n".toUTF8⟩
    ∃ r r', start missing ["run", "Add 1"] = .done r ∧
      start missing ["run", "Add 1", "--simple"] = .done r' ∧
      start simple ["run", "Add 1"] = .done r' ∧ r'.exit = r.exit ∧ r'.output = r.output := by
  intro missing simple
  have read : Invocation.parse ["run", "Add 1"] = .ok ⟨false, none, .run "Add 1"⟩ := rfl
  have read' : Invocation.parse ["run", "Add 1", "--simple"] = .ok ⟨true, none, .run "Add 1"⟩ :=
    rfl
  have other : settings simple ⟨false, none, .run "Add 1"⟩ =
      (settings missing ⟨false, none, .run "Add 1"⟩).map ({ · with mode := .simple }) := by
    have home : Settings.ofHome? simple.home = some ⟨.simple, Control.default, []⟩ := by
      decide +kernel
    simp only [settings, home]
    rfl
  obtain ⟨r, r', done, -, exit, output, behind, like⟩ :=
    simple_affects_reports missing (fun _ => "") read rfl (by simp)
  exact ⟨r, r', done, behind ["run", "Add 1"] [] _ rfl read' rfl, like simple other, exit, output⟩

end TypedCommands.CommandLine
