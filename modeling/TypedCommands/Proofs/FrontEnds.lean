import TypedCommands.Proofs.Arithmetic
import TypedCommands.Proofs.Matching
import TypedCommands.Proofs.Modes
import TypedCommands.Proofs.Stages

/-! The front ends. A text is run from the arguments of the program, checked from there, or sent to
the bridge as the bytes of a request; all three say of it what the response to a request is. -/
namespace TypedCommands

namespace Bridge

variable {σ : Type}

theorem respond_text (b : Bridge σ) (text : String) (s : σ) :
    b.respond text.toUTF8.toList s = b.environment.respond text s := by
  rw [respond, fromUTF8?_toUTF8_toList]

/-- The text is the one request of the connection: its bytes come with the sentinel behind them, or,
unless there are none, with the end of the stream. -/
structure Requests (sentinel : UInt8) (events : List Event) (text : String) : Prop where
  fits : text.toUTF8.toList.length ≤ maxRequest
  fresh : sentinel ∉ text.toUTF8.toList
  whole : received events = text.toUTF8.toList ++ [sentinel] ∨
    received events = text.toUTF8.toList ∧ ended events = true ∧ text ≠ ""

theorem Requests.demands {sentinel : UInt8} {events : List Event} {text : String}
    (h : Requests sentinel events text) :
    Bridge.demands sentinel (ended events) (received events) = [.request text.toUTF8.toList] := by
  rcases h.whole with terminated | ⟨bytes, last, something⟩
  · have one := demands_flatMap (ended events)
      (List.forall_mem_singleton.mpr ⟨h.fits, h.fresh⟩)
    rw [terminated]
    simpa using one
  · have nonempty : text.toUTF8.toList.isEmpty = false := by
      refine List.isEmpty_eq_false_iff.mpr fun none => something (toUTF8_toList_injective ?_)
      rw [none, toUTF8_toList]
      rfl
    rw [bytes, demands_tail h.fresh h.fits, last, nonempty]
    rfl

/-- The bridge sends the response to the text, and a sentinel. -/
theorem serve_text (b : Bridge σ) {events : List Event} {text : String}
    (h : Requests b.sentinel events text) (s : σ) :
    b.serve events s =
      (b.frame (b.environment.respond text s).1, (b.environment.respond text s).2) := by
  have run := (Rests.opened b s).foldl_handle events
  rw [outcome_opened, h.demands] at run
  rw [serve, run]
  simp only [answers, answer_request, respond_text, List.append_nil]

end Bridge

namespace Invocation

/-- Options in front of an action. -/
def options (simple : Bool) (config : Option String) : List String :=
  (if simple then ["--simple"] else []) ++ (config.map ("--config=" ++ ·)).toList

theorem Shape.of_config (path : String) :
    Shape.of ("--config=" ++ path) = .long "config" (some path) := by
  have split : splitAtEquals ("config=".toList ++ path.toList) = ("config", some path) := by
    have value : some (String.ofList path.toList) = some path := by rw [String.ofList_toList]
    exact congrArg (Prod.mk "config") value
  have shape : Shape.of ("--config=" ++ path) =
      .long (splitAtEquals ("config=".toList ++ path.toList)).1
        (splitAtEquals ("config=".toList ++ path.toList)).2 := by
    rw [Shape.of, String.toList_append]
    rfl
  rw [shape, split]

section Options

variable {simple : Bool} {config : Option String} {name : String} {rest : List String}

/-- The options are read up to the name of the action. -/
theorem reads_options (simple : Bool) (named : config ≠ some "")
    (shape : Shape.of name = .text name) :
    Reads none 0 .nothing (options simple config ++ name :: rest)
      ⟨simple, false, config, none, []⟩ (name :: rest) := by
  have file : Reads none 0 ⟨simple, false, none, none, []⟩
      ((config.map ("--config=" ++ ·)).toList ++ name :: rest) ⟨simple, false, config, none, []⟩
      (name :: rest) := by
    cases config with
    | none => exact .name shape rfl
    | some path =>
      have nonempty : path.isEmpty = false := by simpa using named
      have first : (⟨simple, false, none, none, []⟩ : Given).setKey .config path =
          .ok ⟨simple, false, some path, none, []⟩ := by
        simp [Given.setKey, nonempty]
      exact .step (.joined (Shape.of_config path) rfl) first (.name shape rfl)
  rw [options, List.append_assoc]
  cases simple with
  | false => exact file
  | true =>
    have takes : Takes none 0 ["--simple"] (·.setFlag .simple) := .flag Shape.of_simple rfl
    exact .step takes rfl file

theorem parse_options (named : config ≠ some "") {verb : Verb} {behind : Given}
    {left : List String} {action : Action} (shape : Shape.of name = .text name)
    (known : Verb.ofName? name = some verb)
    (reads : Reads (some verb) verb.capacity .nothing rest behind left)
    (plain : behind.simple = false ∧ behind.config = none)
    (complete : actionOf verb behind = .ok action) :
    parse (options simple config ++ name :: rest) = .ok ⟨simple, config, action⟩ := by
  have asks := Asks.intro (reads_options simple named shape) known reads complete
  rw [plain.1, plain.2, Bool.or_false, Option.none_or] at asks
  exact parse_eq_ok_iff.mpr asks

/-- What stands behind two hyphens is a text, whatever it begins with. -/
theorem reads_divided (verb : Option Verb) (text : String) :
    Reads verb 1 .nothing ["--", text] ⟨false, false, none, none, [text]⟩ [] := .divider rfl rfl

theorem parse_run (named : config ≠ some "") (text : String) :
    parse (options simple config ++ ["run", "--", text]) = .ok ⟨simple, config, .run text⟩ :=
  parse_options named rfl rfl (reads_divided (some .run) text) ⟨rfl, rfl⟩ rfl

theorem parse_check (named : config ≠ some "") (text : String) :
    parse (options simple config ++ ["check", "--", text]) = .ok ⟨simple, config, .check text⟩ :=
  parse_options named rfl rfl (reads_divided (some .check) text) ⟨rfl, rfl⟩ rfl

theorem parse_serve (named : config ≠ some "") :
    parse (options simple config ++ ["serve"]) = .ok ⟨simple, config, .serve none⟩ :=
  parse_options named rfl rfl .nil ⟨rfl, rfl⟩ rfl

end Options

end Invocation

namespace Environment

variable {σ : Type} {env : Environment σ} {text : String} {s : σ}

theorem respond_of_run_eq_ok {v : Value} (ran : (env.run text s).1 = .ok v) :
    (env.respond text s).1 = v.print := by
  have whole : env.run text s = (.ok v, (env.run text s).2) := Prod.ext ran rfl
  rw [respond, whole]

theorem respond_of_run_eq_error {e : CommandError} (ran : (env.run text s).1 = .error e) :
    (env.respond text s).1 = env.report e := by
  have whole : env.run text s = (.error e, (env.run text s).2) := Prod.ext ran rfl
  rw [respond, whole]

/-- A run gets as far as the handlers: it gives a value, or they ended with an error. -/
def Executes (env : Environment σ) (text : String) (s : σ) : Prop :=
  (∃ v, (env.run text s).1 = .ok v) ∨
    ∃ name cause, (env.run text s).1 = .error (.execution name cause)

/-- It does exactly if the text passes the check. -/
theorem executes_iff_passes : env.Executes text s ↔ env.Passes text := by
  constructor
  · intro executes
    cases checked : env.check text with
    | ok call => exact ⟨call, checked⟩
    | error e =>
      have ran : (env.run text s).1 = .error e := by rw [run_of_check_eq_error checked]
      rcases executes with ⟨v, hv⟩ | ⟨name, cause, he⟩
      · rw [ran] at hv
        cases hv
      · rw [ran] at he
        cases he
        exact absurd (ofText_of_check checked) id
  · intro passes
    rcases (passes_iff_runs s).mp passes with ⟨v, s', ran⟩ | ⟨c, cause, s', -, -, ran⟩
    · exact .inl ⟨v, congrArg Prod.fst ran⟩
    · exact .inr ⟨c.name, cause, congrArg Prod.fst ran⟩

end Environment

namespace CommandLine

/-- What the front ends say of a text under given options and settings, where `env` is the
environment of the built-in commands. -/
structure FrontEnds (files : Files) (reason : String → String) (simple : Bool)
    (config : Option String) (s : Settings) (env : Environment Unit) (text : String) : Prop where
  /-- A value goes to the output. -/
  value : ∀ args v, Invocation.parse args = .ok ⟨simple, config, .run text⟩ →
    (env.run text ()).1 = .ok v →
    start files args reason = .done ⟨0, (env.respond text ()).1 ++ "\n", ""⟩
  /-- A fault of the text or an error of a handler goes to the error output. -/
  error : ∀ args e, Invocation.parse args = .ok ⟨simple, config, .run text⟩ →
    (env.run text ()).1 = .error e →
    start files args reason = .done ⟨1, "", (env.respond text ()).1 ++ "\n"⟩
  check : ∀ args, Invocation.parse args = .ok ⟨simple, config, .check text⟩ →
    (start files args reason = .done ⟨0, "ok\n", ""⟩ ↔ env.Executes text ())
  /-- Else the check has the result that the run has. -/
  fault : ∀ args args', Invocation.parse args = .ok ⟨simple, config, .check text⟩ →
    Invocation.parse args' = .ok ⟨simple, config, .run text⟩ →
    ¬env.Executes text () → start files args reason = start files args' reason
  serve : ∀ args port, Invocation.parse args = .ok ⟨simple, config, .serve port⟩ →
    ∃ p, start files args reason = .serve ⟨⟨env, s.control.sentinel⟩, p⟩
  bridge : ∀ (sentinel : UInt8) (events : List Bridge.Event),
    Bridge.Requests sentinel events text →
    ((⟨env, sentinel⟩ : Bridge Unit).serve events ()).1 =
      (env.respond text ()).1.toUTF8.toList ++ [sentinel]

variable {files : Files} {reason : String → String} {simple : Bool} {config : Option String}
variable {s : Settings} {env : Environment Unit} {text : String}

/-- The built-in commands make an environment in every mode. -/
theorem exists_environment (mode : Mode) : ∃ env : Environment Unit,
    Environment.ofDeclarations Builtin.declarations mode = .ok env := by
  obtain ⟨registry, built⟩ := Builtin.build_declarations (σ := Unit)
  refine ⟨⟨registry, mode⟩, ?_⟩
  rw [Environment.ofDeclarations, built]
  rfl

/-- The settings do not depend on the action; it is performed under them. -/
theorem start_eq {args : List String} {action : Invocation.Action}
    (known : Environment.ofDeclarations Builtin.declarations
      (if simple then .simple else s.mode) = .ok env)
    (loads : settings files ⟨simple, config, .run text⟩ reason = .ok s)
    (read : Invocation.parse args = .ok ⟨simple, config, action⟩) :
    start files args reason = perform env s action := by
  have same : settings files ⟨simple, config, action⟩ reason = .ok s := loads
  simp only [start, read, plan, same, environment, known]

theorem checkText_eq_ok_iff : checkText env text = ⟨0, "ok\n", ""⟩ ↔ env.Passes text := by
  unfold checkText Environment.Passes
  cases env.check text with
  | ok call => simp [success]
  | error e => simp [failure]

/-- A text that does not pass the check has the same result as a run of it. -/
theorem checkText_of_not_passes (fails : ¬env.Passes text) :
    checkText env text = runText env text := by
  cases checked : env.check text with
  | ok call => exact absurd ⟨call, checked⟩ fails
  | error e => simp only [checkText, checked, runText, Environment.run_of_check_eq_error checked]

/-- The program runs a text as the bridge does, and prints what that sends; and it checks a text as
it runs it, up to the handlers. So it is for every text, whatever the settings are, as long as they
load. -/
theorem front_ends_agree (loads : settings files ⟨simple, config, .run text⟩ reason = .ok s) :
    (config ≠ some "" →
      Invocation.parse (Invocation.options simple config ++ ["run", "--", text]) =
        .ok ⟨simple, config, .run text⟩ ∧
      Invocation.parse (Invocation.options simple config ++ ["check", "--", text]) =
        .ok ⟨simple, config, .check text⟩ ∧
      Invocation.parse (Invocation.options simple config ++ ["serve"]) =
        .ok ⟨simple, config, .serve none⟩) ∧
    ∃ env : Environment Unit, Environment.ofDeclarations Builtin.declarations
      (if simple then .simple else s.mode) = .ok env ∧
      FrontEnds files reason simple config s env text := by
  refine ⟨fun named => ⟨Invocation.parse_run named text, Invocation.parse_check named text,
    Invocation.parse_serve named⟩, ?_⟩
  obtain ⟨env, known⟩ := exists_environment (if simple then .simple else s.mode)
  refine ⟨env, known, ?_⟩
  constructor
  case value =>
    intro args v read ran
    rw [start_eq known loads read, Environment.respond_of_run_eq_ok ran]
    simp only [perform, runText, ran, success]
  case error =>
    intro args e read ran
    rw [start_eq known loads read, Environment.respond_of_run_eq_error ran]
    simp only [perform, runText, ran, failure]
  case check =>
    intro args read
    rw [start_eq known loads read, Environment.executes_iff_passes, perform, Plan.done.injEq,
      checkText_eq_ok_iff]
  case fault =>
    intro args args' read read' fails
    rw [Environment.executes_iff_passes] at fails
    rw [start_eq known loads read, start_eq known loads read']
    exact congrArg Plan.done (checkText_of_not_passes fails)
  case serve =>
    intro args port read
    exact ⟨_, start_eq known loads read⟩
  case bridge =>
    intro sentinel events requests
    rw [Bridge.serve_text _ requests, Bridge.frame]

/-- A sum that is asked for in a line of its own, under settings that the arguments name. -/
theorem front_ends_agree_sum :
    let files : Files := ⟨fun _ => .ok "control: {sentinel: 10}\n".toUTF8, .error .noSuchFile⟩
    let options := ["--simple", "--config=a.yaml"]
    settings files ⟨true, some "a.yaml", .run "Add 2 3"⟩ = .ok ⟨.verbose, ⟨9100, 10⟩, []⟩ ∧
      start files (options ++ ["run", "--", "Add 2 3"]) = .done ⟨0, "5\n", ""⟩ ∧
      start files (options ++ ["check", "--", "Add 2 3"]) = .done ⟨0, "ok\n", ""⟩ ∧
      ∃ (env : Environment Unit) (port : UInt16),
        start files (options ++ ["serve"]) = .serve ⟨⟨env, 10⟩, port⟩ ∧
        ((⟨env, 10⟩ : Bridge Unit).serve [.bytes ("Add 2 3".toUTF8.toList ++ [10])] ()).1 =
          "5".toUTF8.toList ++ [10] := by
  intro files options
  have loads : settings files ⟨true, some "a.yaml", .run "Add 2 3"⟩ =
      .ok ⟨.verbose, ⟨9100, 10⟩, []⟩ := by decide +kernel
  obtain ⟨read, env, known, ends⟩ := front_ends_agree loads
  obtain ⟨run, check, serve⟩ := read (by decide)
  obtain ⟨built, -⟩ := Environment.ofDeclarations_eq_ok_iff.mp known
  have two : Decimal 2 "2" := .plain ⟨List.cons_ne_nil '2' [], by simp⟩ (by decide)
  have three : Decimal 3 "3" := .plain ⟨List.cons_ne_nil '3' [], by simp⟩ (by decide)
  have ran : env.run "Add 2 3" () = (.ok (.integer 5), ()) :=
    Environment.run_integers built (Builtin.declaration_mem .add) rfl two three ()
  have value : (env.run "Add 2 3" ()).1 = .ok (.integer 5) := congrArg Prod.fst ran
  have responds : (env.respond "Add 2 3" ()).1 = "5" := by
    rw [Environment.respond_of_run_eq_ok value]
    rfl
  have requests : Bridge.Requests 10 [.bytes ("Add 2 3".toUTF8.toList ++ [10])] "Add 2 3" := by
    have whole : Bridge.received [.bytes ("Add 2 3".toUTF8.toList ++ [10])] =
        "Add 2 3".toUTF8.toList ++ [10] := List.append_nil _
    refine ⟨?_, ?_, .inl whole⟩ <;> rw [toUTF8_toList] <;> decide
  have brought := ends.bridge 10 _ requests
  rw [responds] at brought
  refine ⟨loads, ?_, (ends.check _ check).mpr (.inl ⟨_, value⟩), env, ?_⟩
  · have printed := ends.value _ _ run value
    rwa [responds] at printed
  · obtain ⟨port, serves⟩ := ends.serve _ _ serve
    exact ⟨port, serves, brought⟩

end CommandLine
end TypedCommands
