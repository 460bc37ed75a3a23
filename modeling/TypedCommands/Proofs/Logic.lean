import TypedCommands.Proofs.Admission
import TypedCommands.Proofs.Nesting

/-! The logic commands over texts. What they make of the texts in their parentheses is told by what
running those texts alone does: the same effects, at most once and from left to right, and the same
failures behind the name of the logic command. -/
namespace TypedCommands

variable {σ : Type}

namespace Action

variable {α β : Type}

/-- A failure ends a computation in the state that it left. -/
theorem bind_apply (x : Action σ α) (f : α → Action σ β) (s : σ) :
    (x >>= f) s = match x s with
      | (.ok a, s) => f a s
      | (.error e, s) => (.error e, s) := by
  simp only [bind, ExceptT.bind, ExceptT.mk, StateT.bind, ExceptT.bindCont]
  cases x s with
  | mk result s => cases result <;> rfl

theorem lift_ok_bind (a : α) (f : α → Action σ β) :
    ((liftM (Except.ok a : Except ExecutionError α) : Action σ α) >>= f) = f a := rfl

/-- What is answered when the handler of a command of this name does the computation. -/
def outcome (x : Action σ Value) (name : String) (s : σ) : Except CommandError Value × σ :=
  ((x s).1.mapError (.execution name), (x s).2)

end Action

namespace Builtin

section Handlers

variable {o : Operands σ} {m n : Nested σ}

theorem run_not (first : o.nested 1 = .ok m) :
    run .not o = runNested m >>= fun v => pure (.ofBool !v.isTrue) := by
  simp only [run, first, Action.lift_ok_bind, isTrueNested, bind_assoc, pure_bind]

/-- The command of two parts that one part of this truth value decides. -/
def junction (decisive : Bool) : Builtin := if decisive then .or else .and

/-- The second part is run if the first one has not decided. -/
theorem run_junction (decisive : Bool) (first : o.nested 1 = .ok m)
    (second : o.nested 2 = .ok n) :
    run (junction decisive) o = runNested m >>= fun v =>
      if v.isTrue = decisive then pure (.ofBool decisive)
      else runNested n >>= fun w => pure (.ofBool w.isTrue) := by
  cases decisive with
  | true =>
    simp only [junction, if_true, run, first, second, Action.lift_ok_bind, isTrueNested,
      bind_assoc, pure_bind]
  | false =>
    simp only [junction, Bool.false_eq_true, if_false, run, first, second, Action.lift_ok_bind,
      isTrueNested, bind_assoc, pure_bind]
    refine congrArg (runNested m >>= ·) (funext fun v => ?_)
    cases v.isTrue <;> rfl

end Handlers
end Builtin

namespace Environment

variable {env : Environment σ}

/-- Runs a text for a command of this name, which goes on with the value or fails as the text
does. -/
def runWithin (env : Environment σ) (name source : String) (s : σ)
    (next : Value → σ → Except CommandError Value × σ) : Except CommandError Value × σ :=
  match env.run source s with
  | (.ok v, s) => next v s
  | (.error e, s) => (.error (.execution name (.failed (env.report e))), s)

/-- As an argument a text is run as it is alone, and its failure reads the same. -/
theorem outcome_runNested {source : String} {call : Call} (checked : env.check source = .ok call)
    (f : Value → Action σ Value) (name : String) (s : σ) :
    (Builtin.runNested ⟨call, env.execute call⟩ >>= f).outcome name s =
      env.runWithin name source s fun v s => (f v).outcome name s := by
  rw [runWithin, run_of_check_eq_ok checked]
  simp only [Action.outcome, Action.bind_apply, Builtin.runNested]
  cases env.execute call s with
  | mk result s => cases result <;> rfl

/-- The operands of a command that is given nothing but commands. -/
theorem operands_commands (calls : List Call) :
    operands env.registry.handler? (calls.map .command) =
      calls.map fun call => .command ⟨call, env.execute call⟩ := by
  induction calls with
  | nil => simp only [List.map_nil, operands]
  | cons call calls ih =>
    simp only [List.map_cons, operands, ih]
    rfl

/-- A text that stands for a built-in command over other commands is run by that command. -/
theorem run_builtin {b : Builtin} (found : env.registry.handler? b.name = some b.handler)
    {source : String} {calls : List Call}
    (checked : env.check source = .ok (.mk b.name (calls.map .command))) (s : σ) :
    env.run source s =
      (b.run ⟨b.name, calls.map fun call => .command ⟨call, env.execute call⟩⟩).outcome b.name
        s := by
  have executed : env.execute (.mk b.name (calls.map .command)) =
      b.handler.run ⟨b.name, operands env.registry.handler? (calls.map .command)⟩ :=
    execute_eq found
  rw [operands_commands] at executed
  rw [run_of_check_eq_ok checked, executed]
  rfl

/-- A built-in command that takes commands, over texts in parentheses, runs over the calls that the
texts stand for. -/
theorem run_grouped {ds : List (Declaration σ)} (h : Registry.build ds = .ok env.registry)
    {b : Builtin} (declared : b.declaration ∈ ds) (commands : ∀ p ∈ b.parameters, p.kind = .command)
    {texts : List (String × Call)} (nests : ∀ t ∈ texts, env.Nests t.1 t.2)
    (arity : b.parameters.length = texts.length) {source : String}
    (spelled : source.toList = b.name.toList ++ (texts.map (·.1)).flatMap grouped) (s : σ) :
    env.run source s =
      (b.run ⟨b.name, texts.map fun t => .command ⟨t.2, env.execute t.2⟩⟩).outcome b.name s := by
  have named : Name.isName b.name = true := by cases b <;> decide
  obtain ⟨signature, handler⟩ := Registry.found_of_signature h declared b.declaration_signature
  have checked : env.check source = .ok (.mk b.name ((texts.map (·.2)).map .command)) := by
    rw [List.map_map]
    exact check_grouped nests named signature commands arity spelled
  rw [run_builtin handler checked, List.map_map]
  rfl

section Texts

variable {ds : List (Declaration σ)} (h : Registry.build ds = .ok env.registry) {a b : String}
  {ca cb : Call} (ha : env.Nests a ca) (hb : env.Nests b cb)
include h ha

theorem run_not (declared : Builtin.not.declaration ∈ ds) (s : σ) :
    env.run ("Not (" ++ a ++ ")") s = env.runWithin "Not" a s fun v s =>
      (.ok (.ofBool !v.isTrue), s) := by
  have nests : ∀ t ∈ [(a, ca)], env.Nests t.1 t.2 := by simpa using ha
  have spelled : ("Not (" ++ a ++ ")").toList =
      Builtin.not.name.toList ++ ([(a, ca)].map (·.1)).flatMap grouped := by
    simp [grouped, Builtin.name]
  rw [run_grouped h declared (by decide) nests rfl spelled, Builtin.run_not rfl,
    outcome_runNested ha.check]
  rfl

include hb

theorem run_junction (decisive : Bool) (declared : (Builtin.junction decisive).declaration ∈ ds)
    (s : σ) :
    env.run ((Builtin.junction decisive).name ++ " (" ++ a ++ ") (" ++ b ++ ")") s =
      env.runWithin (Builtin.junction decisive).name a s fun v s =>
        if v.isTrue = decisive then (.ok (.ofBool decisive), s)
        else env.runWithin (Builtin.junction decisive).name b s fun w s =>
          (.ok (.ofBool w.isTrue), s) := by
  have nests : ∀ t ∈ [(a, ca), (b, cb)], env.Nests t.1 t.2 := by simpa using ⟨ha, hb⟩
  have spelled : ((Builtin.junction decisive).name ++ " (" ++ a ++ ") (" ++ b ++ ")").toList =
      (Builtin.junction decisive).name.toList ++
        ([(a, ca), (b, cb)].map (·.1)).flatMap grouped := by simp [grouped]
  rw [run_grouped h declared (by cases decisive <;> decide) nests (by cases decisive <;> rfl)
    spelled, Builtin.run_junction decisive rfl rfl, outcome_runNested ha.check]
  refine congrArg (env.runWithin _ a s) (funext fun v => funext fun s => ?_)
  split
  · rfl
  · rw [outcome_runNested hb.check]
    rfl

end Texts
end Environment

/-- The logic commands, over any texts that pass the check and leave room for a group: `Not` runs
its text as it is run alone and turns its truth around; `And` and `Or` run the first text as it is
run alone, the second one, in the state that the first left, only if the first did not decide. A
failure reads as it does alone, behind the name of the logic command. -/
theorem logic_composes {ds : List (Declaration σ)} {env : Environment σ}
    (h : Registry.build ds = .ok env.registry)
    (logic : ∀ l ∈ [Builtin.not, .and, .or], l.declaration ∈ ds)
    {a b : String} {ca cb : Call} (ha : env.Nests a ca) (hb : env.Nests b cb) (s : σ) :
    env.run ("Not (" ++ a ++ ")") s = env.runWithin "Not" a s (fun v s =>
      (.ok (.integer (if v = .integer 1 then 0 else 1)), s)) ∧
    env.run ("And (" ++ a ++ ") (" ++ b ++ ")") s = env.runWithin "And" a s (fun v s =>
      if v = .integer 1 then env.runWithin "And" b s (fun w s =>
        (.ok (.integer (if w = .integer 1 then 1 else 0)), s))
      else (.ok (.integer 0), s)) ∧
    env.run ("Or (" ++ a ++ ") (" ++ b ++ ")") s = env.runWithin "Or" a s (fun v s =>
      if v = .integer 1 then (.ok (.integer 1), s)
      else env.runWithin "Or" b s (fun w s =>
        (.ok (.integer (if w = .integer 1 then 1 else 0)), s))) ∧
    ∀ name message, env.report (.execution name (.failed message)) = name ++ ": " ++ message := by
  have truth (v : Value) : Value.ofBool v.isTrue = .integer (if v = .integer 1 then 1 else 0) := by
    simp [Value.isTrue, Value.ofBool]
  have one (v : Value) : v.isTrue = true ↔ v = .integer 1 := by simp [Value.isTrue]
  refine ⟨?_, ?_, ?_, fun name message => rfl⟩
  · rw [Environment.run_not h ha (logic _ (by decide))]
    refine congrArg (env.runWithin "Not" a s) (funext fun v => funext fun s => ?_)
    by_cases decided : v = .integer 1 <;> simp [Value.isTrue, Value.ofBool, decided]
  · refine (Environment.run_junction h ha hb false (logic _ (by decide)) s).trans ?_
    refine congrArg (env.runWithin "And" a s) (funext fun v => funext fun s => ?_)
    simp only [truth, ← Bool.not_eq_true, one, ite_not]
    rfl
  · refine (Environment.run_junction h ha hb true (logic _ (by decide)) s).trans ?_
    refine congrArg (env.runWithin "Or" a s) (funext fun v => funext fun s => ?_)
    simp only [truth, one]
    rfl

/-- Over a command that counts its runs, and a division by zero. -/
theorem logic_composes_tick :
    let tick : Declaration Nat :=
      ⟨none, [], ⟨"Tick", fun _ => do modify (· + 1); return .ofBool true⟩⟩
    ∃ env : Environment Nat,
      Environment.ofDeclarations (Builtin.declarations ++ [tick]) .simple = .ok env ∧ ∀ s,
        env.run "Not (Tick)" s = (.ok (.integer 0), s + 1) ∧
        env.run "And (Tick) (Div 1 0)" s =
          (.error (.execution "And" (.failed "Div: division by zero")), s + 1) ∧
        env.run "Or (Tick) (Div 1 0)" s = (.ok (.integer 1), s + 1) := by
  intro tick
  obtain ⟨r, built⟩ := Builtin.build_declarations_append [tick] (by
    intro d mem
    obtain rfl := List.mem_singleton.mp mem
    exact ⟨_, Declaration.signature_of_no_parameters (by decide) rfl⟩) (by decide)
  let env : Environment Nat := ⟨r, .simple⟩
  have declared (b : Builtin) : b.declaration ∈ Builtin.declarations ++ [tick] :=
    List.mem_append_left _ b.declaration_mem
  obtain ⟨tick_signature, tick_handler⟩ := Registry.found_of_signature built (d := tick) (by simp)
    (Declaration.signature_of_no_parameters (by decide) rfl)
  obtain ⟨div_signature, div_handler⟩ :=
    Registry.found_of_signature built (declared .div) Builtin.div.declaration_signature
  have tick_tokens : Token.body (Token.tokens "Tick") = [⟨.identifier "Tick", "Tick", ⟨1, 1⟩⟩] := by
    decide +kernel
  have ticks : env.Nests "Tick" (.mk "Tick" []) := by
    let c : Command := .mk "Tick" ⟨1, 1⟩ []
    refine Environment.nests_iff.mpr ⟨c, ?_, ?_⟩
    · rw [tick_tokens]
      exact .name rfl .nil
    · exact Command.bind_full (c := c) tick_signature rfl
  have div_tokens : Token.body (Token.tokens "Div 1 0") =
      [⟨.identifier "Div", "Div", ⟨1, 1⟩⟩, ⟨.literal (.integer 1), "1", ⟨1, 5⟩⟩,
        ⟨.literal (.integer 0), "0", ⟨1, 7⟩⟩] := by decide +kernel
  have divides : env.Nests "Div 1 0"
      (.mk "Div" [.literal (.integer 1), .literal (.integer 0)]) := by
    let c : Command :=
      .mk "Div" ⟨1, 1⟩ [.literal (.integer 1) ⟨1, 5⟩, .literal (.integer 0) ⟨1, 7⟩]
    refine Environment.nests_iff.mpr ⟨c, ?_, ?_⟩
    · rw [div_tokens]
      exact .name rfl (.literal rfl (.literal rfl .nil))
    · exact Command.bind_full (c := c) div_signature rfl
  have tick_run (s : Nat) : env.run "Tick" s = (.ok (.integer 1), s + 1) := by
    rw [Environment.run_of_check_eq_ok ticks.check, Environment.execute_eq tick_handler]
    rfl
  have div_run (s : Nat) : env.run "Div 1 0" s =
      (.error (.execution "Div" Builtin.divisionByZero), s) := by
    rw [Environment.run_of_check_eq_ok divides.check, Environment.execute_eq div_handler]
    rfl
  refine ⟨env, Environment.ofDeclarations_eq_ok_iff.mpr ⟨built, rfl⟩, fun s => ?_⟩
  obtain ⟨negation, both, either, -⟩ :=
    logic_composes built (fun l _ => declared l) ticks divides s
  refine ⟨negation.trans ?_, both.trans ?_, either.trans ?_⟩
  · rw [Environment.runWithin, tick_run]
    rfl
  · rw [Environment.runWithin, tick_run]
    dsimp only
    rw [if_pos rfl, Environment.runWithin, div_run]
    rfl
  · rw [Environment.runWithin, tick_run]
    rfl

end TypedCommands
