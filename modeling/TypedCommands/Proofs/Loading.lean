import TypedCommands.Proofs.Binding
import TypedCommands.Rules

/-! What loading a set of rules promises: the texts were read without running anything, and no rule
of a loaded set ever fails for another reason than that the handler of a command gave an error. -/
namespace TypedCommands

variable {σ τ : Type} {env : Environment σ}

namespace Environment

/-- The text stands for a call. -/
def Passes (env : Environment σ) (source : String) : Prop := ∃ call, env.check source = .ok call

/-- The outcome of a check depends on what the text is parsed to and what that is bound to. -/
theorem check_eq_of_bind_eq {other : Environment τ} {source : String}
    (same : ∀ c, Command.parse source = .ok c → other.bind c = env.bind c) :
    other.check source = env.check source := by
  unfold check
  cases parsed : Command.parse source with
  | error diagnostics => rfl
  | ok c => simp only [same c parsed]

/-- A check reads the signatures of an environment only. -/
theorem check_congr {other : Environment τ}
    (same : ∀ name, other.registry.signature? name = env.registry.signature? name)
    (source : String) : other.check source = env.check source := by
  have signatures : other.registry.signature? = env.registry.signature? := funext same
  exact check_eq_of_bind_eq fun c _ => by rw [bind, bind, signatures]

/-- The error with which the handler of a text's command ended, in some state of the host. -/
inductive HandlerError (env : Environment σ) (source : String) : CommandError → Prop where
  | intro {call : Call} {handler : Handler σ} {cause : ExecutionError} {s s' : σ}
      (checked : env.check source = .ok call)
      (found : env.registry.handler? call.name = some handler)
      (ended : handler.run ⟨call.name, operands env.registry.handler? call.arguments⟩ s =
        (.error cause, s')) :
      HandlerError env source (.execution call.name cause)

/-- A text that stands for a call is parsed to a command that is bound to it. -/
theorem check_eq_ok_iff {source : String} {call : Call} :
    env.check source = .ok call ↔ ∃ c, Command.parse source = .ok c ∧ env.bind c = .ok call := by
  unfold check
  cases parsed : Command.parse source with
  | error ds => simp
  | ok c =>
    cases bound : env.bind c with
    | error e => simp [bound]
    | ok call' => simp [bound]

theorem exists_handler {source : String} {call : Call} (checked : env.check source = .ok call) :
    ∃ handler, env.registry.handler? call.name = some handler := by
  obtain ⟨c, -, bound⟩ := check_eq_ok_iff.mp checked
  obtain ⟨s, signature⟩ := Command.exists_signature_of_bind bound
  obtain ⟨e, found, -⟩ := Option.map_eq_some_iff.mp signature
  exact ⟨e.handler, by rw [Registry.handler?, found, Option.map_some]⟩

theorem execute_eq {call : Call} {handler : Handler σ}
    (found : env.registry.handler? call.name = some handler) :
    env.execute call = handler.run ⟨call.name, operands env.registry.handler? call.arguments⟩ := by
  obtain ⟨name, arguments⟩ := call
  rw [Call.name] at found
  rw [execute, Call.run, found, Call.name, Call.arguments]

/-- Running a text that passes the check fails only where its handler does. -/
theorem Passes.handlerError {source : String} (passes : env.Passes source) {s s' : σ}
    {e : CommandError} (h : env.run source s = (.error e, s')) : env.HandlerError source e := by
  obtain ⟨call, checked⟩ := passes
  obtain ⟨handler, found⟩ := exists_handler checked
  rw [run, checked] at h
  dsimp only at h
  split at h
  · cases h
  · rename_i ended
    rw [execute_eq found] at ended
    cases h
    exact .intro checked found ended

end Environment

namespace Rule

theorem checkPart_eq_ok_iff {r : Rule} {part : Part} :
    r.checkPart env part = .ok () ↔ env.Passes (r.text part) := by
  unfold checkPart Environment.Passes
  cases env.check (r.text part) <;> simp

theorem checkPart_eq_error_iff {r : Rule} {part : Part} {e : LoadError} :
    r.checkPart env part = .error e ↔
      ∃ cause, env.check (r.text part) = .error cause ∧ e = ⟨r.name, part, cause⟩ := by
  unfold checkPart
  cases env.check (r.text part) with
  | ok call => simp
  | error cause => simp [eq_comm]

/-- A rule whose texts pass the check fails only where the handler of one of them does. -/
theorem fire_spec {r : Rule} (passes : ∀ part, env.Passes (r.text part)) (s : σ) :
    (r.fire env s).1.rule = r.name ∧ ∀ e, (r.fire env s).1.outcome = .failed e →
      ∃ part, env.HandlerError (r.text part) e := by
  unfold fire
  split
  · rename_i e s' condition
    refine ⟨rfl, ?_⟩
    rintro _ ⟨⟩
    exact ⟨.condition, (passes .condition).handlerError condition⟩
  · split
    · split
      · exact ⟨rfl, nofun⟩
      · rename_i e s' consequence
        refine ⟨rfl, ?_⟩
        rintro _ ⟨⟩
        exact ⟨.consequence, (passes .consequence).handlerError consequence⟩
    · exact ⟨rfl, nofun⟩

end Rule

namespace RuleSet

/-- The texts of the rules in the order in which they are checked. -/
def texts (rules : List Rule) : List (Rule × Rule.Part) :=
  rules.flatMap fun r => [(r, .condition), (r, .consequence)]

theorem mem_texts {rules : List Rule} {r : Rule} {part : Rule.Part} :
    (r, part) ∈ texts rules ↔ r ∈ rules := by
  rw [texts, List.mem_flatMap]
  constructor
  · rintro ⟨r', mem, text⟩
    cases part <;> simp at text <;> exact text ▸ mem
  · intro mem
    exact ⟨r, mem, by cases part <;> simp⟩

theorem forM_check (rules : List Rule) :
    forM rules (Rule.check env) = forM (texts rules) fun t => t.1.checkPart env t.2 := by
  induction rules with
  | nil => rfl
  | cons r rules ih =>
    have head : r.check env =
        forM [(r, Rule.Part.condition), (r, .consequence)] fun t => t.1.checkPart env t.2 := by
      simp only [Rule.check, List.forM_cons, List.forM_nil, bind_pure_unit]
    rw [List.forM_cons, ih, head, ← List.forM_append, texts, texts, List.flatMap_cons]

theorem load_eq_ok_iff {rules : List Rule} {set : RuleSet} :
    load env rules = .ok set ↔
      set = ⟨rules⟩ ∧ ∀ r ∈ rules, ∀ part, env.Passes (r.text part) := by
  rw [load, List.forM_eq_forM, forM_check, bind_eq_ok]
  simp only [forM_eq_ok_iff, Rule.checkPart_eq_ok_iff]
  constructor
  · rintro ⟨_, passed, ⟨⟩⟩
    exact ⟨rfl, fun r mem part => passed (r, part) (mem_texts.mpr mem)⟩
  · rintro ⟨rfl, passed⟩
    exact ⟨⟨⟩, fun t mem => passed t.1 (mem_texts.mp mem) t.2, rfl⟩

theorem load_eq_error_iff {rules : List Rule} {e : Rule.LoadError} :
    load env rules = .error e ↔ ∃ before r part after cause,
      texts rules = before ++ (r, part) :: after ∧ (∀ t ∈ before, env.Passes (t.1.text t.2)) ∧
      env.check (r.text part) = .error cause ∧ e = ⟨r.name, part, cause⟩ := by
  rw [load, List.forM_eq_forM, forM_check, bind_eq_error, forM_eq_error_iff]
  simp only [Rule.checkPart_eq_ok_iff, Rule.checkPart_eq_error_iff]
  constructor
  · rintro (⟨before, ⟨r, part⟩, after, split, passed, cause, fails, he⟩ | ⟨_, -, ⟨⟩⟩)
    exact ⟨before, r, part, after, cause, split, passed, fails, he⟩
  · rintro ⟨before, r, part, after, cause, split, passed, fails, he⟩
    exact .inl ⟨before, (r, part), after, split, passed, cause, fails, he⟩

/-- Which handlers there are, and what state they work on, makes no difference to a load. -/
theorem load_congr {other : Environment τ}
    (same : ∀ name, other.registry.signature? name = env.registry.signature? name)
    (rules : List Rule) : load other rules = load env rules := by
  have checks : Rule.check other = Rule.check env := by
    funext r
    simp only [Rule.check, Rule.checkPart, Environment.check_congr same]
  rw [load, load, checks]

/-- A moment at which the host has its rules fired: the mode of the environment then, and what has
become of the host's state since. -/
structure Occasion (σ : Type) where
  mode : Mode
  host : σ → σ

/-- Fires the rules on each occasion, from the state that the one before left. -/
def fireOn (env : Environment σ) (set : RuleSet) :
    List (Occasion σ) → σ → List (List Rule.Firing) × σ
  | [], s => ([], s)
  | o :: os, s =>
    let (fs, s) := set.fire { env with mode := o.mode } (o.host s)
    let (rest, s) := fireOn env set os s
    (fs :: rest, s)

/-- The firing of one of the rules, which has failed only if the handler for a text of it has. -/
def Accounted (env : Environment σ) (rules : List Rule) (f : Rule.Firing) : Prop :=
  ∃ r ∈ rules, f.rule = r.name ∧
    ∀ e, f.outcome = .failed e → ∃ part, env.HandlerError (r.text part) e

/-- In every mode the rules fire alike. -/
theorem fireAll_mode (env : Environment σ) (mode : Mode) (rules : List Rule) :
    fireAll { env with mode } rules = fireAll env rules := by
  induction rules with
  | nil => rfl
  | cons r rules ih =>
    funext s
    have head : r.fire { env with mode } s = r.fire env s := rfl
    rw [fireAll, fireAll, ih, head]

theorem fireAll_accounted {rules : List Rule}
    (passes : ∀ r ∈ rules, ∀ part, env.Passes (r.text part)) (s : σ) :
    ∀ f ∈ (fireAll env rules s).1, Accounted env rules f := by
  induction rules generalizing s with
  | nil => nofun
  | cons r rules ih =>
    intro f mem
    rcases List.mem_cons.mp mem with rfl | mem
    · exact ⟨r, List.mem_cons_self, Rule.fire_spec (passes r List.mem_cons_self) s⟩
    · obtain ⟨r', mem', rest⟩ := ih (fun r mem => passes r (List.mem_cons_of_mem _ mem)) _ f mem
      exact ⟨r', List.mem_cons_of_mem r mem', rest⟩

theorem fireOn_accounted {rules : List Rule}
    (passes : ∀ r ∈ rules, ∀ part, env.Passes (r.text part)) (os : List (Occasion σ)) (s : σ) :
    ∀ fs ∈ (fireOn env ⟨rules⟩ os s).1, ∀ f ∈ fs, Accounted env rules f := by
  induction os generalizing s with
  | nil => nofun
  | cons o os ih =>
    intro fs mem
    rcases List.mem_cons.mp mem with rfl | mem
    · show ∀ f ∈ (fireAll { env with mode := o.mode } rules (o.host s)).1, Accounted env rules f
      rw [fireAll_mode]
      exact fireAll_accounted passes (o.host s)
    · exact ih _ fs mem

/-- Rules are loaded exactly if all their texts pass the check; otherwise the first text that does
not is reported, with its rule and what the check found. No handler has a part in it. Once loaded,
on whatever occasions the rules fire, a rule fails only where the handler for one of its texts
does. -/
theorem load_vets (env : Environment σ) (rules : List Rule) :
    (∀ set, load env rules = .ok set ↔
      set = ⟨rules⟩ ∧ ∀ r ∈ rules, ∀ part, env.Passes (r.text part)) ∧
    (∀ e, load env rules = .error e ↔ ∃ before r part after cause,
      texts rules = before ++ (r, part) :: after ∧ (∀ t ∈ before, env.Passes (t.1.text t.2)) ∧
      env.check (r.text part) = .error cause ∧ e = ⟨r.name, part, cause⟩) ∧
    (∀ (τ : Type) (other : Environment τ),
      (∀ name, other.registry.signature? name = env.registry.signature? name) →
      load other rules = load env rules) ∧
    ∀ set, load env rules = .ok set → ∀ (os : List (Occasion σ)) (s : σ),
      ∀ fs ∈ (fireOn env set os s).1, ∀ f ∈ fs, ∃ r ∈ rules, f.rule = r.name ∧
        ∀ e, f.outcome = .failed e → ∃ part, env.HandlerError (r.text part) e := by
  refine ⟨fun _ => load_eq_ok_iff, fun _ => load_eq_error_iff, fun _ _ same => load_congr same rules,
    ?_⟩
  intro set loaded os s
  obtain ⟨rfl, passes⟩ := load_eq_ok_iff.mp loaded
  exact fireOn_accounted passes os s

end RuleSet
end TypedCommands
