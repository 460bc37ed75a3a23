import Mathlib.Data.List.Forall2
import TypedCommands.Proofs.Arithmetic
import TypedCommands.Proofs.FrontEnds

/-! What comes of firing rules. Each rule has one firing, in the order of the rules and in the state
that the firing before it left, whatever that came to; the program prints one line for each. -/
namespace TypedCommands

variable {σ : Type} {env : Environment σ}

namespace Rule

/-- A rule fires in a state of the host: its condition is run once, and its consequence once if the
condition gave the integer 1. A failure keeps the error of the text that failed. -/
inductive Fires (env : Environment σ) (r : Rule) (s : σ) : Firing → σ → Prop where
  | conditionFails {e : CommandError} {s' : σ}
      (condition : env.run r.condition s = (.error e, s')) :
      Fires env r s ⟨r.name, .failed e⟩ s'
  | skipped {v : Value} {s' : σ} (condition : env.run r.condition s = (.ok v, s'))
      (other : v ≠ .integer 1) : Fires env r s ⟨r.name, .skipped⟩ s'
  | fired {v : Value} {s₁ s' : σ} (condition : env.run r.condition s = (.ok (.integer 1), s₁))
      (consequence : env.run r.consequence s₁ = (.ok v, s')) : Fires env r s ⟨r.name, .fired v⟩ s'
  | consequenceFails {e : CommandError} {s₁ s' : σ}
      (condition : env.run r.condition s = (.ok (.integer 1), s₁))
      (consequence : env.run r.consequence s₁ = (.error e, s')) :
      Fires env r s ⟨r.name, .failed e⟩ s'

theorem Fires.eq_fire {r : Rule} {s s' : σ} {f : Firing} (h : Fires env r s f s') :
    r.fire env s = (f, s') := by
  have one : (Value.integer 1).isTrue = true := by decide
  cases h with
  | conditionFails condition => simp only [fire, condition]
  | skipped condition other =>
    have isFalse : Value.isTrue _ = false := decide_eq_false other
    simp only [fire, condition, isFalse, Bool.false_eq_true, if_false]
  | fired condition consequence => simp only [fire, condition, one, if_true, consequence]
  | consequenceFails condition consequence => simp only [fire, condition, one, if_true, consequence]

theorem fires_fire (r : Rule) (s : σ) : Fires env r s (r.fire env s).1 (r.fire env s).2 := by
  unfold fire
  split
  · rename_i condition
    exact .conditionFails condition
  · rename_i v s₁ condition
    split
    · rename_i isTrue
      have one : v = .integer 1 := of_decide_eq_true isTrue
      subst one
      split
      · rename_i consequence
        exact .fired condition consequence
      · rename_i consequence
        exact .consequenceFails condition consequence
    · rename_i isFalse
      exact .skipped condition fun one => isFalse (decide_eq_true one)

theorem Fires.rule_eq {r : Rule} {s s' : σ} {f : Firing} (h : Fires env r s f s') :
    f.rule = r.name := by
  cases h <;> rfl

end Rule

namespace RuleSet

/-- The rules fire one after the other, each in the state that the one before it left. -/
inductive FiresAll (env : Environment σ) : List Rule → σ → List Rule.Firing → σ → Prop where
  | nil (s : σ) : FiresAll env [] s [] s
  | cons {r : Rule} {rules : List Rule} {s s₁ s' : σ} {f : Rule.Firing} {fs : List Rule.Firing}
      (head : r.Fires env s f s₁) (rest : FiresAll env rules s₁ fs s') :
      FiresAll env (r :: rules) s (f :: fs) s'

theorem FiresAll.eq_fireAll {rules : List Rule} {s s' : σ} {fs : List Rule.Firing}
    (h : FiresAll env rules s fs s') : fireAll env rules s = (fs, s') := by
  induction h with
  | nil s => rfl
  | cons head rest ih => simp only [fireAll, head.eq_fire, ih]

theorem firesAll_fireAll (env : Environment σ) (rules : List Rule) (s : σ) :
    FiresAll env rules s (fireAll env rules s).1 (fireAll env rules s).2 := by
  induction rules generalizing s with
  | nil => exact .nil s
  | cons r rules ih => exact .cons (r.fires_fire s) (ih (r.fire env s).2)

theorem fire_eq_iff {set : RuleSet} {s s' : σ} {fs : List Rule.Firing} :
    set.fire env s = (fs, s') ↔ FiresAll env set.rules s fs s' := by
  constructor
  · intro h
    have all := firesAll_fireAll env set.rules s
    rw [← fire, h] at all
    exact all
  · intro h
    exact h.eq_fireAll

theorem FiresAll.map_rule {rules : List Rule} {s s' : σ} {fs : List Rule.Firing}
    (h : FiresAll env rules s fs s') : fs.map (·.rule) = rules.map (·.name) := by
  induction h with
  | nil s => rfl
  | cons head rest ih => rw [List.map_cons, List.map_cons, head.rule_eq, ih]

theorem FiresAll.append {before after : List Rule} {s s₁ s' : σ} {fs gs : List Rule.Firing}
    (first : FiresAll env before s fs s₁) (second : FiresAll env after s₁ gs s') :
    FiresAll env (before ++ after) s (fs ++ gs) s' := by
  induction first with
  | nil s => exact second
  | cons head rest ih => exact .cons head (ih second)

end RuleSet

namespace CommandLine

/-- The line that is printed for a firing. -/
inductive Line (env : Environment Unit) : Rule.Firing → String → Prop where
  | skipped (rule : String) : Line env ⟨rule, .skipped⟩ (rule ++ ": skipped\n")
  | fired (rule : String) (v : Value) : Line env ⟨rule, .fired v⟩ (rule ++ ": " ++ v.print ++ "\n")
  | failed (rule : String) (e : CommandError) :
      Line env ⟨rule, .failed e⟩ (rule ++ ": failed: " ++ env.report e ++ "\n")

theorem line_firingLine (env : Environment Unit) (f : Rule.Firing) :
    Line env f (firingLine env.mode f) := by
  obtain ⟨rule, outcome⟩ := f
  cases outcome with
  | skipped => exact .skipped rule
  | fired v => exact .fired rule v
  | failed e => exact .failed rule e

/-- What is said of the firings: a line for each, in their order, and at the end whether there is a
failure among them. -/
structure Told (env : Environment Unit) (fs : List Rule.Firing) (r : Result) : Prop where
  lines : ∃ lines, List.Forall₂ (Line env) fs lines ∧ r.output = String.join lines
  failure : (∃ f ∈ fs, ∃ e, f.outcome = .failed e) ↔
    r.exit = 1 ∧ r.error = "one or more rules failed\n"
  success : (¬∃ f ∈ fs, ∃ e, f.outcome = .failed e) ↔ r.exit = 0 ∧ r.error = ""

theorem any_isFailed_iff {fs : List Rule.Firing} :
    fs.any (·.outcome.isFailed) = true ↔ ∃ f ∈ fs, ∃ e, f.outcome = .failed e := by
  have failed (o : Rule.Outcome) : o.isFailed = true ↔ ∃ e, o = .failed e := by
    cases o <;> simp [Rule.Outcome.isFailed]
  simp only [List.any_eq_true, failed]

theorem told_fireRules {env : Environment Unit} {rules : List Rule} {set : RuleSet}
    (loaded : RuleSet.load env rules = .ok set) :
    Told env (set.fire env ()).1 (fireRules env rules) := by
  let fs := (set.fire env ()).1
  let lines := fs.map (firingLine env.mode)
  have each : List.Forall₂ (Line env) fs lines := by
    apply List.forall₂_map_right_iff.mpr
    exact List.forall₂_same.mpr fun f _ => line_firingLine env f
  have told : fireRules env rules = if fs.any (·.outcome.isFailed)
      then ⟨1, String.join lines, someFailed ++ "\n"⟩ else success (String.join lines) := by
    rw [fireRules, loaded]
  by_cases failed : ∃ f ∈ fs, ∃ e, f.outcome = .failed e
  · rw [told, if_pos (any_isFailed_iff.mpr failed)]
    exact ⟨⟨lines, each, rfl⟩, ⟨fun _ => ⟨rfl, rfl⟩, fun _ => failed⟩, by simp [fs, failed]⟩
  · rw [told, if_neg (any_isFailed_iff.not.mpr failed)]
    exact ⟨⟨lines, each, rfl⟩, by simp [fs, failed, success],
      ⟨fun _ => ⟨rfl, rfl⟩, fun _ => failed⟩⟩

/-- What the program does when it is asked to fire the rules of its settings. If the rules do not
load, that is all it says, whatever the commands do when they are run. -/
structure FiresRules (files : Files) (reason : String → String) (args : List String)
    (env : Environment Unit) (rules : List Rule) : Prop where
  loaded : ∀ set, RuleSet.load env rules = .ok set → ∃ fs s r,
    RuleSet.FiresAll env rules () fs s ∧ start files args reason = .done r ∧ Told env fs r
  refused : ∀ e, RuleSet.load env rules = .error e →
    start files args reason = .done ⟨1, "", e.render env.mode ++ "\n"⟩ ∧
    ∀ other : Environment Unit, other.mode = env.mode →
      (∀ name, other.registry.signature? name = env.registry.signature? name) →
      fireRules other rules = ⟨1, "", e.render env.mode ++ "\n"⟩

theorem firesRules_of_start {files : Files} {reason : String → String} {args : List String}
    {env : Environment Unit} {rules : List Rule}
    (started : start files args reason = .done (fireRules env rules)) :
    FiresRules files reason args env rules where
  loaded set loads := by
    obtain ⟨rfl, -⟩ := RuleSet.load_eq_ok_iff.mp loads
    exact ⟨_, _, _, RuleSet.firesAll_fireAll env rules (), started, told_fireRules loads⟩
  refused e fails := by
    have refusal (other : Environment Unit) (mode : other.mode = env.mode)
        (load : RuleSet.load other rules = .error e) :
        fireRules other rules = ⟨1, "", e.render env.mode ++ "\n"⟩ := by
      rw [fireRules, load, mode]
      rfl
    refine ⟨by rw [started, refusal env rfl fails], fun other mode same => ?_⟩
    exact refusal other mode ((RuleSet.load_congr same rules).trans fails)

end CommandLine

/-- A set fires exactly as its rules do one after the other, so there is one firing for each rule,
under its name, and two sets behind each other fire as the first does and then the second. Asked to
fire the rules of its settings, the program does so and tells it line by line. -/
theorem RuleSet.fires_in_order (env : Environment σ) (a b : RuleSet) (s : σ) :
    (∀ fs s', a.fire env s = (fs, s') ↔ FiresAll env a.rules s fs s') ∧
    (a.fire env s).1.map (·.rule) = a.rules.map (·.name) ∧
    (load env a.rules = .ok a → load env b.rules = .ok b →
      load env (a.rules ++ b.rules) = .ok ⟨a.rules ++ b.rules⟩) ∧
    RuleSet.fire env ⟨a.rules ++ b.rules⟩ s =
      ((a.fire env s).1 ++ (b.fire env (a.fire env s).2).1, (b.fire env (a.fire env s).2).2) ∧
    ∀ files reason args i settings, Invocation.parse args = .ok i → i.action = .rules →
      CommandLine.settings files i reason = .ok settings → ∃ env : Environment Unit,
        CommandLine.environment i settings = .ok env ∧
        CommandLine.FiresRules files reason args env settings.rules := by
  have first := firesAll_fireAll env a.rules s
  have second := firesAll_fireAll env b.rules (a.fire env s).2
  refine ⟨fun _ _ => fire_eq_iff, first.map_rule, ?_, (first.append second).eq_fireAll, ?_⟩
  · intro loaded loaded'
    obtain ⟨-, passes⟩ := load_eq_ok_iff.mp loaded
    obtain ⟨-, passes'⟩ := load_eq_ok_iff.mp loaded'
    refine load_eq_ok_iff.mpr ⟨rfl, fun r mem => ?_⟩
    rcases List.mem_append.mp mem with mem | mem
    · exact passes r mem
    · exact passes' r mem
  · rintro files reason args ⟨simple, config, action⟩ settings read asked loads
    obtain rfl : action = .rules := asked
    obtain ⟨env, known⟩ :=
      CommandLine.exists_environment (if simple then .simple else settings.mode)
    have text : CommandLine.settings files ⟨simple, config, .run ""⟩ reason = .ok settings := loads
    have started : CommandLine.start files args reason = CommandLine.perform env settings .rules :=
      CommandLine.start_eq known text read
    exact ⟨env, known, CommandLine.firesRules_of_start started⟩

/-- The failure of the first rule does not keep the second one from firing. -/
theorem RuleSet.fires_in_order_division :
    let text := "rules:\n- {name: half, condition: Equal 1 1, consequence: Div 1 0}\n" ++
      "- {name: sum, condition: Equal 1 1, consequence: Add 1 1}\n"
    CommandLine.start ⟨fun _ => .ok text.toUTF8, .error .noSuchFile⟩ ["rules", "--config", "a"] =
      .done ⟨1, "half: failed: Div: division by zero\nsum: 2\n",
        "one or more rules failed\n"⟩ := by
  intro text
  let rules : List Rule := [⟨"half", "Equal 1 1", "Div 1 0"⟩, ⟨"sum", "Equal 1 1", "Add 1 1"⟩]
  obtain ⟨registry, built⟩ := Builtin.build_declarations (σ := Unit)
  let env : Environment Unit := ⟨registry, .verbose⟩
  have figures (d : Char) (digit : d.isDigit = true) : Numeral.Figures [d] :=
    ⟨List.cons_ne_nil d [], by simp [digit]⟩
  have one : Decimal 1 "1" := .plain (figures '1' rfl) (by decide)
  have zero : Decimal 0 "0" := .plain (figures '0' rfl) (by decide)
  have run (o : Builtin) (integers : o.parameters = [⟨"Op1", .integer⟩, ⟨"Op2", .integer⟩])
      {b : Int64} {y text : String} (hy : Decimal b y)
      (spelled : o.name ++ " " ++ "1" ++ " " ++ y = text) :
      env.run text () = (o.run (Builtin.integers o.name 1 b)).outcome o.name () := by
    rw [← spelled, Environment.run_integers built o.declaration_mem integers one hy]
  have same : env.run "Equal 1 1" () = (.ok (.integer 1), ()) := run .equal rfl one (by decide)
  have sum : env.run "Add 1 1" () = (.ok (.integer 2), ()) := run .add rfl one (by decide)
  have quotient : env.run "Div 1 0" () =
      (.error (.execution "Div" Builtin.divisionByZero), ()) := run .div rfl zero (by decide)
  have loaded : load env rules = .ok ⟨rules⟩ := by
    refine load_eq_ok_iff.mpr ⟨rfl, fun r mem part => ?_⟩
    simp only [rules, List.mem_cons, List.not_mem_nil, or_false] at mem
    rcases mem with rfl | rfl <;> cases part
    · exact Environment.passes_of_run same nofun
    · exact Environment.passes_of_run quotient (by rintro e ⟨⟩; exact id)
    · exact Environment.passes_of_run same nofun
    · exact Environment.passes_of_run sum nofun
  have all : FiresAll env rules () [⟨"half", .failed (.execution "Div" Builtin.divisionByZero)⟩,
      ⟨"sum", .fired (.integer 2)⟩] () :=
    .cons (.consequenceFails same quotient) (.cons (.fired same sum) (.nil ()))
  have read : Invocation.parse ["rules", "--config", "a"] = .ok ⟨false, some "a", .rules⟩ := by
    decide +kernel
  have loads : CommandLine.settings ⟨fun _ => .ok text.toUTF8, .error .noSuchFile⟩
      ⟨false, some "a", .rules⟩ = .ok ⟨.verbose, Control.default, rules⟩ := by
    decide +kernel
  obtain ⟨-, -, -, -, program⟩ := fires_in_order env ⟨[]⟩ ⟨[]⟩ ()
  obtain ⟨env', known, fires⟩ := program _ _ _ _ _ read rfl loads
  have known' : CommandLine.environment ⟨false, some "a", .rules⟩
      ⟨.verbose, Control.default, rules⟩ = .ok env := by
    rw [CommandLine.environment, Environment.ofDeclarations, built]
    rfl
  obtain rfl : env = env' := Except.ok.inj (known'.symm.trans known)
  obtain ⟨fs, s, r, all', started, told⟩ := fires.loaded _ loaded
  obtain ⟨rfl, -⟩ : fs = _ ∧ _ := Prod.mk.inj (all'.eq_fireAll.symm.trans all.eq_fireAll)
  obtain ⟨⟨lines, each, output⟩, failure, -⟩ := told
  obtain ⟨exit, error⟩ := failure.mp ⟨_, List.mem_cons_self, _, rfl⟩
  obtain ⟨_, _, _⟩ := r
  obtain _ | ⟨⟨⟩, _ | ⟨⟨⟩, ⟨⟩⟩⟩ := each
  rw [started]
  subst output exit error
  rfl

end TypedCommands
