import TypedCommands.Proofs.Admission
import TypedCommands.Proofs.Delivery
import TypedCommands.Proofs.Stages

/-! Registering more commands. Binding looks up the names that it meets before the first fault and
no others, so a registry that knows more commands changes nothing about a text that was bound, or
that had a fault other than a name that it did not know. -/
namespace TypedCommands

/-- The check ended at a name that nobody had registered. -/
def Unknown {α : Type} (x : Except BindError α) (name : String) : Prop :=
  ∃ place, x = .error ⟨place, .unknownCommand name⟩

section Binding

variable {known wider : String → Option Signature}

theorem bindParameter_wider {command : String} {n : Nat} {p : Signature.Parameter} {q : Parameter}
    (inner : ∀ d, q = .command d → (∀ name, Unknown (d.bind known) name → wider name = none) →
      d.bind wider = d.bind known)
    (still : ∀ name, Unknown (bindParameter known command n p q) name → wider name = none) :
    bindParameter wider command n p q = bindParameter known command n p q := by
  by_cases hk : q.kind = p.kind
  · rw [bindParameter_of_kind hk] at still ⊢
    rw [bindParameter_of_kind hk]
    cases q with
    | literal value place => rfl
    | command d =>
      have same : d.bind wider = d.bind known := by
        refine inner d rfl ?_
        rintro name ⟨place, unknown⟩
        exact still name ⟨place, Parameter.bind_command_eq_error.mpr unknown⟩
      rw [Parameter.bind, Parameter.bind, same]
  · rw [bindParameter_of_kind_ne hk, bindParameter_of_kind_ne hk]

/-- Parameters are bound alike up to the first one at fault; those behind it are not looked at. -/
theorem bindParameters_wider {command : String} {n : Nat} {ps : List Signature.Parameter}
    {qs : List Parameter}
    (inner : ∀ d, .command d ∈ qs → (∀ name, Unknown (d.bind known) name → wider name = none) →
      d.bind wider = d.bind known)
    (still : ∀ name, Unknown (bindParameters known command n ps qs) name → wider name = none) :
    bindParameters wider command n ps qs = bindParameters known command n ps qs := by
  induction qs generalizing n ps with
  | nil => simp only [bindParameters]
  | cons q qs ih =>
    cases ps with
    | nil => simp only [bindParameters]
    | cons p ps =>
      rw [bindParameters_cons] at still
      have head : bindParameter wider command n p q = bindParameter known command n p q := by
        refine bindParameter_wider ?_ ?_
        · rintro d rfl
          exact inner d List.mem_cons_self
        · rintro name ⟨place, unknown⟩
          exact still name ⟨place, by rw [unknown]; rfl⟩
      rw [bindParameters_cons, bindParameters_cons, head]
      cases hq : bindParameter known command n p q with
      | error e => rfl
      | ok a =>
        have tail : bindParameters wider command (n + 1) ps qs =
            bindParameters known command (n + 1) ps qs := by
          refine ih (fun d mem => inner d (List.mem_cons_of_mem q mem)) ?_
          rintro name ⟨place, unknown⟩
          exact still name ⟨place, by rw [hq, unknown]; rfl⟩
        rw [tail]

/-- Who knows more signatures binds a command in the same way, unless the first fault was a name
that only now is known. -/
theorem Command.bind_wider (wide : ∀ name s, known name = some s → wider name = some s)
    {c : Command} (still : ∀ name, Unknown (c.bind known) name → wider name = none) :
    c.bind wider = c.bind known := by
  induction c using Command.nested_induction with
  | step c ih =>
    rcases c.bind_cases known with absent | ⟨s, found, ⟨p, absent⟩ | ⟨q, surplus⟩ | arity⟩
    · rw [bind_unknown absent, bind_unknown (still c.name ⟨_, bind_unknown absent⟩)]
    · rw [bind_missing found absent, bind_missing (wide _ s found) absent]
    · rw [bind_extra found surplus, bind_extra (wide _ s found) surplus]
    · rw [bind_full found arity] at still ⊢
      have same : bindParameters wider c.name 1 s.parameters c.parameters =
          bindParameters known c.name 1 s.parameters c.parameters := by
        apply bindParameters_wider ih
        rintro name ⟨place, unknown⟩
        exact still name ⟨place, by rw [unknown]; rfl⟩
      rw [bind_full (wide _ s found) arity, same]

end Binding

variable {σ : Type} {ds es : List (Declaration σ)} {r r' : Registry σ}

/-- A call runs alike wherever the names in it have the same handlers. -/
theorem Command.run_congr {handlers handlers' : String → Option (Handler σ)} {c : Command}
    (same : ∀ d : Command, d.Within c → handlers' d.name = handlers d.name) :
    c.call.run handlers' = c.call.run handlers := by
  induction c using Command.nested_induction with
  | step c ih =>
    have given : c.parameters.map (Parameter.operand handlers') =
        c.parameters.map (Parameter.operand handlers) := by
      refine List.map_congr_left fun q mem => ?_
      cases q with
      | literal value place => rfl
      | command d =>
        have inner := ih d mem fun e within => same e (.parameter mem within)
        rw [Parameter.operand, Parameter.operand, inner]
    rw [call_eq, Call.run, Call.run, same c .refl, operands_arguments, operands_arguments, given]

namespace Registry

/-- The registry knows every command of the other one, with the same signature and handler. -/
def Extends (r' r : Registry σ) : Prop := ∀ name e, r.find? name = some e → r'.find? name = some e

theorem extends_of_append (h : build ds = .ok r) (h' : build (ds ++ es) = .ok r') :
    r'.Extends r := by
  intro name e found
  obtain ⟨d, mem, declared⟩ := (find?_eq_some_iff h).mp found
  exact (find?_eq_some_iff h').mpr ⟨d, List.mem_append_left es mem, declared⟩

theorem Extends.signature? (wide : r'.Extends r) {name : String} {s : Signature}
    (found : r.signature? name = some s) : r'.signature? name = some s := by
  obtain ⟨e, he, rfl⟩ := Option.map_eq_some_iff.mp found
  rw [Registry.signature?, wide name e he, Option.map_some]

theorem Extends.handler? (wide : r'.Extends r) {name : String}
    (known : ∃ e, r.find? name = some e) : r'.handler? name = r.handler? name := by
  obtain ⟨e, he⟩ := known
  rw [Registry.handler?, Registry.handler?, he, wide name e he]

/-- A name that nobody declared in either place is still unknown. -/
theorem signature?_append_eq_none (h : build ds = .ok r) (h' : build (ds ++ es) = .ok r')
    {name : String} (absent : r.signature? name = none) (fresh : ∀ d ∈ es, d.name ≠ name) :
    r'.signature? name = none := by
  refine (signature?_eq_none_iff h').mpr fun d mem => ?_
  rcases List.mem_append.mp mem with old | new
  · exact (signature?_eq_none_iff h).mp absent d old
  · exact fresh d new

end Registry

/-- Where an unknown name is the first fault, nobody has declared it. -/
theorem FirstFault.undeclared {c : Command} {e : BindError} (fault : FirstFault ds c e)
    {name : String} (unknown : e.fault = .unknownCommand name) : ∀ d ∈ ds, d.name ≠ name := by
  induction fault with
  | unknown undeclared =>
    cases unknown
    exact undeclared
  | missing | extra | mismatch => cases unknown
  | nested _ _ _ _ _ _ _ ih => exact ih unknown

theorem Command.undeclared_of_bind (h : Registry.build ds = .ok r) {c : Command} {name : String}
    (unknown : Unknown (c.bind r.signature?) name) : r.signature? name = none := by
  obtain ⟨place, fault⟩ := unknown
  have first := ((c.bindsExactly h).error _).mp fault
  exact (Registry.signature?_eq_none_iff h).mpr (first.undeclared rfl)

/-- A call that is well typed runs alike where more commands are known. -/
theorem Registry.Extends.run_eq (wide : r'.Extends r) (h : build ds = .ok r) {c : Command}
    (typed : c.WellTyped ds) : c.call.run r'.handler? = c.call.run r.handler? := by
  refine Command.run_congr fun d within => wide.handler? ?_
  obtain ⟨declared, mem, admits⟩ := typed d within
  obtain ⟨e, found, -⟩ := found_of_mem h mem
  exact ⟨e, admits.name ▸ found⟩

namespace Environment

variable {env env' : Environment σ} {source : String}

theorem run_eq_of_check_eq (checked : env'.check source = env.check source)
    (same : ∀ call, env.check source = .ok call → env'.execute call = env.execute call) (s : σ) :
    env'.run source s = env.run source s := by
  cases found : env.check source with
  | error e =>
    rw [found] at checked
    rw [run_of_check_eq_error found, run_of_check_eq_error checked]
  | ok call =>
    rw [found] at checked
    rw [run_of_check_eq_ok found, run_of_check_eq_ok checked, same call found]

end Environment

/-- Registering more commands leaves a text as it was, if it passed the check, or if it failed it
for anything but a name that has now been registered. The check has the same outcome and the same
report, running the text has the same effect and the same result, and every command that was known
still has its signature and its handler. -/
theorem check_extended {mode : Mode} {env env' : Environment σ}
    (h : Environment.ofDeclarations ds mode = .ok env)
    (h' : Environment.ofDeclarations (ds ++ es) mode = .ok env') {source : String}
    (fresh : ∀ e line name, env.check source = .error (.bind e line) →
      e.fault = .unknownCommand name → ∀ d ∈ es, d.name ≠ name) :
    env'.check source = env.check source ∧ (∀ s, env'.run source s = env.run source s) ∧
      (∀ e, env'.report e = env.report e) ∧ (∀ s, env'.respond source s = env.respond source s) ∧
      env'.registry.Extends env.registry := by
  obtain ⟨built, hm⟩ := Environment.ofDeclarations_eq_ok_iff.mp h
  obtain ⟨built', hm'⟩ := Environment.ofDeclarations_eq_ok_iff.mp h'
  have wide := Registry.extends_of_append built built'
  have report : ∀ e, env'.report e = env.report e := by
    intro e
    rw [Environment.report, Environment.report, hm, hm']
  have checked : env'.check source = env.check source := by
    refine Environment.check_eq_of_bind_eq fun c parsed => ?_
    refine Command.bind_wider (fun name s found => wide.signature? found) ?_
    rintro name ⟨place, unknown⟩
    have absent := Command.undeclared_of_bind built ⟨place, unknown⟩
    have found : env.check source = .error (.bind _ _) :=
      Environment.check_of_unbound parsed unknown
    exact Registry.signature?_append_eq_none built built' absent (fresh _ _ name found rfl)
  have run : ∀ s, env'.run source s = env.run source s := by
    refine Environment.run_eq_of_check_eq checked fun call found => ?_
    obtain ⟨c, -, bound⟩ := Environment.check_eq_ok_iff.mp found
    obtain ⟨typed, rfl⟩ := (Command.bind_eq_ok_iff built).mp bound
    exact wide.run_eq built typed
  refine ⟨checked, run, report, fun s => ?_, wide⟩
  rw [Environment.respond, Environment.respond, run]
  split
  · rfl
  · rw [report]

/-- `And (Length 7) (Tick)`: the number is at fault, also when `Tick` is known. -/
theorem check_extended_tick :
    let tick : Declaration Nat :=
      ⟨none, [], ⟨"Tick", fun _ => do modify (· + 1); return .ofBool true⟩⟩
    let source := "And (Length 7) (Tick)"
    let fault : BindError := ⟨⟨1, 13⟩, .typeMismatch "Length" 1 "Text" .text .integer⟩
    ∃ env env' : Environment Nat,
      Environment.ofDeclarations Builtin.declarations .simple = .ok env ∧
      Environment.ofDeclarations (Builtin.declarations ++ [tick]) .simple = .ok env' ∧
      env.registry.contains "Tick" = false ∧ env'.registry.contains "Tick" = true ∧
      ∃ line, env'.check source = .error (.bind fault line) ∧ ∀ s, env'.run source s =
        (.error (.bind fault line), s) := by
  intro tick source fault
  obtain ⟨r, built⟩ := Builtin.build_declarations (σ := Nat)
  obtain ⟨r', built'⟩ := Builtin.build_declarations_append [tick] (by
    intro d mem
    obtain rfl := List.mem_singleton.mp mem
    exact ⟨_, Declaration.signature_of_no_parameters (by decide) rfl⟩) (by decide)
  have h := Environment.ofDeclarations_eq_ok_iff.mpr
    (show Registry.build _ = .ok (Environment.mk r .simple).registry ∧ _ from ⟨built, rfl⟩)
  have h' := Environment.ofDeclarations_eq_ok_iff.mpr
    (show Registry.build _ = .ok (Environment.mk r' .simple).registry ∧ _ from ⟨built', rfl⟩)
  let inner : Command := .mk "Length" ⟨1, 6⟩ [.literal (.integer 7) ⟨1, 13⟩]
  let c : Command := .mk "And" ⟨1, 1⟩ [.command inner, .command (.mk "Tick" ⟨1, 17⟩ [])]
  have tokens : Token.tokens source =
      [⟨.identifier "And", "And", ⟨1, 1⟩⟩, ⟨.opening, "(", ⟨1, 5⟩⟩,
        ⟨.identifier "Length", "Length", ⟨1, 6⟩⟩, ⟨.literal (.integer 7), "7", ⟨1, 13⟩⟩,
        ⟨.closing, ")", ⟨1, 14⟩⟩, ⟨.opening, "(", ⟨1, 16⟩⟩, ⟨.identifier "Tick", "Tick", ⟨1, 17⟩⟩,
        ⟨.closing, ")", ⟨1, 21⟩⟩, ⟨.finish, "", ⟨1, 22⟩⟩] := by decide +kernel
  have parsed : Command.parse source = .ok c := by
    apply Command.parse_eq_ok_iff.mpr
    rw [tokens]
    rfl
  have left : ⟨0 + 1, "Left", [.command]⟩ ∈ (Builtin.and.declaration (σ := Nat)).parameters := by
    decide
  have text : ⟨0 + 1, "Text", [.text]⟩ ∈ (Builtin.length.declaration (σ := Nat)).parameters := by
    decide
  have given : inner.parameters[0]? = some (.literal (.integer 7) ⟨1, 13⟩) := rfl
  have mismatch : FirstFault (Builtin.declarations : List (Declaration Nat)) inner fault :=
    .mismatch Builtin.length.declaration_mem rfl rfl (by omega) given text (by decide)
  have first : FirstFault (Builtin.declarations : List (Declaration Nat)) c fault :=
    .nested Builtin.and.declaration_mem rfl rfl (by omega) rfl left mismatch
  have unbound := ((c.bindsExactly built).error fault).mpr first
  have checked : (Environment.mk r .simple).check source = .error (.bind fault _) :=
    Environment.check_of_unbound parsed unbound
  have fresh : ∀ e line name, (Environment.mk r .simple).check source = .error (.bind e line) →
      e.fault = .unknownCommand name → ∀ d ∈ [tick], d.name ≠ name := by
    intro e line name found unknown
    rw [checked] at found
    cases found
    cases unknown
  obtain ⟨same, run, -, -, -⟩ := check_extended h h' fresh
  have absent : r.contains "Tick" = false := by
    rw [Bool.eq_false_iff, ne_eq, Registry.contains_iff built]
    rintro ⟨d, declared, named⟩
    have name : d.name ∈ Builtin.declarations.map (·.name) := List.mem_map_of_mem declared
    rw [named] at name
    revert name
    decide
  have known : r'.contains "Tick" = true :=
    (Registry.contains_iff built').mpr ⟨tick, by simp, rfl⟩
  refine ⟨⟨r, .simple⟩, ⟨r', .simple⟩, h, h', absent, known, _, same.trans checked, fun s => ?_⟩
  rw [run, Environment.run_of_check_eq_error checked]

end TypedCommands
