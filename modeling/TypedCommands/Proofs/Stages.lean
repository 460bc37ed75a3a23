import TypedCommands.Proofs.Loading
import TypedCommands.Proofs.Typing

/-! The stages of a text: it is parsed, then bound, then run. What is wrong with the text itself
ends a run before the first handler is called, and it is what the check of the text says. -/
namespace TypedCommands

/-- A fault of the text, which is there whatever the handlers do. -/
def CommandError.OfText : CommandError → Prop
  | .parse _ | .bind .. => True
  | .execution .. => False

namespace Environment

variable {σ τ : Type} {env : Environment σ} {source : String} {c : Command} {e : CommandError}

theorem check_of_unparsed {diagnostics : List Diagnostic}
    (unparsed : Command.parse source = .error diagnostics) :
    env.check source = .error (.parse diagnostics) := by
  simp only [check, unparsed]

theorem check_of_unbound {fault : BindError} (parsed : Command.parse source = .ok c)
    (unbound : env.bind c = .error fault) :
    env.check source =
      .error (.bind fault (Text.line (Text.shownLines source) fault.place.line)) := by
  simp only [check, parsed, unbound]

theorem ofText_of_check (checked : env.check source = .error e) : e.OfText := by
  unfold check at checked
  split at checked
  · cases checked
    trivial
  · split at checked
    · cases checked
      trivial
    · cases checked

/-- Nothing is run of a text that does not pass the check. -/
theorem run_of_check_eq_error (checked : env.check source = .error e) (s : σ) :
    env.run source s = (.error e, s) := by
  simp only [run, checked]

theorem run_of_check_eq_ok {call : Call} (checked : env.check source = .ok call) (s : σ) :
    env.run source s =
      ((env.execute call s).1.mapError (.execution call.name), (env.execute call s).2) := by
  simp only [run, checked]
  split <;> rename_i executed <;> rw [executed] <;> rfl

/-- A run ends with a fault of the text exactly if the check finds it. The host is left as it
was. -/
theorem run_eq_error_iff (text : e.OfText) {s s' : σ} :
    env.run source s = (.error e, s') ↔ env.check source = .error e ∧ s' = s := by
  constructor
  · intro ran
    cases checked : env.check source with
    | error e' =>
      rw [run_of_check_eq_error checked] at ran
      cases ran
      exact ⟨rfl, rfl⟩
    | ok call =>
      rw [run_of_check_eq_ok checked] at ran
      cases executed : (env.execute call s).1 with
      | ok v =>
        rw [executed] at ran
        cases ran
      | error cause =>
        rw [executed] at ran
        cases ran
        exact absurd text id
  · rintro ⟨checked, rfl⟩
    exact run_of_check_eq_error checked _

/-- The root of a text that passes the check is registered, and the call bears its name. -/
theorem exists_root {call : Call} (checked : env.check source = .ok call) :
    ∃ c, Command.parse source = .ok c ∧ call.name = c.name ∧
      env.registry.contains c.name = true := by
  obtain ⟨c, parsed, bound⟩ := check_eq_ok_iff.mp checked
  have name : call.name = c.name := by
    rw [Command.eq_call_of_bind bound, Command.call_eq, Call.name]
  obtain ⟨handler, found⟩ := exists_handler checked
  obtain ⟨entry, known, -⟩ := Option.map_eq_some_iff.mp found
  rw [name] at known
  exact ⟨c, parsed, name, by rw [Registry.contains, known, Option.isSome_some]⟩

/-- What is not said of a text itself is said by a handler, so the text passes the check. -/
theorem passes_of_run {answer : Except CommandError Value} {s s' : σ}
    (ran : env.run source s = (answer, s')) (execution : ∀ e, answer = .error e → ¬e.OfText) :
    env.Passes source := by
  cases checked : env.check source with
  | ok call => exact ⟨call, checked⟩
  | error e =>
    rw [run_of_check_eq_error checked] at ran
    exact absurd (ofText_of_check checked) (execution e (Prod.mk.inj ran).1.symm)

/-- A text passes the check exactly if running it gives a value or a failure under the name of its
root. -/
theorem passes_iff_runs (s : σ) : env.Passes source ↔
    (∃ v s', env.run source s = (.ok v, s')) ∨
      ∃ c cause s', Command.parse source = .ok c ∧ env.registry.contains c.name = true ∧
        env.run source s = (.error (.execution c.name cause), s') := by
  constructor
  · rintro ⟨call, checked⟩
    rw [run_of_check_eq_ok checked]
    cases executed : (env.execute call s).1 with
    | ok v => exact .inl ⟨v, _, rfl⟩
    | error cause =>
      obtain ⟨c, parsed, name, known⟩ := exists_root checked
      exact .inr ⟨c, cause, _, parsed, known, by rw [name]; rfl⟩
  · intro ran
    cases checked : env.check source with
    | ok call => exact ⟨call, checked⟩
    | error e =>
      rw [run_of_check_eq_error checked] at ran
      rcases ran with ⟨v, s', ⟨⟩⟩ | ⟨c, cause, s', -, -, ran⟩
      cases ran
      exact (ofText_of_check checked).elim

/-- A text that is parsed passes the check if the command is well typed, and is reported for its
first fault if it is not. -/
theorem check_of_parsed {ds : List (Declaration σ)} (h : Registry.build ds = .ok env.registry)
    (parsed : Command.parse source = .ok c) :
    c.WellTyped ds ∧ env.check source = .ok c.call ∨
      ¬c.WellTyped ds ∧ ∃ fault, FirstFault ds c fault ∧ env.check source =
        .error (.bind fault (Text.line (Text.shownLines source) fault.place.line)) := by
  cases bound : env.bind c with
  | ok call =>
    obtain ⟨typed, rfl⟩ := (Command.bind_eq_ok_iff h).mp bound
    exact .inl ⟨typed, check_eq_ok_iff.mpr ⟨c, parsed, bound⟩⟩
  | error fault =>
    refine .inr ⟨fun typed => ?_, fault, ((c.bindsExactly h).error fault).mp bound,
      check_of_unbound parsed bound⟩
    have ok := (Command.bind_eq_ok_iff h).mpr ⟨typed, rfl⟩
    rw [bind, ok] at bound
    cases bound

end Environment

/-- Running a text and checking it find the same faults in it, with the same report, and a run that
ends with one of them leaves the host as it was. A text that passes the check gives a value or fails
under the name of its root, which is registered. A text that is not parsed is reported for that, one
that is ill typed for its first fault, however deep that lies. No handler has a part in any of this:
with others in their place, on another kind of state, the check says the same and such a run ends
the same. -/
theorem run_agrees_with_check {σ : Type} (env : Environment σ) (source : String) :
    (∀ (e : CommandError) (s s' : σ), e.OfText →
      (env.run source s = (.error e, s') ↔ env.check source = .error e ∧ s' = s)) ∧
    (∀ e, env.check source = .error e → e.OfText ∧
      ∀ s, env.run source s = (.error e, s) ∧ env.respond source s = (env.report e, s)) ∧
    (∀ s, (∃ call, env.check source = .ok call) ↔
      (∃ v s', env.run source s = (.ok v, s')) ∨
        ∃ c cause s', Command.parse source = .ok c ∧ env.registry.contains c.name = true ∧
          env.run source s = (.error (.execution c.name cause), s')) ∧
    (∀ diagnostics, Command.parse source = .error diagnostics →
      env.check source = .error (.parse diagnostics)) ∧
    (∀ ds c, Registry.build ds = .ok env.registry → Command.parse source = .ok c →
      c.WellTyped ds ∧ env.check source = .ok c.call ∨
        ¬c.WellTyped ds ∧ ∃ fault, FirstFault ds c fault ∧ env.check source =
          .error (.bind fault (Text.line (Text.shownLines source) fault.place.line))) ∧
    ∀ (τ : Type) (other : Environment τ),
      (∀ name, other.registry.signature? name = env.registry.signature? name) →
      other.check source = env.check source ∧
        ∀ e, env.check source = .error e → ∀ t, other.run source t = (.error e, t) := by
  refine ⟨fun e s s' text => Environment.run_eq_error_iff text, ?_, Environment.passes_iff_runs,
    fun _ => Environment.check_of_unparsed, fun _ _ => Environment.check_of_parsed, ?_⟩
  · intro e checked
    refine ⟨Environment.ofText_of_check checked, fun s => ?_⟩
    have ran := Environment.run_of_check_eq_error checked s
    exact ⟨ran, by simp only [Environment.respond, ran]⟩
  · intro τ other same
    have checked := Environment.check_congr same source
    refine ⟨checked, fun e fault t => ?_⟩
    rw [← checked] at fault
    exact Environment.run_of_check_eq_error fault t

end TypedCommands
