import TypedCommands.Binding
import TypedCommands.Proofs.Registration

/-! What binding does with a command and with its parameters one by one. If it succeeds, the result
is the call that the command denotes, whatever the signatures are. -/
namespace TypedCommands

/-- What passes from the commands nested in a command to the command itself holds of all. -/
theorem Command.nested_induction {P : Command → Prop}
    (step : ∀ c : Command, (∀ e, .command e ∈ c.parameters → P e) → P c) (c : Command) : P c :=
  step c fun e _ => Command.nested_induction step e
termination_by sizeOf c
decreasing_by
  rename_i mem
  obtain ⟨name, position, parameters⟩ := c
  have hp := List.sizeOf_lt_of_mem mem
  simp only [Command.parameters, Parameter.command.sizeOf_spec] at hp
  simp only [Command.mk.sizeOf_spec]
  omega

mutual

/-- The call that a command denotes, its kinds left unchecked. -/
def Command.call : Command → Call
  | .mk name _ parameters => .mk name (arguments parameters)

def arguments : List Parameter → List Argument
  | [] => []
  | .literal value _ :: rest => .literal value :: arguments rest
  | .command c :: rest => .command c.call :: arguments rest

end

/-- The argument that a parameter denotes. -/
def Parameter.argument : Parameter → Argument
  | .literal value _ => .literal value
  | .command c => .command c.call

theorem arguments_cons (q : Parameter) (qs : List Parameter) :
    arguments (q :: qs) = q.argument :: arguments qs := by
  cases q <;> rw [arguments, Parameter.argument]

theorem Command.call_eq (c : Command) : c.call = .mk c.name (arguments c.parameters) := by
  obtain ⟨name, place, parameters⟩ := c
  rw [call, Command.name, Command.parameters]

section Loop

variable {signatures : String → Option Signature} {command : String} {n : Nat}
variable {p : Signature.Parameter} {q : Parameter} {ps : List Signature.Parameter}
variable {qs : List Parameter} {e : BindError}

/-- Binds a parameter of the right kind. -/
def Parameter.bind (signatures : String → Option Signature) : Parameter → Except BindError Argument
  | .literal value _ => .ok (.literal value)
  | .command c => do return .command (← c.bind signatures)

theorem Parameter.bind_command_eq_error {c : Command} :
    (Parameter.command c).bind signatures = .error e ↔ c.bind signatures = .error e := by
  rw [Parameter.bind]
  cases c.bind signatures with
  | error e' => simp [Bind.bind, Except.bind]
  | ok call => simp [Bind.bind, Except.bind, pure, Except.pure]

/-- Binds a single parameter of a command. -/
def bindParameter (signatures : String → Option Signature) (command : String) (position : Nat)
    (p : Signature.Parameter) (q : Parameter) : Except BindError Argument :=
  if q.kind = p.kind then q.bind signatures
  else .error ⟨q.position, .typeMismatch command position p.name p.kind q.kind⟩

theorem bindParameter_of_kind (hk : q.kind = p.kind) :
    bindParameter signatures command n p q = q.bind signatures := if_pos hk

theorem bindParameter_of_kind_ne (hk : q.kind ≠ p.kind) :
    bindParameter signatures command n p q =
      .error ⟨q.position, .typeMismatch command n p.name p.kind q.kind⟩ := if_neg hk

/-- A parameter is at fault if it is of another kind, or if something is wrong within it. -/
theorem bindParameter_eq_error_iff :
    bindParameter signatures command n p q = .error e ↔
      q.kind ≠ p.kind ∧
          e = ⟨q.position, .typeMismatch command n p.name p.kind q.kind⟩ ∨
        q.kind = p.kind ∧ ∃ c, q = .command c ∧ c.bind signatures = .error e := by
  by_cases hk : q.kind = p.kind
  · rw [bindParameter_of_kind hk]
    cases q with
    | literal value place => simp [hk, Parameter.bind]
    | command c => simp [hk, Parameter.bind_command_eq_error]
  · rw [bindParameter_of_kind_ne hk]
    simp [hk, eq_comm]

theorem bindParameters_cons :
    bindParameters signatures command n (p :: ps) (q :: qs) = do
      return (← bindParameter signatures command n p q) ::
        (← bindParameters signatures command (n + 1) ps qs) := by
  by_cases hk : q.kind = p.kind
  · rw [bindParameter_of_kind hk]
    cases q with
    | literal value place =>
      rw [bindParameters, if_pos (show value.kind = p.kind from hk)]
      rfl
    | command c =>
      rw [bindParameters, if_pos (show Kind.command = p.kind from hk), Parameter.bind]
      cases c.bind signatures <;> rfl
  · rw [bindParameter_of_kind_ne hk]
    cases q with
    | literal value place =>
      rw [bindParameters, if_neg (show ¬value.kind = p.kind from hk)]
      rfl
    | command c =>
      rw [bindParameters, if_neg (show ¬Kind.command = p.kind from hk)]
      rfl

/-- The parameters at the first `i` places can be bound. -/
def BindsFront (signatures : String → Option Signature) (command : String) (n : Nat)
    (ps : List Signature.Parameter) (qs : List Parameter) (i : Nat) : Prop :=
  ∀ j < i, ∀ p q, ps[j]? = some p → qs[j]? = some q →
    ∃ a, bindParameter signatures command (n + j) p q = .ok a

theorem BindsFront.cons {i : Nat} {a : Argument}
    (head : bindParameter signatures command n p q = .ok a)
    (h : BindsFront signatures command (n + 1) ps qs i) :
    BindsFront signatures command n (p :: ps) (q :: qs) (i + 1) := by
  intro j hj p' q' hp hq
  cases j with
  | zero =>
    cases hp
    cases hq
    exact ⟨a, head⟩
  | succ j =>
    rw [Nat.add_comm j, ← Nat.add_assoc]
    exact h j (by omega) p' q' hp hq

/-- All parameters can be bound, or the first that cannot be decides. -/
theorem bindParameters_spec (signatures : String → Option Signature) (command : String) (n : Nat)
    (ps : List Signature.Parameter) (qs : List Parameter) :
    (∃ as, bindParameters signatures command n ps qs = .ok as ∧
      ∀ i, BindsFront signatures command n ps qs i) ∨
    ∃ e i p q, bindParameters signatures command n ps qs = .error e ∧
      ps[i]? = some p ∧ qs[i]? = some q ∧
      bindParameter signatures command (n + i) p q = .error e ∧
      BindsFront signatures command n ps qs i := by
  induction ps generalizing n qs with
  | nil => exact .inl ⟨[], by simp [bindParameters], by simp [BindsFront]⟩
  | cons p ps ih =>
    cases qs with
    | nil => exact .inl ⟨[], by simp [bindParameters], by simp [BindsFront]⟩
    | cons q qs =>
      rw [bindParameters_cons]
      cases hq : bindParameter signatures command n p q with
      | error e =>
        refine .inr ⟨e, 0, p, q, rfl, rfl, rfl, hq, ?_⟩
        intro j hj
        omega
      | ok a =>
        rcases ih (n + 1) qs with ⟨as, ok, all⟩ | ⟨e, i, p', q', error, rest⟩
        · refine .inl ⟨a :: as, by rw [ok]; rfl, fun i => ?_⟩
          cases i with
          | zero =>
            intro j hj
            omega
          | succ i => exact .cons hq (all i)
        · obtain ⟨hp', hq', at_i, front⟩ := rest
          refine .inr ⟨e, i + 1, p', q', by rw [error]; rfl, hp', hq', ?_, .cons hq front⟩
          rw [Nat.add_comm i, ← Nat.add_assoc]
          exact at_i

theorem bindParameters_eq_error {i : Nat} (hp : ps[i]? = some p) (hq : qs[i]? = some q)
    (fault : bindParameter signatures command (n + i) p q = .error e)
    (front : BindsFront signatures command n ps qs i) :
    bindParameters signatures command n ps qs = .error e := by
  rcases bindParameters_spec signatures command n ps qs with
    ⟨as, ok, all⟩ | ⟨e', i', p', q', error, hp', hq', fault', front'⟩
  · obtain ⟨a, ha⟩ := all (i + 1) i (by omega) p q hp hq
    rw [fault] at ha
    cases ha
  · rcases Nat.lt_trichotomy i i' with before | rfl | behind
    · obtain ⟨a, ha⟩ := front' i before p q hp hq
      rw [fault] at ha
      cases ha
    · rw [hp] at hp'
      rw [hq] at hq'
      cases hp'
      cases hq'
      rw [fault] at fault'
      cases fault'
      exact error
    · obtain ⟨a, ha⟩ := front i' behind p' q' hp' hq'
      rw [fault'] at ha
      cases ha

end Loop

section Command

variable {signatures : String → Option Signature} {c : Command} {s : Signature}

theorem Command.bind_unknown (absent : signatures c.name = none) :
    c.bind signatures = .error ⟨c.position, .unknownCommand c.name⟩ := by
  obtain ⟨name, place, parameters⟩ := c
  simp only [Command.name] at absent
  simp only [Command.bind, absent, Command.position, Command.name]

theorem Command.bind_missing {p : Signature.Parameter} (found : signatures c.name = some s)
    (absent : s.parameters[c.parameters.length]? = some p) :
    c.bind signatures = .error
      ⟨c.position, .missingArgument c.name (c.parameters.length + 1) p.name p.kind⟩ := by
  obtain ⟨name, place, parameters⟩ := c
  simp only [Command.name] at found
  simp only [Command.parameters] at absent
  simp only [Command.bind, found, absent, Command.position, Command.name, Command.parameters]

theorem Command.bind_extra {q : Parameter} (found : signatures c.name = some s)
    (surplus : c.parameters[s.arity]? = some q) :
    c.bind signatures =
      .error ⟨q.position, .extraArgument c.name (s.arity + 1) s.arity⟩ := by
  obtain ⟨name, place, parameters⟩ := c
  simp only [Command.name] at found
  simp only [Command.parameters] at surplus
  have enough : s.parameters[parameters.length]? = none := by
    obtain ⟨given, -⟩ := List.getElem?_eq_some_iff.mp surplus
    exact List.getElem?_eq_none (Nat.le_of_lt given)
  simp only [Command.bind, found, enough, surplus, Command.name]

theorem Command.bind_full (found : signatures c.name = some s)
    (arity : c.parameters.length = s.arity) :
    c.bind signatures = do
      return .mk c.name (← bindParameters signatures c.name 1 s.parameters c.parameters) := by
  obtain ⟨name, place, parameters⟩ := c
  simp only [Command.name] at found
  simp only [Command.parameters] at arity
  have enough : s.parameters[parameters.length]? = none :=
    List.getElem?_eq_none (Nat.le_of_eq arity.symm)
  have all : parameters[s.arity]? = none := List.getElem?_eq_none (Nat.le_of_eq arity)
  simp only [Command.bind, found, enough, all, Command.name, Command.parameters]

/-- Before its parameters are looked at one by one, a command is checked in three ways. -/
theorem Command.bind_cases (signatures : String → Option Signature) (c : Command) :
    signatures c.name = none ∨ ∃ s, signatures c.name = some s ∧
      ((∃ p, s.parameters[c.parameters.length]? = some p) ∨
        (∃ q, c.parameters[s.arity]? = some q) ∨ c.parameters.length = s.arity) := by
  cases found : signatures c.name with
  | none => exact .inl rfl
  | some s =>
    refine .inr ⟨s, rfl, ?_⟩
    rcases Nat.lt_trichotomy c.parameters.length s.arity with few | arity | many
    · exact .inl ⟨_, List.getElem?_eq_getElem few⟩
    · exact .inr (.inr arity)
    · exact .inr (.inl ⟨_, List.getElem?_eq_getElem many⟩)

theorem Parameter.eq_argument_of_bind {q : Parameter} {a : Argument}
    (inner : ∀ c, q = .command c → ∀ call, c.bind signatures = .ok call → call = c.call)
    (ok : q.bind signatures = .ok a) : a = q.argument := by
  cases q with
  | literal value place =>
    cases ok
    rfl
  | command c =>
    obtain ⟨call, hc, ok⟩ := bind_eq_ok.mp ok
    cases ok
    rw [inner c rfl call hc]
    rfl

theorem bindParameters_eq_arguments {command : String} {n : Nat} {ps : List Signature.Parameter}
    {qs : List Parameter} {as : List Argument} (arity : qs.length = ps.length)
    (inner : ∀ c, .command c ∈ qs → ∀ call, c.bind signatures = .ok call → call = c.call)
    (ok : bindParameters signatures command n ps qs = .ok as) : as = arguments qs := by
  induction qs generalizing n ps as with
  | nil =>
    obtain rfl := List.eq_nil_of_length_eq_zero arity.symm
    simp only [bindParameters] at ok
    cases ok
    rw [arguments]
  | cons q qs ih =>
    cases ps with
    | nil => cases arity
    | cons p ps =>
      rw [bindParameters_cons] at ok
      obtain ⟨a, hq, ok⟩ := bind_eq_ok.mp ok
      obtain ⟨rest, hqs, ok⟩ := bind_eq_ok.mp ok
      cases ok
      have behind := ih (Nat.succ.inj arity) (fun c mem => inner c (List.mem_cons_of_mem q mem)) hqs
      unfold bindParameter at hq
      split at hq
      · have head : a = q.argument := by
          apply Parameter.eq_argument_of_bind _ hq
          rintro c rfl
          exact inner c List.mem_cons_self
        rw [arguments_cons, head, behind]
      · cases hq

/-- Whatever the signatures are, a command is bound to the call that it denotes. -/
theorem Command.eq_call_of_bind {call : Call} (ok : c.bind signatures = .ok call) :
    call = c.call := by
  induction c using Command.nested_induction generalizing call with
  | step c ih =>
    rcases c.bind_cases signatures with absent | ⟨s, found, ⟨p, absent⟩ | ⟨q, surplus⟩ | arity⟩
    · rw [bind_unknown absent] at ok
      cases ok
    · rw [bind_missing found absent] at ok
      cases ok
    · rw [bind_extra found surplus] at ok
      cases ok
    · rw [bind_full found arity] at ok
      obtain ⟨as, has, ok⟩ := bind_eq_ok.mp ok
      cases ok
      rw [bindParameters_eq_arguments arity (fun e mem _ => ih e mem) has, call_eq]

/-- What a command is bound to has the name of one that is known. -/
theorem Command.exists_signature_of_bind {call : Call} (ok : c.bind signatures = .ok call) :
    ∃ s, signatures call.name = some s := by
  rw [eq_call_of_bind ok, call_eq, Call.name]
  cases found : signatures c.name with
  | none =>
    rw [bind_unknown found] at ok
    cases ok
  | some s => exact ⟨s, rfl⟩

end Command

end TypedCommands
