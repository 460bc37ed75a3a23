import TypedCommands.Proofs.Acceptance
import TypedCommands.Proofs.Binding

/-! The same command in other places. Tokens of the same kinds spell the same command wherever they
stand, and binding gives the same call or finds the same fault. -/
namespace TypedCommands

mutual

/-- Tokens of these kinds spell the command, in the places where they stand. -/
theorem Written.relocate {depth : Nat} {ts us : List Token} {c : Command} (h : Written depth ts c)
    (kinds : us.map (·.kind) = ts.map (·.kind)) : ∃ d, Written depth us d ∧ d.call = c.call := by
  match h with
  | @Written.name _ t ts name ps kind rest =>
    obtain ⟨u, us, rfl, head, tail⟩ := List.map_eq_cons_iff.mp kinds
    obtain ⟨qs, written, same⟩ := rest.relocate tail
    refine ⟨_, .name (head.trans kind) written, ?_⟩
    rw [Command.call, Command.call, same]
  | @Written.group depth t u ts c opening inner closing =>
    rw [List.cons_append, List.map_cons, List.map_append] at kinds
    obtain ⟨v, vs, rfl, head, tail⟩ := List.map_eq_cons_iff.mp kinds
    obtain ⟨vs, ws, rfl, body, tail⟩ := List.map_eq_append_iff.mp tail
    obtain ⟨w, ws, rfl, last, tail⟩ := List.map_eq_cons_iff.mp tail
    obtain rfl := List.map_eq_nil_iff.mp tail
    obtain ⟨d, written, same⟩ := inner.relocate body
    exact ⟨d, .group (head.trans opening) written (last.trans closing), same⟩

theorem WrittenParameters.relocate {depth : Nat} {ts us : List Token} {ps : List Parameter}
    (h : WrittenParameters depth ts ps) (kinds : us.map (·.kind) = ts.map (·.kind)) :
    ∃ qs, WrittenParameters depth us qs ∧ arguments qs = arguments ps := by
  match h with
  | .nil =>
    obtain rfl := List.map_eq_nil_iff.mp kinds
    exact ⟨[], .nil, rfl⟩
  | @WrittenParameters.literal _ t ts value ps kind rest =>
    obtain ⟨u, us, rfl, head, tail⟩ := List.map_eq_cons_iff.mp kinds
    obtain ⟨qs, written, same⟩ := rest.relocate tail
    refine ⟨_, .literal (head.trans kind) written, ?_⟩
    rw [arguments, arguments, same]
  | @WrittenParameters.command depth t u ts ts' c ps opening inner closing rest =>
    rw [List.cons_append, List.map_cons, List.map_append] at kinds
    obtain ⟨v, vs, rfl, head, tail⟩ := List.map_eq_cons_iff.mp kinds
    obtain ⟨vs, ws, rfl, body, tail⟩ := List.map_eq_append_iff.mp tail
    obtain ⟨w, ws, rfl, last, tail⟩ := List.map_eq_cons_iff.mp tail
    obtain ⟨d, nested, call⟩ := inner.relocate body
    obtain ⟨qs, written, same⟩ := rest.relocate tail
    refine ⟨_, .command (head.trans opening) nested (last.trans closing) written, ?_⟩
    rw [arguments, arguments, call, same]

end

mutual

/-- No word of a command is an invalid token. -/
theorem Written.valid {depth : Nat} {ts : List Token} {c : Command} (h : Written depth ts c) :
    ∀ t ∈ ts, t.isInvalid = false := by
  match h with
  | .name kind rest =>
    refine List.forall_mem_cons.mpr ⟨?_, rest.valid⟩
    simp only [Token.isInvalid, kind]
  | .group opening inner closing =>
    rw [List.cons_append]
    refine List.forall_mem_cons.mpr ⟨by simp only [Token.isInvalid, opening], ?_⟩
    refine List.forall_mem_append.mpr ⟨inner.valid, List.forall_mem_singleton.mpr ?_⟩
    simp only [Token.isInvalid, closing]

theorem WrittenParameters.valid {depth : Nat} {ts : List Token} {ps : List Parameter}
    (h : WrittenParameters depth ts ps) : ∀ t ∈ ts, t.isInvalid = false := by
  match h with
  | .nil =>
    intro t mem
    exact absurd mem List.not_mem_nil
  | .literal kind rest =>
    refine List.forall_mem_cons.mpr ⟨?_, rest.valid⟩
    simp only [Token.isInvalid, kind]
  | .command opening inner closing rest =>
    rw [List.cons_append]
    refine List.forall_mem_cons.mpr ⟨by simp only [Token.isInvalid, opening], ?_⟩
    refine List.forall_mem_append.mpr ⟨inner.valid, List.forall_mem_cons.mpr ⟨?_, rest.valid⟩⟩
    simp only [Token.isInvalid, closing]

end

theorem arguments_eq_map (qs : List Parameter) : arguments qs = qs.map Parameter.argument := by
  induction qs with
  | nil => rw [arguments, List.map_nil]
  | cons q qs ih => rw [arguments_cons, List.map_cons, ih]

/-- What an outcome of binding says, apart from the place of a fault. -/
def unplaced {α : Type} (x : Except BindError α) : Except BindFault α := x.mapError (·.fault)

theorem unplaced_bind {α β : Type} (x : Except BindError α) (f : α → Except BindError β) :
    unplaced (x >>= f) = unplaced x >>= fun a => unplaced (f a) := by
  cases x <;> rfl

section Binding

variable {signatures : String → Option Signature}

theorem Parameter.kind_argument (q : Parameter) : q.argument.kind = q.kind := by cases q <;> rfl

theorem bindParameter_relocate {command : String} {n : Nat} {p : Signature.Parameter}
    {q r : Parameter} (same : q.argument = r.argument)
    (inner : ∀ c, q = .command c → ∀ d : Command, c.call = d.call →
      unplaced (c.bind signatures) = unplaced (d.bind signatures)) :
    unplaced (bindParameter signatures command n p q) =
      unplaced (bindParameter signatures command n p r) := by
  have kinds : q.kind = r.kind := by rw [← q.kind_argument, same, r.kind_argument]
  by_cases hk : q.kind = p.kind
  · rw [bindParameter_of_kind hk, bindParameter_of_kind (kinds ▸ hk)]
    cases q with
    | literal value place =>
      cases r with
      | literal value' place' =>
        cases same
        rfl
      | command d => cases same
    | command c =>
      cases r with
      | literal value place => cases same
      | command d =>
        have nested := inner c rfl d (Argument.command.inj same)
        rw [Parameter.bind, Parameter.bind, unplaced_bind, unplaced_bind, nested]
  · rw [bindParameter_of_kind_ne hk, bindParameter_of_kind_ne (kinds ▸ hk), kinds]
    rfl

theorem bindParameters_relocate {command : String} {n : Nat} {ps : List Signature.Parameter}
    {qs rs : List Parameter} (same : qs.map Parameter.argument = rs.map Parameter.argument)
    (inner : ∀ c, .command c ∈ qs → ∀ d : Command, c.call = d.call →
      unplaced (c.bind signatures) = unplaced (d.bind signatures)) :
    unplaced (bindParameters signatures command n ps qs) =
      unplaced (bindParameters signatures command n ps rs) := by
  induction qs generalizing rs n ps with
  | nil =>
    obtain rfl := List.map_eq_nil_iff.mp same.symm
    rfl
  | cons q qs ih =>
    obtain ⟨r, rs, rfl, head, tail⟩ := List.map_eq_cons_iff.mp same.symm
    cases ps with
    | nil => simp only [bindParameters]
    | cons p ps =>
      have first : unplaced (bindParameter signatures command n p q) =
          unplaced (bindParameter signatures command n p r) := by
        refine bindParameter_relocate head.symm ?_
        rintro c rfl
        exact inner c List.mem_cons_self
      have rest : unplaced (bindParameters signatures command (n + 1) ps qs) =
          unplaced (bindParameters signatures command (n + 1) ps rs) :=
        ih tail.symm fun c mem => inner c (List.mem_cons_of_mem q mem)
      simp only [bindParameters_cons, unplaced_bind, first, rest]

/-- A command is bound alike wherever it stands: to the same call, or with the same fault. -/
theorem Command.bind_relocate {c d : Command} (same : c.call = d.call) :
    unplaced (c.bind signatures) = unplaced (d.bind signatures) := by
  induction c using Command.nested_induction generalizing d with
  | step c ih =>
    rw [call_eq, call_eq, arguments_eq_map, arguments_eq_map] at same
    obtain ⟨name, given⟩ := Call.mk.inj same
    have length : c.parameters.length = d.parameters.length := by
      simpa using congrArg List.length given
    rcases c.bind_cases signatures with absent | ⟨s, found, ⟨p, absent⟩ | ⟨q, surplus⟩ | arity⟩
    · rw [bind_unknown absent, bind_unknown (name ▸ absent), name]
      rfl
    · rw [bind_missing found absent, bind_missing (name ▸ found) (length ▸ absent), name, length]
      rfl
    · obtain ⟨few, -⟩ := List.getElem?_eq_some_iff.mp surplus
      have surplus' := List.getElem?_eq_getElem (length ▸ few)
      rw [bind_extra found surplus, bind_extra (name ▸ found) surplus', name]
      rfl
    · have parameters : unplaced (bindParameters signatures c.name 1 s.parameters c.parameters) =
          unplaced (bindParameters signatures c.name 1 s.parameters d.parameters) :=
        bindParameters_relocate given fun e mem _ => ih e mem
      rw [bind_full found arity, bind_full (name ▸ found) (length ▸ arity), unplaced_bind,
        unplaced_bind, parameters, name]

end Binding

theorem unplaced_eq_ok_iff {α : Type} {x : Except BindError α} {a : α} :
    unplaced x = .ok a ↔ x = .ok a := by
  cases x with
  | error e => constructor <;> rintro ⟨⟩
  | ok b =>
    constructor <;>
      · rintro ⟨⟩
        rfl

/-- Where a command is bound to a call, so is the same command in other places. -/
theorem Command.bind_eq_ok_of_call_eq {signatures : String → Option Signature} {c d : Command}
    {call : Call} (same : d.call = c.call) (bound : c.bind signatures = .ok call) :
    d.bind signatures = .ok call := by
  rw [← unplaced_eq_ok_iff, bind_relocate same, unplaced_eq_ok_iff]
  exact bound

end TypedCommands
