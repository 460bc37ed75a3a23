import TypedCommands.Proofs.Binding
import TypedCommands.Proofs.Blame

/-! Well-typed commands. Binding accepts exactly these, and of any other command it reports the
fault that a reader meets first who looks at a command before its parameters and at these from left
to right. -/
namespace TypedCommands

variable {σ : Type}

namespace Declaration

/-- The command has the declared name and, at each position, a parameter of the declared kind. -/
structure Admits (d : Declaration σ) (c : Command) : Prop where
  name : d.name = c.name
  arity : c.parameters.length = d.parameters.length
  kinds : ∀ i q, c.parameters[i]? = some q → ∃ name, ⟨i + 1, name, [q.kind]⟩ ∈ d.parameters

end Declaration

/-- Every command within the command, itself among them, is as one of the declarations has it. -/
def Command.WellTyped (ds : List (Declaration σ)) (c : Command) : Prop :=
  ∀ e : Command, e.Within c → ∃ d ∈ ds, d.Admits e

/-- The declaration allows the parameter behind `i` others, and what is nested in it is well
typed. -/
def Parameter.Suits (ds : List (Declaration σ)) (d : Declaration σ) (i : Nat) (q : Parameter) :
    Prop :=
  (∃ name, ⟨i + 1, name, [q.kind]⟩ ∈ d.parameters) ∧ ∀ e, q = .command e → e.WellTyped ds

/-- The fault that is met first: at a command the name, then the number of the parameters, then
these from left to right, and what is nested in a parameter only if a command is declared there. -/
inductive FirstFault (ds : List (Declaration σ)) : Command → BindError → Prop where
  | unknown {c : Command} (unknown : ∀ d ∈ ds, d.name ≠ c.name) :
      FirstFault ds c ⟨c.position, .unknownCommand c.name⟩
  | missing {c : Command} {d : Declaration σ} {name : String} {kind : Kind} (mem : d ∈ ds)
      (named : d.name = c.name)
      (absent : ⟨c.parameters.length + 1, name, [kind]⟩ ∈ d.parameters) :
      FirstFault ds c
        ⟨c.position, .missingArgument c.name (c.parameters.length + 1) name kind⟩
  | extra {c : Command} {d : Declaration σ} {q : Parameter} (mem : d ∈ ds)
      (named : d.name = c.name) (surplus : c.parameters[d.parameters.length]? = some q) :
      FirstFault ds c
        ⟨q.position, .extraArgument c.name (d.parameters.length + 1) d.parameters.length⟩
  | mismatch {c : Command} {d : Declaration σ} {i : Nat} {q : Parameter} {name : String}
      {kind : Kind} (mem : d ∈ ds) (named : d.name = c.name)
      (arity : c.parameters.length = d.parameters.length)
      (front : ∀ j < i, ∀ p, c.parameters[j]? = some p → p.Suits ds d j)
      (given : c.parameters[i]? = some q) (declared : ⟨i + 1, name, [kind]⟩ ∈ d.parameters)
      (differs : q.kind ≠ kind) :
      FirstFault ds c ⟨q.position, .typeMismatch c.name (i + 1) name kind q.kind⟩
  | nested {c inner : Command} {d : Declaration σ} {i : Nat} {name : String} {e : BindError}
      (mem : d ∈ ds) (named : d.name = c.name)
      (arity : c.parameters.length = d.parameters.length)
      (front : ∀ j < i, ∀ p, c.parameters[j]? = some p → p.Suits ds d j)
      (given : c.parameters[i]? = some (.command inner))
      (declared : ⟨i + 1, name, [.command]⟩ ∈ d.parameters) (fault : FirstFault ds inner e) :
      FirstFault ds c e

theorem Command.wellTyped_iff {ds : List (Declaration σ)} {c : Command} :
    c.WellTyped ds ↔ ∃ d ∈ ds, d.name = c.name ∧ c.parameters.length = d.parameters.length ∧
      ∀ i (q : Parameter), c.parameters[i]? = some q → q.Suits ds d i := by
  constructor
  · intro h
    obtain ⟨d, mem, admits⟩ := h c .refl
    refine ⟨d, mem, admits.name, admits.arity, fun i q hq => ⟨admits.kinds i q hq, ?_⟩⟩
    rintro e rfl e' within
    exact h e' (.parameter (List.mem_of_getElem? hq) within)
  · rintro ⟨d, mem, name, arity, suits⟩ e within
    cases within with
    | refl => exact ⟨d, mem, name, arity, fun i q hq => (suits i q hq).1⟩
    | parameter hp inner =>
      obtain ⟨i, hi⟩ := List.mem_iff_getElem?.mp hp
      exact (suits i _ hi).2 _ rfl e inner

/-- The kind that is declared for a place is the one that the signature has there. -/
theorem Declaration.Describes.kind_iff {d : Declaration σ} {s : Signature} (hd : d.Describes s)
    {i : Nat} {p : Signature.Parameter} (hp : s.parameters[i]? = some p) {kind : Kind} :
    (∃ name, ⟨i + 1, name, [kind]⟩ ∈ d.parameters) ↔ kind = p.kind := by
  constructor
  · rintro ⟨name, mem⟩
    have declared := (hd.parameter i ⟨name, kind⟩).mpr mem
    rw [hp] at declared
    cases declared
    rfl
  · rintro rfl
    exact ⟨p.name, (hd.parameter i p).mp hp⟩

section Exact

variable {ds : List (Declaration σ)} {r : Registry σ} {signatures : String → Option Signature}
variable {c : Command} {d : Declaration σ} {s : Signature} {e : BindError}

/-- Binding accepts the command if it is well typed, and otherwise reports its first fault. -/
structure Command.BindsExactly (ds : List (Declaration σ)) (signatures : String → Option Signature)
    (c : Command) : Prop where
  ok : (∃ call, c.bind signatures = .ok call) ↔ c.WellTyped ds
  error : ∀ e, c.bind signatures = .error e ↔ FirstFault ds c e

theorem bindParameter_ok_iff {command : String} {n i : Nat} {p : Signature.Parameter}
    {q : Parameter} (hd : d.Describes s) (hp : s.parameters[i]? = some p)
    (inner : ∀ e, q = .command e → e.BindsExactly ds signatures) :
    (∃ a, bindParameter signatures command n p q = .ok a) ↔ q.Suits ds d i := by
  unfold Parameter.Suits bindParameter
  rw [hd.kind_iff hp]
  by_cases hk : q.kind = p.kind
  · rw [if_pos hk]
    cases q with
    | literal value place => simp [hk, Parameter.bind]
    | command e =>
      constructor
      · rintro ⟨a, ha⟩
        obtain ⟨call, he, -⟩ := bind_eq_ok.mp ha
        refine ⟨hk, ?_⟩
        rintro _ ⟨⟩
        exact (inner e rfl).ok.mp ⟨call, he⟩
      · rintro ⟨-, typed⟩
        obtain ⟨call, he⟩ := (inner e rfl).ok.mpr (typed e rfl)
        exact ⟨.command call, bind_eq_ok.mpr ⟨call, he, rfl⟩⟩
  · simp [hk]

/-- The parameters in front are bound if each of them suits its place. -/
theorem bindsFront_iff (hd : d.Describes s) (arity : c.parameters.length = s.arity)
    (inner : ∀ e, .command e ∈ c.parameters → e.BindsExactly ds signatures) {i : Nat} :
    BindsFront signatures c.name 1 s.parameters c.parameters i ↔
      ∀ j < i, ∀ q : Parameter, c.parameters[j]? = some q → q.Suits ds d j := by
  have nested {j : Nat} {q : Parameter} (hq : c.parameters[j]? = some q) :
      ∀ e, q = .command e → e.BindsExactly ds signatures := by
    rintro e rfl
    exact inner e (List.mem_of_getElem? hq)
  constructor
  · intro front j hj q hq
    obtain ⟨hl, -⟩ := List.getElem?_eq_some_iff.mp hq
    rw [arity] at hl
    have hp : s.parameters[j]? = some s.parameters[j] := List.getElem?_eq_getElem hl
    exact (bindParameter_ok_iff hd hp (nested hq)).mp (front j hj _ q hp hq)
  · intro suits j hj p q hp hq
    exact (bindParameter_ok_iff hd hp (nested hq)).mpr (suits j hj q hq)

theorem Command.bind_of_wellTyped (h : Registry.build ds = .ok r)
    (inner : ∀ e, .command e ∈ c.parameters → e.BindsExactly ds r.signature?)
    (typed : c.WellTyped ds) : ∃ call, c.bind r.signature? = .ok call := by
  obtain ⟨d, mem, named, arity, suits⟩ := wellTyped_iff.mp typed
  obtain ⟨s, found, hd⟩ := Registry.exists_describes h mem named
  have full : c.parameters.length = s.arity := arity.trans hd.arity.symm
  have front (i : Nat) := (bindsFront_iff hd full inner (i := i)).mpr fun j _ => suits j
  rw [bind_full found full]
  rcases bindParameters_spec r.signature? c.name 1 s.parameters c.parameters with
    ⟨as, ok, -⟩ | ⟨e, i, p, q, -, hp, hq, fault, -⟩
  · exact ⟨_, bind_eq_ok.mpr ⟨as, ok, rfl⟩⟩
  · obtain ⟨a, ok⟩ := front (i + 1) i (by omega) p q hp hq
    rw [fault] at ok
    cases ok

theorem FirstFault.bind_eq_error (h : Registry.build ds = .ok r)
    (inner : ∀ e, .command e ∈ c.parameters → e.BindsExactly ds r.signature?)
    (fault : FirstFault ds c e) : c.bind r.signature? = .error e := by
  cases fault with
  | unknown unknown => exact Command.bind_unknown ((Registry.signature?_eq_none_iff h).mpr unknown)
  | @missing _ d name kind mem named absent =>
    obtain ⟨s, found, hd⟩ := Registry.exists_describes h mem named
    exact Command.bind_missing found ((hd.parameter _ ⟨name, kind⟩).mpr absent)
  | extra mem named surplus =>
    obtain ⟨s, found, hd⟩ := Registry.exists_describes h mem named
    rw [← hd.arity] at surplus ⊢
    exact Command.bind_extra found surplus
  | @mismatch _ d i q name kind mem named arity front given declared differs =>
    obtain ⟨s, found, hd⟩ := Registry.exists_describes h mem named
    have full : c.parameters.length = s.arity := arity.trans hd.arity.symm
    have hp := (hd.parameter i ⟨name, kind⟩).mpr declared
    have fault : bindParameter r.signature? c.name (1 + i) ⟨name, kind⟩ q =
        .error ⟨q.position, .typeMismatch c.name (i + 1) name kind q.kind⟩ := by
      rw [Nat.add_comm]
      exact bindParameter_eq_error_iff.mpr (.inl ⟨differs, rfl⟩)
    rw [Command.bind_full found full,
      bindParameters_eq_error hp given fault ((bindsFront_iff hd full inner).mpr front)]
    rfl
  | @nested _ e' d i name _ mem named arity front given declared fault =>
    obtain ⟨s, found, hd⟩ := Registry.exists_describes h mem named
    have full : c.parameters.length = s.arity := arity.trans hd.arity.symm
    have hp := (hd.parameter i ⟨name, .command⟩).mpr declared
    have within := ((inner e' (List.mem_of_getElem? given)).error e).mpr fault
    have fault : bindParameter r.signature? c.name (1 + i) ⟨name, .command⟩ (.command e') =
        .error e := bindParameter_eq_error_iff.mpr (.inr ⟨rfl, e', rfl, within⟩)
    rw [Command.bind_full found full,
      bindParameters_eq_error hp given fault ((bindsFront_iff hd full inner).mpr front)]
    rfl

/-- One of the two: bound and well typed, or refused for its first fault. -/
theorem Command.wellTyped_or_firstFault (h : Registry.build ds = .ok r)
    (inner : ∀ e, .command e ∈ c.parameters → e.BindsExactly ds r.signature?) :
    (∃ call, c.bind r.signature? = .ok call) ∧ c.WellTyped ds ∨
      ∃ e, c.bind r.signature? = .error e ∧ FirstFault ds c e := by
  rcases c.bind_cases r.signature? with absent | ⟨s, found, check⟩
  · exact .inr ⟨_, bind_unknown absent, .unknown ((Registry.signature?_eq_none_iff h).mp absent)⟩
  obtain ⟨d, mem, named, hd⟩ := Registry.exists_of_signature? h found
  rcases check with ⟨p, absent⟩ | ⟨q, surplus⟩ | full
  · exact .inr ⟨_, bind_missing found absent, .missing mem named ((hd.parameter _ p).mp absent)⟩
  · refine .inr ⟨_, bind_extra found surplus, ?_⟩
    rw [hd.arity] at surplus ⊢
    exact .extra mem named surplus
  have arity : c.parameters.length = d.parameters.length := full.trans hd.arity
  rw [bind_full found full]
  rcases bindParameters_spec r.signature? c.name 1 s.parameters c.parameters with
    ⟨as, ok, all⟩ | ⟨e, i, p, q, error, hp, hq, fault, front⟩
  · refine .inl ⟨⟨_, bind_eq_ok.mpr ⟨as, ok, rfl⟩⟩, wellTyped_iff.mpr ⟨d, mem, named, arity, ?_⟩⟩
    intro i q hq
    exact (bindsFront_iff hd full inner).mp (all (i + 1)) i (by omega) q hq
  · refine .inr ⟨e, by rw [error]; rfl, ?_⟩
    have front := (bindsFront_iff hd full inner).mp front
    have declared := (hd.parameter i p).mp hp
    rw [Nat.add_comm] at fault
    rcases bindParameter_eq_error_iff.mp fault with ⟨differs, rfl⟩ | ⟨same, e', rfl, he⟩
    · exact .mismatch mem named arity front hq declared differs
    · rw [← same] at declared
      have first := ((inner e' (List.mem_of_getElem? hq)).error e).mp he
      exact .nested mem named arity front hq declared first

theorem Command.bindsExactly (h : Registry.build ds = .ok r) (c : Command) :
    c.BindsExactly ds r.signature? := by
  induction c using Command.nested_induction with
  | step c inner =>
    constructor
    case ok =>
      constructor
      · rintro ⟨call, ok⟩
        rcases wellTyped_or_firstFault h inner with ⟨-, typed⟩ | ⟨e, error, -⟩
        · exact typed
        · rw [ok] at error
          cases error
      · intro typed
        exact bind_of_wellTyped h inner typed
    case error =>
      intro e
      constructor
      · intro error
        rcases wellTyped_or_firstFault h inner with ⟨⟨call, ok⟩, -⟩ | ⟨e', error', first⟩
        · rw [error] at ok
          cases ok
        · rw [error] at error'
          cases error'
          exact first
      · intro first
        exact first.bind_eq_error h inner

theorem Command.bind_eq_ok_iff (h : Registry.build ds = .ok r) {call : Call} :
    c.bind r.signature? = .ok call ↔ c.WellTyped ds ∧ call = c.call := by
  constructor
  · intro ok
    exact ⟨(c.bindsExactly h).ok.mp ⟨call, ok⟩, eq_call_of_bind ok⟩
  · rintro ⟨typed, rfl⟩
    obtain ⟨call, ok⟩ := (c.bindsExactly h).ok.mpr typed
    rw [ok, eq_call_of_bind ok]

end Exact

/-- Binding by a registry accepts exactly the well-typed commands, and gives the calls that they
denote. Of any other command it reports the fault that is met first. -/
theorem bind_exact {ds : List (Declaration σ)} {r : Registry σ} (h : Registry.build ds = .ok r)
    (c : Command) :
    (∀ call, c.bind r.signature? = .ok call ↔ c.WellTyped ds ∧ call = c.call) ∧
      ∀ e, c.bind r.signature? = .error e ↔ FirstFault ds c e :=
  ⟨fun _ => Command.bind_eq_ok_iff h, (c.bindsExactly h).error⟩

/-- `Not (Length 7)`: the number is refused, with the name of the nested command. -/
theorem bind_exact_nested_mismatch :
    let inner : Command := .mk "Length" ⟨1, 6⟩ [.literal (.integer 7) ⟨1, 13⟩]
    ∃ r : Registry Unit, Registry.build Builtin.declarations = .ok r ∧
      (Command.mk "Not" ⟨1, 1⟩ [.command inner]).bind r.signature? =
        .error ⟨⟨1, 13⟩, .typeMismatch "Length" 1 "Text" .text .integer⟩ := by
  intro inner
  obtain ⟨r, h⟩ := Builtin.build_declarations (σ := Unit)
  have mem (b : Builtin) : b.declaration ∈ (Builtin.declarations : List (Declaration Unit)) :=
    List.mem_map_of_mem (by cases b <;> decide)
  have text : ⟨1, "Text", [.text]⟩ ∈
      (Builtin.length.declaration : Declaration Unit).parameters := by decide
  have condition : ⟨1, "Cond", [.command]⟩ ∈
      (Builtin.not.declaration : Declaration Unit).parameters := by decide
  have fault : FirstFault (Builtin.declarations : List (Declaration Unit)) inner
      ⟨⟨1, 13⟩, .typeMismatch "Length" 1 "Text" .text .integer⟩ :=
    .mismatch (i := 0) (q := .literal (.integer 7) ⟨1, 13⟩) (mem .length) rfl rfl (by omega) rfl
      text (by decide)
  refine ⟨r, h, ((bind_exact h _).2 _).mpr ?_⟩
  exact .nested (i := 0) (mem .not) rfl rfl (by omega) rfl condition fault

end TypedCommands
