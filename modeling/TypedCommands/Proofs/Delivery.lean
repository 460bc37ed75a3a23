import TypedCommands.Proofs.Typing

/-! From the text to the handler. A text that spells a well-typed command passes the check, and
running its call hands each written value to the handler of its command, where only the accessor of
the value's kind gives it out. -/
namespace TypedCommands

variable {σ : Type}

/-- The kind of the accessor that gives the operand out. -/
def Operand.kind : Operand σ → Kind
  | .literal value => value.kind
  | .command _ => .command

namespace Operands

variable {o : Operands σ} {position : Nat}

/-- The accessor of the value's kind answers with the value. -/
def Gives (o : Operands σ) (position : Nat) : Literal → Prop
  | .integer n => o.integer position = .ok n
  | .float x => o.float position = .ok x
  | .text s => o.text position = .ok s

/-- The accessor of the kind fails, and says for which position it was asked. -/
def Refuses (o : Operands σ) (position : Nat) : Kind → Prop
  | .integer => o.integer position = .error (.badArgument position .integer)
  | .float => o.float position = .error (.badArgument position .float)
  | .text => o.text position = .error (.badArgument position .text)
  | .command => o.nested position = .error (.badArgument position .command)

theorem gives_of_get? {value : Literal} (h : o.get? position = some (.literal value)) :
    o.Gives position value := by
  cases value <;> simp only [Gives, integer, float, text, h]

theorem nested_of_get? {m : Nested σ} (h : o.get? position = some (.command m)) :
    o.nested position = .ok m := by
  simp only [nested, h]

theorem refuses_of_kind_ne {x : Operand σ} (h : o.get? position = some x) {kind : Kind}
    (other : kind ≠ x.kind) : o.Refuses position kind := by
  rcases x with value | m
  · cases value <;> cases kind <;>
      first
        | exact absurd rfl other
        | simp only [Refuses, integer, float, text, nested, h]
  · cases kind <;>
      first
        | exact absurd rfl other
        | simp only [Refuses, integer, float, text, h]

theorem refuses_of_absent (h : o.get? position = none) (kind : Kind) :
    o.Refuses position kind := by
  cases kind <;> simp only [Refuses, integer, float, text, nested, h]

end Operands

/-- Running the nested command calls the handler that was declared for the command, with operands
that bear the declared name, have the written values at their positions and nothing else. -/
inductive Reaches (ds : List (Declaration σ)) : Command → Nested σ → Prop where
  | intro {c : Command} {d : Declaration σ} {o : Operands σ} (mem : d ∈ ds) (admits : d.Admits c)
      (command : o.command = d.name) (count : o.values.length = d.parameters.length)
      (literal : ∀ i value place, c.parameters[i]? = some (.literal value place) →
        o.Gives (i + 1) value)
      (answers : ∀ i e, c.parameters[i]? = some (.command e) → ∃ m, o.nested (i + 1) = .ok m)
      (nested : ∀ i e m, c.parameters[i]? = some (.command e) → o.nested (i + 1) = .ok m →
        Reaches ds e m)
      (other : ∀ i (q : Parameter) kind, c.parameters[i]? = some q → kind ≠ q.kind →
        o.Refuses (i + 1) kind)
      (outside : ∀ position kind, position = 0 ∨ d.parameters.length < position →
        o.Refuses position kind) :
      Reaches ds c ⟨c.call, d.handler.run o⟩

section Run

variable {ds : List (Declaration σ)} {r : Registry σ} {handlers : String → Option (Handler σ)}
variable {c : Command}

/-- What a handler sees of a parameter. -/
def Parameter.operand (handlers : String → Option (Handler σ)) : Parameter → Operand σ
  | .literal value _ => .literal value
  | .command c => .command ⟨c.call, c.call.run handlers⟩

theorem Parameter.operand_kind (handlers : String → Option (Handler σ)) (q : Parameter) :
    (q.operand handlers).kind = q.kind := by
  cases q <;> rfl

theorem operands_arguments (qs : List Parameter) :
    operands handlers (arguments qs) = qs.map (Parameter.operand handlers) := by
  induction qs with
  | nil => rw [arguments, operands, List.map_nil]
  | cons q qs ih =>
    rw [arguments_cons, List.map_cons, ← ih]
    cases q <;> rw [Parameter.argument, operands, Parameter.operand]

/-- What the handler of a command is given. -/
def Command.operands (handlers : String → Option (Handler σ)) (c : Command) : Operands σ :=
  ⟨c.name, c.parameters.map (Parameter.operand handlers)⟩

theorem Command.run_call {handler : Handler σ} (found : handlers c.name = some handler) :
    c.call.run handlers = handler.run (c.operands handlers) := by
  rw [call_eq, Call.run, found, operands_arguments, operands]

theorem Command.get?_operands {i : Nat} {q : Parameter} (hq : c.parameters[i]? = some q) :
    (c.operands handlers).get? (i + 1) = some (q.operand handlers) := by
  rw [Operands.get?_succ, operands, List.getElem?_map, hq, Option.map_some]

theorem Command.get?_operands_eq_none {position : Nat}
    (outside : position = 0 ∨ c.parameters.length < position) :
    (c.operands handlers).get? position = none := by
  cases position with
  | zero => exact Operands.get?_zero _
  | succ i =>
    rw [Operands.get?_succ, operands, List.getElem?_map, List.getElem?_eq_none (by omega),
      Option.map_none]

theorem Command.reaches (h : Registry.build ds = .ok r) (typed : c.WellTyped ds) :
    Reaches ds c ⟨c.call, c.call.run r.handler?⟩ := by
  induction c using Command.nested_induction with
  | step c ih =>
    obtain ⟨d, mem, admits⟩ := typed c .refl
    obtain ⟨s, -, -, handler⟩ := Registry.lookup_of_mem h mem
    rw [admits.name] at handler
    have answer {i : Nat} {e : Command} (hq : c.parameters[i]? = some (.command e)) :
        (c.operands r.handler?).nested (i + 1) = .ok ⟨e.call, e.call.run r.handler?⟩ :=
      Operands.nested_of_get? (get?_operands hq)
    rw [run_call handler]
    apply Reaches.intro mem admits
    · exact admits.name.symm
    · rw [operands, List.length_map, admits.arity]
    · intro i value place hq
      exact Operands.gives_of_get? (get?_operands hq)
    · intro i e hq
      exact ⟨_, answer hq⟩
    · intro i e m hq hm
      have inner : .command e ∈ c.parameters := List.mem_of_getElem? hq
      rw [answer hq] at hm
      cases hm
      exact ih e inner fun e' within => typed e' (.parameter inner within)
    · intro i q kind hq other
      rw [← q.operand_kind r.handler?] at other
      exact Operands.refuses_of_kind_ne (get?_operands hq) other
    · intro position kind outside
      rw [← admits.arity] at outside
      exact Operands.refuses_of_absent (get?_operands_eq_none outside) kind

/-- A text that spells a well-typed command passes the check. -/
theorem Environment.check_eq_ok {env : Environment σ} {source : String}
    (h : Registry.build ds = .ok env.registry)
    (written : Written maxDepth (Token.body (Token.tokens source)) c) (typed : c.WellTyped ds) :
    env.check source = .ok c.call := by
  have parsed : Command.parse source = .ok c :=
    Command.parse_eq_ok_iff.mpr (Parser.run_eq_ok_iff.mpr written)
  have bound : env.bind c = .ok c.call := (Command.bind_eq_ok_iff h).mpr ⟨typed, rfl⟩
  simp only [check, parsed, bound]

end Run

/-- A text that spells a well-typed command passes the check, and the handler of the command is run
with exactly the written values, as are those of the commands nested in it. -/
theorem check_delivers {ds : List (Declaration σ)} (env : Environment σ) {source : String}
    {c : Command} (h : Registry.build ds = .ok env.registry)
    (written : Written maxDepth (Token.body (Token.tokens source)) c) (typed : c.WellTyped ds) :
    env.check source = .ok c.call ∧ Reaches ds c ⟨c.call, env.execute c.call⟩ :=
  ⟨env.check_eq_ok h written typed, c.reaches h typed⟩

/-- The parameters are declared in the opposite order, and one of them is a command. -/
theorem check_delivers_reordered :
    let pair : Declaration Unit :=
      ⟨some "Pair", [⟨2, "Then", [.command]⟩, ⟨1, "First", [.integer]⟩],
        ⟨"pair", fun _ => return .ofBool true⟩⟩
    let ds := [pair, Builtin.length.declaration]
    let inner : Command := .mk "Length" ⟨1, 9⟩ [.literal (.text "ab") ⟨1, 16⟩]
    let c : Command := .mk "Pair" ⟨1, 1⟩ [.literal (.integer 7) ⟨1, 6⟩, .command inner]
    ∃ env : Environment Unit, Registry.build ds = .ok env.registry ∧
      env.check "Pair 7 (Length \"ab\")" = .ok c.call ∧
      Reaches ds c ⟨c.call, env.execute c.call⟩ := by
  intro pair ds inner c
  have sorted : Declaration.sort [⟨2, "Then", .command⟩, ⟨1, "First", .integer⟩] =
      [⟨1, "First", .integer⟩, ⟨2, "Then", .command⟩] := by
    simp [Declaration.sort, List.mergeSort, List.MergeSort.Internal.splitInTwo]
  have ordered : Declaration.order "Pair" [⟨2, "Then", .command⟩, ⟨1, "First", .integer⟩] =
      .ok [⟨"First", .integer⟩, ⟨"Then", .command⟩] := by
    unfold Declaration.order
    rw [sorted]
    rfl
  have signature : pair.signature = .ok ⟨"Pair", [⟨"First", .integer⟩, ⟨"Then", .command⟩]⟩ :=
    Declaration.signature_eq_ok (by decide) rfl ordered
  have sound : ∀ d ∈ ds, ∃ s, d.signature = .ok s := by
    intro d mem
    rcases List.mem_cons.mp mem with rfl | mem
    · exact ⟨_, signature⟩
    · obtain rfl := List.mem_singleton.mp mem
      exact ⟨_, Builtin.length.declaration_signature⟩
  obtain ⟨r, h⟩ := Registry.build_eq_ok sound (by decide)
  have tokens : Token.tokens "Pair 7 (Length \"ab\")" =
      [⟨.identifier "Pair", "Pair", ⟨1, 1⟩⟩, ⟨.literal (.integer 7), "7", ⟨1, 6⟩⟩,
        ⟨.opening, "(", ⟨1, 8⟩⟩, ⟨.identifier "Length", "Length", ⟨1, 9⟩⟩,
        ⟨.literal (.text "ab"), "\"ab\"", ⟨1, 16⟩⟩, ⟨.closing, ")", ⟨1, 20⟩⟩,
        ⟨.finish, "", ⟨1, 21⟩⟩] := by decide +kernel
  have written : Written maxDepth (Token.body (Token.tokens "Pair 7 (Length \"ab\")")) c := by
    apply Parser.run_eq_ok_iff.mp
    rw [tokens]
    rfl
  have typed_inner : inner.WellTyped ds := by
    refine Command.wellTyped_iff.mpr ⟨_, List.mem_cons_of_mem _ List.mem_cons_self, rfl, rfl, ?_⟩
    rintro (_ | i) q hq
    · cases hq
      exact ⟨⟨"Text", by decide⟩, by simp⟩
    · cases hq
  have typed : c.WellTyped ds := by
    refine Command.wellTyped_iff.mpr ⟨pair, List.mem_cons_self, rfl, rfl, ?_⟩
    rintro (_ | _ | i) q hq
    · cases hq
      exact ⟨⟨"First", by decide⟩, by simp⟩
    · cases hq
      refine ⟨⟨"Then", by decide⟩, ?_⟩
      rintro _ ⟨⟩
      exact typed_inner
    · cases hq
  obtain ⟨check, reaches⟩ := check_delivers ⟨r, .simple⟩ h written typed
  exact ⟨⟨r, .simple⟩, h, check, reaches⟩

end TypedCommands
