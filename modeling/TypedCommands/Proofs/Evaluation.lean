import TypedCommands.Proofs.Arithmetic
import TypedCommands.Proofs.Strings

/-! What calls of the built-in commands come to. A call has a literal for its value, or it fails; the
failure is that of the first command to fail, from left to right and only as far as the logic commands
look, and its text names the commands on the way there. -/
namespace TypedCommands

/-- The commands on the way from a call to the one in it that failed, and what it says. -/
structure Failure where
  way : List Call
  message : String

namespace Failure

def text (f : Failure) : String := ": ".intercalate (f.way.map Call.name ++ [f.message])

/-- The text behind the name of the first command. -/
def reason (f : Failure) : String := ": ".intercalate (f.way.tail.map Call.name ++ [f.message])

def within (f : Failure) (call : Call) : Failure := { f with way := call :: f.way }

end Failure

namespace Builtin

def call (o : Builtin) (arguments : List Argument) : Call := .mk o.name arguments

def integerCall (o : Builtin) (a b : Int64) : Call :=
  o.call [.literal (.integer a), .literal (.integer b)]

/-- The exact results of the operations. A quotient rounds towards zero. -/
inductive Computes : Builtin → ℤ → ℤ → ℤ → Prop where
  | add {a b : ℤ} : Computes .add a b (a + b)
  | sub {a b : ℤ} : Computes .sub a b (a - b)
  | mul {a b : ℤ} : Computes .mul a b (a * b)
  | div {a b : ℤ} (nonzero : b ≠ 0) : Computes .div a b (a.tdiv b)

end Builtin

def Literal.truth (b : Bool) : Literal := .integer (if b then 1 else 0)

/-- What a call comes to. The second part of a junction is looked at only if the first one has a
value that does not decide. -/
inductive Evaluates : Call → Except Failure Literal → Prop where
  | exact {o : Builtin} {a b c : Int64} (computes : o.Computes a.toInt b.toInt c.toInt) :
      Evaluates (o.integerCall a b) (.ok (.integer c))
  | overflow {o : Builtin} {a b : Int64} {n : ℤ} (computes : o.Computes a.toInt b.toInt n)
      (outside : n < -2 ^ 63 ∨ 2 ^ 63 ≤ n) :
      Evaluates (o.integerCall a b) (.error ⟨[o.integerCall a b], "integer overflow"⟩)
  | byZero {a : Int64} :
      Evaluates (Builtin.div.integerCall a 0)
        (.error ⟨[Builtin.div.integerCall a 0], "division by zero"⟩)
  | equal {a b : Int64} :
      Evaluates (Builtin.equal.integerCall a b) (.ok (.truth (a = b)))
  | scale {x y : Binary64} :
      Evaluates (Builtin.scale.call [.literal (.float x), .literal (.float y)])
        (.ok (.float (x * y)))
  | concat {x y : String} :
      Evaluates (Builtin.concat.call [.literal (.text x), .literal (.text y)])
        (.ok (.text (x ++ y)))
  | length {x : String} {n : Int64} (exact : n.toInt = x.length) :
      Evaluates (Builtin.length.call [.literal (.text x)]) (.ok (.integer n))
  | echo {x : String} : Evaluates (Builtin.echo.call [.literal (.text x)]) (.ok (.text x))
  | not {c : Call} {v : Literal} (inner : Evaluates c (.ok v)) :
      Evaluates (Builtin.not.call [.command c]) (.ok (.truth (v ≠ .integer 1)))
  | notFails {c : Call} {f : Failure} (inner : Evaluates c (.error f)) :
      Evaluates (Builtin.not.call [.command c])
        (.error (f.within (Builtin.not.call [.command c])))
  | decided {decisive : Bool} {c d : Call} {v : Literal} (first : Evaluates c (.ok v))
      (decides : decide (v = .integer 1) = decisive) :
      Evaluates ((Builtin.junction decisive).call [.command c, .command d]) (.ok (.truth decisive))
  | second {decisive : Bool} {c d : Call} {v w : Literal} (first : Evaluates c (.ok v))
      (undecided : decide (v = .integer 1) ≠ decisive) (second : Evaluates d (.ok w)) :
      Evaluates ((Builtin.junction decisive).call [.command c, .command d])
        (.ok (.truth (w = .integer 1)))
  | firstFails {decisive : Bool} {c d : Call} {f : Failure} (first : Evaluates c (.error f)) :
      Evaluates ((Builtin.junction decisive).call [.command c, .command d])
        (.error (f.within ((Builtin.junction decisive).call [.command c, .command d])))
  | secondFails {decisive : Bool} {c d : Call} {v : Literal} {f : Failure}
      (first : Evaluates c (.ok v)) (undecided : decide (v = .integer 1) ≠ decisive)
      (second : Evaluates d (.error f)) :
      Evaluates ((Builtin.junction decisive).call [.command c, .command d])
        (.error (f.within ((Builtin.junction decisive).call [.command c, .command d])))

/-- The failure leads from the root through logic commands, each one an argument of the one before, to
an operation that failed. -/
structure Failure.Leads (f : Failure) (root : Call) (outer : List Call) (failing : Call) :
    Prop where
  way : f.way = outer ++ [failing]
  root : f.way.head? = some root
  nested : f.way.IsChain fun c d => .command d ∈ c.arguments
  logic : ∀ c ∈ outer, c.name ∈ ["Not", "And", "Or"]
  operation : failing.name ∈ ["Add", "Sub", "Mul", "Div"]
  message : f.message = "integer overflow" ∨ failing.name = "Div" ∧ f.message = "division by zero"

namespace Failure.Leads

variable {f : Failure} {root failing : Call} {outer : List Call}

theorem exists_way (h : f.Leads root outer failing) : ∃ rest, f.way = root :: rest := by
  obtain ⟨rest, split⟩ := List.head?_eq_some_iff.mp h.root
  exact ⟨rest, split⟩

theorem within (h : f.Leads root outer failing) {o : Builtin} {arguments : List Argument}
    (argument : .command root ∈ arguments) (logic : o.name ∈ ["Not", "And", "Or"]) :
    (f.within (o.call arguments)).Leads (o.call arguments) (o.call arguments :: outer) failing where
  way := congrArg (_ :: ·) h.way
  root := rfl
  nested := by
    obtain ⟨rest, split⟩ := h.exists_way
    have chain := h.nested
    rw [Failure.within, split]
    rw [split] at chain
    exact .cons_cons argument chain
  logic := List.forall_mem_cons.mpr ⟨logic, h.logic⟩
  operation := h.operation
  message := h.message

/-- The text of a failure is the name of the root and the reason. -/
theorem text (h : f.Leads root outer failing) : f.text = root.name ++ ": " ++ f.reason := by
  obtain ⟨rest, split⟩ := h.exists_way
  rw [Failure.text, reason, split, List.map_cons, List.cons_append, List.tail_cons,
    String.intercalate_cons_of_ne_nil (by simp)]

end Failure.Leads

theorem Builtin.junction_name (decisive : Bool) :
    (junction decisive).name ∈ ["Not", "And", "Or"] := by
  cases decisive <;> decide

/-- Every failure leads from the call to an operation. -/
theorem Evaluates.exists_leads {call : Call} {f : Failure} (h : Evaluates call (.error f)) :
    ∃ outer failing, f.Leads call outer failing := by
  generalize answer : Except.error f = r at h
  induction h generalizing f with
  | exact | equal | scale | concat | length | echo | not | decided | second => cases answer
  | @overflow o a b n computes outside =>
    cases answer
    have operation : o.name ∈ ["Add", "Sub", "Mul", "Div"] := by cases computes <;> decide
    exact ⟨[], _, rfl, rfl, .singleton _, nofun, operation, .inl rfl⟩
  | byZero =>
    cases answer
    have operation : Builtin.div.name ∈ ["Add", "Sub", "Mul", "Div"] := by decide
    exact ⟨[], _, rfl, rfl, .singleton _, nofun, operation, .inr ⟨rfl, rfl⟩⟩
  | notFails inner ih =>
    cases answer
    obtain ⟨outer, failing, leads⟩ := ih rfl
    exact ⟨_, failing, leads.within (by simp) (by decide)⟩
  | firstFails first ih =>
    cases answer
    obtain ⟨outer, failing, leads⟩ := ih rfl
    exact ⟨_, failing, leads.within (by simp) (Builtin.junction_name _)⟩
  | secondFails first undecided second _ ih =>
    cases answer
    obtain ⟨outer, failing, leads⟩ := ih rfl
    exact ⟨_, failing, leads.within (by simp) (Builtin.junction_name _)⟩

/-- What the handlers answer. -/
def answerOf : Except Failure Literal → Except ExecutionError Value
  | .ok v => .ok (.literal v)
  | .error f => .error (.failed f.reason)

namespace Builtin

variable {σ : Type}

theorem run_computes {o : Builtin} {a b : Int64} {n : ℤ} (h : o.Computes a.toInt b.toInt n) :
    (o.run (integers o.name a b) : Action σ Value) = liftM (integerResult n) := by
  cases h with
  | add | sub | mul => rfl
  | div nonzero =>
    have some : b ≠ 0 := by
      rintro rfl
      exact nonzero rfl
    have quotient := divide_integers (σ := σ) "Div" a b
    rw [if_neg some] at quotient
    exact congrArg liftM quotient

end Builtin

section Run

variable {σ : Type} {env : Environment σ}

theorem Builtin.execute_call (h : Registry.build Builtin.declarations = .ok env.registry)
    (o : Builtin) (arguments : List Argument) :
    env.execute (o.call arguments) =
      o.run ⟨o.name, operands env.registry.handler? arguments⟩ := by
  obtain ⟨-, found⟩ := Registry.found_of_signature h o.declaration_mem o.declaration_signature
  have handler : env.registry.handler? (o.call arguments).name = some o.handler := found
  exact Environment.execute_eq handler

theorem Builtin.execute_integerCall (h : Registry.build Builtin.declarations = .ok env.registry)
    (o : Builtin) (a b : Int64) :
    env.execute (o.integerCall a b) = o.run (integers o.name a b) := execute_call h o _

theorem Builtin.execute_not (h : Registry.build Builtin.declarations = .ok env.registry)
    (c : Call) : env.execute (Builtin.not.call [.command c]) =
      runNested ⟨c, env.execute c⟩ >>= fun v => pure (.ofBool !v.isTrue) := by
  have given : operands env.registry.handler? [.command c] = [.command ⟨c, env.execute c⟩] :=
    Environment.operands_commands [c]
  rw [execute_call h, given]
  exact run_not rfl

theorem Builtin.execute_junction (h : Registry.build Builtin.declarations = .ok env.registry)
    (decisive : Bool) (c d : Call) :
    env.execute ((junction decisive).call [.command c, .command d]) =
      runNested ⟨c, env.execute c⟩ >>= fun v =>
        if v.isTrue = decisive then pure (.ofBool decisive)
        else runNested ⟨d, env.execute d⟩ >>= fun w => pure (.ofBool w.isTrue) := by
  have given : operands env.registry.handler? [.command c, .command d] =
      [.command ⟨c, env.execute c⟩, .command ⟨d, env.execute d⟩] :=
    Environment.operands_commands [c, d]
  rw [execute_call h, given]
  exact run_junction decisive rfl rfl

theorem Builtin.execute_computes (h : Registry.build Builtin.declarations = .ok env.registry)
    {o : Builtin} {a b : Int64} {n : ℤ} (computes : o.Computes a.toInt b.toInt n)
    {answer : Except ExecutionError Value} (exact : Exact n answer) (s : σ) :
    env.execute (o.integerCall a b) s = (answer, s) := by
  rw [execute_integerCall h, run_computes computes, (integerResult_exact n).unique exact]
  rfl

theorem Builtin.runNested_of_ok {c : Call} {v : Literal} {s : σ}
    (run : env.execute c s = (answerOf (.ok v), s)) :
    runNested ⟨c, env.execute c⟩ s = (.ok (.literal v), s) := by
  simp only [runNested, run, answerOf]

theorem Builtin.runNested_of_error {c : Call} {f : Failure} {s : σ}
    (evaluates : Evaluates c (.error f)) (run : env.execute c s = (answerOf (.error f), s))
    (root : Call) :
    runNested ⟨c, env.execute c⟩ s = (.error (.failed (f.within root).reason), s) := by
  obtain ⟨outer, failing, leads⟩ := evaluates.exists_leads
  have reason : (f.within root).reason = c.name ++ ": " ++ f.reason := leads.text
  simp only [runNested, run, answerOf, reason]
  rfl

theorem Value.isTrue_literal (v : Literal) : (literal v).isTrue = decide (v = .integer 1) := by
  simp [isTrue, integer]

/-- The handlers answer with what the call comes to, and leave the host as it is. -/
theorem Evaluates.execute (h : Registry.build Builtin.declarations = .ok env.registry) {call : Call}
    {r : Except Failure Literal} (evaluates : Evaluates call r) (s : σ) :
    env.execute call s = (answerOf r, s) := by
  induction evaluates with
  | exact computes => exact Builtin.execute_computes h computes (.inside _ rfl) s
  | overflow computes outside => exact Builtin.execute_computes h computes (.outside outside) s
  | byZero =>
    rw [Builtin.execute_integerCall h]
    rfl
  | equal =>
    rw [Builtin.execute_integerCall h]
    rfl
  | scale =>
    rw [Builtin.execute_call h]
    rfl
  | concat =>
    rw [Builtin.execute_call h]
    rfl
  | length exact =>
    have inside := (Builtin.integerResult_exact _).unique (.inside _ exact)
    rw [Builtin.execute_call h]
    show (Builtin.integerResult _, s) = _
    rw [inside]
    rfl
  | echo =>
    rw [Builtin.execute_call h]
    rfl
  | not inner ih =>
    rw [Builtin.execute_not h, Action.bind_apply, Builtin.runNested_of_ok ih]
    dsimp only
    rw [Value.isTrue_literal, ← decide_not]
    rfl
  | notFails inner ih =>
    rw [Builtin.execute_not h, Action.bind_apply, Builtin.runNested_of_error inner ih]
    rfl
  | decided first decides ih =>
    rw [Builtin.execute_junction h, Action.bind_apply, Builtin.runNested_of_ok ih]
    dsimp only
    rw [Value.isTrue_literal, if_pos decides]
    rfl
  | second first undecided second ih ih' =>
    rw [Builtin.execute_junction h, Action.bind_apply, Builtin.runNested_of_ok ih]
    dsimp only
    rw [Value.isTrue_literal, if_neg undecided, Action.bind_apply, Builtin.runNested_of_ok ih']
    dsimp only
    rw [Value.isTrue_literal]
    rfl
  | firstFails first ih =>
    rw [Builtin.execute_junction h, Action.bind_apply, Builtin.runNested_of_error first ih]
    rfl
  | secondFails first undecided second ih ih' =>
    rw [Builtin.execute_junction h, Action.bind_apply, Builtin.runNested_of_ok ih]
    dsimp only
    rw [Value.isTrue_literal, if_neg undecided, Action.bind_apply,
      Builtin.runNested_of_error second ih']
    rfl

end Run

/-- A call comes to one value, or it fails for one reason. -/
theorem Evaluates.answerOf_eq {call : Call} {r r' : Except Failure Literal} (h : Evaluates call r)
    (h' : Evaluates call r') : answerOf r = answerOf r' := by
  obtain ⟨registry, built⟩ := Builtin.build_declarations (σ := Unit)
  let env : Environment Unit := ⟨registry, .simple⟩
  have built : Registry.build Builtin.declarations = .ok env.registry := built
  have first := h.execute built ()
  have second := h'.execute built ()
  rw [first] at second
  exact (Prod.mk.inj second).1

section Exists

/-- The parameters of a kind. -/
inductive Parameter.OfKind : Kind → Parameter → Prop where
  | integer (n : Int64) (place : Position) : OfKind .integer (.literal (.integer n) place)
  | float (x : Binary64) (place : Position) : OfKind .float (.literal (.float x) place)
  | text (s : String) (place : Position) : OfKind .text (.literal (.text s) place)
  | command (c : Command) : OfKind .command (.command c)

theorem Parameter.ofKind (q : Parameter) : OfKind q.kind q := by
  cases q with
  | literal value place =>
    cases value with
    | integer n => exact .integer n place
    | float x => exact .float x place
    | text s => exact .text s place
  | command c => exact .command c

section Kinds

variable {qs : List Parameter} {k l : Kind}

theorem single_of_kinds (h : qs.map (·.kind) = [k]) : ∃ q, qs = [q] ∧ Parameter.OfKind k q := by
  obtain ⟨q, rfl, rfl⟩ := List.map_eq_singleton_iff.mp h
  exact ⟨q, rfl, q.ofKind⟩

theorem pair_of_kinds (h : qs.map (·.kind) = [k, l]) :
    ∃ p q, qs = [p, q] ∧ Parameter.OfKind k p ∧ Parameter.OfKind l q := by
  obtain ⟨p, ps, rfl, rfl, rest⟩ := List.map_eq_cons_iff.mp h
  obtain ⟨q, rfl, second⟩ := single_of_kinds rest
  exact ⟨p, q, rfl, p.ofKind, second⟩

theorem integers_of_kinds (h : qs.map (·.kind) = [.integer, .integer]) :
    ∃ a b, arguments qs = [.literal (.integer a), .literal (.integer b)] := by
  obtain ⟨p, q, rfl, ⟨a⟩, ⟨b⟩⟩ := pair_of_kinds h
  exact ⟨a, b, rfl⟩

end Kinds

/-- A command that is as a built-in one is declared has its name and parameters of its kinds. -/
theorem Builtin.kinds_of_admits {σ : Type} {o : Builtin} {c : Command}
    (h : (o.declaration : Declaration σ).Admits c) :
    c.name = o.name ∧ c.parameters.map (·.kind) = o.parameters.map (·.kind) := by
  have describes : (o.declaration : Declaration σ).Describes o.signature :=
    Declaration.signature_describes o.declaration_signature
  have arity : c.parameters.length = o.parameters.length := h.arity.trans describes.arity.symm
  refine ⟨h.name.symm, List.ext_getElem (by simpa using arity) fun i given declared => ?_⟩
  rw [List.length_map] at given declared
  rw [List.getElem_map, List.getElem_map]
  exact (describes.kind_iff (List.getElem?_eq_getElem declared)).mp
    (h.kinds i _ (List.getElem?_eq_getElem given))

theorem Builtin.Computes.exists_evaluates {o : Builtin} {a b : Int64} {n : ℤ}
    (computes : o.Computes a.toInt b.toInt n) : ∃ r, Evaluates (o.integerCall a b) r := by
  by_cases inside : -2 ^ 63 ≤ n ∧ n < 2 ^ 63
  · rw [← Int64.toInt_ofInt_of_le inside.1 inside.2] at computes
    exact ⟨_, .exact computes⟩
  · exact ⟨_, .overflow computes (by omega)⟩

theorem exists_evaluates_not {c : Call} (inner : ∃ r, Evaluates c r) :
    ∃ r, Evaluates (Builtin.not.call [.command c]) r := by
  obtain ⟨r, inner⟩ := inner
  cases r with
  | ok v => exact ⟨_, .not inner⟩
  | error f => exact ⟨_, .notFails inner⟩

theorem exists_evaluates_junction (decisive : Bool) {c d : Call} (first : ∃ r, Evaluates c r)
    (second : ∃ r, Evaluates d r) :
    ∃ r, Evaluates ((Builtin.junction decisive).call [.command c, .command d]) r := by
  obtain ⟨r, first⟩ := first
  obtain ⟨r', second⟩ := second
  cases r with
  | error f => exact ⟨_, .firstFails first⟩
  | ok v =>
    by_cases decides : decide (v = .integer 1) = decisive
    · exact ⟨_, .decided first decides⟩
    cases r' with
    | ok w => exact ⟨_, .second first decides second⟩
    | error f => exact ⟨_, .secondFails first decides second⟩

/-- The texts in a command are not longer than an integer can count. -/
def Command.Counts (c : Command) : Prop :=
  ∀ d : Command, d.Within c → ∀ text place, .literal (.text text) place ∈ d.parameters →
    text.length < 2 ^ 63

/-- A well-typed command comes to something. -/
theorem Command.exists_evaluates {σ : Type} {c : Command}
    (typed : c.WellTyped (Builtin.declarations : List (Declaration σ))) (counts : c.Counts) :
    ∃ r, Evaluates c.call r := by
  induction c using Command.nested_induction with
  | step c ih =>
    obtain ⟨d, mem, admits⟩ := typed c .refl
    obtain ⟨o, -, rfl⟩ := List.mem_map.mp mem
    obtain ⟨name, kinds⟩ := Builtin.kinds_of_admits admits
    have inner {d : Command} (mem : .command d ∈ c.parameters) : ∃ r, Evaluates d.call r :=
      ih d mem (fun e within => typed e (.parameter mem within))
        fun e within => counts e (.parameter mem within)
    have short {text : String} {place : Position}
        (mem : .literal (.text text) place ∈ c.parameters) : text.length < 2 ^ 63 :=
      counts c .refl text place mem
    rw [call_eq, name]
    generalize c.parameters = qs at kinds inner short ⊢
    cases o with
    | add | sub | mul =>
      obtain ⟨a, b, given⟩ := integers_of_kinds kinds
      rw [given]
      apply Builtin.Computes.exists_evaluates
      constructor
    | div =>
      obtain ⟨a, b, given⟩ := integers_of_kinds kinds
      rw [given]
      by_cases none : b = 0
      · rw [none]
        exact ⟨_, .byZero⟩
      · have nonzero : b.toInt ≠ 0 := fun zero => none (Int64.toInt_inj.mp zero)
        exact (Builtin.Computes.div nonzero).exists_evaluates
    | equal =>
      obtain ⟨a, b, given⟩ := integers_of_kinds kinds
      rw [given]
      exact ⟨_, .equal⟩
    | scale =>
      obtain ⟨p, q, rfl, ⟨x⟩, ⟨y⟩⟩ := pair_of_kinds kinds
      exact ⟨_, .scale⟩
    | concat =>
      obtain ⟨p, q, rfl, ⟨x⟩, ⟨y⟩⟩ := pair_of_kinds kinds
      exact ⟨_, .concat⟩
    | length =>
      obtain ⟨q, rfl, ⟨x⟩⟩ := single_of_kinds kinds
      have size := short List.mem_cons_self
      exact ⟨_, .length (Int64.toInt_ofInt_of_le (by omega) (by omega))⟩
    | echo =>
      obtain ⟨q, rfl, ⟨x⟩⟩ := single_of_kinds kinds
      exact ⟨_, .echo⟩
    | not =>
      obtain ⟨q, rfl, ⟨d⟩⟩ := single_of_kinds kinds
      exact exists_evaluates_not (inner (by simp))
    | and =>
      obtain ⟨p, q, rfl, ⟨d⟩, ⟨e⟩⟩ := pair_of_kinds kinds
      exact exists_evaluates_junction false (inner (by simp)) (inner (by simp))
    | or =>
      obtain ⟨p, q, rfl, ⟨d⟩, ⟨e⟩⟩ := pair_of_kinds kinds
      exact exists_evaluates_junction true (inner (by simp)) (inner (by simp))

end Exists

section Texts

/-- Only a string that is closed is read as a text. -/
theorem Token.closes_of_text {c : Char} {cs : List Char} {text : String}
    (h : (read c cs).kind = .literal (.text text)) :
    ∃ items rest, Quoted.Closes cs items rest ∧
      text.toList = items.filterMap Quoted.Item.value? := by
  unfold read at h
  split at h
  · cases h
  split at h
  · cases h
  split at h
  · rcases Quoted.closes_or_breaksOff cs with ⟨items, rest, closes⟩ | ⟨items, tail, rest, broken⟩
    · rw [readString, closes.take] at h
      have word : Quoted.kindOf items = .literal (.text text) := h
      unfold Quoted.kindOf at word
      split at word
      · cases word
        exact ⟨items, rest, closes, String.toList_ofList⟩
      · cases word
    · rw [readString, broken.take] at h
      cases h
  split at h
  · unfold readNumber at h
    dsimp only at h
    split at h
    · rcases Numeral.kind_cases h with ⟨_, ⟨⟩⟩ | ⟨_, ⟨⟩⟩ | ⟨_, ⟨⟩⟩
    · cases h
  split at h
  · cases h
  · cases h

theorem Quoted.length_le_written (items : List Item) : items.length ≤ (written items).length := by
  induction items with
  | nil => exact Nat.zero_le _
  | cons i items ih =>
    rw [written_cons, List.length_append, List.length_cons]
    cases i with
    | plain c => exact (Nat.add_comm ..).le.trans (Nat.add_le_add_left ih 1)
    | guarded c =>
      have two : (Item.guarded c).text.length = 2 := rfl
      omega

/-- What a string denotes is no longer than the text that holds it. -/
theorem Token.length_le_of_mem {source text : String} {t : Token} (mem : t ∈ tokens source)
    (kind : t.kind = .literal (.text text)) : text.length ≤ source.length := by
  rcases read_of_mem mem with ⟨finish, -⟩ | ⟨before, c, rest, spelled, -, word, -⟩
  · rw [finish] at kind
    cases kind
  · obtain ⟨items, left, closes, value⟩ := closes_of_text (word.symm.trans kind)
    have denoted : text.length ≤ items.length := by
      rw [← String.length_toList, value]
      exact List.length_filterMap_le _ _
    have written := Quoted.length_le_written items
    have size := congrArg List.length spelled
    rw [closes.spelled, String.length_toList] at size
    simp only [List.length_append, List.length_cons] at size
    omega

theorem Written.counts {depth : Nat} {source : String} {c : Command}
    (h : Written depth (Token.body (Token.tokens source)) c) (size : source.length < 2 ^ 63) :
    c.Counts := by
  intro d within text place mem
  obtain ⟨t, ht, kind, -⟩ := (h.traced within).parameters _ mem
  have whole : t ∈ Token.tokens source := (List.takeWhile_sublist _).subset ht
  exact Nat.lt_of_le_of_lt (Token.length_le_of_mem whole kind) size

end Texts

/-- Where the built-in commands are the only ones, a text that passes the check has a value, a number
or a text, or it fails for an operation that overflows or a division by zero, in the first command
to fail. Its report names the way from the root to that command, through logic commands only. No text
is longer than an integer can count. -/
theorem run_evaluates {σ : Type} {env : Environment σ}
    (h : Registry.build Builtin.declarations = .ok env.registry) {source : String}
    (size : source.length < 2 ^ 63) {call : Call} (checked : env.check source = .ok call) (s : σ) :
    (∃ v : Literal, Evaluates call (.ok v) ∧ env.run source s = (.ok (.literal v), s)) ∨
    ∃ f outer failing, Evaluates call (.error f) ∧ f.Leads call outer failing ∧
      env.run source s = (.error (.execution call.name (.failed f.reason)), s) ∧
      env.report (.execution call.name (.failed f.reason)) =
        ": ".intercalate ((outer ++ [failing]).map Call.name ++ [f.message]) := by
  obtain ⟨c, parsed, bound⟩ := Environment.check_eq_ok_iff.mp checked
  obtain ⟨typed, rfl⟩ := (Command.bind_eq_ok_iff h).mp bound
  have written := Parser.run_eq_ok_iff.mp (Command.parse_eq_ok_iff.mp parsed)
  obtain ⟨r, evaluates⟩ := Command.exists_evaluates typed (written.counts size)
  have ran := Environment.run_of_check_eq_ok checked s
  rw [evaluates.execute h] at ran
  cases r with
  | ok v => exact .inl ⟨v, evaluates, ran⟩
  | error f =>
    obtain ⟨outer, failing, leads⟩ := evaluates.exists_leads
    refine .inr ⟨f, outer, failing, evaluates, leads, ran, ?_⟩
    rw [← leads.way]
    exact leads.text.symm

/-- The first part does not decide, and the second one fails two commands further in. -/
theorem run_evaluates_or : ∃ env : Environment Unit, ∃ call,
    Registry.build Builtin.declarations = .ok env.registry ∧
      env.check "Or (Equal 1 2) (Not (Mul 9223372036854775807 2))" = .ok call ∧
      ∃ e, env.run "Or (Equal 1 2) (Not (Mul 9223372036854775807 2))" () = (.error e, ()) ∧
        env.report e = "Or: Not: Mul: integer overflow" := by
  obtain ⟨r, h⟩ := Builtin.build_declarations (σ := Unit)
  let env : Environment Unit := ⟨r, .simple⟩
  have known (o : Builtin) : env.registry.signature? o.name = some o.signature :=
    (Registry.found_of_signature h o.declaration_mem o.declaration_signature).1
  let product : Call := Builtin.mul.integerCall 9223372036854775807 2
  let negated : Call := Builtin.not.call [.command product]
  let equation : Call := Builtin.equal.integerCall 1 2
  let call : Call := (Builtin.junction true).call [.command equation, .command negated]
  let integers (a b : Int64) : List Parameter :=
    [.literal (.integer a) .start, .literal (.integer b) .start]
  let mul : Command := .mk "Mul" .start (integers 9223372036854775807 2)
  let not : Command := .mk "Not" .start [.command mul]
  let equal : Command := .mk "Equal" .start (integers 1 2)
  let or : Command := .mk "Or" .start [.command equal, .command not]
  have words : Token.words "Or (Equal 1 2) (Not (Mul 9223372036854775807 2))" = or.words := by
    decide +kernel
  have bound : env.bind or = .ok call := by
    have times : env.bind mul = .ok product := Environment.bind_integers (known .mul) rfl
    have equation : env.bind equal = .ok equation := Environment.bind_integers (known .equal) rfl
    have inner : [mul].map env.bind = [product].map .ok := congrArg ([·]) times
    have negation : env.bind not = .ok negated :=
      Environment.bind_commands (known .not) (by decide) rfl inner
    have outer : [equal, not].map env.bind = [_, negated].map .ok :=
      congrArg₂ ([·, ·]) equation negation
    exact Environment.bind_commands (known .or) (by decide) rfl outer
  have checked := Environment.check_of_words words (by decide) bound
  have overflow : Evaluates call (.error ⟨[call, negated, product], "integer overflow"⟩) := by
    have computes : Builtin.mul.Computes (9223372036854775807 : Int64).toInt (2 : Int64).toInt _ :=
      .mul
    exact .secondFails .equal (by decide) (.notFails (.overflow computes (by decide)))
  have size : "Or (Equal 1 2) (Not (Mul 9223372036854775807 2))".length < 2 ^ 63 := by decide
  refine ⟨env, call, h, checked, ?_⟩
  rcases run_evaluates h size checked () with ⟨v, value, -⟩ | ⟨f, -, -, fails, -, ran, -⟩
  · cases value.answerOf_eq overflow
  · have reason : f.reason = "Not: Mul: integer overflow" := by
      have same := fails.answerOf_eq overflow
      exact ExecutionError.failed.inj (Except.error.inj same)
    rw [reason] at ran
    exact ⟨_, ran, rfl⟩

end TypedCommands
