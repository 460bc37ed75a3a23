import TypedCommands.Proofs.Printing
import TypedCommands.Proofs.Relocation
import TypedCommands.Proofs.Stages

/-! Texts within a text. In parentheses behind the name of a command, a text that passes the check
stands for the same call as alone. -/
namespace TypedCommands

theorem Written.valid_words {depth : Nat} {source : String} {c : Command}
    (h : Written depth (Token.body (Token.tokens source)) c) :
    ∀ reason, .invalid reason ∉ Token.words source := by
  intro reason mem
  obtain ⟨t, ht, kind⟩ := List.mem_map.mp mem
  have valid := h.valid t ht
  simp [Token.isInvalid, kind] at valid

/-- The text in a group, behind a space. -/
def grouped (source : String) : List Char := ' ' :: '(' :: (source.toList ++ [')'])

def Token.groupWords (source : String) : List Token.Kind :=
  .opening :: (Token.words source ++ [.closing])

theorem Token.kinds_grouped {source : String} (valid : ∀ reason, .invalid reason ∉ words source)
    (rest : List Char) : kinds (grouped source ++ rest) = groupWords source ++ kinds rest := by
  have inner := kinds_append (kinds_eq_words source) valid (Stops.closing rest)
  have text : grouped source ++ rest = ' ' :: '(' :: (source.toList ++ ')' :: rest) := by
    simp [grouped]
  rw [text, kinds_space, kinds_opening, inner, kinds_closing, groupWords]
  simp

theorem Token.kinds_flatMap_grouped {sources : List String}
    (valid : ∀ source ∈ sources, ∀ reason, .invalid reason ∉ words source) :
    kinds (sources.flatMap grouped) = sources.flatMap groupWords ++ [.finish] := by
  induction sources with
  | nil => exact kinds_nil
  | cons source sources ih =>
    obtain ⟨head, tail⟩ := List.forall_mem_cons.mp valid
    rw [List.flatMap_cons, List.flatMap_cons, kinds_grouped head, ih tail, List.append_assoc]

theorem stops_flatMap_grouped (sources : List String) : Stops (sources.flatMap grouped) := by
  cases sources with
  | nil => exact Stops.nil
  | cons source sources => exact Stops.space _

namespace Environment

variable {σ : Type} {env : Environment σ}

/-- The text passes the check, standing for the call, and a group more around it is not too deep. -/
structure Nests (env : Environment σ) (source : String) (call : Call) : Prop where
  check : env.check source = .ok call
  room : ∃ c, Written (maxDepth - 1) (Token.body (Token.tokens source)) c

theorem nests_iff {source : String} {call : Call} : env.Nests source call ↔
    ∃ c, Written (maxDepth - 1) (Token.body (Token.tokens source)) c ∧ env.bind c = .ok call := by
  have parsed {d : Command}
      (written : Written (maxDepth - 1) (Token.body (Token.tokens source)) d) :
      Command.parse source = .ok d :=
    Command.parse_eq_ok_iff.mpr (Parser.run_eq_ok_iff.mpr (written.mono (Nat.sub_le maxDepth 1)))
  constructor
  · intro h
    obtain ⟨d, written⟩ := h.room
    obtain ⟨c, found, bound⟩ := check_eq_ok_iff.mp h.check
    rw [parsed written] at found
    cases found
    exact ⟨d, written, bound⟩
  · rintro ⟨c, written, bound⟩
    exact ⟨check_eq_ok_iff.mpr ⟨c, parsed written, bound⟩, c, written⟩

theorem Nests.valid {source : String} {call : Call} (h : env.Nests source call) :
    ∀ reason, .invalid reason ∉ Token.words source := by
  obtain ⟨c, written⟩ := h.room
  exact written.valid_words

/-- Groups with the words of the texts in them are parameters, bound to the calls of the texts. -/
theorem exists_parameters {texts : List (String × Call)} (nests : ∀ t ∈ texts, env.Nests t.1 t.2)
    {ts : List Token}
    (kinds : ts.map (·.kind) = (texts.map (·.1)).flatMap Token.groupWords) :
    ∃ cs : List Command, WrittenParameters maxDepth ts (cs.map .command) ∧
      cs.map env.bind = texts.map fun t => .ok t.2 := by
  induction texts generalizing ts with
  | nil =>
    obtain rfl := List.map_eq_nil_iff.mp kinds
    exact ⟨[], .nil, rfl⟩
  | cons text texts ih =>
    obtain ⟨head, tail⟩ := List.forall_mem_cons.mp nests
    obtain ⟨c, written, bound⟩ := nests_iff.mp head
    rw [List.map_cons, List.flatMap_cons, Token.groupWords, List.cons_append,
      List.append_assoc] at kinds
    obtain ⟨t, ts, rfl, opening, rest⟩ := List.map_eq_cons_iff.mp kinds
    obtain ⟨us, ts, rfl, inner, rest⟩ := List.map_eq_append_iff.mp rest
    obtain ⟨u, ts, rfl, closing, rest⟩ := List.map_eq_cons_iff.mp rest
    -- The tokens stand at other places than in the text alone, but spell the same call.
    obtain ⟨d, moved, same⟩ := written.relocate inner
    obtain ⟨cs, others, calls⟩ := ih tail rest
    refine ⟨d :: cs, .command opening moved closing others, ?_⟩
    rw [List.map_cons, List.map_cons, calls]
    exact congrArg (· :: _) (Command.bind_eq_ok_of_call_eq same bound)

theorem bindParameters_commands {signatures : String → Option Signature} {command : String}
    {n : Nat} {ps : List Signature.Parameter} {cs : List Command} {calls : List Call}
    (commands : ∀ p ∈ ps, p.kind = .command) (arity : ps.length = cs.length)
    (bound : cs.map (·.bind signatures) = calls.map .ok) :
    bindParameters signatures command n ps (cs.map .command) = .ok (calls.map .command) := by
  induction cs generalizing n ps calls with
  | nil =>
    obtain rfl := List.map_eq_nil_iff.mp bound.symm
    simp only [List.map_nil, bindParameters]
  | cons c cs ih =>
    obtain ⟨call, calls, rfl, head, tail⟩ := List.map_eq_cons_iff.mp bound.symm
    obtain ⟨p, ps, rfl⟩ := List.exists_cons_of_length_eq_add_one arity
    obtain ⟨kind, kinds⟩ := List.forall_mem_cons.mp commands
    have same : (Parameter.command c).kind = p.kind := kind.symm
    have first : c.bind signatures = .ok call := head.symm
    have rest := ih (n := n + 1) kinds (Nat.succ.inj arity) tail.symm
    rw [List.map_cons, bindParameters_cons, bindParameter_of_kind same, Parameter.bind,
      first, rest]
    rfl

/-- A command whose parameters are all commands is bound to the calls that these are bound to. -/
theorem bind_commands {signatures : String → Option Signature} {name : String} {place : Position}
    {s : Signature} {cs : List Command} {calls : List Call} (found : signatures name = some s)
    (commands : ∀ p ∈ s.parameters, p.kind = .command) (arity : s.arity = cs.length)
    (bound : cs.map (·.bind signatures) = calls.map .ok) :
    (Command.mk name place (cs.map .command)).bind signatures =
      .ok (.mk name (calls.map .command)) := by
  have all : bindParameters signatures name 1 s.parameters (cs.map .command) =
      .ok (calls.map .command) := bindParameters_commands commands arity bound
  rw [Command.bind_full found (by simpa [Command.parameters] using arity.symm), Command.name,
    Command.parameters, all]
  rfl

/-- A command whose parameters are all commands takes any texts that pass the check, each in
parentheses, and then stands for the calls that they stand for alone. -/
theorem check_grouped {texts : List (String × Call)} (nests : ∀ t ∈ texts, env.Nests t.1 t.2)
    {name : String} {s : Signature} (named : Name.isName name = true)
    (found : env.registry.signature? name = some s)
    (commands : ∀ p ∈ s.parameters, p.kind = .command) (arity : s.arity = texts.length)
    {source : String} (spelled : source.toList = name.toList ++ (texts.map (·.1)).flatMap grouped) :
    env.check source = .ok (.mk name (texts.map fun t => .command t.2)) := by
  have valid : ∀ source ∈ texts.map (·.1), ∀ reason, .invalid reason ∉ Token.words source := by
    intro source mem
    obtain ⟨t, ht, rfl⟩ := List.mem_map.mp mem
    exact (nests t ht).valid
  have kinds : Token.kinds source.toList =
      (.identifier name :: (texts.map (·.1)).flatMap Token.groupWords) ++ [.finish] := by
    rw [spelled, Token.kinds_name named (stops_flatMap_grouped _).isPart, String.ofList_toList,
      Token.kinds_flatMap_grouped valid]
    rfl
  obtain ⟨t, ts, body, kind, rest⟩ := List.map_eq_cons_iff.mp (Token.map_kind_body kinds)
  obtain ⟨cs, written, bound⟩ := exists_parameters nests rest
  have parsed : Command.parse source = .ok (.mk name t.position (cs.map .command)) := by
    refine Command.parse_eq_ok_iff.mpr (Parser.run_eq_ok_iff.mpr ?_)
    rw [body]
    exact .name kind written
  have count : cs.length = texts.length := by simpa using congrArg List.length bound
  have calls : cs.map (·.bind env.registry.signature?) = (texts.map (·.2)).map .ok := by
    rw [List.map_map]
    exact bound
  refine check_eq_ok_iff.mpr ⟨_, parsed, ?_⟩
  rw [bind, bind_commands found commands (arity.trans count.symm) calls, List.map_map]
  rfl

end Environment
end TypedCommands
