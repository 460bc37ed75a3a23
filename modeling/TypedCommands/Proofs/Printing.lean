import TypedCommands.Proofs.Blame
import TypedCommands.Proofs.Names
import TypedCommands.Proofs.Order

/-! Commands written out as text. A command is its name and its parameters with one space in front
of each; what is read from such a text is the command again, in other places. -/
namespace TypedCommands

mutual

/-- The characters are the command, written out. -/
inductive Command.Printed : Command → List Char → Prop where
  | intro {name : String} {place : Position} {qs : List Parameter} {cs : List Char}
      (parameters : ParametersPrinted qs cs) :
      Command.Printed (.mk name place qs) (name.toList ++ cs)

/-- One parameter after the other, each behind one space. -/
inductive ParametersPrinted : List Parameter → List Char → Prop where
  | nil : ParametersPrinted [] []
  | cons {q : Parameter} {qs : List Parameter} {cs ds : List Char} (head : Parameter.Printed q cs)
      (rest : ParametersPrinted qs ds) : ParametersPrinted (q :: qs) (' ' :: (cs ++ ds))

/-- Of a float, any text will do that holds this float and nothing else. -/
inductive Parameter.Printed : Parameter → List Char → Prop where
  | integer {n : Int64} {place : Position} :
      Parameter.Printed (.literal (.integer n) place) (Literal.integerText n).toList
  | float {x : Binary64} {place : Position} {s : String}
      (alone : (Token.tokens s).map (·.kind) = [.literal (.float x), .finish]) :
      Parameter.Printed (.literal (.float x) place) s.toList
  | text {s : String} {place : Position} :
      Parameter.Printed (.literal (.text s) place) (Quoted.quote s.toList)
  | command {c : Command} {cs : List Char} (inner : Command.Printed c cs) :
      Parameter.Printed (.command c) ('(' :: (cs ++ [')']))

end

mutual

/-- The kinds of the tokens that spell a command. -/
def Command.words : Command → List Token.Kind
  | .mk name _ qs => .identifier name :: parametersWords qs

def Parameter.words : Parameter → List Token.Kind
  | .literal value _ => [.literal value]
  | .command c => .opening :: (c.words ++ [.closing])

def parametersWords : List Parameter → List Token.Kind
  | [] => []
  | q :: qs => q.words ++ parametersWords qs

end

mutual

/-- How many groups there are around the innermost command. -/
def Command.depth : Command → Nat
  | .mk _ _ qs => parametersDepth qs

def Parameter.depth : Parameter → Nat
  | .literal _ _ => 0
  | .command c => c.depth + 1

def parametersDepth : List Parameter → Nat
  | [] => 0
  | q :: qs => max q.depth (parametersDepth qs)

end

/-- Every command in it has a name that can be written. -/
def Command.Named (c : Command) : Prop := ∀ d : Command, d.Within c → Name.Spelled d.name

theorem Command.Named.nested {c d : Command} (h : c.Named) (mem : .command d ∈ c.parameters) :
    d.Named := fun _ within => h _ (.parameter mem within)

theorem Command.named_of {c : Command} (name : Name.Spelled c.name)
    (nested : ∀ d, .command d ∈ c.parameters → d.Named) : c.Named := by
  intro d within
  cases within with
  | refl => exact name
  | parameter mem inner => exact nested _ mem d inner

theorem ParametersPrinted.stops {qs : List Parameter} {cs rest : List Char}
    (h : ParametersPrinted qs cs) (stops : Stops rest) : Stops (cs ++ rest) := by
  cases h with
  | nil => exact stops
  | cons head tail => exact Stops.space _

mutual

/-- The lexer finds the words of a command that is written out. -/
theorem Command.Printed.kinds {c : Command} {cs rest : List Char} (h : Command.Printed c cs)
    (named : c.Named) (stops : Stops rest) :
    Token.kinds (cs ++ rest) = c.words ++ Token.kinds rest := by
  match h with
  | @Command.Printed.intro name place qs cs parameters =>
    have head : Name.isNameChars name.toList = true := Name.isName_iff.mpr (named _ .refl)
    have inner : ∀ d, .command d ∈ qs → d.Named := fun d mem => named.nested mem
    rw [List.append_assoc, Token.kinds_name head (parameters.stops stops).isPart,
      String.ofList_toList, parameters.kinds inner stops]
    rfl

theorem ParametersPrinted.kinds {qs : List Parameter} {cs rest : List Char}
    (h : ParametersPrinted qs cs) (named : ∀ d, .command d ∈ qs → d.Named) (stops : Stops rest) :
    Token.kinds (cs ++ rest) = parametersWords qs ++ Token.kinds rest := by
  match h with
  | .nil => rfl
  | @ParametersPrinted.cons q qs cs ds head tail =>
    have tailNamed : ∀ d, .command d ∈ qs → d.Named :=
      fun d mem => named d (List.mem_cons_of_mem q mem)
    rw [List.cons_append, Token.kinds_space, List.append_assoc,
      head.kinds (fun d hd => named d (hd ▸ List.mem_cons_self)) (tail.stops stops),
      tail.kinds tailNamed stops, parametersWords, List.append_assoc]

theorem Parameter.Printed.kinds {q : Parameter} {cs rest : List Char} (h : Parameter.Printed q cs)
    (named : ∀ d, q = .command d → d.Named) (stops : Stops rest) :
    Token.kinds (cs ++ rest) = q.words ++ Token.kinds rest := by
  match h with
  | .integer => exact Token.kinds_integer _ stops
  | .float alone =>
    rw [Token.map_kind_tokens] at alone
    exact Token.kinds_float alone stops
  | @Parameter.Printed.text s place =>
    rw [Token.kinds_quote, String.ofList_toList]
    rfl
  | @Parameter.Printed.command c cs inner =>
    have read : Token.kinds (cs ++ ')' :: rest) = c.words ++ Token.kinds (')' :: rest) :=
      inner.kinds (named c rfl) (Stops.closing rest)
    rw [List.cons_append, List.append_assoc, Token.kinds_opening, List.singleton_append, read,
      Token.kinds_closing, Parameter.words]
    simp

end

mutual

/-- Tokens of these kinds spell the command, in the places where they stand. -/
theorem Command.written_of_words {depth : Nat} (c : Command) {ts : List Token}
    (kinds : ts.map (·.kind) = c.words) (room : c.depth ≤ depth) :
    ∃ d, Written depth ts d ∧ d.call = c.call := by
  match c with
  | .mk name place qs =>
    obtain ⟨t, us, rfl, kind, rest⟩ := List.map_eq_cons_iff.mp kinds
    obtain ⟨rs, written, same⟩ := writtenParameters_of_words qs rest room
    refine ⟨.mk name t.position rs, .name kind written, ?_⟩
    rw [Command.call, Command.call, same]

theorem writtenParameters_of_words {depth : Nat} (qs : List Parameter) {ts : List Token}
    (kinds : ts.map (·.kind) = parametersWords qs) (room : parametersDepth qs ≤ depth) :
    ∃ rs, WrittenParameters depth ts rs ∧ arguments rs = arguments qs := by
  match qs with
  | [] =>
    obtain rfl : ts = [] := List.map_eq_nil_iff.mp kinds
    exact ⟨[], .nil, rfl⟩
  | .literal value place :: qs =>
    obtain ⟨t, us, rfl, kind, rest⟩ := List.map_eq_cons_iff.mp kinds
    have tail : parametersDepth qs ≤ depth := Nat.le_trans (Nat.le_max_right _ _) room
    obtain ⟨rs, written, same⟩ := writtenParameters_of_words qs rest tail
    refine ⟨.literal value t.position :: rs, .literal kind written, ?_⟩
    rw [arguments, arguments, same]
  | .command c :: qs =>
    have head : c.depth + 1 ≤ depth := Nat.le_trans (Nat.le_max_left _ _) room
    have tail : parametersDepth qs ≤ depth := Nat.le_trans (Nat.le_max_right _ _) room
    obtain ⟨n, rfl⟩ : ∃ n, depth = n + 1 := ⟨depth - 1, by omega⟩
    rw [parametersWords, Parameter.words, List.cons_append, List.append_assoc] at kinds
    obtain ⟨t, us, rfl, opening, rest⟩ := List.map_eq_cons_iff.mp kinds
    obtain ⟨vs, ws, rfl, inner, rest⟩ := List.map_eq_append_iff.mp rest
    obtain ⟨u, ws, rfl, closing, rest⟩ := List.map_eq_cons_iff.mp rest
    obtain ⟨d, nested, call⟩ := c.written_of_words inner (Nat.le_of_succ_le_succ head)
    obtain ⟨rs, written, same⟩ := writtenParameters_of_words qs rest tail
    refine ⟨.command d :: rs, .command opening nested closing written, ?_⟩
    rw [arguments, arguments, call, same]

end

/-- The words of a text, up to its end. -/
def Token.words (source : String) : List Token.Kind :=
  (Token.body (Token.tokens source)).map (·.kind)

theorem Token.kinds_eq_words (source : String) :
    Token.kinds source.toList = Token.words source ++ [.finish] := by
  obtain ⟨split, ascending⟩ := Token.tokens_ascending source
  have last : (Parser.finishOf (Token.tokens source)).kind = .finish := by
    have finish := ascending.finish
    unfold Token.isFinish at finish
    split at finish
    · assumption
    · cases finish
  rw [← Token.map_kind_tokens, split, List.map_append, List.map_singleton, last]
  rfl

/-- What a text has before its end, told from the kinds of its tokens. -/
theorem Token.map_kind_body {source : String} {ks : List Token.Kind} {k : Token.Kind}
    (h : Token.kinds source.toList = ks ++ [k]) : Token.words source = ks := by
  rw [Token.kinds_eq_words] at h
  exact (List.append_inj' h rfl).1

/-- A command that is written out is read as that command, only in other places, if its names can
be written and no command in it has more than 64 groups around it. -/
theorem parse_printed {c : Command} {source : String} (named : c.Named) (room : c.depth ≤ maxDepth)
    (printed : c.Printed source.toList) : ∃ d, Command.parse source = .ok d ∧ d.call = c.call := by
  have kinds := printed.kinds named Stops.nil
  rw [List.append_nil, Token.kinds_nil] at kinds
  obtain ⟨d, written, same⟩ := c.written_of_words (Token.map_kind_body kinds) room
  exact ⟨d, Command.parse_eq_ok_iff.mpr (Parser.run_eq_ok_iff.mpr written), same⟩

/-- A number below zero, a float with a digit to spare, and a nested command whose text has a quote,
a parenthesis and a newline. -/
theorem parse_printed_nested :
    let inner : Command := .mk "Echo" .start [.literal (.text "a\"(\n") .start]
    let c : Command := .mk "Pick_2" .start [.literal (.integer (-7)) .start,
      .literal (.float (.ofBits 0x3FF8000000000000)) .start, .command inner]
    let source := "Pick_2 -7 1.50 (Echo \"a\\\"(\\n\")"
    c.Named ∧ c.depth ≤ maxDepth ∧ c.Printed source.toList ∧
      ∃ d, Command.parse source = .ok d ∧ d.call = c.call := by
  intro inner c source
  have alone : (Token.tokens "1.50").map (·.kind) =
      [.literal (.float (.ofBits 0x3FF8000000000000)), .finish] := by decide +kernel
  have innerNamed : inner.Named := by
    refine Command.named_of (Name.isName_iff.mp (by decide)) fun d mem => ?_
    simp [inner, Command.parameters] at mem
  have named : c.Named := by
    refine Command.named_of (Name.isName_iff.mp (by decide)) fun d mem => ?_
    obtain rfl : d = inner := by simpa [c, Command.parameters] using mem
    exact innerNamed
  have text : "Pick_2".toList ++ ' ' :: ((Literal.integerText (-7)).toList ++
      ' ' :: ("1.50".toList ++ ' ' :: ('(' :: ("Echo".toList ++ ' ' ::
        (Quoted.quote "a\"(\n".toList ++ []) ++ [')']) ++ []))) = source.toList := by decide +kernel
  have printed : c.Printed source.toList := by
    rw [← text]
    have echo : inner.Printed _ := .intro (.cons .text .nil)
    exact .intro (.cons .integer (.cons (.float alone) (.cons (.command echo) .nil)))
  have room : c.depth ≤ maxDepth := by decide
  exact ⟨named, room, printed, parse_printed named room printed⟩

end TypedCommands
