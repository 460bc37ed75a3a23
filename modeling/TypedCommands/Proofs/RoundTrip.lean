import Mathlib.Data.List.Basic
import TypedCommands.Proofs.BlockLines
import TypedCommands.Proofs.Documents
import TypedCommands.Proofs.Encoding

/-! Settings that are written to a file are read from it again, if their texts need no quotes. -/
namespace TypedCommands.Settings

open Yaml Yaml.Lexer

def controlEntries (c : Control) : List (String × String) :=
  [("port", toString c.port.toNat), ("sentinel", toString c.sentinel.toNat)]

def ruleEntries (r : Rule) : List (String × String) :=
  [("name", r.name), ("condition", r.condition), ("consequence", r.consequence)]

/-- The texts of the rule are written without quotes. -/
structure Unquoted (r : Rule) : Prop where
  name : scalarText r.name = r.name
  condition : scalarText r.condition = r.condition
  consequence : scalarText r.consequence = r.consequence

section Tokens

def ruleTokens (r : Rule) : List Yaml.Token := .item :: mappingTokens (ruleEntries r)

def rulesTokens : List Rule → List Yaml.Token
  | [] => [.flowSequence, .flowSequenceEnd]
  | rs => rs.flatMap ruleTokens

/-- The tokens of the document that the settings are written as. -/
def tokens (s : Settings) : List Yaml.Token :=
  .blockMapping :: entryTokens ("diagnostics", s.mode.name) ++
    [.key, .scalar true "control", .value] ++ mappingTokens (controlEntries s.control) ++
    [.key, .scalar true "rules", .value] ++ rulesTokens s.rules ++ [.blockEnd]

/-! ### Writing -/

variable {s : State} {ts : List Yaml.Token} {r : Rule} {rs : List Rule}

theorem known_key {key : String} (known : key ∈ settingsKeys ++ controlKeys ++ ruleKeys) :
    KeyText key.toList := by
  have all : ∀ key ∈ settingsKeys ++ controlKeys ++ ruleKeys, key.toList ≠ [] ∧
      key.toList.all Char.isAlphanum = true ∧ bytes key.toList ≤ 1024 := by decide
  obtain ⟨some, word, short⟩ := all key known
  exact ⟨plainText_of_isAlphanum some word, short⟩

theorem writable_of_known {e : String × String}
    (known : e.1 ∈ settingsKeys ++ controlKeys ++ ruleKeys) (value : PlainText e.2.toList) :
    Writable e :=
  ⟨known_key known, value⟩

theorem plainText_toString (n : Nat) : PlainText (toString n).toList := by
  rw [Nat.toString_eq_repr, Nat.toList_repr]
  apply plainText_of_isAlphanum Nat.toDigits_ne_nil
  apply List.all_eq_true.mpr
  intro c mem
  have digit := Nat.isDigit_of_mem_toDigits (by decide) (by decide) mem
  rw [Char.isAlphanum, digit, Bool.or_true]

theorem writable_control (c : Control) : ∀ e ∈ controlEntries c, Writable e := by
  intro e mem
  have known : ∀ e ∈ controlEntries c, e.1 ∈ settingsKeys ++ controlKeys ++ ruleKeys := by
    simp [controlEntries, controlKeys]
  apply writable_of_known (known e mem)
  simp only [controlEntries, List.mem_cons, List.not_mem_nil, or_false] at mem
  rcases mem with rfl | rfl <;> exact plainText_toString _

theorem writable_rule (unquoted : Unquoted r) : ∀ e ∈ ruleEntries r, Writable e := by
  intro e mem
  have known : ∀ e ∈ ruleEntries r, e.1 ∈ settingsKeys ++ controlKeys ++ ruleKeys := by
    simp [ruleEntries, ruleKeys]
  obtain ⟨name, condition, consequence⟩ := unquoted
  apply writable_of_known (known e mem)
  apply plainText_of_isPlain
  apply isPlain_of_scalarText
  simp only [ruleEntries, List.mem_cons, List.not_mem_nil, or_false] at mem
  rcases mem with rfl | rfl | rfl
  · exact name
  · exact condition
  · exact consequence

theorem writable_mode (mode : Mode) : Writable ("diagnostics", mode.name) := by
  apply writable_of_known
  · simp [settingsKeys]
  · cases mode <;> exact plainText_of_isAlphanum (by decide) (by decide)

theorem toList_ruleText (unquoted : Unquoted r) :
    (ruleText r).toList = ['-', ' '] ++ mappingLines (ruleEntries r) := by
  obtain ⟨name, condition, consequence⟩ := unquoted
  have before_name : "- name: ".toList = '-' :: ' ' :: ("name".toList ++ [':', ' ']) := rfl
  have before_condition : "  condition: ".toList =
      ' ' :: ' ' :: ("condition".toList ++ [':', ' ']) := rfl
  have before_consequence : "  consequence: ".toList =
      ' ' :: ' ' :: ("consequence".toList ++ [':', ' ']) := rfl
  have newline : "\n".toList = ['\n'] := rfl
  delta ruleText
  simp only [String.toList_append, name, condition, consequence, before_name, before_condition,
    before_consequence, newline, mappingLines, entryLine, ruleEntries, List.append_assoc, List.flatMap_cons,
    List.flatMap_nil, List.cons_append, List.nil_append, List.append_nil]

theorem toList_print (s : Settings) : (print s).toList =
    entryLine ("diagnostics", s.mode.name) ++
      ("control".toList ++ [':', '\n'] ++ [' ', ' '] ++ mappingLines (controlEntries s.control)) ++
      (rulesText s.rules).toList := by
  have diagnostics : "diagnostics: ".toList = "diagnostics".toList ++ [':', ' '] := rfl
  have control : "control:\n".toList = "control".toList ++ [':', '\n'] := rfl
  have port : "  port: ".toList = ' ' :: ' ' :: ("port".toList ++ [':', ' ']) := rfl
  have sentinel : "  sentinel: ".toList = ' ' :: ' ' :: ("sentinel".toList ++ [':', ' ']) := rfl
  have newline : "\n".toList = ['\n'] := rfl
  delta print
  simp only [String.toList_append, mappingLines, entryLine, controlEntries, diagnostics,
    control, port, sentinel, newline, List.append_assoc, List.flatMap_cons, List.flatMap_nil,
    List.cons_append, List.nil_append, List.append_nil]

theorem toList_rulesText_cons (unquoted : ∀ r' ∈ r :: rs, Unquoted r') :
    (rulesText (r :: rs)).toList = ("rules".toList ++ [':', '\n']) ++
      (r :: rs).flatMap fun r => ['-', ' '] ++ mappingLines (ruleEntries r) := by
  rw [rulesText, String.toList_append, String.toList_join, List.flatMap_map,
    List.flatMap_congr fun r mem => toList_ruleText (unquoted r mem)]
  · rfl
  · nofun

theorem arrives_rules (unquoted : ∀ r ∈ rs, Unquoted r) (awaits : Awaits s ts) :
    Arrives s (rs.flatMap fun r => ['-', ' '] ++ mappingLines (ruleEntries r))
      ((rs.flatMap ruleTokens).reverse ++ ts) := by
  induction rs generalizing s ts with
  | nil => exact ⟨s, fun rest => rfl, awaits⟩
  | cons r rs ih =>
    obtain ⟨first, more⟩ := List.forall_mem_cons.mp unquoted
    obtain ⟨line, offset, item⟩ := awaits.item
    obtain ⟨s', mapping, awaits⟩ : Arrives (between (.item :: ts) [0] true line 2 offset) _ _ :=
      arrives_mapping (writable_rule first)
    have arrives := (item.trans mapping).arrives (ih more awaits)
    simpa [ruleTokens, ruleEntries] using arrives

theorem arrives_rulesText (unquoted : ∀ r ∈ rs, Unquoted r) (awaits : Awaits s ts) :
    Arrives s (rulesText rs).toList
      ((rulesTokens rs).reverse ++ .value :: .scalar true "rules" :: .key :: ts) := by
  have named : KeyText "rules".toList := known_key (by decide)
  cases rs with
  | nil => exact awaits.no_items named
  | cons r rs =>
    obtain ⟨line, offset, header⟩ := awaits.header named
    rw [toList_rulesText_cons unquoted]
    exact header.arrives (arrives_rules unquoted awaits_between)

theorem arrives_control (c : Control) (awaits : Awaits s ts) :
    Arrives s ("control".toList ++ [':', '\n'] ++ [' ', ' '] ++ mappingLines (controlEntries c))
      ((mappingTokens (controlEntries c)).reverse ++ .value :: .scalar true "control" :: .key ::
        ts) := by
  have named : KeyText "control".toList := known_key (by decide)
  obtain ⟨line, offset, header⟩ := awaits.header named
  have indented := header.trans (leads_space.trans leads_space)
  exact indented.arrives (arrives_mapping (writable_control c))

theorem run_print {s : Settings} (unquoted : ∀ r ∈ s.rules, Unquoted r) :
    run .initial (print s).toList = some (tokens s) := by
  have arrives := ((arrives_first (writable_mode s.mode)).trans
    (fun _ awaits => arrives_control s.control awaits)).trans
    (fun _ awaits => arrives_rulesText unquoted awaits)
  rw [toList_print, arrives.run_eq]
  simp [tokens, entryTokens]

theorem lined_rulesText (unquoted : ∀ r ∈ rs, Unquoted r) : Lined (rulesText rs).toList := by
  cases rs with
  | nil => decide
  | cons r rs =>
    have header : Lined ("rules".toList ++ [':', '\n']) := by decide
    have dash : Lined ['-', ' '] := by decide
    rw [toList_rulesText_cons unquoted]
    exact header.append (lined_flatMap fun r mem =>
      dash.append (lined_mappingLines (writable_rule (unquoted r mem))))

theorem ofText?_print {s : Settings} (unquoted : ∀ r ∈ s.rules, Unquoted r) :
    Yaml.Token.ofText? (print s) = some (tokens s) := by
  have header : Lined ("control".toList ++ [':', '\n'] ++ [' ', ' ']) := by decide
  have lined : Lined (print s).toList := by
    rw [toList_print]
    exact ((writable_mode s.mode).lined.append
      (header.append (lined_mappingLines (writable_control s.control)))).append
        (lined_rulesText unquoted)
  rw [ofText?_of_lined lined, run_print unquoted]

end Tokens

section Nodes

open Builder (Hole)

def mappingNode (es : List (String × String)) : Node :=
  .mapping (es.map fun e => (.scalar true e.1, .scalar true e.2))

def ruleNode (r : Rule) : Node := mappingNode (ruleEntries r)

/-- The document that the settings are written as. -/
def node (s : Settings) : Node :=
  .mapping [(.scalar true "diagnostics", .scalar true s.mode.name),
    (.scalar true "control", mappingNode (controlEntries s.control)),
    (.scalar true "rules", .sequence (s.rules.map ruleNode))]

variable {entries : List (Node × Node)} {items : List Node} {key : Node} {outer : List Hole}
  {r : Rule} {rs : List Rule} {rest : List Yaml.Token}

theorem run_ruleTokens :
    Builder.run ⟨.levelItem items, outer⟩ (ruleTokens r ++ rest) =
      Builder.run ⟨.levelItem (ruleNode r :: items), outer⟩ rest := rfl

theorem run_rules :
    Builder.run ⟨.levelItem items, outer⟩ (rs.flatMap ruleTokens ++ rest) =
      Builder.run ⟨.levelItem ((rs.map ruleNode).reverse ++ items), outer⟩ rest := by
  induction rs generalizing items with
  | nil => rfl
  | cons r rs ih =>
    rw [List.flatMap_cons, List.append_assoc, run_ruleTokens, ih, List.map_cons, List.reverse_cons,
      List.append_assoc]
    rfl

/-- A sequence of rules is the last entry of the mapping around it. -/
theorem run_rulesTokens :
    Builder.run ⟨.node (.blockValue entries key), outer⟩ (rulesTokens rs ++ [.blockEnd]) =
      Builder.run ⟨.blockKey ((key, .sequence (rs.map ruleNode)) :: entries), outer⟩
        [.blockEnd] := by
  cases rs with
  | nil => rfl
  | cons r rs =>
    have first : Builder.run ⟨.node (.blockValue entries key), outer⟩
        (ruleTokens r ++ (rs.flatMap ruleTokens ++ [.blockEnd])) =
        Builder.run ⟨.levelItem [ruleNode r], .blockValue entries key :: outer⟩
          (rs.flatMap ruleTokens ++ [.blockEnd]) := rfl
    have last (items : List Node) :
        Builder.run ⟨.levelItem items, .blockValue entries key :: outer⟩ [.blockEnd] =
        Builder.run ⟨.blockKey ((key, .sequence items.reverse) :: entries), outer⟩
          [.blockEnd] := rfl
    rw [rulesTokens, List.flatMap_cons, List.append_assoc, first, run_rules, last,
      List.reverse_append, List.reverse_reverse]
    · rfl
    · nofun

theorem document_tokens (s : Settings) : Builder.document (tokens s) = some (node s) := by
  have begun : Builder.document (tokens s) = Builder.run ⟨.node (.blockValue
      [(.scalar true "control", mappingNode (controlEntries s.control)),
        (.scalar true "diagnostics", .scalar true s.mode.name)] (.scalar true "rules")),
      [.document]⟩
      (rulesTokens s.rules ++ [.blockEnd]) := rfl
  rw [begun, run_rulesTokens]
  rfl

theorem rule?_ruleNode (r : Rule) : rule? (ruleNode r) = some r := rfl

theorem rules?_map (rs : List Rule) : rules? (.sequence (rs.map ruleNode)) = some rs := by
  change (rs.map ruleNode).mapM rule? = some rs
  induction rs with
  | nil => rfl
  | cons r rs ih =>
    rw [List.map_cons, List.mapM_cons, rule?_ruleNode, ih]
    rfl

theorem natural?_toString {bound n : Nat} (small : n < bound) :
    natural? bound (.scalar true (toString n)) = some n := by
  apply natural?_eq_some_iff.mpr
  refine ⟨⟨toString n, rfl, ?_⟩, small⟩
  rw [Nat.toString_eq_repr, Nat.toList_repr]
  exact natural_toDigits n

theorem control?_mappingNode (c : Control) :
    control? (mappingNode (controlEntries c)) = some c := by
  obtain ⟨port, sentinel⟩ := c
  have read : control? (mappingNode (controlEntries ⟨port, sentinel⟩)) =
      (natural? UInt16.size (.scalar true (toString port.toNat))).bind fun port =>
        (natural? UInt8.size (.scalar true (toString sentinel.toNat))).bind fun sentinel =>
          some ⟨UInt16.ofNat port, UInt8.ofNat sentinel⟩ := rfl
  rw [read, natural?_toString port.toNat_lt, natural?_toString sentinel.toNat_lt, Option.bind_some,
    Option.bind_some, UInt16.ofNat_toNat, UInt8.ofNat_toNat]

theorem ofNode?_node (s : Settings) : ofNode? (node s) = some s := by
  obtain ⟨mode, control, rules⟩ := s
  have read : ofNode? (node ⟨mode, control, rules⟩) =
      (Mode.ofName? mode.name).bind fun mode =>
        (control? (mappingNode (controlEntries control))).bind fun control =>
          (rules? (.sequence (rules.map ruleNode))).bind fun rules =>
            some ⟨mode, control, rules⟩ := rfl
  rw [read, Mode.ofName?_name, control?_mappingNode, rules?_map]
  rfl

end Nodes

theorem holds_print {s : Settings} (unquoted : ∀ r ∈ s.rules, Unquoted r) :
    Holds (print s).toUTF8 (node s) := by
  refine ⟨print s, fromUTF8?_toUTF8 _, ?_⟩
  rw [Node.ofText?, ofText?_print unquoted]
  exact document_tokens s

/-- Settings whose texts need no quotes are read from a file as they were written. -/
theorem ofFile_print {s : Settings} (unquoted : ∀ r ∈ s.rules, Unquoted r) :
    ofFile (.ok (print s).toUTF8) = .ok s := by
  rw [ofFile_of_holds (holds_print unquoted), ofNode?_node]
  rfl

theorem ofFile_print_greeting :
    ofFile (.ok (print ⟨.simple, ⟨65535, 255⟩,
      [⟨"greet", "Equal 1 1", "Echo \"hi\""⟩, ⟨"sum", "Not (Equal 1 2)", "Add 1 2"⟩]⟩).toUTF8) =
    .ok ⟨.simple, ⟨65535, 255⟩,
      [⟨"greet", "Equal 1 1", "Echo \"hi\""⟩, ⟨"sum", "Not (Equal 1 2)", "Add 1 2"⟩]⟩ := by
  apply ofFile_print
  intro r mem
  simp only [List.mem_cons, List.not_mem_nil, or_false] at mem
  rcases mem with rfl | rfl <;> constructor <;> decide +kernel

end TypedCommands.Settings
