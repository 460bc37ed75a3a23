import Mathlib.Data.List.TakeWhile
import TypedCommands.Proofs.Admission
import TypedCommands.Proofs.Blame
import TypedCommands.Proofs.Starts

/-! The names that commands can be registered under are those that the lexer reads as one word, and
those that commands have in texts. -/
namespace TypedCommands

/-- Without a newline the columns are counted on. -/
theorem Position.after_eq_of_line {p : Position} {cs : List Char} (h : '\n' ∉ cs) :
    p.after cs = ⟨p.line, p.column + cs.length⟩ := by
  induction cs generalizing p with
  | nil => rfl
  | cons c cs ih =>
    obtain ⟨other, line⟩ := not_or.mp (mt List.mem_cons.mpr h)
    rw [after_cons, ih line, next, if_neg (Ne.symm other), List.length_cons, Nat.add_right_comm,
      Nat.add_assoc]

namespace Name

theorem not_isPart_newline : isPart '\n' = false := by decide

/-- The part of a text that continues its first letter is a name. -/
theorem isName_takeWhile {c : Char} (head : isHead c = true) (cs : List Char) :
    isName (String.ofList ((c :: cs).takeWhile isPart)) = true := by
  rw [isName, String.toList_ofList, List.takeWhile_cons_of_pos (isPart_of_isHead head),
    isNameChars_cons, head, List.all_takeWhile]
  rfl

theorem takeWhile_eq_self {cs : List Char} (h : isNameChars cs = true) :
    cs.takeWhile isPart = cs ∧ cs.dropWhile isPart = [] := by
  cases cs with
  | nil => cases h
  | cons c cs =>
    rw [isNameChars_cons, Bool.and_eq_true, List.all_eq_true] at h
    have parts : ∀ d ∈ c :: cs, isPart d = true :=
      List.forall_mem_cons.mpr ⟨isPart_of_isHead h.1, h.2⟩
    exact ⟨List.takeWhile_eq_self_iff.mpr parts, List.dropWhile_eq_nil_iff.mpr parts⟩

end Name

namespace Token

/-- Only where a name begins an identifier is read, and it is a name. -/
theorem isName_of_read {c : Char} {cs : List Char} {name : String}
    (h : (read c cs).kind = .identifier name) : Name.isName name = true := by
  unfold read at h
  split at h
  · cases h
  split at h
  · cases h
  split at h
  · simp only [readString, Quoted.take] at h
    split at h
    · rcases Quoted.kind_cases h with ⟨_, ⟨⟩⟩ | ⟨_, ⟨⟩⟩
    · cases h
  split at h
  · simp only [readNumber] at h
    split at h
    · rcases Numeral.kind_cases h with ⟨_, ⟨⟩⟩ | ⟨_, ⟨⟩⟩ | ⟨_, ⟨⟩⟩
    · cases h
  split at h
  · rename_i head
    cases h
    exact Name.isName_takeWhile head cs
  · cases h

theorem isName_of_mem {source : String} {t : Token} {name : String} (mem : t ∈ tokens source)
    (kind : t.kind = .identifier name) : Name.isName name = true := by
  rcases read_of_mem mem with ⟨finish, -⟩ | ⟨-, c, rest, -, -, same, -⟩
  · rw [finish] at kind
    cases kind
  · exact isName_of_read (same.symm.trans kind)

/-- A name alone is one word, from the first column to the last one. -/
theorem tokens_of_isName {s : String} (h : Name.isName s = true) :
    tokens s = [⟨.identifier s, s, ⟨1, 1⟩⟩, ⟨.finish, "", ⟨1, s.length + 1⟩⟩] := by
  obtain ⟨taken, left⟩ := Name.takeWhile_eq_self h
  have line : '\n' ∉ s.toList := by
    rw [← taken]
    exact newline_not_mem_takeWhile Name.not_isPart_newline _
  have place : Position.start.after s.toList = ⟨1, s.length + 1⟩ := by
    rw [Position.after_eq_of_line line, String.length_toList]
    exact congrArg (Position.mk 1) (Nat.add_comm 1 _)
  obtain ⟨c, cs, text⟩ : ∃ c cs, s.toList = c :: cs := by
    obtain ⟨c, cs, text, -⟩ := Name.isName_iff.mp h
    exact ⟨c, cs, text⟩
  have head : Name.isHead c = true := by
    rw [Name.isName, text, Name.isNameChars_cons, Bool.and_eq_true] at h
    exact h.1
  have visible : Text.isBlank c = false := by
    have := Name.toNat_of_isHead head
    exact Text.isBlank_eq_false (by omega) (by omega)
  have word : read c cs = ⟨.identifier s, s.toList, []⟩ := by
    rw [read_name head, readName, ← text, taken, left, String.ofList_toList]
  rw [tokens, text, tokensFrom_visible visible, word, tokensFrom_nil, String.ofList_toList, place]
  rfl

end Token

namespace Command

/-- Every command in a text has a name that an identifier can spell. -/
theorem isName_of_parse {source : String} {c d : Command} (parsed : parse source = .ok c)
    (within : d.Within c) : Name.isName d.name = true := by
  have written := Parser.run_eq_ok_iff.mp (parse_eq_ok_iff.mp parsed)
  obtain ⟨t, mem, kind, -⟩ := (written.traced within).name
  exact Token.isName_of_mem ((List.takeWhile_sublist _).subset mem) kind

theorem parse_of_isName {s : String} (h : Name.isName s = true) :
    parse s = .ok (.mk s ⟨1, 1⟩ []) := by
  have body : Token.body (Token.tokens s) = [⟨.identifier s, s, ⟨1, 1⟩⟩] := by
    rw [Token.tokens_of_isName h]
    rfl
  refine parse_eq_ok_iff.mpr (Parser.run_eq_ok_iff.mpr ?_)
  rw [body]
  exact .name rfl .nil

end Command

namespace Registry

variable {σ : Type}

theorem isName_of_contains {ds : List (Declaration σ)} {r : Registry σ} (h : build ds = .ok r)
    {name : String} (registered : r.contains name = true) : Name.isName name = true := by
  obtain ⟨d, mem, rfl⟩ := (contains_iff h).mp registered
  exact Name.isName_iff.mpr ((build_eq_ok_iff.mp ⟨r, h⟩).1 d mem).name

/-- Under a name a command can be registered, one without parameters if nothing else. -/
theorem exists_contains {name : String} (h : Name.isName name = true) :
    ∃ (ds : List (Declaration σ)) (r : Registry σ), build ds = .ok r ∧ r.contains name = true := by
  let d : Declaration σ := ⟨some name, [], ⟨name, fun _ => pure (.ofBool true)⟩⟩
  have sound : ∀ e ∈ [d], ∃ s, e.signature = .ok s := by
    rw [List.forall_mem_singleton]
    exact ⟨_, Declaration.signature_of_no_parameters h rfl⟩
  obtain ⟨r, built⟩ := build_eq_ok sound (by simp)
  exact ⟨[d], r, built, (contains_iff built).mpr ⟨d, List.mem_singleton_self d, rfl⟩⟩

end Registry

/-- What a registry takes for a name and what the lexer reads as one agree on every text. A name
alone is one word and a command without parameters. A registry can hold a command under a text, and
a command in some text, at whatever depth, can have it as its name, exactly if it is a name. -/
theorem names_agree (σ : Type) (s : String) :
    (Name.isName s = true ↔ Token.tokens s =
      [⟨.identifier s, s, ⟨1, 1⟩⟩, ⟨.finish, "", ⟨1, s.length + 1⟩⟩]) ∧
    (Name.isName s = true ↔ Command.parse s = .ok (.mk s ⟨1, 1⟩ [])) ∧
    (Name.isName s = true ↔ ∃ (ds : List (Declaration σ)) (r : Registry σ),
      Registry.build ds = .ok r ∧ r.contains s = true) ∧
    (Name.isName s = true ↔ ∃ source c d,
      Command.parse source = .ok c ∧ Command.Within d c ∧ d.name = s) := by
  refine ⟨⟨Token.tokens_of_isName, ?_⟩, ⟨Command.parse_of_isName, ?_⟩,
    ⟨Registry.exists_contains, ?_⟩, ⟨?_, ?_⟩⟩
  · intro word
    exact Token.isName_of_mem (word ▸ List.mem_cons_self) rfl
  · intro parsed
    exact Command.isName_of_parse parsed .refl
  · rintro ⟨ds, r, built, registered⟩
    exact Registry.isName_of_contains built registered
  · intro name
    exact ⟨s, _, _, Command.parse_of_isName name, .refl, rfl⟩
  · rintro ⟨source, c, d, parsed, within, rfl⟩
    exact Command.isName_of_parse parsed within

end TypedCommands
