import TypedCommands.Proofs.Blame
import TypedCommands.Proofs.Layout

/-! Where the caret of a report stands. A column counts every character of its line, but the line
is shown without its carriage returns, so the caret is as many columns too far to the right as
there are carriage returns before the place. -/
namespace TypedCommands

namespace Text

/-- How many characters before a place are on its line and not shown. -/
def unshown (source : String) (p : Position) : Nat :=
  (((pieces source.toList).getD (p.line - 1) []).take (p.column - 1)).count '\r'

theorem flatten_append (xs ys : List Char) : flatten (xs ++ ys) = flatten xs ++ flatten ys := by
  rw [flatten, List.filter_append, List.map_append]
  rfl

theorem length_flatten (cs : List Char) : (flatten cs).length + cs.count '\r' = cs.length := by
  induction cs with
  | nil => rfl
  | cons c cs ih =>
    have hc := flatten_append [c] cs
    rw [List.singleton_append] at hc
    rw [hc, List.length_append, List.length_cons, List.count_cons, ← ih]
    by_cases hr : c = '\r'
    · subst hr
      simp [flatten]
      omega
    · simp [flatten, hr]
      omega

/-- A character that can be seen is shown as it is. -/
theorem flatten_cons {c : Char} (cs : List Char) (visible : isBlank c = false) :
    flatten (c :: cs) = c :: flatten cs := by
  have hr : c ≠ '\r' := by
    rintro rfl
    revert visible
    decide
  have ht : c ≠ '\t' := by
    rintro rfl
    revert visible
    decide
  simp [flatten, hr, ht]

theorem line_shownLines (source : String) (n : Nat) :
    line (shownLines source) n =
      String.ofList (flatten ((pieces source.toList).getD (n - 1) [])) := by
  rw [line, shownLines, List.getD_eq_getElem?_getD, List.getD_eq_getElem?_getD, List.getElem?_map]
  cases (pieces source.toList)[n - 1]? with
  | none => rfl
  | some cs => rfl

end Text

namespace Token

/-- A caret at the column of the line stands under the token: under its first character or, if the
token is the end of the text, right behind the line. -/
def Under (t : Token) (line : String) (column : Nat) : Prop :=
  column - 1 ≤ line.length ∧
    if t.isFinish then column = line.length + 1
    else ∃ c, t.text.toList.head? = some c ∧ line.toList[column - 1]? = some c

theorem under_finish_iff {t : Token} (finish : t.isFinish = true) (line : String) (column : Nat) :
    t.Under line column ↔ column = line.length + 1 := by
  simp only [Under, finish, if_true]
  constructor
  · exact And.right
  · intro h
    exact ⟨by omega, h⟩

theorem under_word_iff {t : Token} {c : Char} (word : t.isFinish = false)
    (head : t.text.toList.head? = some c) (line : String) (column : Nat) :
    t.Under line column ↔ line.toList[column - 1]? = some c := by
  simp only [Under, word, head, Bool.false_eq_true, if_false]
  constructor
  · rintro ⟨-, d, hd, hl⟩
    cases hd
    exact hl
  · intro h
    obtain ⟨hlt, -⟩ := List.getElem?_eq_some_iff.mp h
    rw [String.length_toList] at hlt
    exact ⟨Nat.le_of_lt hlt, c, rfl, h⟩

/-- The characters are the rest of a line that begins at the token. -/
def Begins (t : Token) (tail : List Char) : Prop :=
  if t.isFinish then tail = []
  else ∃ c more, tail = c :: more ∧ Text.isBlank c = false ∧ t.text.toList.head? = some c

/-- The line of a token is the characters that its column counts and then the token. -/
theorem line_of_mem {source : String} {t : Token} (h : t ∈ tokens source) :
    ∃ front tail, t.position.column = front.length + 1 ∧ t.Begins tail ∧
      (Text.pieces source.toList).getD (t.position.line - 1) [] = front ++ tail := by
  cases placed_of_mem_tokens h with
  | finish kind position =>
    obtain ⟨front, hf, hl⟩ := Text.pieces_after source.toList []
    rw [List.append_nil] at hl
    refine ⟨front, [], by rw [position, hf], ?_, by rw [position, hl]; rfl⟩
    simp [Begins, isFinish, kind]
  | word before more rest c kind text visible spelled position =>
    obtain ⟨front, hf, hl⟩ := Text.pieces_after before (c :: more ++ rest)
    have hn : c ≠ '\n' := by
      rintro rfl
      rw [Text.isBlank_newline] at visible
      cases visible
    have ht : (c :: more ++ rest).takeWhile (· ≠ '\n') =
        c :: (more ++ rest).takeWhile (· ≠ '\n') := by
      simp [hn]
    have hk : t.isFinish = false := by
      unfold isFinish
      split
      · rename_i hf
        exact absurd hf kind
      · rfl
    refine ⟨front, _, by rw [position, hf], ?_, by rw [position, spelled, hl]⟩
    simp only [Begins, hk, Bool.false_eq_true, if_false]
    exact ⟨c, _, ht, visible, by rw [text, List.head?_cons]⟩

/-- In a line as it is shown, a caret is right if it is where the token now begins. -/
theorem under_flatten_iff {t : Token} {front tail : List Char} (h : t.Begins tail) (column : Nat) :
    t.Under (String.ofList (Text.flatten (front ++ tail))) column ↔
      if t.isFinish then column = (Text.flatten front).length + 1
      else (Text.flatten (front ++ tail))[column - 1]? =
        (Text.flatten (front ++ tail))[(Text.flatten front).length]? := by
  unfold Begins at h
  rw [Text.flatten_append]
  cases hf : t.isFinish with
  | true =>
    rw [hf, if_pos rfl] at h
    have hnil : Text.flatten [] = [] := rfl
    rw [under_finish_iff hf, h, hnil, List.append_nil, String.length_ofList]
    simp
  | false =>
    rw [hf, if_neg Bool.false_ne_true] at h
    obtain ⟨c, more, rfl, visible, head⟩ := h
    rw [under_word_iff hf head, String.toList_ofList, Text.flatten_cons more visible]
    simp

end Token

/-- A report about a token, shown with the line and a caret at the place. The token stands to the
left of the caret by what is not shown of the line before it. So the caret is under the token if
nothing is hidden there, and else, unless the token is the end of the text, only if the character
that the caret happens to be under is the same one. -/
structure Pointed (source : String) (t : Token) (line : String) (p : Position) : Prop where
  mem : t ∈ Token.tokens source
  place : t.position = p
  shown : line = Text.line (Text.shownLines source) p.line
  unshown_lt : Text.unshown source p < p.column
  under : t.Under line (p.column - Text.unshown source p)
  under_iff : t.Under line p.column ↔ Text.unshown source p = 0 ∨ t.isFinish = false ∧
    line.toList[p.column - 1]? = line.toList[p.column - 1 - Text.unshown source p]?

/-- The caret and the token are apart by what is hidden, for every token of a text. -/
theorem pointed_of_mem {source : String} {t : Token} (h : t ∈ Token.tokens source) :
    Pointed source t (Text.line (Text.shownLines source) t.position.line) t.position := by
  obtain ⟨front, tail, hcolumn, begins, hline⟩ := Token.line_of_mem h
  have hunshown : Text.unshown source t.position = front.count '\r' := by
    rw [Text.unshown, hline, hcolumn, Nat.add_sub_cancel, List.take_left]
  have hshift : t.position.column =
      (Text.flatten front).length + 1 + Text.unshown source t.position := by
    rw [hunshown, hcolumn, ← Text.length_flatten front]
    omega
  have hleft : t.position.column - 1 - Text.unshown source t.position =
      (Text.flatten front).length := by omega
  refine ⟨h, rfl, rfl, by omega, ?_, ?_⟩
  · rw [Text.line_shownLines, hline, Token.under_flatten_iff begins]
    have hc : t.position.column - Text.unshown source t.position =
        (Text.flatten front).length + 1 := by omega
    rw [hc, Nat.add_sub_cancel]
    simp only [ite_self]
  · rw [Text.line_shownLines, hline, Token.under_flatten_iff begins, String.toList_ofList, hleft]
    cases hf : t.isFinish with
    | true =>
      simp only [if_true, Bool.true_eq_false, false_and, or_false]
      omega
    | false =>
      simp only [Bool.false_eq_true, if_false, true_and]
      constructor
      · exact .inr
      · rintro (hz | same)
        · rw [hz, Nat.sub_zero] at hleft
          rw [hleft]
        · exact same

/-- Every report that shows a line has its caret at the place of the token that it is about: for the
parser the one it objects to, for binding the command's name or the parameter at fault. Of where
this token is in the line, `Pointed` tells all. -/
theorem caret_pointed (source : String) :
    (∀ diagnostics, Command.parse source = .error diagnostics → ∀ d ∈ diagnostics,
      ∃ (x : Complaint) (line : String), d = { x.diagnostic with line := some line } ∧
        d.render .verbose = d.summary ++ "\n" ++ Text.caret line d.position.column ∧
        Pointed source x.token line d.position) ∧
    ∀ (σ : Type) (env : Environment σ) (e : BindError) (line : String),
      (env.check source = .error (.bind e line) ∨
        ∃ s, (env.run source s).1 = .error (.bind e line)) →
      ∃ (c : Command) (t : Token), Command.parse source = .ok c ∧ Blames c e t.kind ∧
        (CommandError.bind e line).render .verbose =
          e.message ++ "\n" ++ Text.caret line e.place.column ∧
        Pointed source t line e.place := by
  constructor
  · intro diagnostics h d hd
    unfold Command.parse at h
    cases hr : Command.ofTokens (Token.tokens source) with
    | ok c =>
      rw [hr] at h
      cases h
    | error complaints =>
      rw [hr] at h
      cases h
      obtain ⟨x, hx, rfl⟩ := List.mem_map.mp hd
      have hend := Token.exists_finish_mem_tokensFrom [] Position.start source.toList
      exact ⟨x, _, rfl, rfl, pointed_of_mem (Parser.token_mem_of_run_eq_error hend hr hx)⟩
  · intro σ env e line h
    have hcheck : env.check source = .error (.bind e line) := by
      rcases h with h | ⟨s, h⟩
      · exact h
      · exact Environment.check_of_run_eq_bind h
    obtain ⟨rfl, c, hc, he⟩ := Environment.check_eq_bind hcheck
    obtain ⟨k, hk⟩ := bind_blames he
    have written := Parser.run_eq_ok_iff.mp (Command.parse_eq_ok_iff.mp hc)
    obtain ⟨t, ht, rfl, hplace⟩ := hk.marked written
    have hmem : t ∈ Token.tokens source := (List.takeWhile_sublist _).subset ht
    have pointed := pointed_of_mem hmem
    rw [hplace] at pointed
    exact ⟨c, t, hc, hk, rfl, pointed⟩

theorem caret_pointed_unknown_command :
    let env : Environment Unit := ⟨.empty, .verbose⟩
    let e : BindError := ⟨⟨1, 3⟩, .unknownCommand "Nope"⟩
    env.check "\r Nope" = .error (.bind e " Nope") ∧
      ∃ t : Token, Pointed "\r Nope" t " Nope" ⟨1, 3⟩ := by
  intro env e
  have h : (match env.check "\r Nope" with
      | .ok _ => none
      | .error e => some e) = some (.bind e " Nope") := by decide +kernel
  have hcheck : env.check "\r Nope" = .error (.bind e " Nope") := by
    cases hc : env.check "\r Nope" with
    | ok call =>
      rw [hc] at h
      cases h
    | error e' =>
      rw [hc] at h
      exact congrArg Except.error (Option.some.inj h)
  obtain ⟨c, t, -, -, -, pointed⟩ := (caret_pointed "\r Nope").2 Unit env e " Nope" (.inl hcheck)
  exact ⟨hcheck, t, pointed⟩

/-- A carriage return between two tokens: the caret is behind the line that is shown. -/
theorem caret_behind_line :
    ∃ d : Diagnostic, Command.parse "A\r@" = .error [d] ∧
      d.message = "expected end-of-input but found invalid token '@' (unexpected character)" ∧
      d.position = ⟨1, 3⟩ ∧ d.line = some "A@" ∧
      d.render .verbose = d.summary ++ "\nA@\n  ^" ∧
      "A@".toList[d.position.column - 1]? = none := by
  have h : (match Command.parse "A\r@" with
      | .ok _ => []
      | .error ds => ds) = [⟨.syntactic,
        "expected end-of-input but found invalid token '@' (unexpected character)", ⟨1, 3⟩,
        some "A@"⟩] := by decide +kernel
  cases hp : Command.parse "A\r@" with
  | ok c =>
    rw [hp] at h
    cases h
  | error ds =>
    rw [hp] at h
    exact ⟨_, congrArg Except.error h, rfl, rfl, rfl, by decide +kernel, rfl⟩

end TypedCommands
