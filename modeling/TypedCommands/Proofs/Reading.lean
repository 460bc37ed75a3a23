import TypedCommands.Proofs.Places
import TypedCommands.Proofs.Scanning

/-! How single words are read. A string is read up to its closing quote, and a numeral the same
whatever follows it that cannot continue it. So the text of a word, with a space or a parenthesis
behind it, gives the token of the word. -/
namespace TypedCommands

theorem Text.isBlank_eq_false {c : Char} (low : 32 < c.toNat) (high : c.toNat < 128) :
    isBlank c = false := by
  simp [isBlank, blankRanges]
  omega

namespace Quoted

/-- The character as it is written in a string. -/
def escape (c : Char) : List Char :=
  if c = '\\' then ['\\', '\\'] else if c = '"' then ['\\', '"'] else if c = '\n' then ['\\', 'n']
  else [c]

/-- A text as a string literal. -/
def quote (s : List Char) : List Char := '"' :: (s.flatMap escape ++ ['"'])

theorem escape_cases (c : Char) :
    (∃ d, escape c = ['\\', d] ∧ d ≠ '\n' ∧ escaped d = some c) ∨
      escape c = [c] ∧ c ≠ '\\' ∧ c ≠ '"' ∧ c ≠ '\n' := by
  unfold escape
  split
  · rename_i h
    subst h
    exact .inl ⟨'\\', rfl, by decide, rfl⟩
  split
  · rename_i h
    subst h
    exact .inl ⟨'"', rfl, by decide, rfl⟩
  split
  · rename_i h
    subst h
    exact .inl ⟨'n', rfl, by decide, rfl⟩
  · rename_i backslash quote newline
    exact .inr ⟨rfl, backslash, quote, newline⟩

theorem split_escape (taken s rest : List Char) :
    split taken (s.flatMap escape ++ '"' :: rest) =
      (taken.reverse ++ s.flatMap escape, '"' :: rest) := by
  induction s generalizing taken with
  | nil => simp [split]
  | cons c s ih =>
    rw [List.flatMap_cons, List.append_assoc]
    rcases escape_cases c with ⟨d, hc, newline, -⟩ | ⟨hc, backslash, quote, newline⟩
    · rw [hc]
      simp [split, newline, ih]
    · rw [hc]
      simp [split, backslash, quote, newline, ih]

theorem decode_escape (value s : List Char) :
    decode value none (s.flatMap escape) = (value.reverse ++ s, none) := by
  induction s generalizing value with
  | nil => simp [decode]
  | cons c s ih =>
    rw [List.flatMap_cons]
    rcases escape_cases c with ⟨d, hc, -, hd⟩ | ⟨hc, backslash, -, -⟩
    · rw [hc]
      simp [decode, hd, ih]
    · rw [hc]
      simp [decode, backslash, ih]

/-- A text that is written as a string is read as that text. -/
theorem take_quote (s rest : List Char) :
    take (s.flatMap escape ++ '"' :: rest) =
      (.literal (.text (String.ofList s)), quote s, rest) := by
  simp [take, split_escape, kind, decode_escape, quote]

variable {rest : List Char}

/-- A body that was closed ends there, whatever follows. -/
theorem split_append {taken cs tail : List Char} (closed : (split taken cs).2 = '"' :: tail) :
    split taken (cs ++ rest) = ((split taken cs).1, (split taken cs).2 ++ rest) := by
  fun_induction split taken cs with
  | case1 => cases closed
  | case2 => cases closed
  | case3 taken c cs hc ih => simp [split, hc, ih closed]
  | case4 taken c cs _ hc =>
    obtain rfl : c = '"' := (List.cons.inj closed).1
    rfl
  | case5 taken c cs single hc ih =>
    rw [← ih closed]
    cases cs with
    | nil => cases closed
    | cons d ds =>
      have other : c ≠ '\\' := fun hs => single d ds hs rfl
      simp [split, other, hc]

theorem take_append {cs : List Char} (valid : ∀ reason, (take cs).1 ≠ .invalid reason) :
    take (cs ++ rest) = ((take cs).1, (take cs).2.1, (take cs).2.2 ++ rest) := by
  unfold take at valid ⊢
  split at valid
  · rename_i body tail closed
    rw [split_append (by rw [closed]), closed]
    rfl
  · exact absurd rfl (valid unterminated)

end Quoted

/-- The text of an integer is that of a numeral, which denotes it. -/
theorem Numeral.exists_integer (n : Int64) : ∃ numeral : Numeral, numeral.Spelled ∧
    numeral.text = (Literal.integerText n).toList ∧ numeral.kind = .literal (.integer n) := by
  obtain ⟨negative, ds, digits, ne, text, value⟩ := toString_eq n.toInt
  let numeral : Numeral := ⟨negative, ds, none, none⟩
  have spelled : numeral.Spelled := Figures.spelled ⟨ne, digits⟩ negative
  have shown : numeral.text = (Literal.integerText n).toList := by
    rw [Literal.integerText, text]
    simp [numeral, Numeral.text, fractionText, exponentText]
  exact ⟨numeral, spelled, shown, kind_of_integerValue rfl value⟩

namespace Token

theorem readNumber_append {rest : List Char} (h : Stops rest) (cs : List Char) :
    readNumber (cs ++ rest) =
      ⟨(readNumber cs).kind, (readNumber cs).text, (readNumber cs).rest ++ rest⟩ := by
  simp only [readNumber, Numeral.take_append h, takeWhile_append_of_head h.isPart,
    dropWhile_append_of_head h.isPart]

/-- The kinds of the tokens of a text; they do not depend on where it stands. -/
def kinds : List Char → List Kind
  | [] => [.finish]
  | c :: cs => if Text.isBlank c then kinds cs else (read c cs).kind :: kinds (read c cs).rest
termination_by cs => cs.length
decreasing_by
  · simp
  · exact rest_lt c cs

theorem map_kind_tokensFrom (done : List Token) (p : Position) (cs : List Char) :
    (tokensFrom done p cs).map (·.kind) = (done.map (·.kind)).reverse ++ kinds cs := by
  fun_induction tokensFrom done p cs with
  | case1 done p => simp [kinds]
  | case2 done p c cs blank ih => rw [ih, kinds, if_pos blank]
  | case3 done p c cs visible r ih =>
    rw [ih, kinds, if_neg visible, List.map_cons, List.reverse_cons, List.append_assoc]
    rfl

theorem map_kind_tokens (source : String) :
    (tokens source).map (·.kind) = kinds source.toList :=
  map_kind_tokensFrom [] Position.start source.toList

theorem kinds_nil : kinds [] = [.finish] := by rw [kinds]

theorem kinds_blank {c : Char} (blank : Text.isBlank c = true) (cs : List Char) :
    kinds (c :: cs) = kinds cs := by
  rw [kinds, if_pos blank]

theorem kinds_visible {c : Char} (visible : Text.isBlank c = false) (cs : List Char) :
    kinds (c :: cs) = (read c cs).kind :: kinds (read c cs).rest := by
  rw [kinds, if_neg (Bool.eq_false_iff.mp visible)]

theorem kinds_space (cs : List Char) : kinds (' ' :: cs) = kinds cs := kinds_blank (by decide) cs

theorem kinds_opening (cs : List Char) : kinds ('(' :: cs) = .opening :: kinds cs :=
  kinds_visible (by decide) cs

theorem kinds_closing (cs : List Char) : kinds (')' :: cs) = .closing :: kinds cs :=
  kinds_visible (by decide) cs

theorem read_number {c : Char} {cs : List Char} (h : startsNumber c cs = true) :
    read c cs = readNumber (c :: cs) := by
  have other {d : Char} (hd : ∀ ds, startsNumber d ds = false) : c ≠ d := by
    rintro rfl
    rw [hd] at h
    cases h
  have opening : c ≠ '(' := other fun _ => rfl
  have closing : c ≠ ')' := other fun _ => rfl
  have quote : c ≠ '"' := other fun _ => rfl
  simp only [read, opening, closing, quote, h, if_false, if_true]

theorem startsNumber_visible {c : Char} {cs : List Char} (h : startsNumber c cs = true) :
    Text.isBlank c = false := by
  simp only [startsNumber, Bool.or_eq_true, Bool.and_eq_true, beq_iff_eq,
    Char.isDigit_iff_toNat] at h
  rcases h with ⟨low, high⟩ | ⟨rfl, -⟩
  · simp only [Char.reduceToNat] at low high
    exact Text.isBlank_eq_false (by omega) (by omega)
  · decide

theorem startsNumber_append {rest : List Char} (stops : Stops rest) (c : Char) (cs : List Char) :
    startsNumber c (cs ++ rest) = startsNumber c cs := by
  cases cs with
  | nil =>
    have none : rest.head?.any Char.isDigit = false := by
      cases head : rest.head? with
      | none => rfl
      | some d => exact stops.isDigit d head
    simp [startsNumber, none]
  | cons d ds => rfl

/-- A token is read the same whatever follows that cannot continue it, unless it is invalid: a
string that was not closed goes on. -/
theorem read_append {c : Char} {cs rest : List Char} (stops : Stops rest)
    (valid : ∀ reason, (read c cs).kind ≠ .invalid reason) :
    read c (cs ++ rest) = ⟨(read c cs).kind, (read c cs).text, (read c cs).rest ++ rest⟩ := by
  unfold read at valid ⊢
  rw [startsNumber_append stops]
  split
  · rfl
  split
  · rfl
  split
  · rename_i quote
    simp only [quote, if_true, readString] at valid ⊢
    rw [Quoted.take_append valid]
  split
  · exact readNumber_append stops (c :: cs)
  split
  · simp only [readName, ← List.cons_append, takeWhile_append_of_head stops.isPart,
      dropWhile_append_of_head stops.isPart]
  · rfl

/-- Words without a fault are read the same in front of what cannot continue the last of them. -/
theorem kinds_append {cs rest : List Char} {ks : List Kind} (h : kinds cs = ks ++ [.finish])
    (valid : ∀ reason, .invalid reason ∉ ks) (stops : Stops rest) :
    kinds (cs ++ rest) = ks ++ kinds rest := by
  fun_induction kinds cs generalizing ks with
  | case1 =>
    obtain rfl : ks = [] := by simpa using congrArg List.length h
    rfl
  | case2 c cs blank ih => rw [List.cons_append, kinds_blank blank, ih h valid]
  | case3 c cs visible ih =>
    cases ks with
    | nil => exact absurd (List.cons.inj h).1 (read_kind_ne_finish c cs)
    | cons k ks =>
      obtain ⟨rfl, left⟩ := List.cons.inj h
      have sound : ∀ reason, (read c cs).kind ≠ .invalid reason := fun reason invalid =>
        valid reason (invalid ▸ List.mem_cons_self)
      have word := read_append stops sound
      have others := ih left fun reason mem => valid reason (List.mem_cons_of_mem _ mem)
      rw [List.cons_append, kinds_visible (Bool.eq_false_iff.mpr visible), word, others,
        List.cons_append]

/-- A text that holds one float is read as that float in front of what cannot continue it. -/
theorem kinds_float {cs rest : List Char} {x : Binary64}
    (h : kinds cs = [.literal (.float x), .finish]) (stops : Stops rest) :
    kinds (cs ++ rest) = .literal (.float x) :: kinds rest := by
  have words : kinds cs = [.literal (.float x)] ++ [.finish] := h
  exact kinds_append words (by simp) stops

/-- The text of a numeral is read as that numeral in front of what cannot continue it. -/
theorem read_numeral {n : Numeral} (h : n.Spelled) {rest : List Char} (stops : Stops rest) :
    ∃ c more, n.text = c :: more ∧ Text.isBlank c = false ∧
      read c (more ++ rest) = ⟨n.kind, n.text, rest⟩ := by
  obtain ⟨c, more, text⟩ : ∃ c more, n.text = c :: more :=
    List.exists_cons_of_ne_nil (Numeral.text_ne_nil (.inr h.whole.ne_nil))
  have starts : startsNumber c (more ++ rest) = true := h.startsNumber text rest
  have taken : Numeral.take (n.text ++ rest) = (n, rest) := by
    rw [Numeral.take_append stops, Numeral.take_text_self h]
    rfl
  have word : readNumber (n.text ++ rest) = ⟨n.kind, n.text, rest⟩ := by
    simp [readNumber, taken, takeWhile_of_head stops.isPart, dropWhile_of_head stops.isPart]
  rw [text, List.cons_append] at word
  rw [← read_number starts] at word
  exact ⟨c, more, text, startsNumber_visible starts, text ▸ word⟩

theorem kinds_numeral {n : Numeral} (h : n.Spelled) {rest : List Char} (stops : Stops rest) :
    kinds (n.text ++ rest) = n.kind :: kinds rest := by
  obtain ⟨c, more, text, visible, word⟩ := read_numeral h stops
  rw [text, List.cons_append, kinds_visible visible, word]

theorem kinds_integer (n : Int64) {rest : List Char} (stops : Stops rest) :
    kinds ((Literal.integerText n).toList ++ rest) = .literal (.integer n) :: kinds rest := by
  obtain ⟨numeral, spelled, text, kind⟩ := Numeral.exists_integer n
  rw [← text, kinds_numeral spelled stops, kind]

/-- A text that is written as a string is read as that text. -/
theorem kinds_quote (s rest : List Char) :
    kinds (Quoted.quote s ++ rest) = .literal (.text (String.ofList s)) :: kinds rest := by
  have body := Quoted.take_quote s rest
  have string : read '"' (s.flatMap Quoted.escape ++ '"' :: rest) =
      ⟨.literal (.text (String.ofList s)), Quoted.quote s, rest⟩ := by
    simp [read, readString, body]
  have split : Quoted.quote s ++ rest = '"' :: (s.flatMap Quoted.escape ++ '"' :: rest) := by
    simp [Quoted.quote]
  rw [split, kinds_visible (by decide), string]

end Token
end TypedCommands
