import TypedCommands.Proofs.Names
import TypedCommands.Proofs.Scanning
import TypedCommands.Proofs.Strings

/-! Reading the tokens of a text again. Where a token ends does not depend on what stands behind it,
as long as its line ends there; so the tokens of a text, each on a line of its own, are read as the
tokens that they were. -/
namespace TypedCommands

/-- Without a newline no line ends. -/
theorem Position.after_line {p : Position} {cs : List Char} (h : '\n' ∉ cs) :
    (p.after cs).line = p.line := by
  induction cs generalizing p with
  | nil => rfl
  | cons c cs ih =>
    obtain ⟨other, line⟩ := not_or.mp (mt List.mem_cons.mpr h)
    rw [after_cons, ih line, next, if_neg (Ne.symm other)]

namespace Numeral

/-- A text that is cut off behind the longest numeral, or further behind, begins with the same
one. -/
theorem Longest.take_eq {n : Numeral} {cs tail : List Char} (h : n.Longest cs)
    (front : n.text ++ tail <+: cs) : take (n.text ++ tail) = (n, tail) := by
  have whole : (take (n.text ++ tail)).1 = n := by
    obtain ⟨c, more, text⟩ : ∃ c more, n.text = c :: more :=
      List.exists_cons_of_ne_nil (text_ne_nil (.inr h.spelled.whole.ne_nil))
    have taken : Longest (n.text ++ tail) (take (n.text ++ tail)).1 := by
      rw [text]
      exact take_longest (h.spelled.startsNumber text tail)
    refine taken.unique ⟨h.spelled, List.prefix_append _ _, fun m spelled shorter => ?_⟩
    exact h.longest m spelled (shorter.trans front)
  have text := take_text (n.text ++ tail)
  rw [whole] at text
  exact Prod.ext whole (List.append_cancel_left text)

end Numeral

namespace Token

/-- The line ends here, or the text. -/
def LineEnds (rest : List Char) : Prop := ∀ c ∈ rest.head?, c = '\n'

variable {rest : List Char}

theorem LineEnds.nil : LineEnds [] := by
  rintro c ⟨⟩

theorem LineEnds.stops (h : LineEnds rest) : Stops rest := by
  intro c hc
  rw [h c hc]
  decide

theorem readNumber_again {c : Char} {cs : List Char} (starts : startsNumber c cs = true)
    (h : LineEnds rest) :
    readNumber ((readNumber (c :: cs)).text ++ rest) =
      ⟨(readNumber (c :: cs)).kind, (readNumber (c :: cs)).text, rest⟩ := by
  have longest := Numeral.take_longest starts
  have text := Numeral.take_text (c :: cs)
  unfold readNumber
  dsimp only
  generalize Numeral.take (c :: cs) = taken at longest text ⊢
  obtain ⟨n, left⟩ := taken
  dsimp only at longest text ⊢
  have front : n.text ++ left.takeWhile Name.isPart <+: c :: cs := by
    rw [← text, List.prefix_append_right_inj]
    exact List.takeWhile_prefix _
  have parts : ∀ d ∈ left.takeWhile Name.isPart, Name.isPart d = true :=
    List.all_eq_true.mp List.all_takeWhile
  have again := longest.take_eq front
  generalize left.takeWhile Name.isPart = tail at again parts ⊢
  rw [Numeral.take_append h.stops, again]
  simp only [List.takeWhile_append_of_pos parts, takeWhile_of_head h.stops.isPart,
    List.dropWhile_append_of_pos parts, dropWhile_of_head h.stops.isPart, List.append_nil]

theorem readString_again (cs : List Char) (h : LineEnds rest) :
    ∃ more, (readString cs).text = '"' :: more ∧
      readString (more ++ rest) = ⟨(readString cs).kind, '"' :: more, rest⟩ := by
  rcases Quoted.closes_or_breaksOff cs with ⟨items, left, closes⟩ | ⟨items, tail, left, broken⟩
  · have again : Quoted.Closes (Quoted.written items ++ ['"'] ++ rest) items rest :=
      ⟨closes.sound, by simp⟩
    refine ⟨Quoted.written items ++ ['"'], ?_, ?_⟩
    · rw [readString, closes.take]
    · rw [readString, readString, closes.take, again.take]
  · have again : Quoted.BreaksOff (Quoted.written items ++ tail ++ rest) items tail rest :=
      ⟨broken.sound, rfl, broken.tail, h⟩
    refine ⟨Quoted.written items ++ tail, ?_, ?_⟩
    · rw [readString, broken.take]
    · rw [readString, readString, broken.take, again.take]

theorem readName_again (cs : List Char) (h : LineEnds rest) :
    readName ((readName cs).text ++ rest) = ⟨(readName cs).kind, (readName cs).text, rest⟩ := by
  have parts : ∀ d ∈ cs.takeWhile Name.isPart, Name.isPart d = true :=
    List.all_eq_true.mp List.all_takeWhile
  simp only [readName, List.takeWhile_append_of_pos parts, takeWhile_of_head h.stops.isPart,
    List.dropWhile_append_of_pos parts, dropWhile_of_head h.stops.isPart, List.append_nil]

/-- A token begins with the character that it is read at. -/
theorem exists_read_text (c : Char) (cs : List Char) : ∃ more, (read c cs).text = c :: more := by
  have text := read_text c cs
  obtain ⟨d, more, word⟩ := List.exists_cons_of_ne_nil (read_text_ne_nil c cs)
  rw [word] at text ⊢
  exact ⟨more, by rw [(List.cons.inj text).1]⟩

/-- What is read where a numeral starts starts a numeral. -/
theorem startsNumber_again {c : Char} {cs more : List Char} (starts : startsNumber c cs = true)
    (text : (readNumber (c :: cs)).text = c :: more) (rest : List Char) :
    startsNumber c (more ++ rest) = true := by
  have spelled := Numeral.take_isSpelled starts
  have parts : (readNumber (c :: cs)).text = (Numeral.take (c :: cs)).1.text ++
      (Numeral.take (c :: cs)).2.takeWhile Name.isPart := rfl
  obtain ⟨d, front, numeral⟩ : ∃ d front, (Numeral.take (c :: cs)).1.text = d :: front :=
    List.exists_cons_of_ne_nil (Numeral.text_ne_nil (.inr spelled.whole.ne_nil))
  rw [text, numeral, List.cons_append] at parts
  obtain ⟨rfl, rfl⟩ := List.cons.inj parts
  rw [List.append_assoc]
  exact spelled.startsNumber numeral _

/-- A token is read the same at the end of a line. -/
theorem read_again (c : Char) (cs : List Char) (h : LineEnds rest) :
    ∃ more, (read c cs).text = c :: more ∧
      read c (more ++ rest) = ⟨(read c cs).kind, c :: more, rest⟩ := by
  -- The cases are those of `read`; what stands behind the token must not move it to another one.
  by_cases opening : c = '('
  · subst opening
    exact ⟨[], rfl, rfl⟩
  by_cases closing : c = ')'
  · subst closing
    exact ⟨[], rfl, rfl⟩
  by_cases quote : c = '"'
  · subst quote
    exact readString_again cs h
  obtain ⟨more, text⟩ := exists_read_text c cs
  by_cases number : startsNumber c cs = true
  · rw [read_number number] at text ⊢
    have again := readNumber_again number h
    rw [text] at again
    exact ⟨more, text, (read_number (startsNumber_again number text rest)).trans again⟩
  by_cases head : Name.isHead c = true
  · rw [read_name head] at text ⊢
    have again := readName_again (c :: cs) h
    rw [text] at again
    exact ⟨more, text, (read_name head _).trans again⟩
  · have figure : c.isDigit = false := by
      rw [startsNumber, Bool.not_eq_true, Bool.or_eq_false_iff] at number
      exact number.1
    have alone : startsNumber c rest = false := by
      have same := startsNumber_append h.stops c []
      rw [List.nil_append] at same
      rw [same]
      simp [startsNumber, figure]
    refine ⟨[], ?_, ?_⟩
    · simp [read, opening, closing, quote, number, head]
    · simp [read, opening, closing, quote, number, head, alone]

/-- The text of the token and its kind are read wherever it is the last one of its line. -/
def Rereads (t : Token) : Prop :=
  ∃ c more, Text.isBlank c = false ∧ t.text.toList = c :: more ∧
    ∀ rest, LineEnds rest → read c (more ++ rest) = ⟨t.kind, c :: more, rest⟩

theorem rereads_tokensFrom (p : Position) (cs : List Char) :
    ∃ words last, tokensFrom [] p cs = words ++ [last] ∧ last.kind = .finish ∧ last.text = "" ∧
      ∀ t ∈ words, t.Rereads := by
  induction cs using kinds.induct generalizing p with
  | case1 =>
    exact ⟨[], _, tokensFrom_nil p, rfl, rfl, fun _ mem => absurd mem List.not_mem_nil⟩
  | case2 c cs blank ih =>
    rw [tokensFrom_blank blank]
    exact ih _
  | case3 c cs visible ih =>
    have visible := Bool.eq_false_iff.mpr visible
    obtain ⟨words, last, split, kind, text, again⟩ := ih (p.after (read c cs).text)
    rw [tokensFrom_visible visible, split]
    refine ⟨_ :: words, last, rfl, kind, text, List.forall_mem_cons.mpr ⟨?_, again⟩⟩
    obtain ⟨more, word⟩ := exists_read_text c cs
    refine ⟨c, more, visible, String.toList_ofList.trans word, fun rest ends => ?_⟩
    obtain ⟨more', word', again⟩ := read_again c cs ends
    rw [word] at word'
    obtain ⟨-, rfl⟩ := List.cons.inj word'
    exact again

/-- The token in a place of its own: a line that it begins. -/
def lined (t : Token) (line : Nat) : Token := ⟨t.kind, t.text, ⟨line, 1⟩⟩

theorem Rereads.tokensFrom {t : Token} (h : t.Rereads) (p : Position) (ends : LineEnds rest) :
    tokensFrom [] p (t.text.toList ++ rest) =
      ⟨t.kind, t.text, p⟩ :: Token.tokensFrom [] (p.after t.text.toList) rest := by
  obtain ⟨c, more, visible, text, again⟩ := h
  rw [text, List.cons_append, tokensFrom_visible visible, again rest ends]
  simp only [← text, String.ofList_toList]

theorem Rereads.newline_not_mem {t : Token} (h : t.Rereads) : '\n' ∉ t.text.toList := by
  obtain ⟨c, more, visible, text, again⟩ := h
  have line := newline_not_mem_read visible (more ++ [])
  rw [again [] .nil] at line
  rwa [text]

/-- Lines that hold one token each are read one by one. -/
theorem tokensFrom_lines {words : List Token} (again : ∀ t ∈ words, t.Rereads) (k : Nat)
    (rest : List Char) :
    tokensFrom [] ⟨k, 1⟩ (words.flatMap (fun t => t.text.toList ++ ['\n']) ++ rest) =
      words.mapIdx (fun i t => t.lined (i + k)) ++ tokensFrom [] ⟨words.length + k, 1⟩ rest := by
  induction words generalizing k with
  | nil => simp
  | cons t words ih =>
    obtain ⟨head, others⟩ := List.forall_mem_cons.mp again
    have ends (more : List Char) : LineEnds ('\n' :: more) := by
      rintro d ⟨⟩
      rfl
    have below : ((⟨k, 1⟩ : Position).after t.text.toList).next '\n' = ⟨k + 1, 1⟩ := by
      rw [Position.next, if_pos rfl, Position.after_line head.newline_not_mem]
    rw [List.flatMap_cons, List.append_assoc, List.append_assoc, List.singleton_append,
      head.tokensFrom _ (ends _), tokensFrom_blank Text.isBlank_newline, below, ih others,
      List.mapIdx_cons, List.length_cons]
    simp only [List.cons_append, lined, Nat.zero_add, Nat.add_assoc, Nat.add_comm 1]

theorem toList_intercalate_lines (words : List Token) (last : String) :
    ("\n".intercalate (words.map (·.text) ++ [last])).toList =
      words.flatMap (fun t => t.text.toList ++ ['\n']) ++ last.toList := by
  induction words with
  | nil => simp
  | cons t words ih =>
    rw [List.map_cons, List.cons_append, String.intercalate_cons_of_ne_nil (by simp),
      String.toList_append, String.toList_append, ih, List.flatMap_cons, List.append_assoc,
      List.append_assoc, List.append_assoc]
    rfl

/-- The texts of the tokens, each on its line, are read as the same tokens, whatever stood between
them. The text of the end is empty: without it, the last line does not end and the text ends
there. -/
theorem tokens_relexed (source : String) :
    tokens ("\n".intercalate ((tokens source).map (·.text))) =
        (tokens source).mapIdx (fun i t => t.lined (i + 1)) ∧
      ∃ p, tokens ("\n".intercalate ((tokens source).dropLast.map (·.text))) =
        (tokens source).dropLast.mapIdx (fun i t => t.lined (i + 1)) ++ [⟨.finish, "", p⟩] := by
  obtain ⟨words, last, split, kind, text, again⟩ :=
    rereads_tokensFrom Position.start source.toList
  have hts : tokens source = words ++ [last] := split
  have finish : last.lined (words.length + 1) = ⟨.finish, "", ⟨words.length + 1, 1⟩⟩ := by
    rw [lined, kind, text]
  rw [hts]
  constructor
  · have lines := tokensFrom_lines again 1 []
    rw [tokensFrom_nil] at lines
    rw [tokens, List.map_append, List.map_singleton, text, toList_intercalate_lines,
      String.toList_empty, List.mapIdx_concat, finish]
    exact lines
  · rw [List.dropLast_concat]
    rcases List.eq_nil_or_concat words with rfl | ⟨front, w, rfl⟩
    · exact ⟨Position.start, tokensFrom_nil _⟩
    · rw [List.concat_eq_append] at again ⊢
      obtain ⟨others, head⟩ := List.forall_mem_append.mp again
      have lines := tokensFrom_lines others 1 w.text.toList
      have word := (head w List.mem_cons_self).tokensFrom ⟨front.length + 1, 1⟩ .nil
      rw [List.append_nil, tokensFrom_nil] at word
      rw [word] at lines
      refine ⟨(⟨front.length + 1, 1⟩ : Position).after w.text.toList, ?_⟩
      rw [tokens, List.map_append, List.map_singleton, toList_intercalate_lines, List.mapIdx_concat,
        List.append_assoc]
      exact lines

end Token
end TypedCommands
