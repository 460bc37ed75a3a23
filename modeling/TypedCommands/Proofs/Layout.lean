import TypedCommands.Proofs.Numerals
import TypedCommands.Proofs.Places

/-! A text and its tokens as a whole. The text is the tokens in their order with blank characters
between them, so nothing of it is lost, and the position of a token counts the newlines before it
and the characters behind the last of these. -/
namespace TypedCommands

namespace Position

/-- The place behind some characters, as they are counted in the text. -/
def behind (before : List Char) : Position :=
  ⟨1 + before.count '\n', 1 + (before.reverse.takeWhile (· ≠ '\n')).length⟩

/-- Counting while reading comes to the same. -/
theorem start_after (before : List Char) : start.after before = behind before := by
  have reversed (cs : List Char) : start.after cs.reverse = behind cs.reverse := by
    induction cs with
    | nil => rfl
    | cons c cs ih =>
      rw [List.reverse_cons, after_append, ih, after_cons, after_nil]
      by_cases newline : c = '\n'
      · simp [next, behind, newline]
        omega
      · simp [next, behind, newline]
        omega
  rw [← before.reverse_reverse]
  exact reversed before.reverse

end Position

namespace Text

/-- The line around a place in a text, without the newlines that end it and the one before. -/
def lineAt (before rest : List Char) : List Char :=
  (before.reverse.takeWhile (· ≠ '\n')).reverse ++ rest.takeWhile (· ≠ '\n')

/-- Reading past some characters ends as many lines as there are newlines, and begins the one that
goes on behind them. -/
theorem pieces_go_append {line : List Char} (h : '\n' ∉ line) (before rest : List Char) :
    ∃ ended, ended.length = before.count '\n' ∧ pieces.go [] line (before ++ rest) =
      ended ++ pieces.go [] ((before.reverse ++ line).takeWhile (· ≠ '\n')) rest := by
  induction before generalizing line with
  | nil =>
    have all : ∀ c ∈ line, decide (c ≠ '\n') = true := by
      intro c mem
      rw [decide_eq_true_eq]
      rintro rfl
      exact h mem
    have whole : (line ++ []).takeWhile (· ≠ '\n') = line ++ [] := List.takeWhile_append_of_pos all
    rw [List.append_nil] at whole
    refine ⟨[], rfl, ?_⟩
    rw [List.reverse_nil, List.nil_append, List.nil_append, List.nil_append, whole]
  | cons c before ih =>
    rw [List.reverse_cons, List.append_assoc, List.cons_append, pieces.go]
    by_cases newline : c = '\n'
    · obtain ⟨ended, count, split⟩ := ih List.not_mem_nil
      refine ⟨line.reverse :: ended, by simp [newline, count], ?_⟩
      have stops : ∀ d ∈ ([c] ++ line).head?, decide (d ≠ '\n') = false := by
        rintro d ⟨⟩
        simp [newline]
      rw [List.append_nil] at split
      rw [if_pos newline, pieces_go, split, takeWhile_append_of_head stops]
      rfl
    · have longer : '\n' ∉ c :: line := by simp [h, Ne.symm newline]
      obtain ⟨ended, count, split⟩ := ih longer
      refine ⟨ended, by simp [newline, count], ?_⟩
      rw [if_neg newline, split]
      rfl

/-- The line of a place has as many before it as there are newlines. -/
theorem pieces_behind (before rest : List Char) :
    (pieces (before ++ rest)).getD (before.count '\n') [] = lineAt before rest := by
  obtain ⟨ended, count, split⟩ := pieces_go_append List.not_mem_nil before rest
  obtain ⟨more, first⟩ := pieces_go_eq_cons (before.reverse.takeWhile (· ≠ '\n')) rest
  rw [List.append_nil, first] at split
  rw [pieces, split, ← count, List.getD_eq_getElem?_getD,
    List.getElem?_append_right (Nat.le_refl _), Nat.sub_self]
  rfl

/-- The line of a place is what its column counts and then the text up to the next newline. -/
theorem pieces_after (before rest : List Char) :
    ∃ front, (Position.start.after before).column = front.length + 1 ∧
      (pieces (before ++ rest)).getD ((Position.start.after before).line - 1) [] =
        front ++ rest.takeWhile (· ≠ '\n') := by
  refine ⟨(before.reverse.takeWhile (· ≠ '\n')).reverse, ?_, ?_⟩
  · rw [Position.start_after, Position.behind, List.length_reverse]
    exact Nat.add_comm 1 _
  · rw [Position.start_after, Position.behind, Nat.add_sub_cancel_left, pieces_behind]
    rfl

end Text

theorem newline_not_mem_takeWhile {p : Char → Bool} (h : p '\n' = false) (cs : List Char) :
    '\n' ∉ cs.takeWhile p := by
  intro mem
  have passes : p '\n' = true := List.all_eq_true.mp List.all_takeWhile '\n' mem
  rw [h] at passes
  cases passes

namespace Numeral

theorem newline_not_mem_fractionText (cs : List Char) :
    '\n' ∉ fractionText (takeFraction cs).1 := by
  unfold takeFraction
  split
  · simp [fractionText, newline_not_mem_takeWhile]
  · exact List.not_mem_nil

theorem newline_not_mem_takeExponentDigits {cs : List Char} {sign ds rest}
    (h : takeExponentDigits cs = some (sign, ds, rest)) : '\n' ∉ sign.toList ++ ds := by
  unfold takeExponentDigits at h
  split at h
  rename_i r hs
  split at h
  · cases h
  · rename_i d ds' hd
    cases h
    have digits : '\n' ∉ r.takeWhile Char.isDigit := newline_not_mem_takeWhile (by decide) r
    have signs : '\n' ∉ sign.toList := by
      unfold takeExponentSign at hs
      split at hs <;> cases hs <;> decide
    rw [hd] at digits
    exact List.not_mem_append signs digits

theorem newline_not_mem_exponentText (cs : List Char) :
    '\n' ∉ exponentText (takeExponent cs).1 := by
  unfold takeExponent
  split
  · rename_i c cs
    split
    · rename_i mark
      split
      · rename_i h
        have hc : '\n' ≠ c := by
          rintro rfl
          revert mark
          decide
        have := newline_not_mem_takeExponentDigits h
        simp [exponentText, hc] at this ⊢
        exact this
      · exact List.not_mem_nil
    · exact List.not_mem_nil
  · exact List.not_mem_nil

theorem newline_not_mem_text (cs : List Char) : '\n' ∉ (take cs).1.text := by
  simp only [take, text, List.mem_append, not_or]
  refine ⟨⟨⟨?_, ?_⟩, ?_⟩, ?_⟩
  · by_cases negative : (takeSign cs).1 = true <;> simp [negative]
  · exact newline_not_mem_takeWhile (by decide) _
  · exact newline_not_mem_fractionText _
  · exact newline_not_mem_exponentText _

end Numeral

namespace Quoted

theorem newline_not_mem_split {taken : List Char} (h : '\n' ∉ taken) (cs : List Char) :
    '\n' ∉ (split taken cs).1 := by
  fun_induction split taken cs with
  | case1 taken => simpa using h
  | case2 taken cs => simpa using h
  | case3 taken c cs hc ih => exact ih (by simp [h, Ne.symm hc])
  | case4 taken c cs _ hc => simpa using h
  | case5 taken c cs _ hc ih => exact ih (by simp [h, Ne.symm (not_or.mp hc).2])

theorem newline_not_mem_take (cs : List Char) : '\n' ∉ (take cs).2.1 := by
  have body := newline_not_mem_split List.not_mem_nil cs
  unfold take
  split <;> rename_i hs <;> rw [hs] at body <;> simpa using body

end Quoted

namespace Token

/-- A token that begins with a character that can be seen keeps to its line. -/
theorem newline_not_mem_read {c : Char} (visible : Text.isBlank c = false) (cs : List Char) :
    '\n' ∉ (read c cs).text := by
  have single : '\n' ∉ [c] := by
    rw [List.mem_singleton]
    rintro rfl
    rw [Text.isBlank_newline] at visible
    cases visible
  unfold read
  split
  · exact single
  split
  · exact single
  split
  · exact Quoted.newline_not_mem_take cs
  split
  · exact List.not_mem_append (Numeral.newline_not_mem_text _)
      (newline_not_mem_takeWhile (by decide) _)
  split
  · exact newline_not_mem_takeWhile (by decide) _
  · exact single

/-- The tokens lie in the text, which begins at the position, one behind the other. Between them
are blank characters, and behind the last one, the end, there is nothing. -/
inductive Laid : Position → List Char → List Token → Prop where
  | finish {p : Position} {gap : List Char} (blank : ∀ c ∈ gap, Text.isBlank c = true) :
      Laid p gap [⟨.finish, "", p.after gap⟩]
  | word {p : Position} {gap rest : List Char} {t : Token} {ts : List Token}
      (blank : ∀ c ∈ gap, Text.isBlank c = true) (word : t.kind ≠ .finish) (text : t.text ≠ "")
      (newline : '\n' ∉ t.text.toList) (position : t.position = p.after gap)
      (next : Laid (t.position.after t.text.toList) rest ts) :
      Laid p (gap ++ t.text.toList ++ rest) (t :: ts)

theorem Laid.blank {p : Position} {c : Char} {cs : List Char} {ts : List Token}
    (h : Laid (p.next c) cs ts) (hc : Text.isBlank c = true) : Laid p (c :: cs) ts := by
  cases h with
  | finish blank => exact .finish (List.forall_mem_cons.mpr ⟨hc, blank⟩)
  | @word _ gap rest t ts blank word text newline position next =>
    have wider : ∀ d ∈ c :: gap, Text.isBlank d = true := List.forall_mem_cons.mpr ⟨hc, blank⟩
    exact .word wider word text newline position next

theorem laid_tokensFrom (done : List Token) (p : Position) (cs : List Char) :
    ∃ ts, tokensFrom done p cs = done.reverse ++ ts ∧ Laid p cs ts := by
  have none : ∀ c ∈ ([] : List Char), Text.isBlank c = true := nofun
  fun_induction tokensFrom done p cs with
  | case1 done p => exact ⟨[⟨.finish, "", p⟩], List.reverse_cons, .finish none⟩
  | case2 done p c cs blank ih =>
    obtain ⟨ts, hts, laid⟩ := ih
    exact ⟨ts, hts, laid.blank blank⟩
  | case3 done p c cs visible r ih =>
    obtain ⟨ts, hts, laid⟩ := ih
    let t : Token := ⟨r.kind, String.ofList r.text, p⟩
    have ht : t.text.toList = r.text := String.toList_ofList
    have text : t.text ≠ "" := by
      intro empty
      rw [empty] at ht
      exact read_text_ne_nil c cs ht.symm
    have newline : '\n' ∉ t.text.toList := by
      rw [ht]
      exact newline_not_mem_read (Bool.eq_false_iff.mpr visible) cs
    rw [← ht] at laid
    have word := Laid.word none (read_kind_ne_finish c cs) text newline rfl laid
    rw [ht, List.nil_append, read_text c cs] at word
    refine ⟨t :: ts, ?_, word⟩
    rw [hts, List.reverse_cons, List.append_assoc]
    rfl

theorem laid_tokens (source : String) : Laid Position.start source.toList (tokens source) := by
  obtain ⟨ts, hts, laid⟩ := laid_tokensFrom [] Position.start source.toList
  rw [List.reverse_nil, List.nil_append] at hts
  rw [tokens, hts]
  exact laid

/-- A token, and what stands between it and the one before it. -/
structure Spaced where
  gap : List Char
  token : Token

/-- The part of the text that the token takes, with the gap in front. -/
def Spaced.text (w : Spaced) : List Char := w.gap ++ w.token.text.toList

/-- Every token is where the gaps and the tokens before it end. -/
theorem Laid.spaced {p : Position} {cs : List Char} {ts : List Token} (h : Laid p cs ts) :
    ∃ (words : List Spaced) (last : Spaced),
      ts = (words ++ [last]).map (·.token) ∧ cs = (words ++ [last]).flatMap (·.text) ∧
      (∀ w ∈ words ++ [last], ∀ c ∈ w.gap, Text.isBlank c = true) ∧
      (∀ w ∈ words ++ [last], '\n' ∉ w.token.text.toList) ∧
      (∀ w ∈ words, w.token.kind ≠ .finish ∧ w.token.text ≠ "") ∧
      (last.token.kind = .finish ∧ last.token.text = "") ∧
      ∀ front w back, words ++ [last] = front ++ w :: back →
        w.token.position = p.after (front.flatMap (·.text) ++ w.gap) := by
  induction h with
  | @finish p gap blank =>
    refine ⟨[], ⟨gap, _⟩, rfl, ?_, ?_, ?_, nofun, ⟨rfl, rfl⟩, ?_⟩
    · simp [Spaced.text]
    · simpa using blank
    · simp
    · intro front w back split
      cases front with
      | nil =>
        cases split
        rfl
      | cons v front => simp at split
  | @word p gap rest t ts blank word text newline position next ih =>
    obtain ⟨words, last, hts, hrest, gaps, lines, kinds, finish, places⟩ := ih
    refine ⟨⟨gap, t⟩ :: words, last, ?_, ?_, ?_, ?_, ?_, finish, ?_⟩
    · rw [hts]
      rfl
    · rw [hrest]
      rfl
    · exact List.forall_mem_cons.mpr ⟨blank, gaps⟩
    · exact List.forall_mem_cons.mpr ⟨newline, lines⟩
    · exact List.forall_mem_cons.mpr ⟨⟨word, text⟩, kinds⟩
    · intro front w back split
      cases front with
      | nil =>
        cases split
        exact position
      | cons v front =>
        obtain ⟨rfl, behind⟩ := List.cons.inj split
        rw [places front w back behind, position, ← Position.after_append, ← Position.after_append]
        simp [Spaced.text]

/-- The lexer loses nothing: the text is its tokens, in order, with blank characters between them.
Every token but the last one, which is the end, has a text, and it keeps to one line. Its position
counts the newlines before it and the characters behind the last of these. -/
theorem tokens_lossless (source : String) :
    ∃ (words : List Spaced) (last : Spaced),
      tokens source = (words ++ [last]).map (·.token) ∧
      source.toList = (words ++ [last]).flatMap (·.text) ∧
      (∀ w ∈ words ++ [last], ∀ c ∈ w.gap, Text.isBlank c = true) ∧
      (∀ w ∈ words ++ [last], '\n' ∉ w.token.text.toList) ∧
      (∀ w ∈ words, w.token.kind ≠ .finish ∧ w.token.text ≠ "") ∧
      (last.token.kind = .finish ∧ last.token.text = "") ∧
      ∀ front w back, words ++ [last] = front ++ w :: back →
        w.token.position = Position.behind (front.flatMap (·.text) ++ w.gap) := by
  obtain ⟨words, last, split, spelled, gaps, lines, kinds, finish, places⟩ :=
    (laid_tokens source).spaced
  refine ⟨words, last, split, spelled, gaps, lines, kinds, finish, ?_⟩
  intro front w back h
  rw [places front w back h, Position.start_after]

end Token
end TypedCommands
