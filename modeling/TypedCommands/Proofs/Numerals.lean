import TypedCommands.Token.Lexer

/-! Where numerals end, and what they are worth. A numeral is taken the same whatever follows it, as
long as that cannot continue it, and the decimal text of a number is taken as that number. -/
namespace TypedCommands

section Front

variable {p : Char → Bool} {rest : List Char}

theorem takeWhile_of_head (h : ∀ c ∈ rest.head?, p c = false) : rest.takeWhile p = [] := by
  cases rest with
  | nil => rfl
  | cons c rest => exact List.takeWhile_cons_of_neg (by simp [h c rfl])

theorem dropWhile_of_head (h : ∀ c ∈ rest.head?, p c = false) : rest.dropWhile p = rest := by
  cases rest with
  | nil => rfl
  | cons c rest => exact List.dropWhile_cons_of_neg (by simp [h c rfl])

/-- What is taken from the front of a text ends before characters that are not taken. -/
theorem takeWhile_append_of_head (h : ∀ c ∈ rest.head?, p c = false) (cs : List Char) :
    (cs ++ rest).takeWhile p = cs.takeWhile p := by
  induction cs with
  | nil => exact takeWhile_of_head h
  | cons c cs ih =>
    cases hc : p c with
    | true => simp [hc, ih]
    | false => simp [hc]

theorem dropWhile_append_of_head (h : ∀ c ∈ rest.head?, p c = false) (cs : List Char) :
    (cs ++ rest).dropWhile p = cs.dropWhile p ++ rest := by
  induction cs with
  | nil => exact dropWhile_of_head h
  | cons c cs ih =>
    cases hc : p c with
    | true => simp [hc, ih]
    | false => simp [hc]

end Front

/-- Neither a name nor a numeral goes on with these characters. -/
def Stops (rest : List Char) : Prop :=
  ∀ c ∈ rest.head?, Name.isPart c = false ∧ c ≠ '.' ∧ c ≠ '+' ∧ c ≠ '-'

namespace Stops

variable {rest : List Char}

theorem nil : Stops [] := nofun

theorem space (rest : List Char) : Stops (' ' :: rest) := by
  rintro c ⟨⟩
  decide

theorem closing (rest : List Char) : Stops (')' :: rest) := by
  rintro c ⟨⟩
  decide

theorem isPart (h : Stops rest) : ∀ c ∈ rest.head?, Name.isPart c = false :=
  fun c hc => (h c hc).1

theorem isDigit (h : Stops rest) : ∀ c ∈ rest.head?, c.isDigit = false := by
  intro c hc
  have part := h.isPart c hc
  simp only [Name.isPart, Char.isAlphanum, Bool.or_eq_false_iff] at part
  exact part.1.2

theorem exponent (h : Stops rest) : ∀ c ∈ rest.head?, (c == 'e' || c == 'E') = false := by
  intro c hc
  rw [Bool.eq_false_iff, ne_eq, Bool.or_eq_true, beq_iff_eq, beq_iff_eq]
  have part := h.isPart c hc
  rintro (rfl | rfl) <;> revert part <;> decide

end Stops

namespace Numeral

theorem takeSign_of_head {cs : List Char} (h : ∀ c ∈ cs.head?, c ≠ '-') :
    takeSign cs = (false, cs) := by
  unfold takeSign
  split
  · exact absurd rfl (h '-' rfl)
  · rfl

theorem takeFraction_of_head {cs : List Char} (h : ∀ c ∈ cs.head?, c ≠ '.') :
    takeFraction cs = (none, cs) := by
  unfold takeFraction
  split
  · exact absurd rfl (h '.' rfl)
  · rfl

theorem takeExponentSign_of_head {cs : List Char} (h : ∀ c ∈ cs.head?, c ≠ '+' ∧ c ≠ '-') :
    takeExponentSign cs = (none, cs) := by
  unfold takeExponentSign
  split
  · exact absurd rfl (h '+' rfl).1
  · exact absurd rfl (h '-' rfl).2
  · rfl

theorem takeExponent_of_head {cs : List Char} (h : ∀ c ∈ cs.head?, (c == 'e' || c == 'E') = false) :
    takeExponent cs = (none, cs) := by
  cases cs with
  | nil => rfl
  | cons c cs => simp only [takeExponent, h c rfl, Bool.false_eq_true, if_false]

variable {rest : List Char}

theorem takeSign_append (h : Stops rest) (cs : List Char) :
    takeSign (cs ++ rest) = ((takeSign cs).1, (takeSign cs).2 ++ rest) := by
  cases cs with
  | nil => exact takeSign_of_head fun c hc => (h c hc).2.2.2
  | cons c cs =>
    by_cases hc : c = '-'
    · subst hc
      rfl
    · have head : ∀ ds, ∀ d ∈ (c :: ds).head?, d ≠ '-' := by
        rintro ds d ⟨⟩
        exact hc
      rw [List.cons_append, takeSign_of_head (head _), takeSign_of_head (head _)]
      rfl

theorem takeFraction_append (h : Stops rest) (cs : List Char) :
    takeFraction (cs ++ rest) = ((takeFraction cs).1, (takeFraction cs).2 ++ rest) := by
  cases cs with
  | nil => exact takeFraction_of_head fun c hc => (h c hc).2.1
  | cons c cs =>
    by_cases hc : c = '.'
    · subst hc
      simp only [List.cons_append, takeFraction, takeWhile_append_of_head h.isDigit,
        dropWhile_append_of_head h.isDigit]
    · have head : ∀ ds, ∀ d ∈ (c :: ds).head?, d ≠ '.' := by
        rintro ds d ⟨⟩
        exact hc
      rw [List.cons_append, takeFraction_of_head (head _), takeFraction_of_head (head _)]
      rfl

theorem takeExponentSign_append (h : Stops rest) (cs : List Char) :
    takeExponentSign (cs ++ rest) = ((takeExponentSign cs).1, (takeExponentSign cs).2 ++ rest) := by
  cases cs with
  | nil => exact takeExponentSign_of_head fun c hc => (h c hc).2.2
  | cons c cs =>
    by_cases plus : c = '+'
    · subst plus
      rfl
    by_cases minus : c = '-'
    · subst minus
      rfl
    have head : ∀ ds, ∀ d ∈ (c :: ds).head?, d ≠ '+' ∧ d ≠ '-' := by
      rintro ds d ⟨⟩
      exact ⟨plus, minus⟩
    rw [List.cons_append, takeExponentSign_of_head (head _), takeExponentSign_of_head (head _)]
    rfl

theorem takeExponentDigits_append (h : Stops rest) (cs : List Char) :
    takeExponentDigits (cs ++ rest) =
      (takeExponentDigits cs).map fun e => (e.1, e.2.1, e.2.2 ++ rest) := by
  simp only [takeExponentDigits, takeExponentSign_append h, takeWhile_append_of_head h.isDigit,
    dropWhile_append_of_head h.isDigit]
  cases (takeExponentSign cs).2.takeWhile Char.isDigit <;> rfl

theorem takeExponent_append (h : Stops rest) (cs : List Char) :
    takeExponent (cs ++ rest) = ((takeExponent cs).1, (takeExponent cs).2 ++ rest) := by
  cases cs with
  | nil => exact takeExponent_of_head h.exponent
  | cons c cs =>
    simp only [List.cons_append, takeExponent, takeExponentDigits_append h]
    split
    · cases takeExponentDigits cs <;> rfl
    · rfl

/-- A numeral ends where it would end without what follows. -/
theorem take_append (h : Stops rest) (cs : List Char) :
    take (cs ++ rest) = ((take cs).1, (take cs).2 ++ rest) := by
  simp only [take, takeSign_append h, takeWhile_append_of_head h.isDigit,
    dropWhile_append_of_head h.isDigit, takeFraction_append h, takeExponent_append h]

theorem kind_of_integerValue {n : Numeral} {m : Int64} (whole : n.isInteger = true)
    (value : n.integerValue = m.toInt) : n.kind = .literal (.integer m) := by
  have range : Int64.minValue.toInt ≤ m.toInt ∧ m.toInt ≤ Int64.maxValue.toInt :=
    ⟨m.minValue_le_toInt, m.toInt_le⟩
  rw [kind, if_pos whole, value, if_pos range, Int64.ofInt_toInt]

theorem value_toDigits (n : Nat) : Digits.value (Nat.toDigits 10 n) = n := by
  have read := Nat.ofDigitChars_toDigits (b := 10) (n := n) (by decide) (by decide)
  rw [Nat.ofDigitChars_eq_foldl] at read
  rw [Digits.value_eq]
  exact read

/-- A number in decimal is a sign, if it is negative, and digits. -/
theorem toString_eq (k : Int) : ∃ negative ds, (∀ d ∈ ds, d.isDigit = true) ∧ ds ≠ [] ∧
    (toString k).toList = (if negative then ['-'] else []) ++ ds ∧
    (⟨negative, ds, none, none⟩ : Numeral).integerValue = k := by
  have digits (m : Nat) : ∀ d ∈ Nat.toDigits 10 m, d.isDigit = true :=
    fun d hd => Nat.isDigit_of_mem_toDigits (by decide) (by decide) hd
  cases k with
  | ofNat m =>
    refine ⟨false, Nat.toDigits 10 m, digits m, Nat.toDigits_ne_nil, Nat.toList_repr, ?_⟩
    simp [integerValue, value_toDigits]
  | negSucc m =>
    refine ⟨true, Nat.toDigits 10 (m + 1), digits _, Nat.toDigits_ne_nil, ?_, ?_⟩
    · have text : toString (Int.negSucc m) = "-" ++ (m + 1).repr := rfl
      rw [text, String.toList_append, Nat.toList_repr]
      rfl
    · simp [integerValue, value_toDigits, Int.negSucc_eq]

end Numeral
end TypedCommands
