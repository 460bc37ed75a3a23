import TypedCommands.Proofs.Numerals

/-! The longest numeral at the front of a text. A numeral is taken part by part, looking two
characters ahead; it is a longest one, and its text tells what its parts are. -/
namespace TypedCommands.Numeral

/-- The texts `[0-9]+`. -/
structure Figures (ds : List Char) : Prop where
  ne_nil : ds ≠ []
  digits : ∀ d ∈ ds, d.isDigit = true

/-- The texts `-?[0-9]+(\.[0-9]*)?([eE][+-]?[0-9]+)?`, by their parts. -/
structure Spelled (n : Numeral) : Prop where
  whole : Figures n.whole
  fraction : ∀ ds ∈ n.fraction, ∀ d ∈ ds, d.isDigit = true
  exponent : ∀ mark sign ds, n.exponent = some (mark, sign, ds) →
    (mark = 'e' ∨ mark = 'E') ∧ (∀ s ∈ sign, s = '+' ∨ s = '-') ∧ Figures ds

theorem Figures.head {ds : List Char} (h : Figures ds) : ∃ e es, ds = e :: es ∧ e.isDigit = true := by
  obtain ⟨e, es, rfl⟩ := List.exists_cons_of_ne_nil h.ne_nil
  exact ⟨e, es, rfl, h.digits e List.mem_cons_self⟩

/-- Digits are a numeral, with or without a sign. -/
theorem Figures.spelled {ds : List Char} (h : Figures ds) (negative : Bool) :
    Spelled ⟨negative, ds, none, none⟩ where
  whole := h
  fraction := by
    intro fs mem
    cases mem
  exponent := by
    intro mark sign es same
    cases same

theorem takeExponentSign_spelled {sign : Option Char} (hs : ∀ s ∈ sign, s = '+' ∨ s = '-')
    {ds : List Char} (hd : Figures ds) (rest : List Char) :
    takeExponentSign (sign.toList ++ (ds ++ rest)) = (sign, ds ++ rest) := by
  cases sign with
  | none =>
    obtain ⟨e, es, rfl, he⟩ := hd.head
    refine takeExponentSign_of_head ?_
    rintro c ⟨⟩
    constructor <;> rintro rfl <;> exact absurd he (by decide)
  | some s => rcases hs s rfl with rfl | rfl <;> rfl

/-- An exponent goes on with the digits that follow it. -/
theorem takeExponent_spelled {mark : Char} {sign : Option Char} {ds : List Char}
    (hm : mark = 'e' ∨ mark = 'E') (hs : ∀ s ∈ sign, s = '+' ∨ s = '-') (hd : Figures ds)
    (rest : List Char) :
    takeExponent (exponentText (some (mark, sign, ds)) ++ rest) =
      (some (mark, sign, ds ++ rest.takeWhile Char.isDigit), rest.dropWhile Char.isDigit) := by
  have marked : (mark == 'e' || mark == 'E') = true := by
    rcases hm with rfl | rfl <;> rfl
  have digits : (ds ++ rest).takeWhile Char.isDigit = ds ++ rest.takeWhile Char.isDigit :=
    List.takeWhile_append_of_pos hd.digits
  have left : (ds ++ rest).dropWhile Char.isDigit = rest.dropWhile Char.isDigit :=
    List.dropWhile_append_of_pos hd.digits
  obtain ⟨e, es, rfl, -⟩ := hd.head
  rw [List.cons_append, List.cons_append] at digits
  simp only [exponentText, List.cons_append, List.append_assoc, takeExponent, marked, if_true,
    takeExponentDigits]
  have signed := takeExponentSign_spelled hs hd rest
  rw [List.cons_append] at signed left
  rw [signed]
  simp only [digits, left]

theorem takeSign_spelled (negative : Bool) {ds : List Char} (h : Figures ds) (rest : List Char) :
    takeSign ((if negative then ['-'] else []) ++ (ds ++ rest)) = (negative, ds ++ rest) := by
  cases negative with
  | true => rfl
  | false =>
    obtain ⟨e, es, rfl, he⟩ := h.head
    refine takeSign_of_head ?_
    rintro c ⟨⟩ rfl
    exact absurd he (by decide)

/-- What is taken when the text of a numeral stands in front: the last of its parts goes on with the
digits that follow, and the parts that it does not have may follow them. -/
def prolonged (n : Numeral) (rest : List Char) : Numeral × List Char :=
  let digits := rest.takeWhile Char.isDigit
  let rest := rest.dropWhile Char.isDigit
  match n.exponent, n.fraction with
  | some (mark, sign, ds), _ => ({ n with exponent := some (mark, sign, ds ++ digits) }, rest)
  | none, some ds =>
    let (exponent, rest) := takeExponent rest
    ({ n with fraction := some (ds ++ digits), exponent }, rest)
  | none, none =>
    let (fraction, rest) := takeFraction rest
    let (exponent, rest) := takeExponent rest
    ({ n with whole := n.whole ++ digits, fraction, exponent }, rest)

theorem take_spelled {n : Numeral} (h : n.Spelled) (rest : List Char) :
    take (n.text ++ rest) = n.prolonged rest := by
  obtain ⟨negative, whole, fraction, exponent⟩ := n
  have sign := takeSign_spelled negative h.whole
  have through (more : List Char) : (whole ++ more).takeWhile Char.isDigit =
      whole ++ more.takeWhile Char.isDigit := List.takeWhile_append_of_pos h.whole.digits
  have past (more : List Char) : (whole ++ more).dropWhile Char.isDigit =
      more.dropWhile Char.isDigit := List.dropWhile_append_of_pos h.whole.digits
  simp only [take, text, List.append_assoc, sign, through, past, prolonged]
  -- Each part ends where the next one begins: with a character that it does not take.
  cases exponent with
  | none =>
    cases fraction with
    | none => simp [fractionText, exponentText]
    | some ds =>
      have digits := h.fraction ds rfl
      simp [fractionText, exponentText, takeFraction, List.takeWhile_append_of_pos digits,
        List.dropWhile_append_of_pos digits]
  | some e =>
    obtain ⟨mark, esign, es⟩ := e
    obtain ⟨hm, hs, hd⟩ := h.exponent mark esign es rfl
    have read := takeExponent_spelled hm hs hd rest
    have stops : ∀ c ∈ (exponentText (some (mark, esign, es)) ++ rest).head?,
        c.isDigit = false ∧ c ≠ '.' := by
      rintro c ⟨⟩
      rcases hm with rfl | rfl <;> decide
    have isDigit : ∀ c ∈ (exponentText (some (mark, esign, es)) ++ rest).head?,
        c.isDigit = false := fun c hc => (stops c hc).1
    cases fraction with
    | none =>
      have point := takeFraction_of_head fun c hc => (stops c hc).2
      simp only [fractionText, List.nil_append, takeWhile_of_head isDigit,
        dropWhile_of_head isDigit, List.append_nil, point, read]
    | some ds =>
      have digits := h.fraction ds rfl
      have taken : (ds ++ (exponentText (some (mark, esign, es)) ++ rest)).takeWhile Char.isDigit =
          ds := by
        rw [List.takeWhile_append_of_pos digits, takeWhile_of_head isDigit, List.append_nil]
      have left : (ds ++ (exponentText (some (mark, esign, es)) ++ rest)).dropWhile Char.isDigit =
          exponentText (some (mark, esign, es)) ++ rest := by
        rw [List.dropWhile_append_of_pos digits, dropWhile_of_head isDigit]
      simp [fractionText, takeFraction, taken, left, read]

/-- The text of a numeral is taken as that numeral. -/
theorem take_text_self {n : Numeral} (h : n.Spelled) : take n.text = (n, []) := by
  have alone := take_spelled h []
  rw [List.append_nil] at alone
  rw [alone]
  obtain ⟨negative, whole, fraction, exponent⟩ := n
  cases exponent with
  | some e => simp [prolonged]
  | none => cases fraction <;> simp [prolonged, takeFraction, takeExponent]

/-- The text of a numeral starts one, whatever follows it. -/
theorem Spelled.startsNumber {n : Numeral} (h : n.Spelled) {c : Char} {more : List Char}
    (text : n.text = c :: more) (rest : List Char) : Token.startsNumber c (more ++ rest) = true := by
  obtain ⟨negative, whole, fraction, exponent⟩ := n
  obtain ⟨d, ds, rfl, digit⟩ := h.whole.head
  cases negative with
  | true =>
    cases text
    simp [Token.startsNumber, digit]
  | false =>
    cases text
    simp [Token.startsNumber, digit]

/-- Different numerals have different texts. -/
theorem text_injective {n m : Numeral} (hn : n.Spelled) (hm : m.Spelled) (same : n.text = m.text) :
    n = m := by
  have taken := take_text_self hn
  rw [same, take_text_self hm] at taken
  exact (congrArg Prod.fst taken).symm

/-- What is taken only goes on behind a numeral that stands in front. -/
theorem prolonged_text (n : Numeral) (rest : List Char) :
    ∃ more, (n.prolonged rest).1.text = n.text ++ more := by
  obtain ⟨negative, whole, fraction, exponent⟩ := n
  cases exponent with
  | some e =>
    refine ⟨rest.takeWhile Char.isDigit, ?_⟩
    simp only [prolonged, text, exponentText, List.append_assoc, List.cons_append]
    rfl
  | none =>
    cases fraction with
    | some ds =>
      refine ⟨rest.takeWhile Char.isDigit ++
        exponentText (takeExponent (rest.dropWhile Char.isDigit)).1, ?_⟩
      simp only [prolonged, text, fractionText, exponentText, List.append_assoc, List.cons_append,
        List.nil_append]
      rfl
    | none =>
      refine ⟨rest.takeWhile Char.isDigit ++
        fractionText (takeFraction (rest.dropWhile Char.isDigit)).1 ++
        exponentText (takeExponent (takeFraction (rest.dropWhile Char.isDigit)).2).1, ?_⟩
      simp only [prolonged, text, fractionText, exponentText, List.append_assoc, List.nil_append]
      rfl

/-- No numeral at the front of a text is longer than the one that is taken. -/
theorem prefix_take {n : Numeral} (h : n.Spelled) {cs : List Char} (front : n.text <+: cs) :
    n.text <+: (take cs).1.text := by
  obtain ⟨rest, rfl⟩ := front
  rw [take_spelled h]
  obtain ⟨more, longer⟩ := n.prolonged_text rest
  exact ⟨more, longer.symm⟩

theorem isDigit_of_mem_takeWhile {d : Char} {cs : List Char} (h : d ∈ cs.takeWhile Char.isDigit) :
    d.isDigit = true :=
  List.all_eq_true.mp List.all_takeWhile d h

theorem takeExponentSign_isSign (cs : List Char) :
    ∀ s ∈ (takeExponentSign cs).1, s = '+' ∨ s = '-' := by
  unfold takeExponentSign
  split
  · rintro s ⟨⟩
    exact .inl rfl
  · rintro s ⟨⟩
    exact .inr rfl
  · nofun

theorem takeExponent_isSpelled (cs : List Char) {mark : Char} {sign : Option Char} {ds : List Char}
    (h : (takeExponent cs).1 = some (mark, sign, ds)) :
    (mark = 'e' ∨ mark = 'E') ∧ (∀ s ∈ sign, s = '+' ∨ s = '-') ∧ Figures ds := by
  unfold takeExponent takeExponentDigits at h
  split at h
  case h_2 => cases h
  case h_1 c cs =>
    split at h
    case isFalse => cases h
    case isTrue marked =>
      split at h
      case h_2 => cases h
      case h_1 found =>
        dsimp only at found
        split at found
        case h_1 => cases found
        case h_2 digits =>
          cases found
          cases h
          exact ⟨by simpa using marked, takeExponentSign_isSign cs, by simp,
            fun e he => isDigit_of_mem_takeWhile (digits ▸ he)⟩

/-- What is taken where a numeral starts is one. -/
theorem take_isSpelled {c : Char} {cs : List Char} (h : Token.startsNumber c cs = true) :
    (take (c :: cs)).1.Spelled where
  whole := by
    refine ⟨?_, fun d hd => isDigit_of_mem_takeWhile hd⟩
    simp only [Token.startsNumber, Bool.or_eq_true, Bool.and_eq_true, beq_iff_eq] at h
    rcases h with digit | ⟨rfl, digit⟩
    · have sign : takeSign (c :: cs) = (false, c :: cs) := by
        refine takeSign_of_head ?_
        rintro d ⟨⟩ rfl
        exact absurd digit (by decide)
      simp [take, sign, digit]
    · obtain ⟨d, ds, rfl⟩ : ∃ d ds, cs = d :: ds := by
        cases cs with
        | nil => exact absurd digit (by decide)
        | cons d ds => exact ⟨d, ds, rfl⟩
      have digit : d.isDigit = true := digit
      simp [take, takeSign, digit]
  fraction ds hds d hd := by
    simp only [take, takeFraction] at hds
    split at hds
    · cases hds
      exact isDigit_of_mem_takeWhile hd
    · cases hds
  exponent mark sign ds he := takeExponent_isSpelled _ he

/-- No longer numeral stands at the front of the text. -/
structure Longest (cs : List Char) (n : Numeral) : Prop where
  spelled : n.Spelled
  front : n.text <+: cs
  longest : ∀ m : Numeral, m.Spelled → m.text <+: cs → m.text.length ≤ n.text.length

theorem Longest.unique {cs : List Char} {n m : Numeral} (hn : Longest cs n) (hm : Longest cs m) :
    n = m := by
  have shorter := List.prefix_of_prefix_length_le hn.front hm.front
    (hm.longest n hn.spelled hn.front)
  have same := shorter.eq_of_length
    (Nat.le_antisymm (hm.longest n hn.spelled hn.front) (hn.longest m hm.spelled hm.front))
  exact text_injective hn.spelled hm.spelled same

/-- The numeral that is taken is the longest one. -/
theorem take_longest {c : Char} {cs : List Char} (h : Token.startsNumber c cs = true) :
    Longest (c :: cs) (take (c :: cs)).1 where
  spelled := take_isSpelled h
  front := ⟨_, take_text (c :: cs)⟩
  longest _ spelled front := (prefix_take spelled front).length_le

end TypedCommands.Numeral
