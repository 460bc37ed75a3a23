import TypedCommands.Proofs.Reading

/-! Which texts are names, and that the lexer reads a name as a whole. -/
namespace TypedCommands

namespace Name

def Letter (c : Char) : Prop := ('A' ≤ c ∧ c ≤ 'Z') ∨ ('a' ≤ c ∧ c ≤ 'z')
def Figure (c : Char) : Prop := '0' ≤ c ∧ c ≤ '9'

/-- The texts `[A-Za-z_][A-Za-z0-9_]*`. -/
def Spelled (s : String) : Prop :=
  ∃ c cs, s.toList = c :: cs ∧ (Letter c ∨ c = '_') ∧ ∀ d ∈ cs, Letter d ∨ Figure d ∨ d = '_'

theorem isAlpha_iff {c : Char} : c.isAlpha = true ↔ Letter c := by
  show (decide ('A' ≤ c ∧ c ≤ 'Z') || (decide ('a' ≤ c) && decide (c ≤ 'z'))) = true ↔ Letter c
  rw [Bool.or_eq_true, Bool.and_eq_true, decide_eq_true_eq, decide_eq_true_eq, decide_eq_true_eq]
  rfl

theorem isDigit_iff {c : Char} : c.isDigit = true ↔ Figure c := Char.isDigit_iff_toNat

theorem isHead_iff {c : Char} : isHead c = true ↔ Letter c ∨ c = '_' := by
  rw [isHead, Bool.or_eq_true, isAlpha_iff, beq_iff_eq]

theorem isPart_iff {c : Char} : isPart c = true ↔ Letter c ∨ Figure c ∨ c = '_' := by
  rw [isPart, Char.isAlphanum, Bool.or_eq_true, Bool.or_eq_true, isAlpha_iff, isDigit_iff,
    beq_iff_eq, or_assoc]

theorem isNameChars_iff {cs : List Char} : isNameChars cs = true ↔
    ∃ d ds, cs = d :: ds ∧ (Letter d ∨ d = '_') ∧ ∀ e ∈ ds, Letter e ∨ Figure e ∨ e = '_' := by
  cases cs with
  | nil => simp [isNameChars]
  | cons c cs =>
    rw [isNameChars_cons, Bool.and_eq_true, isHead_iff, List.all_eq_true]
    simp only [isPart_iff]
    constructor
    · intro h
      exact ⟨c, cs, rfl, h⟩
    · rintro ⟨_, _, ⟨⟩, h⟩
      exact h

theorem isName_iff {s : String} : isName s = true ↔ Spelled s := isNameChars_iff

theorem toNat_of_isHead {c : Char} (h : isHead c = true) :
    65 ≤ c.toNat ∧ c.toNat ≤ 90 ∨ c.toNat = 95 ∨ 97 ≤ c.toNat ∧ c.toNat ≤ 122 := by
  rcases isHead_iff.mp h with (upper | lower) | rfl
  · exact .inl upper
  · exact .inr (.inr lower)
  · exact .inr (.inl rfl)

end Name

namespace Token

/-- A character that begins a name begins no other token. -/
theorem read_name {c : Char} (h : Name.isHead c = true) (cs : List Char) :
    read c cs = readName (c :: cs) := by
  have other {d : Char} (hd : Name.isHead d = false) : c ≠ d := by
    rintro rfl
    rw [h] at hd
    cases hd
  have figure : c.isDigit = false := by
    rw [Bool.eq_false_iff, ne_eq, Char.isDigit_iff_toNat]
    have := Name.toNat_of_isHead h
    simp only [Char.reduceToNat]
    omega
  have number : startsNumber c cs = false := by
    simp [startsNumber, figure, other (d := '-') (by decide)]
  simp [read, other (d := '(') (by decide), other (d := ')') (by decide),
    other (d := '"') (by decide), number, h]

/-- A name in front of other characters is the first token. -/
theorem kinds_name {cs rest : List Char} (h : Name.isNameChars cs = true)
    (stops : ∀ c ∈ rest.head?, Name.isPart c = false) :
    kinds (cs ++ rest) = .identifier (String.ofList cs) :: kinds rest := by
  cases cs with
  | nil => cases h
  | cons c cs =>
    rw [Name.isNameChars_cons, Bool.and_eq_true, List.all_eq_true] at h
    obtain ⟨head, parts⟩ := h
    have visible : Text.isBlank c = false := by
      have := Name.toNat_of_isHead head
      exact Text.isBlank_eq_false (by omega) (by omega)
    have all : ∀ d ∈ c :: cs, Name.isPart d = true :=
      List.forall_mem_cons.mpr ⟨Name.isPart_of_isHead head, parts⟩
    have taken : (c :: cs ++ rest).takeWhile Name.isPart = c :: cs := by
      rw [List.takeWhile_append_of_pos all, takeWhile_of_head stops, List.append_nil]
    have left : (c :: cs ++ rest).dropWhile Name.isPart = rest := by
      rw [List.dropWhile_append_of_pos all, dropWhile_of_head stops]
    rw [List.cons_append, kinds_visible visible, read_name head, readName, ← List.cons_append,
      taken, left]

end Token
end TypedCommands
