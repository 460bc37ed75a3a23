import TypedCommands.Proofs.Numerals
import TypedCommands.Yaml.Scalar

/-! Natural numbers as plain scalars: which texts denote one, and that the decimal text of a number
denotes that number. -/
namespace TypedCommands.Yaml

/-- Digits of a base, and the number that they denote. -/
inductive Counts (base : Nat) : List Char → Nat → Prop where
  | nil : Counts base [] 0
  | snoc {ds : List Char} {n : Nat} {c : Char} {d : Nat} (front : Counts base ds n)
      (digit : Digits.ofHex? c = some d) (small : d < base) :
      Counts base (ds ++ [c]) (base * n + d)

/-- Digits, and a prefix if the base is not ten. Several decimal digits do not begin with a zero. -/
inductive Unsigned : List Char → Nat → Prop where
  | zero : Unsigned ['0'] 0
  | decimal {d : Char} {ds : List Char} {n : Nat} (head : d ≠ '0')
      (counts : Counts 10 (d :: ds) n) :
      Unsigned (d :: ds) n
  | hexadecimal {ds : List Char} {n : Nat} (some : ds ≠ []) (counts : Counts 16 ds n) :
      Unsigned ('0' :: 'x' :: ds) n
  | octal {ds : List Char} {n : Nat} (some : ds ≠ []) (counts : Counts 8 ds n) :
      Unsigned ('0' :: 'o' :: ds) n
  | binary {ds : List Char} {n : Nat} (some : ds ≠ []) (counts : Counts 2 ds n) :
      Unsigned ('0' :: 'b' :: ds) n

/-- The texts that denote a natural number. -/
inductive Natural : List Char → Nat → Prop where
  | unsigned {cs : List Char} {n : Nat} (h : Unsigned cs n) : Natural cs n
  | plus {cs : List Char} {n : Nat} (h : Unsigned cs n) : Natural ('+' :: cs) n

section Digits

variable {base : Nat} {ds : List Char} {n : Nat}

theorem digit_eq_some_iff {c : Char} {d : Nat} :
    (Digits.ofHex? c).filter (· < base) = some d ↔ Digits.ofHex? c = some d ∧ d < base := by
  rw [Option.filter_eq_some_iff, decide_eq_true_eq]

theorem Counts.exists_digits (h : Counts base ds n) : ∃ vs,
    ds.reverse.mapM (fun c => (Digits.ofHex? c).filter (· < base)) = some vs ∧
      Digits.sum base vs = n := by
  induction h with
  | nil => exact ⟨[], rfl, rfl⟩
  | @snoc ds n c d front digit small ih =>
    obtain ⟨vs, each, sum⟩ := ih
    refine ⟨d :: vs, ?_, ?_⟩
    · rw [List.reverse_append, List.reverse_singleton, List.singleton_append, List.mapM_cons, each,
        digit_eq_some_iff.mpr ⟨digit, small⟩]
      rfl
    · rw [Digits.sum, List.foldr_cons, ← Digits.sum, sum]

theorem counts_of_digits {cs : List Char} {vs : List Nat}
    (each : cs.mapM (fun c => (Digits.ofHex? c).filter (· < base)) = some vs) :
    Counts base cs.reverse (Digits.sum base vs) := by
  induction cs generalizing vs with
  | nil =>
    cases each
    exact .nil
  | cons c cs ih =>
    rw [List.mapM_cons] at each
    obtain ⟨d, digit, each⟩ := Option.bind_eq_some_iff.mp each
    obtain ⟨rest, others, each⟩ := Option.bind_eq_some_iff.mp each
    cases each
    obtain ⟨digit, small⟩ := digit_eq_some_iff.mp digit
    rw [List.reverse_cons]
    exact .snoc (ih others) digit small

theorem valueIn_eq_some_iff : valueIn base ds = some n ↔ ds ≠ [] ∧ Counts base ds n := by
  unfold valueIn
  split
  · rename_i none
    simp [none]
  · rename_i some
    rw [Option.map_eq_some_iff]
    simp only [Digits.joinedSum_eq]
    constructor
    · rintro ⟨vs, each, rfl⟩
      have counts := counts_of_digits each
      rw [List.reverse_reverse] at counts
      exact ⟨some, counts⟩
    · rintro ⟨-, counts⟩
      exact counts.exists_digits

end Digits

theorem naturalDigits_of_head {d : Char} (head : d ≠ '0') (ds : List Char) :
    naturalDigits (d :: ds) = valueIn 10 (d :: ds) := by
  unfold naturalDigits
  split <;> simp_all

theorem naturalDigits_eq_some_iff {cs : List Char} {n : Nat} :
    naturalDigits cs = some n ↔ Unsigned cs n := by
  constructor
  · intro h
    unfold naturalDigits at h
    split at h
    · obtain ⟨some, counts⟩ := valueIn_eq_some_iff.mp h
      exact .hexadecimal some counts
    · obtain ⟨some, counts⟩ := valueIn_eq_some_iff.mp h
      exact .octal some counts
    · obtain ⟨some, counts⟩ := valueIn_eq_some_iff.mp h
      exact .binary some counts
    · cases h
      exact .zero
    · cases h
    · rename_i padded
      obtain ⟨some, counts⟩ := valueIn_eq_some_iff.mp h
      obtain ⟨d, ds, rfl⟩ := List.exists_cons_of_ne_nil some
      exact .decimal (fun zero => padded ds (by rw [zero])) counts
  · intro h
    cases h with
    | zero => rfl
    | decimal head counts =>
      rw [naturalDigits_of_head head]
      exact valueIn_eq_some_iff.mpr ⟨List.cons_ne_nil _ _, counts⟩
    | hexadecimal some counts => exact valueIn_eq_some_iff.mpr ⟨some, counts⟩
    | octal some counts => exact valueIn_eq_some_iff.mpr ⟨some, counts⟩
    | binary some counts => exact valueIn_eq_some_iff.mpr ⟨some, counts⟩

theorem Counts.exists_digit {base : Nat} {ds : List Char} {n : Nat} (h : Counts base ds n) :
    ∀ c ∈ ds, ∃ d, Digits.ofHex? c = some d := by
  induction h with
  | nil => nofun
  | @snoc ds n c d front digit small ih =>
    intro c' mem
    rcases List.mem_append.mp mem with mem | mem
    · exact ih c' mem
    · obtain rfl := List.mem_singleton.mp mem
      exact ⟨d, digit⟩

theorem Unsigned.ne_plus {cs : List Char} {n : Nat} (h : Unsigned ('+' :: cs) n) : False := by
  cases h with
  | decimal head counts =>
    obtain ⟨d, digit⟩ := counts.exists_digit '+' List.mem_cons_self
    revert digit
    simp [Digits.ofHex?]

theorem naturalOf_eq_some_iff {cs : List Char} {n : Nat} :
    naturalOf cs = some n ↔ Natural cs n := by
  constructor
  · intro h
    unfold naturalOf at h
    split at h
    · exact .plus (naturalDigits_eq_some_iff.mp h)
    · exact .unsigned (naturalDigits_eq_some_iff.mp h)
  · intro h
    cases h with
    | plus h => exact naturalDigits_eq_some_iff.mpr h
    | unsigned h =>
      unfold naturalOf
      split
      · exact h.ne_plus.elim
      · exact naturalDigits_eq_some_iff.mpr h

section Decimal

theorem ofHex?_digitChar : ∀ d < 10, Digits.ofHex? d.digitChar = some d := by decide

theorem digitChar_ne_zero : ∀ d < 10, 0 < d → d.digitChar ≠ '0' := by decide

theorem counts_toDigits (n : Nat) : Counts 10 (Nat.toDigits 10 n) n := by
  induction n using Nat.strongRecOn with
  | ind n ih =>
    by_cases small : n < 10
    · have one := Counts.snoc .nil (ofHex?_digitChar n small) small
      rw [Nat.mul_zero, Nat.zero_add] at one
      rw [Nat.toDigits_of_lt_base small]
      exact one
    · have last : n % 10 < 10 := Nat.mod_lt n (by decide)
      have more := Counts.snoc (ih (n / 10) (by omega)) (ofHex?_digitChar _ last) last
      rw [Nat.div_add_mod] at more
      rw [Nat.toDigits_of_base_le (by decide) (by omega)]
      exact more

/-- The decimal text of a number is not padded. -/
theorem exists_head_toDigits {n : Nat} (positive : 0 < n) :
    ∃ d ds, Nat.toDigits 10 n = d :: ds ∧ d ≠ '0' := by
  induction n using Nat.strongRecOn with
  | ind n ih =>
    by_cases small : n < 10
    · exact ⟨n.digitChar, [], Nat.toDigits_of_lt_base small, digitChar_ne_zero n small positive⟩
    · obtain ⟨d, ds, front, head⟩ := ih (n / 10) (by omega) (by omega)
      refine ⟨d, ds ++ [(n % 10).digitChar], ?_, head⟩
      rw [Nat.toDigits_of_base_le (by decide) (by omega), front, List.cons_append]

theorem natural_toDigits (n : Nat) : Natural (Nat.toDigits 10 n) n := by
  rcases Nat.eq_zero_or_pos n with rfl | positive
  · exact .unsigned .zero
  · obtain ⟨d, ds, text, head⟩ := exists_head_toDigits positive
    have counts := counts_toDigits n
    rw [text] at counts ⊢
    exact .unsigned (.decimal head counts)

end Decimal

end TypedCommands.Yaml
