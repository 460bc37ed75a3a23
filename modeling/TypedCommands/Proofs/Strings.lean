import TypedCommands.Proofs.Starts

/-! Strings. What follows the opening quote is read item by item, a character for itself or a
backslash with the character that it guards. A quote that no backslash guards closes the string; a
newline and the end of the text leave it unterminated. -/
namespace TypedCommands

namespace Quoted

inductive Item where
  | plain (c : Char)
  | guarded (c : Char)

/-- The characters that a backslash changes or keeps, and what they stand for behind it. -/
def escapes : List (Char × Char) :=
  [('n', '\n'), ('t', '\t'), ('r', '\r'), ('0', '\x00'), ('\\', '\\'), ('"', '"'), ('\'', '\'')]

theorem escaped_eq_lookup (c : Char) : escaped c = escapes.lookup c := by
  unfold escaped
  split
  all_goals try rfl
  rename_i n t r zero backslash quote apostrophe
  simp [escapes, List.lookup_cons, beq_eq_false_iff_ne.mpr n, beq_eq_false_iff_ne.mpr t,
    beq_eq_false_iff_ne.mpr r, beq_eq_false_iff_ne.mpr zero, beq_eq_false_iff_ne.mpr backslash,
    beq_eq_false_iff_ne.mpr quote, beq_eq_false_iff_ne.mpr apostrophe]

namespace Item

def text : Item → List Char
  | plain c => [c]
  | guarded c => ['\\', c]

def Sound : Item → Prop
  | plain c => c ≠ '"' ∧ c ≠ '\\' ∧ c ≠ '\n'
  | guarded c => c ≠ '\n'

/-- The character that the item stands for, if it is not an unknown escape. -/
def value? : Item → Option Char
  | plain c => some c
  | guarded c => escapes.lookup c

def unknown? : Item → Option Char
  | plain _ => none
  | guarded c => if (escapes.lookup c).isNone then some c else none

theorem Sound.newline_not_mem {i : Item} (h : i.Sound) : '\n' ∉ i.text := by
  cases i with
  | plain c => simpa [text] using Ne.symm h.2.2
  | guarded c => simpa [text] using Ne.symm h

end Item

/-- The characters of a body that has been read. -/
def written (items : List Item) : List Char := items.flatMap Item.text

theorem written_cons (i : Item) (items : List Item) : written (i :: items) = i.text ++ written items :=
  List.flatMap_cons

/-- Items that can be read are taken one by one. -/
theorem split_written {items : List Item} (sound : ∀ i ∈ items, i.Sound) (taken rest : List Char) :
    split taken (written items ++ rest) = split ((written items).reverse ++ taken) rest := by
  induction items generalizing taken with
  | nil => rfl
  | cons i items ih =>
    obtain ⟨head, others⟩ := List.forall_mem_cons.mp sound
    rw [written_cons, List.reverse_append, List.append_assoc, List.append_assoc]
    cases i with
    | plain c =>
      obtain ⟨quote, backslash, newline⟩ := head
      simp [Item.text, split, quote, backslash, newline, ih others]
    | guarded c =>
      have newline : c ≠ '\n' := head
      simp [Item.text, split, newline, ih others]

theorem decode_written {items : List Item} (sound : ∀ i ∈ items, i.Sound) (value : List Char)
    (unknown : Option Char) :
    decode value unknown (written items) =
      (value.reverse ++ items.filterMap Item.value?,
        unknown.or (items.findSome? Item.unknown?)) := by
  induction items generalizing value unknown with
  | nil => simp [written, decode]
  | cons i items ih =>
    obtain ⟨head, others⟩ := List.forall_mem_cons.mp sound
    rw [written_cons]
    cases i with
    | plain c =>
      have backslash : c ≠ '\\' := head.2.1
      simp [Item.text, decode, backslash, ih others, Item.value?, List.findSome?_cons,
        Item.unknown?]
    | guarded c =>
      cases known : escapes.lookup c with
      | some d =>
        simp [Item.text, decode, escaped_eq_lookup, known, ih others, Item.value?, Item.unknown?]
      | none =>
        simp [Item.text, decode, escaped_eq_lookup, known, ih others, Item.value?, Item.unknown?]

/-- What the body of a string denotes, once it is closed. -/
def kindOf (items : List Item) : Token.Kind :=
  match items.findSome? Item.unknown? with
  | none => .literal (.text (String.ofList (items.filterMap Item.value?)))
  | some c => .invalid (unknownEscape c)

theorem kind_written {items : List Item} (sound : ∀ i ∈ items, i.Sound) :
    kind (written items) = kindOf items := by
  rw [kind, decode_written sound, kindOf]
  cases items.findSome? Item.unknown? <;> rfl

/-- A quote closes the string behind the items. -/
structure Closes (cs : List Char) (items : List Item) (rest : List Char) : Prop where
  sound : ∀ i ∈ items, i.Sound
  spelled : cs = written items ++ '"' :: rest

/-- The line or the text ends behind the items; a backslash may stand there that guards nothing. -/
structure BreaksOff (cs : List Char) (items : List Item) (tail rest : List Char) : Prop where
  sound : ∀ i ∈ items, i.Sound
  spelled : cs = written items ++ tail ++ rest
  tail : tail = [] ∨ tail = ['\\']
  rest : ∀ c ∈ rest.head?, c = '\n'

theorem Closes.cons {i : Item} {cs : List Char} {items : List Item} {rest : List Char}
    (sound : i.Sound) (h : Closes cs items rest) : Closes (i.text ++ cs) (i :: items) rest where
  sound := List.forall_mem_cons.mpr ⟨sound, h.sound⟩
  spelled := by rw [h.spelled, written_cons, List.append_assoc]

theorem BreaksOff.cons {i : Item} {cs : List Char} {items : List Item} {tail rest : List Char}
    (sound : i.Sound) (h : BreaksOff cs items tail rest) :
    BreaksOff (i.text ++ cs) (i :: items) tail rest where
  sound := List.forall_mem_cons.mpr ⟨sound, h.sound⟩
  spelled := by
    rw [h.spelled, written_cons]
    simp only [List.append_assoc]
  tail := h.tail
  rest := h.rest

theorem sound_nil : ∀ i ∈ ([] : List Item), i.Sound := fun _ mem => absurd mem List.not_mem_nil

/-- Whatever follows an opening quote is one of the two. -/
theorem closes_or_breaksOff (cs : List Char) :
    (∃ items rest, Closes cs items rest) ∨ ∃ items tail rest, BreaksOff cs items tail rest := by
  -- The text is taken apart as `split` does it, whatever that has taken before.
  have taken : List Char := []
  fun_induction split taken cs with
  | case1 => exact .inr ⟨[], [], [], sound_nil, rfl, .inl rfl, by rintro d ⟨⟩⟩
  | case2 taken cs => exact .inr ⟨[], ['\\'], '\n' :: cs, sound_nil, rfl, .inr rfl, by rintro d ⟨⟩; rfl⟩
  | case3 taken c cs newline ih =>
    have sound : (Item.guarded c).Sound := newline
    rcases ih with ⟨items, rest, h⟩ | ⟨items, tail, rest, h⟩
    · exact .inl ⟨_, rest, h.cons sound⟩
    · exact .inr ⟨_, tail, rest, h.cons sound⟩
  | case4 taken c cs single ends =>
    rcases ends with rfl | rfl
    · exact .inl ⟨[], cs, sound_nil, rfl⟩
    · exact .inr ⟨[], [], '\n' :: cs, sound_nil, rfl, .inl rfl, by rintro d ⟨⟩; rfl⟩
  | case5 taken c cs single goesOn ih =>
    by_cases backslash : c = '\\'
    · cases cs with
      | nil => exact .inr ⟨[], ['\\'], [], sound_nil, by rw [backslash]; rfl, .inr rfl, by rintro d ⟨⟩⟩
      | cons d ds => exact absurd rfl (single d ds backslash)
    · obtain ⟨quote, newline⟩ := not_or.mp goesOn
      have sound : (Item.plain c).Sound := ⟨quote, backslash, newline⟩
      rcases ih with ⟨items, rest, h⟩ | ⟨items, tail, rest, h⟩
      · exact .inl ⟨_, rest, h.cons sound⟩
      · exact .inr ⟨_, tail, rest, h.cons sound⟩

theorem Closes.take {cs : List Char} {items : List Item} {rest : List Char}
    (h : Closes cs items rest) :
    take cs = (kindOf items, '"' :: (written items ++ ['"']), rest) := by
  have body : split [] cs = (written items, '"' :: rest) := by
    rw [h.spelled, split_written h.sound]
    simp [split]
  simp only [Quoted.take, body, kind_written h.sound]

theorem BreaksOff.split {cs : List Char} {items : List Item} {tail rest : List Char}
    (h : BreaksOff cs items tail rest) : split [] cs = (written items ++ tail, rest) := by
  have last : Quoted.split (written items).reverse (tail ++ rest) =
      (written items ++ tail, rest) := by
    cases rest with
    | nil => rcases h.tail with rfl | rfl <;> simp [Quoted.split]
    | cons c rest =>
      obtain rfl := h.rest c rfl
      rcases h.tail with rfl | rfl <;> simp [Quoted.split]
  rw [h.spelled, List.append_assoc, split_written h.sound, List.append_nil, last]

theorem BreaksOff.take {cs : List Char} {items : List Item} {tail rest : List Char}
    (h : BreaksOff cs items tail rest) :
    take cs = (.invalid unterminated, '"' :: (written items ++ tail), rest) := by
  cases rest with
  | nil => simp only [Quoted.take, h.split]
  | cons c rest =>
    obtain rfl := h.rest c rfl
    simp only [Quoted.take, h.split]
    rfl

/-- A string that breaks off takes the rest of its line. -/
theorem BreaksOff.line {cs : List Char} {items : List Item} {tail rest : List Char}
    (h : BreaksOff cs items tail rest) :
    written items ++ tail = cs.takeWhile (· ≠ '\n') ∧ rest = cs.dropWhile (· ≠ '\n') := by
  have stops : ∀ c ∈ rest.head?, decide (c ≠ '\n') = false := by
    intro c hc
    simp [h.rest c hc]
  have line : ∀ c ∈ written items ++ tail, decide (c ≠ '\n') = true := by
    intro c hc
    rw [decide_eq_true_eq]
    rintro rfl
    rcases List.mem_append.mp hc with body | tail
    · obtain ⟨i, mem, newline⟩ := List.mem_flatMap.mp body
      exact (h.sound i mem).newline_not_mem newline
    · rcases h.tail with rfl | rfl <;> revert tail <;> decide
  rw [h.spelled, List.takeWhile_append_of_pos line, takeWhile_of_head stops, List.append_nil,
    List.dropWhile_append_of_pos line, dropWhile_of_head stops]
  exact ⟨rfl, rfl⟩

end Quoted

namespace Token

/-- Strings are decoded exactly. If a quote closes the string, the token ends with it and denotes
the text of the items before it, unless one of these is an unknown escape; then the first of them is
what is wrong. Otherwise the string is unterminated, whatever it holds, and it ends with its line.
Either way the text is read on from the end of the token. A text that is written as a string is read
as that text. -/
theorem strings_decoded :
    (∀ source before cs t, Stands source before ('"' :: cs) t →
      (∀ items rest, Quoted.Closes cs items rest →
        t.text.toList = '"' :: (Quoted.written items ++ ['"']) ∧ t.kind = Quoted.kindOf items ∧
          Resumes source before t rest) ∧
      ((∀ items rest, ¬Quoted.Closes cs items rest) →
        t.text.toList = '"' :: cs.takeWhile (· ≠ '\n') ∧ t.kind = .invalid Quoted.unterminated ∧
          Resumes source before t (cs.dropWhile (· ≠ '\n')))) ∧
    ∀ s, (tokens (String.ofList (Quoted.quote s.toList))).map (·.kind) =
      [.literal (.text s), .finish] := by
  constructor
  · intro source before cs t stands
    obtain ⟨kind, text, resumes⟩ := stands.read (by decide)
    have word : read '"' cs = readString cs := rfl
    rw [word, readString] at kind text resumes
    constructor
    · intro items rest closes
      rw [closes.take] at kind text resumes
      exact ⟨text, kind, resumes⟩
    · intro never
      rcases Quoted.closes_or_breaksOff cs with ⟨items, rest, closes⟩ | ⟨items, tail, rest, broken⟩
      · exact absurd closes (never items rest)
      · obtain ⟨line, left⟩ := broken.line
        rw [broken.take, line, left] at kind text resumes
        exact ⟨text, kind, resumes⟩
  · intro s
    have alone := kinds_quote s.toList []
    rw [List.append_nil, kinds_nil, String.ofList_toList] at alone
    rw [map_kind_tokens, String.toList_ofList, alone]

/-- Two unknown escapes in a string that is closed, and a string that ends in a backslash. -/
theorem strings_decoded_unknown_escape :
    let source := "\"a\\q\\\"\\z\" \"b\\"
    let cs := "a\\q\\\"\\z\" \"b\\".toList
    let before := "\"a\\q\\\"\\z\" ".toList
    ∃ first second, Stands source [] ('"' :: cs) first ∧
      first.kind = .invalid "unknown escape sequence '\\q'" ∧
      Stands source before ('"' :: "b\\".toList) second ∧
      second.kind = .invalid "unterminated string literal" ∧ second.text = "\"b\\" := by
  intro source cs before
  let first : Token := ⟨.invalid "unknown escape sequence '\\q'", "\"a\\q\\\"\\z\"", ⟨1, 1⟩⟩
  let second : Token := ⟨.invalid "unterminated string literal", "\"b\\", ⟨1, 11⟩⟩
  have words : tokens source = [first, second, ⟨.finish, "", ⟨1, 14⟩⟩] := by decide +kernel
  have stands : Stands source [] ('"' :: cs) first := ⟨by simp [words], by decide +kernel, rfl⟩
  have stands' : Stands source before ('"' :: "b\\".toList) second :=
    ⟨by simp [words], by decide +kernel, by decide +kernel⟩
  have closes : Quoted.Closes cs [.plain 'a', .guarded 'q', .guarded '"', .guarded 'z']
      " \"b\\".toList := ⟨by simp [Quoted.Item.Sound], by decide +kernel⟩
  have never : ∀ items rest, ¬Quoted.Closes "b\\".toList items rest := by
    intro items rest h
    have quote : '"' ∈ "b\\".toList := by
      rw [h.spelled]
      exact List.mem_append_right _ List.mem_cons_self
    revert quote
    decide
  obtain ⟨-, kind, -⟩ := (strings_decoded.1 source _ _ first stands).1 _ _ closes
  obtain ⟨text, kind', -⟩ := (strings_decoded.1 source _ _ second stands').2 never
  refine ⟨first, second, stands, kind.trans ?_, stands', kind', ?_⟩
  · decide +kernel
  · exact String.toList_injective text

end Token
end TypedCommands
