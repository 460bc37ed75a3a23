import TypedCommands.Proofs.Names
import TypedCommands.Yaml.Scalar
import TypedCommands.Yaml.Token.Lexer

/-! Plain scalars: which texts are written as such, and that each is read back as it is. -/
namespace TypedCommands.Yaml

/-- How many bytes the characters take. -/
def bytes : List Char → Nat
  | [] => 0
  | c :: cs => c.utf8Size + bytes cs

/-- A text that can stand as a plain scalar. -/
structure PlainText (cs : List Char) : Prop where
  printable : ∀ c ∈ cs, isPrintable c = true
  begins : plainBegins cs = true
  goesOn : plainGoesOn false cs = true

section Characters

variable {c : Char}

theorem isBreak_of_isPrintable (h : isPrintable c = true) : isBreak c = false := by
  refine Bool.eq_false_iff.mpr fun broken => ?_
  have cases : c = '\n' ∨ c = '\u2028' ∨ c = '\u2029' := by
    simpa [isBreak, or_assoc] using broken
  rcases cases with rfl | rfl | rfl <;> revert h <;> decide

theorem ne_tab_of_isPrintable (h : isPrintable c = true) : c ≠ '\t' := by
  rintro rfl
  revert h
  decide

theorem ne_byteOrderMark_of_isPrintable (h : isPrintable c = true) : c ≠ byteOrderMark := by
  rintro rfl
  revert h
  decide

theorem isSpace_of_isPrintable (h : isPrintable c = true) : isSpace c = (c == ' ') := by
  have tab := ne_tab_of_isPrintable h
  simp [isSpace, tab]

/-- More text behind does not put a gap where there was none. -/
theorem gapNext_append {cs rest : List Char} (h : gapNext cs = false) :
    gapNext (cs ++ rest) = false := by
  cases cs with
  | nil => cases h
  | cons c cs => exact h

theorem bytes_cons {cs : List Char} : bytes (c :: cs) = c.utf8Size + bytes cs := rfl

theorem head_of_plainBegins {cs : List Char} (begins : plainBegins (c :: cs) = true) :
    c ∉ indicators ∧ c ≠ ' ' ∧ (c = '-' ∨ c = '?' ∨ c = ':' → gapNext cs = false) := by
  simp only [plainBegins, Bool.and_eq_true, Bool.not_eq_true', Bool.and_eq_false_iff,
    Bool.or_eq_false_iff, beq_eq_false_iff_ne, bne_iff_ne, ne_eq] at begins
  obtain ⟨⟨⟨visible, space⟩, -⟩, near⟩ := begins
  refine ⟨by simpa using visible, space, fun special => ?_⟩
  rcases near with other | solid
  · rcases special with rfl | rfl | rfl <;> simp at other
  · exact solid

/-- Characters that begin a token wherever a line begins. -/
structure Visible (c : Char) : Prop where
  solid : isGap c = false
  ne_comment : c ≠ '#'
  ne_mark : c ≠ byteOrderMark

theorem PlainText.visible {cs : List Char} (plain : PlainText (c :: cs)) : Visible c := by
  obtain ⟨visible, space, -⟩ := head_of_plainBegins plain.begins
  have printable := plain.printable c List.mem_cons_self
  refine ⟨?_, fun same => visible (by rw [same]; decide), ne_byteOrderMark_of_isPrintable printable⟩
  rw [isGap, isSpace_of_isPrintable printable, isBreak_of_isPrintable printable,
    beq_false_of_ne space]
  rfl

theorem PlainText.exists_cons {cs : List Char} (plain : PlainText cs) :
    ∃ c ds, cs = c :: ds ∧ Visible c := by
  cases cs with
  | nil => cases plain.begins
  | cons c cs => exact ⟨c, cs, rfl, plain.visible⟩

/-- A text that can stand as a key. The reader gives up on a key of more than 1024 bytes. -/
structure KeyText (cs : List Char) : Prop where
  plain : PlainText cs
  short : bytes cs ≤ 1024

end Characters

section Lined

/-- Lines of printable characters. -/
def Lined (cs : List Char) : Prop := cs.all (fun c => isPrintable c || c == '\n') = true

variable {c : Char} {cs ds : List Char}

instance : Decidable (Lined cs) := inferInstanceAs (Decidable (_ = true))

theorem lined_iff : Lined cs ↔ ∀ c ∈ cs, isPrintable c = true ∨ c = '\n' := by
  simp [Lined]

theorem Lined.append (first : Lined cs) (second : Lined ds) : Lined (cs ++ ds) :=
  lined_iff.mpr (List.forall_mem_append.mpr ⟨lined_iff.mp first, lined_iff.mp second⟩)

theorem lined_flatMap {α : Type} {f : α → List Char} {xs : List α} (each : ∀ x ∈ xs, Lined (f x)) :
    Lined (xs.flatMap f) := by
  apply lined_iff.mpr
  intro c mem
  obtain ⟨x, mem, inside⟩ := List.mem_flatMap.mp mem
  exact lined_iff.mp (each x mem) c inside

theorem PlainText.lined (plain : PlainText cs) : Lined cs :=
  lined_iff.mpr fun c mem => .inl (plain.printable c mem)

theorem isAllowed_of_isPrintable (h : isPrintable c = true) : isAllowed c = true := by
  simp only [isPrintable, Bool.or_eq_true, Bool.and_eq_true] at h
  simp only [isAllowed, Bool.or_eq_true, Bool.and_eq_true]
  rcases h with (ascii | more) | beyond
  · exact .inl (.inl (.inr ascii))
  · exact .inl (.inr more.1.1)
  · exact .inr beyond

theorem Lined.isAllowed (lined : Lined cs) : cs.all isAllowed = true := by
  apply List.all_eq_true.mpr
  intro c mem
  rcases lined_iff.mp lined c mem with printable | rfl
  · exact isAllowed_of_isPrintable printable
  · rfl

theorem ne_return_of_lined (h : isPrintable c = true ∨ c = '\n') : c ≠ '\r' ∧ c ≠ '\u0085' := by
  constructor <;> rintro rfl <;> revert h <;> decide

/-- The line breaks are newlines already. -/
theorem Lined.unifyBreaks_eq (lined : Lined cs) : unifyBreaks cs = cs := by
  induction cs with
  | nil => rfl
  | cons c cs ih =>
    obtain ⟨first, more⟩ := List.forall_mem_cons.mp (lined_iff.mp lined)
    obtain ⟨ne_return, ne_next⟩ := ne_return_of_lined first
    rw [unifyBreaks, if_neg (not_or.mpr ⟨ne_return, ne_next⟩), ih (lined_iff.mpr more)]
    exact fun _ same => absurd same ne_return

end Lined

section Written

theorem length_le_flatMap {f : Char → List Char} (some : ∀ c, 0 < (f c).length) (cs : List Char) :
    cs.length ≤ (cs.flatMap f).length := by
  induction cs with
  | nil => exact Nat.le_refl 0
  | cons c cs ih =>
    have one := some c
    rw [List.flatMap_cons, List.length_append, List.length_cons]
    omega

theorem escape_length_pos (c : Char) : 0 < (escape c).length := by
  unfold escape
  repeat' split
  all_goals simp

/-- Quotes make a text longer, so one that is written as it is has none. -/
theorem isPlain_of_scalarText {s : String} (same : scalarText s = s) : isPlain s = true := by
  have longer (q : Char) (cs : List Char) (long : s.toList.length ≤ cs.length)
      (quoted : String.ofList (q :: cs ++ [q]) = s) : isPlain s = true := by
    have length : (q :: cs ++ [q]).length = s.toList.length := by
      rw [← quoted, String.toList_ofList]
    rw [List.length_append, List.length_cons] at length
    omega
  unfold scalarText at same
  split at same
  · assumption
  · split at same
    · apply longer _ _ (length_le_flatMap _ _) same
      intro c
      split <;> exact Nat.succ_pos _
    · exact longer _ _ (length_le_flatMap escape_length_pos _) same

theorem plainText_of_isPlain {s : String} (plain : isPlain s = true) : PlainText s.toList := by
  simp only [isPlain, Bool.and_eq_true] at plain
  obtain ⟨⟨⟨printable, begins⟩, goesOn⟩, -⟩ := plain
  exact ⟨List.all_eq_true.mp printable, begins, goesOn⟩

section Alphanumeric

variable {c : Char}

theorem isPrintable_of_isAlphanum (h : c.isAlphanum = true) : isPrintable c = true := by
  rw [Char.isAlphanum, Bool.or_eq_true, Name.isAlpha_iff, Name.isDigit_iff] at h
  have bounds : 48 ≤ c.toNat ∧ c.toNat ≤ 122 := by
    have ranges : (65 ≤ c.toNat ∧ c.toNat ≤ 90 ∨ 97 ≤ c.toNat ∧ c.toNat ≤ 122) ∨
        48 ≤ c.toNat ∧ c.toNat ≤ 57 := h
    omega
  have low : 0x20 ≤ c.toNat := by omega
  have high : c.toNat ≤ 0x7E := by omega
  simp [isPrintable, low, high]

theorem ne_of_isAlphanum (h : c.isAlphanum = true) {d : Char} (other : d.isAlphanum = false) :
    c ≠ d := by
  rintro rfl
  rw [h] at other
  cases other

theorem plainGoesOn_of_isAlphanum {cs : List Char} (all : cs.all Char.isAlphanum = true) :
    plainGoesOn false cs = true := by
  induction cs with
  | nil => rfl
  | cons c cs ih =>
    rw [List.all_cons, Bool.and_eq_true] at all
    obtain ⟨first, more⟩ := all
    have colon : c ≠ ':' := ne_of_isAlphanum first (by decide)
    have space : c ≠ ' ' := ne_of_isAlphanum first (by decide)
    rw [plainGoesOn, beq_false_of_ne space, ih more]
    simp [colon]

theorem plainText_of_isAlphanum {cs : List Char} (some : cs ≠ [])
    (all : cs.all Char.isAlphanum = true) : PlainText cs where
  printable c mem := isPrintable_of_isAlphanum (List.all_eq_true.mp all c mem)
  begins := by
    obtain ⟨c, cs, rfl⟩ := List.exists_cons_of_ne_nil some
    have first := List.all_eq_true.mp all c List.mem_cons_self
    have visible : c ∉ indicators := fun mem => by
      have none : indicators.all (fun d => !d.isAlphanum) = true := by decide
      have other := List.all_eq_true.mp none c mem
      rw [first] at other
      cases other
    have other {d : Char} (other : d.isAlphanum = false) : c ≠ d := ne_of_isAlphanum first other
    simp [plainBegins, visible, @other ' ' rfl, @other '-' rfl, @other '.' rfl, @other '?' rfl,
      @other ':' rfl]
  goesOn := plainGoesOn_of_isAlphanum all

end Alphanumeric

end Written

namespace Lexer

open State

theorem run_of_step {s t : State} {c : Char} {cs : List Char} (h : s.step c cs = some t) :
    run s (c :: cs) = run t cs := by
  rw [run, h]

/-- Within a block and between two of its tokens, with nothing that could become a key. -/
def between (ts : List Token) (is : List Nat) (keyAllowed : Bool) (line column offset : Nat) :
    State :=
  ⟨.between, ts, ts.length, is, keyAllowed, none, [], line, column, offset⟩

section Plain

variable {s : State} {text next : List Char} {spaces : Option (List Char)}

/-- Within a plain scalar, perhaps behind spaces. -/
def InPlain (s : State) (text : List Char) (spaces : Option (List Char)) : Prop :=
  s.mode = .plain text (spaces.map fun sp => ⟨sp, false, none, []⟩)

/-- Further on in a plain scalar, by so many characters and bytes. -/
def scanned (s : State) (text : List Char) (spaces : Option (List Char)) (length size : Nat) :
    State :=
  { s with
    mode := .plain text (spaces.map fun sp => ⟨sp, false, none, []⟩)
    column := s.column + length
    offset := s.offset + size }

theorem inPlain_scanned {length size : Nat} :
    InPlain (scanned s text spaces length size) text spaces := rfl

theorem scanned_scanned {text' : List Char} {spaces' : Option (List Char)}
    {length length' size size' : Nat} :
    scanned (scanned s text spaces length size) text' spaces' length' size' =
      scanned s text' spaces' (length + length') (size + size') := by
  simp only [scanned, Nat.add_assoc]

theorem step_plain_space (plain : InPlain s text spaces) :
    s.step ' ' next = some (scanned s text (some (' ' :: spaces.getD [])) 1 1) := by
  unfold InPlain at plain
  rw [State.step, plain]
  cases spaces <;> rfl

theorem step_plain {c : Char} (plain : InPlain s text spaces) (printable : isPrintable c = true)
    (space : c ≠ ' ') (comment : c = '#' → spaces = none) (colon : c = ':' → gapNext next = false)
    (outer : s.outer = []) (inside : s.margin ≤ s.column) (begun : 0 < s.column) :
    s.step c next = some (scanned s (c :: (spaces.getD [] ++ text)) none 1 c.utf8Size) := by
  have space : isSpace c = false := by simp [isSpace_of_isPrintable printable, space]
  have broken := isBreak_of_isPrintable printable
  have within : ¬s.column < s.margin := by omega
  have flow : s.inFlow = false := by simp [inFlow, outer]
  have stays : (spaces.isSome && s.endsAtGap c next) = false := by
    cases spaces with
    | none => rfl
    | some sp =>
      have comment : c ≠ '#' := fun same => Option.some_ne_none sp (comment same)
      have started : s.column ≠ 0 := by omega
      simp [State.endsAtGap, within, started, comment]
  have stray : s.strayColon c next = false := by simp [strayColon, flow]
  have goes : s.endsPlain c next = false := by
    by_cases same : c = ':'
    · simp [endsPlain, flow, colon same]
    · simp [endsPlain, flow, same]
  unfold InPlain at plain
  rw [State.step, plain]
  simp only [stepPlain, space, broken, Option.isSome_map, stays, stray, goes, forward]
  cases spaces <;> rfl

/-- A plain scalar goes on to the end of its text. -/
theorem run_plain {cs rest : List Char} (plain : InPlain s text spaces)
    (printable : ∀ c ∈ cs, isPrintable c = true) (goesOn : plainGoesOn spaces.isSome cs = true)
    (outer : s.outer = []) (inside : s.margin ≤ s.column) (begun : 0 < s.column) :
    run s (cs ++ rest) =
      run (scanned s (cs.reverse ++ spaces.getD [] ++ text) none cs.length (bytes cs)) rest := by
  induction cs generalizing s text spaces with
  | nil =>
    cases spaces with
    | none =>
      obtain ⟨mode, _, _, _, _, _, _, _, _, _⟩ := s
      obtain rfl : mode = .plain text none := plain
      rfl
    | some sp => cases goesOn
  | cons c cs ih =>
    have more (c' : Char) (mem : c' ∈ cs) := printable c' (List.mem_cons_of_mem _ mem)
    have printable := printable c List.mem_cons_self
    simp only [plainGoesOn, Bool.and_eq_true, Bool.not_eq_true', Bool.and_eq_false_iff,
      beq_eq_false_iff_ne, ne_eq] at goesOn
    obtain ⟨⟨comment, colon⟩, goesOn⟩ := goesOn
    have within : s.margin ≤ s.column + 1 := Nat.le_succ_of_le inside
    have begun' : 0 < s.column + 1 := Nat.succ_pos _
    rw [List.cons_append, bytes_cons, List.length_cons, List.reverse_cons, Nat.add_comm cs.length]
    by_cases space : c = ' '
    · subst space
      have goesOn : plainGoesOn (some (' ' :: spaces.getD [])).isSome cs = true := goesOn
      rw [run_of_step (step_plain_space plain),
        ih inPlain_scanned more goesOn outer within begun', scanned_scanned]
      simp only [Option.getD_some, List.append_assoc, List.cons_append, List.nil_append]
      rfl
    · have comment : c = '#' → spaces = none := by
        intro same
        rcases comment with other | none
        · exact absurd same other
        · exact Option.isNone_iff_eq_none.mp (by simpa using none)
      have colon : c = ':' → gapNext (cs ++ rest) = false := by
        intro same
        rcases colon with other | ends
        · exact absurd same other
        · exact gapNext_append ends
      have goesOn : plainGoesOn (none : Option (List Char)).isSome cs = true := by
        rwa [beq_false_of_ne space] at goesOn
      rw [run_of_step (step_plain plain printable space comment colon outer inside begun),
        ih inPlain_scanned more goesOn outer within begun', scanned_scanned]
      simp

end Plain

section Begin

theorem stepBetween_of_visible {c : Char} {s : State} {next : List Char} (visible : Visible c) :
    s.stepBetween c next = s.begin c next := by
  obtain ⟨solid, ne_comment, ne_mark⟩ := visible
  simp only [isGap, isSpace, Bool.or_eq_false_iff, beq_eq_false_iff_ne] at solid
  simp [State.stepBetween, solid, ne_comment, ne_mark]

variable {ts : List Token} {is : List Nat} {keyAllowed : Bool} {line column offset : Nat}
  {rest : List Char}

/-- No open block is indented further than the column. -/
def Fits (is : List Nat) (column : Nat) : Prop := ∀ i ∈ is.head?, i ≤ column

theorem unroll_of_fits {s : State} (fits : Fits s.indents s.column) : s.unroll s.column = s := by
  unfold unroll
  split
  · rfl
  · obtain ⟨_, _, _, is, _, _, _, _, column, _⟩ := s
    cases is with
    | nil => rfl
    | cons i is =>
      have fits : ¬column < i := Nat.not_lt.mpr (fits i rfl)
      simp only [endBlocks, if_neg fits]

/-- Where a token begins at once: nothing before it became stale, and no block ends. -/
structure Ready (s : State) : Prop where
  mode : s.mode = .between
  fresh : s.dropStale = some s
  unrolled : s.unroll s.column = s

theorem ready_between (fits : Fits is column) :
    Ready (between ts is keyAllowed line column offset) :=
  ⟨rfl, rfl, unroll_of_fits fits⟩

theorem Ready.step_eq {s : State} {c : Char} {next : List Char} (ready : Ready s)
    (visible : Visible c) : s.step c next = s.begin c next := by
  rw [State.step, ready.mode]
  exact stepBetween_of_visible visible

/-- Where a scalar begins. It may be a key if one is allowed here. -/
def atScalar (ts : List Token) (is : List Nat) (keyAllowed : Bool) (line column offset : Nat) :
    State :=
  { between ts is false line column offset with
    candidate :=
      if keyAllowed then some ⟨ts.length, line, column, offset, is.head? == some column⟩ else none }

theorem startScalar_between {mode : Mode} :
    (between ts is keyAllowed line column offset).startScalar mode =
      some { atScalar ts is keyAllowed line column offset with mode } := by
  cases keyAllowed <;> rfl

theorem begin_plain {c : Char} {cs : List Char} (begins : plainBegins (c :: cs) = true)
    (solid : isGap c = false) (fits : Fits is column)
    (unmarked : column = 0 → startsMarker c (cs ++ rest) = false) :
    (between ts is keyAllowed line column offset).begin c (cs ++ rest) =
      ((between ts is keyAllowed line column offset).startScalar (.plain [c] none)).map
        (·.forward c) := by
  obtain ⟨visible, -, near⟩ := head_of_plainBegins begins
  have near : c = '-' ∨ c = '?' ∨ c = ':' → gapNext (cs ++ rest) = false :=
    fun special => gapNext_append (near special)
  obtain ⟨-, fresh, unrolled⟩ : Ready (between ts is keyAllowed line column offset) :=
    ready_between fits
  have flow : (between ts is keyAllowed line column offset).inFlow = false := rfl
  have marked : ¬((between ts is keyAllowed line column offset).column = 0 ∧
      startsMarker c (cs ++ rest) = true) := by
    rintro ⟨start, mark⟩
    rw [unmarked start] at mark
    cases mark
  generalize between ts is keyAllowed line column offset = s at fresh unrolled flow marked ⊢
  have starts : s.startsPlain c (cs ++ rest) = true := by
    by_cases special : c = '?' ∨ c = ':'
    · have ends := near (.inr special)
      rcases special with rfl | rfl <;> simp [startsPlain, visible, solid, ends, flow]
    · rw [not_or] at special
      simp [startsPlain, visible, solid, special]
  have item : ¬(c = '-' ∧ gapNext (cs ++ rest) = true) := fun h => by simp [near (.inl h.1)] at h
  have value : ¬(c = ':' ∧ gapNext (cs ++ rest) = true) := fun h => by
    simp [near (.inr (.inr h.1))] at h
  simp only [indicators, flowIndicators, List.mem_append, List.mem_cons, List.not_mem_nil, or_false,
    not_or] at visible
  simp only [begin, fresh, unrolled, visible, item, value, flow, starts, Option.bind_eq_bind,
    Option.bind_some, Bool.and_eq_true, beq_iff_eq, if_neg marked, if_false, if_true,
    Bool.false_eq_true, false_or]
  rw [Option.map_eq_bind]
  rfl

theorem step_begin_plain {c : Char} {cs : List Char} (plain : PlainText (c :: cs))
    (fits : Fits is column) (unmarked : column = 0 → startsMarker c (cs ++ rest) = false) :
    (between ts is keyAllowed line column offset).step c (cs ++ rest) =
      some (scanned (atScalar ts is keyAllowed line column offset) [c] none 1 c.utf8Size) := by
  have broken := isBreak_of_isPrintable (plain.printable c List.mem_cons_self)
  have ready : Ready (between ts is keyAllowed line column offset) := ready_between fits
  rw [ready.step_eq plain.visible, begin_plain plain.begins plain.visible.solid fits unmarked,
    startScalar_between, Option.map_some, forward, broken]
  rfl

/-- A plain scalar that begins between two tokens, up to the end of its text. -/
theorem run_scalar {cs : List Char} (plain : PlainText cs) (fits : Fits is column)
    (unmarked : column = 0 → ∀ c ds, cs = c :: ds → startsMarker c (ds ++ rest) = false) :
    run (between ts is keyAllowed line column offset) (cs ++ rest) =
      run (scanned (atScalar ts is keyAllowed line column offset) cs.reverse none cs.length
        (bytes cs)) rest := by
  cases cs with
  | nil => cases plain.begins
  | cons c cs =>
    obtain ⟨-, space, -⟩ := head_of_plainBegins plain.begins
    have more (d : Char) (mem : d ∈ cs) := plain.printable d (List.mem_cons_of_mem _ mem)
    have goesOn : plainGoesOn (none : Option (List Char)).isSome cs = true := by
      have goesOn := plain.goesOn
      rw [plainGoesOn, beq_false_of_ne space, Bool.and_eq_true] at goesOn
      exact goesOn.2
    have first : run (between ts is keyAllowed line column offset) (c :: (cs ++ rest)) =
        run (scanned (atScalar ts is keyAllowed line column offset) [c] none 1 c.utf8Size)
          (cs ++ rest) :=
      run_of_step (step_begin_plain plain fits fun start => unmarked start c cs rfl)
    generalize same : atScalar ts is keyAllowed line column offset = s at first ⊢
    have outer : (scanned s [c] none 1 c.utf8Size).outer = [] := by rw [← same]; rfl
    have inside : (scanned s [c] none 1 c.utf8Size).margin ≤ s.column + 1 := by
      rw [← same]
      cases is with
      | nil => exact Nat.zero_le _
      | cons i is => exact Nat.succ_le_succ (fits i rfl)
    rw [List.cons_append, first,
      run_plain inPlain_scanned more goesOn outer inside (Nat.succ_pos _), scanned_scanned]
    simp [bytes_cons, Nat.add_comm]

end Begin

end Lexer
end TypedCommands.Yaml
