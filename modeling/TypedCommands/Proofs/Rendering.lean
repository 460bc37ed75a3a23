import TypedCommands.Proofs.Caret
import TypedCommands.Proofs.Reports
import TypedCommands.Proofs.Stages
import TypedCommands.Proofs.Strings

/-! The lines of a report. What a report says of a token fits on one line, so a text with a fault has
one line for each of its diagnostics or, with the lines that these are about, three. -/
namespace TypedCommands

namespace Text

/-- No line of the text ends within it. -/
def OneLine (text : String) : Prop := '\n' ∉ text.toList

instance (text : String) : Decidable (OneLine text) := inferInstanceAs (Decidable (_ ∉ _))

theorem OneLine.append {a b : String} (ha : OneLine a) (hb : OneLine b) : OneLine (a ++ b) := by
  rw [OneLine, String.toList_append]
  exact List.not_mem_append ha hb

theorem oneLine_ofList {cs : List Char} (h : '\n' ∉ cs) : OneLine (String.ofList cs) := by
  rwa [OneLine, String.toList_ofList]

theorem oneLine_toString (n : Nat) : OneLine (toString n) := by
  intro mem
  have digits : (toString n).toList = Nat.toDigits 10 n := Nat.toList_repr
  rw [digits] at mem
  have digit := Nat.isDigit_of_mem_toDigits (by decide) (by decide) mem
  revert digit
  decide

/-- The lines of a report, between its newlines. -/
def lines (text : String) : List (List Char) := text.toList.splitOn '\n'

theorem lines_intercalate {ls : List String} (some : ls ≠ []) (single : ∀ l ∈ ls, OneLine l) :
    lines ("\n".intercalate ls) = ls.map String.toList := by
  rw [lines, String.toList_intercalate]
  apply List.splitOn_intercalate
  · intro cs mem
    obtain ⟨l, hl, rfl⟩ := List.mem_map.mp mem
    exact single l hl
  · exact mt List.map_eq_nil_iff.mp some

/-- Texts that are joined from parts are joined from all of the parts. -/
theorem intercalate_flatMap {α : Type} (separator : String) {f : α → List String}
    (some : ∀ a, f a ≠ []) (as : List α) :
    separator.intercalate (as.flatMap f) =
      separator.intercalate (as.map fun a => separator.intercalate (f a)) := by
  induction as with
  | nil => rfl
  | cons a as ih =>
    rw [List.flatMap_cons, List.map_cons]
    cases as with
    | nil => simp
    | cons b bs =>
      have rest : (b :: bs).flatMap f ≠ [] := by simp [some b]
      rw [String.intercalate_append_of_ne_nil (some a) rest, ih,
        String.intercalate_cons_of_ne_nil (by simp)]

theorem newline_not_mem_flatten {cs : List Char} (h : '\n' ∉ cs) : '\n' ∉ flatten cs := by
  intro mem
  obtain ⟨c, kept, same⟩ := List.mem_map.mp mem
  split at same
  · cases same
  · rw [same] at kept
    exact h (List.mem_filter.mp kept).1

theorem newline_not_mem_lineAt (before rest : List Char) : '\n' ∉ lineAt before rest := by
  have free (cs : List Char) : '\n' ∉ cs.takeWhile (· ≠ '\n') :=
    newline_not_mem_takeWhile (by simp) cs
  rw [lineAt, List.mem_append, List.mem_reverse, not_or]
  exact ⟨free _, free _⟩

/-- The line of a report that points at a column of the line above. -/
def pointer (column : Nat) : List Char := List.replicate (column - 1) ' ' ++ ['^']

theorem newline_not_mem_pointer (column : Nat) : '\n' ∉ pointer column := by
  simp [pointer]

end Text

open Text (OneLine)

theorem Position.oneLine_label (p : Position) : OneLine p.label :=
  (((show OneLine "Line " by decide).append (Text.oneLine_toString _)).append (by decide)).append
    (Text.oneLine_toString _)

theorem Quoted.oneLine_unknownEscape {c : Char} (h : c ≠ '\n') : OneLine (unknownEscape c) := by
  have single : OneLine (toString c) := by
    have text : (toString c).toList = [c] := String.toList_singleton c
    rw [OneLine, text, List.mem_singleton]
    exact Ne.symm h
  have front : OneLine "unknown escape sequence '\\" := by decide
  exact (front.append single).append (by decide)

namespace Token

/-- What a kind says is on one line. -/
def Kind.OneLine : Kind → Prop
  | .identifier name => Text.OneLine name
  | .invalid reason => Text.OneLine reason
  | .literal _ | .opening | .closing | .finish => True

theorem numeral_oneLine (n : Numeral) : n.kind.OneLine := by
  unfold Numeral.kind
  split
  · split
    · trivial
    · exact show Text.OneLine Numeral.tooLarge by decide
  · split
    · trivial
    · exact show Text.OneLine Numeral.infinite by decide

/-- A string has no escape of a newline. -/
theorem kindOf_oneLine {items : List Quoted.Item} (sound : ∀ i ∈ items, i.Sound) :
    (Quoted.kindOf items).OneLine := by
  unfold Quoted.kindOf
  split
  · trivial
  · rename_i c unknown
    obtain ⟨i, mem, found⟩ := List.exists_of_findSome?_eq_some unknown
    cases i with
    | plain d => cases found
    | guarded d =>
      have line : d ≠ '\n' := sound _ mem
      rw [Quoted.Item.unknown?] at found
      obtain ⟨-, same⟩ := Option.ite_none_right_eq_some.mp found
      obtain rfl : d = c := Option.some.inj same
      exact Quoted.oneLine_unknownEscape line

theorem read_oneLine (c : Char) (cs : List Char) : (read c cs).kind.OneLine := by
  unfold read
  split
  · trivial
  split
  · trivial
  split
  · rcases Quoted.closes_or_breaksOff cs with ⟨items, rest, closes⟩ | ⟨items, tail, rest, broken⟩
    · rw [readString, closes.take]
      exact kindOf_oneLine closes.sound
    · rw [readString, broken.take]
      exact show Text.OneLine Quoted.unterminated by decide
  split
  · unfold readNumber
    dsimp only
    split
    · exact numeral_oneLine _
    · exact show Text.OneLine Numeral.malformed by decide
  split
  · exact Text.oneLine_ofList (newline_not_mem_takeWhile (by decide) (c :: cs))
  · exact show Text.OneLine unexpected by decide

/-- What a report calls a token is on one line. -/
theorem oneLine_describe {source : String} {t : Token} (mem : t ∈ tokens source) :
    Text.OneLine t.describe := by
  have parts : Text.OneLine t.text ∧ t.kind.OneLine := by
    rcases read_of_mem mem with ⟨finish, empty⟩ | ⟨before, c, rest, -, visible, kind, text⟩
    · rw [finish, empty]
      exact ⟨by decide, trivial⟩
    · rw [kind, Text.OneLine, text]
      exact ⟨newline_not_mem_read visible rest, read_oneLine c rest⟩
  obtain ⟨text, line⟩ := parts
  have around {front back s : String} (hf : Text.OneLine front) (hs : Text.OneLine s)
      (hb : Text.OneLine back) : Text.OneLine (front ++ s ++ back) := (hf.append hs).append hb
  unfold describe
  split <;> rename_i kind <;> rw [kind] at line
  case h_1 => exact around (by decide) line (by decide)
  case h_2 => exact (show Text.OneLine "string " by decide).append text
  case h_3 | h_4 => exact around (by decide) text (by decide)
  case h_5 | h_6 | h_7 => decide
  case h_8 => exact around (around (by decide) text (by decide)) line (by decide)

/-- The line that is shown for a token is the one that it stands on. -/
theorem Stands.line {source : String} {before cs : List Char} {t : Token}
    (h : Stands source before cs t) : Text.line (Text.shownLines source) t.position.line =
      String.ofList (Text.flatten (Text.lineAt before cs)) := by
  rw [Text.line_shownLines, h.spelled, h.position, Position.behind, Nat.add_sub_cancel_left,
    Text.pieces_behind]

end Token

section Blocks

variable {α β : Type} {f : α → List β} {n : Nat} {as : List α}

theorem length_flatMap_of_length (h : ∀ a, (f a).length = n) :
    (as.flatMap f).length = n * as.length := by
  induction as with
  | nil => rfl
  | cons a as ih =>
    rw [List.flatMap_cons, List.length_append, h, ih, List.length_cons, Nat.mul_add_one, Nat.add_comm]

/-- Where blocks of one length are joined, an element is found by its block. -/
theorem getElem?_flatMap_of_length (h : ∀ a, (f a).length = n) {i j : Nat} {a : α}
    (ha : as[i]? = some a) (hj : j < n) : (as.flatMap f)[n * i + j]? = (f a)[j]? := by
  induction as generalizing i with
  | nil => cases ha
  | cons b bs ih =>
    rw [List.flatMap_cons]
    cases i with
    | zero =>
      cases ha
      rw [Nat.mul_zero, Nat.zero_add, List.getElem?_append_left (by rwa [h])]
    | succ i =>
      have behind : n * (i + 1) + j = (f b).length + (n * i + j) := by
        rw [h, Nat.mul_add]
        omega
      rw [behind, List.getElem?_append_right (Nat.le_add_right _ _), Nat.add_sub_cancel_left]
      exact ih ha

end Blocks

section Reports

variable {source : String} {x : Complaint}

theorem Complaint.oneLine_message (h : x.token ∈ Token.tokens source) : OneLine x.message := by
  have token := Token.oneLine_describe h
  cases x with
  | expected what found =>
    have name : OneLine what.name := by cases what <;> decide
    have front : OneLine "expected " := by decide
    exact ((front.append name).append (by decide)).append token
  | tooDeep opening =>
    have front : OneLine "nesting deeper than " := by decide
    exact (front.append (Text.oneLine_toString _)).append (by decide)
  | invalid found => exact token

theorem Complaint.oneLine_summary (h : x.token ∈ Token.tokens source) :
    OneLine x.diagnostic.summary := by
  have label := x.token.position.oneLine_label
  exact (label.append (show OneLine ": " by decide)).append (x.oneLine_message h)

/-- The lines of a verbose report. -/
def Diagnostic.block (d : Diagnostic) (line : String) : List String :=
  [d.summary, line, String.ofList (Text.pointer d.position.column)]

theorem Diagnostic.render_verbose (d : Diagnostic) (line : String) :
    { d with line := some line }.render .verbose = "\n".intercalate (d.block line) := by
  simp [render, summary, block, Text.caret, Text.spaces, Text.pointer, String.append_assoc]

/-- The text of the line that a complaint is about. -/
def Complaint.shown (source : String) (x : Complaint) : String :=
  Text.line (Text.shownLines source) x.token.position.line

/-- The diagnostic that is made of a complaint about the text. -/
def Complaint.reported (source : String) (x : Complaint) : Diagnostic :=
  x.diagnostic.withLine (Text.shownLines source)

def Complaint.block (source : String) (x : Complaint) : List String :=
  x.diagnostic.block (x.shown source)

theorem Complaint.oneLine_block (h : x.token ∈ Token.tokens source) :
    ∀ l ∈ x.block source, OneLine l := by
  obtain ⟨before, cs, stands⟩ := Token.exists_stands h
  have line : OneLine (x.shown source) := by
    rw [shown, stands.line]
    exact Text.oneLine_ofList (Text.newline_not_mem_flatten (Text.newline_not_mem_lineAt _ _))
  have pointer := Text.oneLine_ofList (Text.newline_not_mem_pointer x.diagnostic.position.column)
  simp only [block, Diagnostic.block, List.forall_mem_cons]
  exact ⟨x.oneLine_summary h, line, pointer, nofun⟩

/-- What is reported when the text is not parsed. -/
structure Complained (source : String) (xs : List Complaint) : Prop where
  some : xs ≠ []
  mem : ∀ x ∈ xs, x.token ∈ Token.tokens source

namespace Complained

variable {xs : List Complaint}

theorem lines_simple (h : Complained source xs) :
    Text.lines (Diagnostic.renderAll .simple (xs.map (·.reported source))) =
      xs.map fun x => x.diagnostic.summary.toList := by
  have render : (xs.map (·.reported source)).map (·.render .simple) =
      xs.map (·.diagnostic.summary) := List.map_map
  rw [Diagnostic.renderAll, render, Text.lines_intercalate, List.map_map]
  · rfl
  · exact mt List.map_eq_nil_iff.mp h.some
  · intro l mem
    obtain ⟨x, hx, rfl⟩ := List.mem_map.mp mem
    exact x.oneLine_summary (h.mem x hx)

theorem lines_verbose (h : Complained source xs) :
    Text.lines (Diagnostic.renderAll .verbose (xs.map (·.reported source))) =
      xs.flatMap fun x => (x.block source).map String.toList := by
  have render : (xs.map (·.reported source)).map (·.render .verbose) =
      xs.map fun x => "\n".intercalate (x.block source) := by
    rw [List.map_map]
    apply List.map_congr_left
    intro x _
    exact x.diagnostic.render_verbose (x.shown source)
  have three (x : Complaint) : x.block source ≠ [] := List.cons_ne_nil _ _
  rw [Diagnostic.renderAll, render, ← Text.intercalate_flatMap _ three, Text.lines_intercalate,
    List.map_flatMap]
  · obtain ⟨x, xs', rfl⟩ := List.exists_cons_of_ne_nil h.some
    simp [Complaint.block, Diagnostic.block]
  · intro l mem
    obtain ⟨x, hx, hl⟩ := List.mem_flatMap.mp mem
    exact x.oneLine_block (h.mem x hx) l hl

end Complained

end Reports

namespace Environment

variable {σ : Type} {env : Environment σ} {source : String} {s : σ}

/-- A run that ends in the parser reports what the parser objects to, which is something. -/
theorem exists_complained {ds : List Diagnostic} (h : (env.run source s).1 = .error (.parse ds)) :
    ∃ xs, Complained source xs ∧ ds = xs.map (·.reported source) := by
  have checked : env.check source = .error (.parse ds) :=
    ((run_eq_error_iff (e := .parse ds) trivial).mp (Prod.ext h rfl)).1
  have parsed : Command.parse source = .error ds := by
    unfold check at checked
    split at checked
    · rename_i unparsed
      cases checked
      exact unparsed
    · split at checked <;> cases checked
  have finish := Token.exists_finish_mem_tokensFrom [] Position.start source.toList
  unfold Command.parse Command.ofTokens at parsed
  rcases Parser.run_sound (Token.tokens source) with ⟨c, read, -⟩ | ⟨x, xs, read⟩
  · rw [read] at parsed
    cases parsed
  · rw [read] at parsed
    cases parsed
    exact ⟨x :: xs, ⟨by simp, fun y hy => Parser.token_mem_of_run_eq_error finish read hy⟩, rfl⟩

end Environment

/-- The mode of an environment changes how faults are shown and nothing else. A text that is not parsed
has one line for each diagnostic in the simple report, and three in the verbose one: that line, the
line of the text on which the token stands, without its carriage returns and with spaces for its
tabs, and the caret. The verbose report of a fault of binding is the simple one with the two such
lines of its place. Errors of execution read alike. -/
theorem modes_render {σ : Type} (env : Environment σ) (source : String) (s : σ) :
    (∀ mode, ({ env with mode } : Environment σ).run source s = env.run source s) ∧
    (∀ command error mode, (CommandError.execution command error).render mode =
      command ++ ": " ++ error.message) ∧
    (∀ ds, (env.run source s).1 = .error (.parse ds) →
      let simple := Text.lines ((CommandError.parse ds).render .simple)
      let verbose := Text.lines ((CommandError.parse ds).render .verbose)
      simple.length = ds.length ∧ verbose.length = 3 * ds.length ∧
        ∀ i d, ds[i]? = some d → ∃ (x : Complaint) (before cs : List Char),
          Token.Stands source before cs x.token ∧
          d = { x.diagnostic with
            line := some (String.ofList (Text.flatten (Text.lineAt before cs))) } ∧
          simple[i]? = some d.summary.toList ∧
          verbose[3 * i]? = some d.summary.toList ∧
          verbose[3 * i + 1]? = some (Text.flatten (Text.lineAt before cs)) ∧
          verbose[3 * i + 2]? = some (List.replicate (d.position.column - 1) ' ' ++ ['^'])) ∧
    ∀ e line, (env.run source s).1 = .error (.bind e line) →
      ∃ (c : Command) (t : Token) (before cs : List Char), Command.parse source = .ok c ∧
        Blames c e t.kind ∧ Token.Stands source before cs t ∧ t.position = e.place ∧
        (CommandError.bind e line).render .verbose =
          (CommandError.bind e line).render .simple ++ "\n" ++
            String.ofList (Text.flatten (Text.lineAt before cs)) ++ "\n" ++
            String.ofList (List.replicate (e.place.column - 1) ' ' ++ ['^']) := by
  refine ⟨fun mode => rfl, fun command error mode => rfl, ?_, ?_⟩
  · intro ds ran
    obtain ⟨xs, complained, rfl⟩ := Environment.exists_complained ran
    have three (x : Complaint) : ((x.block source).map String.toList).length = 3 := rfl
    simp only [CommandError.render, complained.lines_simple, complained.lines_verbose,
      List.length_map, length_flatMap_of_length three, true_and]
    intro i d found
    rw [List.getElem?_map, Option.map_eq_some_iff] at found
    obtain ⟨x, hx, rfl⟩ := found
    obtain ⟨before, cs, stands⟩ := Token.exists_stands (complained.mem x (List.mem_of_getElem? hx))
    have lines : (x.block source).map String.toList = [x.diagnostic.summary.toList,
        Text.flatten (Text.lineAt before cs), Text.pointer x.token.position.column] := by
      simp [Complaint.block, Diagnostic.block, Complaint.shown, stands.line, Complaint.diagnostic]
    have block {j : Nat} (hj : j < 3) := getElem?_flatMap_of_length three hx hj
    rw [lines] at block
    refine ⟨x, before, cs, stands, ?_, ?_, block (j := 0) (by omega), block (j := 1) (by omega),
      block (j := 2) (by omega)⟩
    · rw [Complaint.reported, Diagnostic.withLine, ← stands.line]
      rfl
    · rw [List.getElem?_map, hx]
      rfl
  · intro e line ran
    have checked := Environment.check_of_run_eq_bind ran
    obtain ⟨rfl, c, parsed, bound⟩ := Environment.check_eq_bind checked
    obtain ⟨k, blames⟩ := bind_blames bound
    have written := Parser.run_eq_ok_iff.mp (Command.parse_eq_ok_iff.mp parsed)
    obtain ⟨t, mem, rfl, place⟩ := blames.marked written
    obtain ⟨before, cs, stands⟩ := Token.exists_stands ((List.takeWhile_sublist _).subset mem)
    refine ⟨c, t, before, cs, parsed, blames, stands, place, ?_⟩
    rw [← stands.line, place]
    simp [CommandError.render, BindError.render, Text.caret, Text.spaces, String.append_assoc]

/-- The second diagnostic is about the end of the text, on a line that the text lacks. -/
theorem modes_render_missing_line :
    let env : Environment Unit := ⟨.empty, .simple⟩
    ∃ ds, (env.run "(@\n" ()).1 = .error (.parse ds) ∧
      ds.map (·.position) = [⟨1, 2⟩, ⟨2, 1⟩] ∧
      (Text.lines ((CommandError.parse ds).render .simple)).length = 2 ∧
      (Text.lines ((CommandError.parse ds).render .verbose)).length = 6 := by
  intro env
  have places : (Command.diagnostics "(@\n").map (·.position) = [⟨1, 2⟩, ⟨2, 1⟩] := by
    decide +kernel
  cases unparsed : Command.parse "(@\n" with
  | ok c =>
    rw [Command.diagnostics, unparsed] at places
    cases places
  | error ds =>
    rw [Command.diagnostics, unparsed] at places
    have checked : env.check "(@\n" = .error (.parse ds) := Environment.check_of_unparsed unparsed
    have ran : (env.run "(@\n" ()).1 = .error (.parse ds) := by
      rw [Environment.run_of_check_eq_error checked]
    obtain ⟨simple, verbose, -⟩ := (modes_render env "(@\n" ()).2.2.1 ds ran
    have two : ds.length = 2 := by simpa using congrArg List.length places
    rw [two] at simple verbose
    exact ⟨ds, ran, places, simple, verbose⟩

end TypedCommands
