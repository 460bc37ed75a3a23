import TypedCommands.Proofs.Reports

/-! Where the first report stands. As long as the parser has no complaint, what it has read can be
continued to a command: the open groups have only to be closed. Once it complains, nothing that
follows can help. So the first complaint is about the token at which the text went wrong. -/
namespace TypedCommands

namespace Token

theorem body_append_of_words {ts : List Token} (words : ∀ t ∈ ts, t.isFinish = false)
    (us : List Token) : body (ts ++ us) = ts ++ body us :=
  List.takeWhile_append_of_pos (by simpa using words)

theorem body_cons_of_finish {f : Token} (finish : f.isFinish = true) (us : List Token) :
    body (f :: us) = [] := by
  rw [body, List.takeWhile_cons_of_neg (by simp [finish])]

theorem exists_first_finish {ts : List Token} (ends : ∃ f ∈ ts, f.isFinish = true) :
    ∃ front f back, ts = front ++ f :: back ∧ (∀ t ∈ front, t.isFinish = false) ∧
      f.isFinish = true := by
  obtain ⟨f, hf⟩ := Option.isSome_iff_exists.mp (List.find?_isSome.mpr ends)
  obtain ⟨finish, front, back, split, words⟩ := List.find?_eq_some_iff_append.mp hf
  exact ⟨front, f, back, split, by simpa using words, finish⟩

/-- What stands behind an end is not read. -/
theorem body_append_of_finish {ts : List Token} (finish : ∃ t ∈ ts, t.isFinish = true)
    (us : List Token) : body (ts ++ us) = body ts := by
  obtain ⟨t, mem, ht⟩ := finish
  induction ts with
  | nil => exact absurd mem List.not_mem_nil
  | cons u ts ih =>
    cases hu : u.isFinish with
    | true => simp [body, hu]
    | false =>
      rcases List.mem_cons.mp mem with rfl | mem
      · rw [hu] at ht
        cases ht
      · simpa [body, hu] using ih mem

/-- An end adds nothing to what is read. -/
theorem body_append_end (ts : List Token) {last : Token} (finish : last.isFinish = true) :
    body (ts ++ [last]) = body ts := by
  by_cases h : ∃ t ∈ ts, t.isFinish = true
  · exact body_append_of_finish h [last]
  · have words : ∀ t ∈ ts, t.isFinish = false := by
      intro t mem
      cases ht : t.isFinish with
      | true => exact absurd ⟨t, mem, ht⟩ h
      | false => rfl
    have hn := body_append_of_words words []
    rw [List.append_nil] at hn
    rw [body_append_of_words words, body_cons_of_finish finish, hn]
    rfl

def openings (ts : List Token) : Nat := ts.countP fun t => decide (t.kind = .opening)
def closings (ts : List Token) : Nat := ts.countP fun t => decide (t.kind = .closing)

@[simp] theorem openings_append (ts us : List Token) :
    openings (ts ++ us) = openings ts + openings us := List.countP_append

@[simp] theorem closings_append (ts us : List Token) :
    closings (ts ++ us) = closings ts + closings us := List.countP_append

@[simp] theorem openings_cons (t : Token) (ts : List Token) :
    openings (t :: ts) = openings ts + if t.kind = .opening then 1 else 0 := by
  simp [openings, List.countP_cons]

@[simp] theorem closings_cons (t : Token) (ts : List Token) :
    closings (t :: ts) = closings ts + if t.kind = .closing then 1 else 0 := by
  simp [closings, List.countP_cons]

@[simp] theorem openings_nil : openings [] = 0 := rfl
@[simp] theorem closings_nil : closings [] = 0 := rfl

end Token

mutual

/-- A command closes as many groups as it opens. -/
theorem Written.balanced {depth : Nat} {ts : List Token} {c : Command} (h : Written depth ts c) :
    Token.openings ts = Token.closings ts := by
  match h with
  | .name kind rest => simp [kind, rest.balanced]
  | .group opening inner closing =>
    simp [opening, closing, inner.balanced]

theorem WrittenParameters.balanced {depth : Nat} {ts : List Token} {ps : List Parameter}
    (h : WrittenParameters depth ts ps) : Token.openings ts = Token.closings ts := by
  match h with
  | .nil => rfl
  | .literal kind rest => simp [kind, rest.balanced]
  | .command opening inner closing rest =>
    simp [opening, closing, inner.balanced, rest.balanced]
    omega

end

namespace Parser

/-- The tokens can be continued to tokens that hold a command and then end. -/
def Viable (ts : List Token) : Prop :=
  ∃ (us : List Token) (last : Token) (c : Command), last.isFinish = true ∧
    Command.ofTokens (ts ++ us ++ [last]) = .ok c

/-- It does not matter whether the end is there. -/
theorem viable_iff {ts : List Token} :
    Viable ts ↔ ∃ us c, Command.ofTokens (ts ++ us) = .ok c := by
  constructor
  · rintro ⟨us, last, c, -, hc⟩
    rw [List.append_assoc] at hc
    exact ⟨us ++ [last], c, hc⟩
  · rintro ⟨us, c, hc⟩
    refine ⟨us, ⟨.finish, "", Position.start⟩, c, rfl, run_eq_ok_iff.mpr ?_⟩
    rw [Token.body_append_end _ rfl]
    exact run_eq_ok_iff.mp hc

namespace Holds

theorem leave {outer : List Group} {c : Command} {s : State} (g : Group)
    (quiet : s.complaints = []) : ∃ d, Holds outer d (s.leave outer g (some c)) := by
  cases g with
  | plain => exact ⟨c, .group quiet⟩
  | parameter owner =>
    obtain ⟨phase, around, complaints⟩ := s
    obtain rfl : complaints = [] := quiet
    exact ⟨_, .parameters rfl⟩

/-- Closing all open groups completes the command. -/
theorem close_all {outer : List Group} {c : Command} {s : State} {t : Token}
    (h : Holds outer c s) (closing : t.kind = .closing) :
    ∃ d, Holds [] d ((List.replicate outer.length t).foldl State.step s) := by
  induction outer generalizing c s with
  | nil => exact ⟨c, h⟩
  | cons g outer ih =>
    obtain ⟨s', quiet, hs⟩ := h.close closing
    obtain ⟨d, hd⟩ := leave g quiet
    rw [← hs] at hd
    exact ih hd

end Holds

/-- The name and the parenthesis that are enough to complete what was read without a fault. -/
def someName : Token := ⟨.identifier "x", "x", Position.start⟩
def someClosing : Token := ⟨.closing, ")", Position.start⟩

theorem Reads.completes {ts : List Token} {s : State} (h : Reads ts s) :
    ∃ (us : List Token) (c : Command), (∀ u ∈ us, u.isFinish = false) ∧
      Holds [] c (us.foldl State.step s) := by
  have closings (n : Nat) : ∀ u ∈ List.replicate n someClosing, u.isFinish = false := by
    intro u hu
    rw [List.eq_of_mem_replicate hu]
    rfl
  cases h with
  | @head _ outer before =>
    have named : Holds outer _ (State.step ⟨.head, outer, []⟩ someName) := .parameters rfl
    obtain ⟨c, hc⟩ := named.close_all (t := someClosing) rfl
    refine ⟨someName :: List.replicate outer.length someClosing, c, ?_, hc⟩
    intro u hu
    rcases List.mem_cons.mp hu with rfl | hu
    · rfl
    · exact closings _ u hu
  | @parameters _ _ outer p before command =>
    have read : Holds outer p.command ⟨.parameters p, outer, []⟩ := .parameters rfl
    obtain ⟨c, hc⟩ := read.close_all (t := someClosing) rfl
    exact ⟨_, c, closings _, hc⟩
  | @close _ _ outer g c before command =>
    have read : Holds (g :: outer) c (State.leave ⟨.head, [], []⟩ (g :: outer) .plain (some c)) :=
      .group rfl
    obtain ⟨d, hd⟩ := read.close_all (t := someClosing) rfl
    exact ⟨_, d, closings _, hd⟩
  | @complete _ c command =>
    have read : Holds [] c (State.leave ⟨.head, [], []⟩ [] .plain (some c)) := .group rfl
    exact ⟨[], c, nofun, read⟩

/-- What is read without a complaint can be continued to a command. -/
theorem viable_of_quiet {ts : List Token} (words : ∀ t ∈ ts, t.isFinish = false)
    (quiet : (ts.foldl State.step .initial).complaints = []) : Viable ts := by
  obtain ⟨us, c, plain, holds⟩ := (Reads.foldl (.head .nil) quiet).completes
  refine viable_iff.mpr ⟨us, c, ?_⟩
  have hb : Token.body (ts ++ us) = ts ++ us := by
    have hn := Token.body_append_of_words plain []
    rw [List.append_nil] at hn
    rw [Token.body_append_of_words words, hn]
    exact congrArg (ts ++ ·) (List.append_nil us)
  rw [Command.ofTokens, run_eq, hb, List.foldl_append]
  exact holds.finish _

/-- What is complained about cannot be. -/
theorem quiet_of_viable {ts : List Token} (words : ∀ t ∈ ts, t.isFinish = false)
    (viable : Viable ts) : (ts.foldl State.step .initial).complaints = [] := by
  obtain ⟨us, c, hc⟩ := viable_iff.mp viable
  refine Decidable.byContradiction fun faulty => ?_
  have hf : ((Token.body (ts ++ us)).foldl State.step .initial).complaints ≠ [] := by
    rw [Token.body_append_of_words words, List.foldl_append]
    exact fun h => faulty (State.complaints_nil_of_foldl h)
  obtain ⟨x, xs, hx⟩ := State.finish_of_complaints (finishOf (ts ++ us)) hf
  rw [Command.ofTokens, run_eq, hx] at hc
  cases hc

/-- Where the complaints begin. -/
theorem exists_first_complaint {s : State} {ts : List Token} (quiet : s.complaints = [])
    (faulty : (ts.foldl State.step s).complaints ≠ []) :
    ∃ front t back x, ts = front ++ t :: back ∧ (front.foldl State.step s).complaints = [] ∧
      ((front ++ [t]).foldl State.step s).complaints = [x] ∧ x.token = t := by
  induction ts generalizing s with
  | nil => exact absurd quiet faulty
  | cons t ts ih =>
    rcases (s.step_adds t).eq_or with hs | ⟨x, about, hs⟩
    · obtain ⟨front, u, back, x, rfl, hf, hx, about⟩ := ih (hs.trans quiet) faulty
      exact ⟨t :: front, u, back, x, rfl, hf, hx, about⟩
    · exact ⟨[], t, ts, x, rfl, quiet, by rw [quiet] at hs; exact hs, about⟩

/-- It is the first one to be reported. -/
theorem complaintsOf_run_eq_cons {front : List Token} (back : List Token) {x : Complaint}
    (words : ∀ t ∈ front, t.isFinish = false)
    (hx : (front.foldl State.step .initial).complaints = [x]) :
    ∃ rest, complaintsOf (run .initial (front ++ back)) = x :: rest := by
  obtain ⟨xs, hxs, -⟩ := foldl_reports (front.foldl State.step .initial) (Token.body back)
  rw [run_eq, complaintsOf_finish, Token.body_append_of_words words, List.foldl_append, hxs, hx]
  rw [List.reverse_append, List.reverse_reverse, List.append_assoc]
  exact ⟨_, rfl⟩

theorem WrittenSoFar.balanced {depth : Nat} {ts : List Token} {p : Partial}
    (h : WrittenSoFar depth ts p) : Token.openings ts = Token.closings ts := h.written.balanced

/-- The parentheses that are not closed are those of the open groups. -/
theorem Opened.balanced {ts : List Token} {outer : List Group} (h : Opened ts outer) :
    Token.openings ts = Token.closings ts + outer.length := by
  induction h with
  | nil => rfl
  | plain before room opening ih =>
    simp [opening, ih]
    omega
  | parameter before room command opening ih =>
    simp [opening, ih, command.balanced]
    omega

/-- A parenthesis that opens one group too many is the fault. -/
theorem Reads.step_too_deep {ts : List Token} {s : State} {t : Token} (h : Reads ts s)
    (roomy : s.Roomy) (full : Token.openings ts = Token.closings ts + maxDepth)
    (opening : t.kind = .opening) : (s.step t).complaints = [.tooDeep t] := by
  cases h with
  | @head _ outer before =>
    have hb := before.balanced
    have hn : ¬outer.length < maxDepth := by omega
    simp only [State.step, State.enter, opening, hn, if_false, State.complain]
  | @parameters ts us outer p before command =>
    have hb := before.balanced
    have hc := command.balanced
    rw [Token.openings_append, Token.closings_append] at full
    have hn : ¬outer.length < maxDepth := by omega
    simp only [State.step, State.enter, opening, hn, if_false, State.complain]
  | @close ts us outer g c before command =>
    -- With so many groups open there was no room for the one that has just been closed.
    have hb := before.balanced
    have hc := command.balanced
    rw [Token.openings_append, Token.closings_append] at full
    rw [List.length_cons] at hb
    rcases roomy with room | ⟨faulty, -⟩
    · have room' : outer.length + 2 ≤ maxDepth := room
      omega
    · exact absurd rfl faulty
  | complete command =>
    have hb := command.balanced
    rw [hb] at full
    exact absurd full (by unfold maxDepth; omega)

/-- The first complaint is about the token that ends the longest part of the text that can still be
continued. -/
theorem first_complaint_exact {source : String} {xs : List Complaint}
    (h : run .initial (Token.tokens source) = .error xs) :
    ∃ front back x rest, Token.tokens source = front ++ x.token :: back ∧ xs = x :: rest ∧
      Viable front ∧ ¬Viable (front ++ [x.token]) := by
  obtain ⟨split, ascending⟩ := Token.tokens_ascending source
  have words := ascending.words
  by_cases quiet : ((Token.body (Token.tokens source)).foldl State.step .initial).complaints = []
  · -- Nothing but the end is wrong.
    obtain ⟨x, rest, hx⟩ : ∃ x rest, xs = x :: rest := by
      rcases run_sound (Token.tokens source) with ⟨c, hc, -⟩ | ⟨x, rest, hx⟩
      · rw [h] at hc
        cases hc
      · rw [h] at hx
        cases hx
        exact ⟨x, rest, rfl⟩
    have about : x.token = finishOf (Token.tokens source) := by
      rw [run_eq] at h
      rcases mem_of_finish_eq_error h (hx ▸ List.mem_cons_self) with hm | about
      · rw [quiet] at hm
        exact absurd hm List.not_mem_nil
      · exact about
    rw [← about] at split
    refine ⟨_, [], x, rest, split, hx, viable_of_quiet words quiet, ?_⟩
    rw [← split, viable_iff]
    rintro ⟨us, c, hc⟩
    have finish : ∃ t ∈ Token.tokens source, t.isFinish = true :=
      Token.exists_finish_mem_tokensFrom [] Position.start source.toList
    have written := run_eq_ok_iff.mp hc
    rw [Token.body_append_of_finish finish, ← run_eq_ok_iff, h] at written
    cases written
  · obtain ⟨front, t, back, x, hb, hf, hx, rfl⟩ := exists_first_complaint rfl quiet
    rw [hb, List.append_assoc, List.cons_append] at split
    rw [hb, List.append_cons] at words
    have read_words := (List.forall_mem_append.mp words).1
    have front_words := (List.forall_mem_append.mp read_words).1
    obtain ⟨rest, hrest⟩ :=
      complaintsOf_run_eq_cons (back ++ [finishOf (Token.tokens source)]) read_words hx
    rw [← List.append_cons, ← split, h] at hrest
    refine ⟨front, _, x, rest, split, hrest, viable_of_quiet front_words hf, fun viable => ?_⟩
    rw [quiet_of_viable read_words viable] at hx
    cases hx

/-- A parenthesis that would open one group too many is the first fault of a text, if what stands
before it can be continued. -/
theorem first_complaint_too_deep {source : String} {front back : List Token} {t : Token}
    (split : Token.tokens source = front ++ t :: back) (opening : t.kind = .opening)
    (viable : Viable front) (full : Token.openings front = Token.closings front + maxDepth) :
    ∃ rest, run .initial (Token.tokens source) = .error (.tooDeep t :: rest) := by
  obtain ⟨hs, ascending⟩ := Token.tokens_ascending source
  have front_words : ∀ u ∈ front, u.isFinish = false := by
    rcases List.append_eq_append_iff.mp (split.symm.trans hs) with ⟨more, hb, -⟩ | ⟨more, -, hl⟩
    · have words := ascending.words
      rw [hb] at words
      exact (List.forall_mem_append.mp words).1
    · -- Then the parenthesis would be the end of the text.
      have finish := ascending.finish
      cases more with
      | nil =>
        rw [(List.cons.inj hl).1, Token.isFinish, opening] at finish
        cases finish
      | cons u more => simp at hl
  have quiet := quiet_of_viable front_words viable
  have roomy := State.foldl_roomy (s := .initial) (Nat.zero_le _) front
  have reads : Reads front (front.foldl State.step .initial) := Reads.foldl (.head .nil) quiet
  have deep := reads.step_too_deep roomy full opening
  have hx : ((front ++ [t]).foldl State.step .initial).complaints = [.tooDeep t] := by
    rw [List.foldl_append]
    exact deep
  have words : ∀ u ∈ front ++ [t], u.isFinish = false := by
    refine List.forall_mem_append.mpr ⟨front_words, fun u hu => ?_⟩
    rw [List.mem_singleton.mp hu, Token.isFinish, opening]
  obtain ⟨rest, hrest⟩ := complaintsOf_run_eq_cons back words hx
  rw [← List.append_cons, ← split] at hrest
  cases h : run .initial (Token.tokens source) with
  | ok c =>
    rw [h] at hrest
    cases hrest
  | error xs =>
    rw [h] at hrest
    exact ⟨rest, congrArg Except.error hrest⟩

end Parser

/-- The first report about a text is about the token at which the text goes wrong: what stands
before the token can be continued to a command, and with the token it cannot. -/
theorem first_report_exact (source : String) :
    (∀ ds, Command.parse source = .error ds → ∃ d rest k t, ds = d :: rest ∧
      (Token.tokens source)[k]? = some t ∧ t.position = d.position ∧
      (∀ j u, (Token.tokens source)[j]? = some u → u.position = d.position → j = k) ∧
      Parser.Viable ((Token.tokens source).take k) ∧
      ¬Parser.Viable ((Token.tokens source).take (k + 1))) ∧
    ∀ j u, (Token.tokens source)[j]? = some u → u.kind = .opening →
      Parser.Viable ((Token.tokens source).take j) →
      Token.openings ((Token.tokens source).take j) =
        Token.closings ((Token.tokens source).take j) + maxDepth →
      ∃ d rest, Command.parse source = .error (d :: rest) ∧ d.position = u.position ∧
        d.message = s!"nesting deeper than {maxDepth} levels" := by
  constructor
  · intro ds h
    cases hr : Command.ofTokens (Token.tokens source) with
    | ok c =>
      rw [Command.parse_eq_ok_iff.mpr hr] at h
      cases h
    | error xs =>
      obtain ⟨front, back, x, rest, split, rfl, viable, stuck⟩ := Parser.first_complaint_exact hr
      have at_front : (Token.tokens source)[front.length]? = some x.token := by
        rw [split, List.getElem?_append_right (Nat.le_refl _), Nat.sub_self]
        rfl
      unfold Command.parse at h
      rw [hr] at h
      cases h
      refine ⟨_, _, front.length, x.token, rfl, at_front, rfl, ?_, ?_, ?_⟩
      · intro j u hu same
        obtain ⟨hs, ascending⟩ := Token.tokens_ascending source
        rw [hs] at hu at_front
        exact ascending.index_unique at_front hu same
      · rw [split, List.take_left]
        exact viable
      · have take : (front ++ x.token :: back).take (front.length + 1) = front ++ [x.token] := by
          rw [List.append_cons]
          exact List.take_left' List.length_append
        rw [split, take]
        exact stuck
  · intro j u hu opening viable full
    obtain ⟨hj, at_j⟩ := List.getElem?_eq_some_iff.mp hu
    have split : Token.tokens source = (Token.tokens source).take j ++
        u :: (Token.tokens source).drop (j + 1) := by
      rw [← at_j, List.getElem_cons_drop, List.take_append_drop]
    obtain ⟨rest, hr⟩ := Parser.first_complaint_too_deep split opening viable full
    refine ⟨(Complaint.tooDeep u).diagnostic.withLine (Text.shownLines source),
      rest.map fun x => x.diagnostic.withLine (Text.shownLines source), ?_, rfl, rfl⟩
    simp only [Command.parse, Command.ofTokens, hr, List.map_cons]

/-- Sixty-five parentheses: the last one is the first that is wrong. -/
theorem first_report_exact_nested :
    let source := String.ofList (List.replicate 65 '(')
    Parser.Viable ((Token.tokens source).take 64) ∧
      ∃ ds d rest k t, Command.parse source = .error ds ∧ ds = d :: rest ∧
        (Token.tokens source)[k]? = some t ∧ t.position = d.position ∧ d.position = ⟨1, 65⟩ ∧
        d.message = "nesting deeper than 64 levels" ∧
        ¬Parser.Viable ((Token.tokens source).take (k + 1)) := by
  intro source
  have last : (Token.tokens source)[64]? = some ⟨.opening, "(", ⟨1, 65⟩⟩ := by decide +kernel
  have words : ∀ t ∈ (Token.tokens source).take 64, t.isFinish = false := by decide +kernel
  have quiet :
      (((Token.tokens source).take 64).foldl Parser.State.step .initial).complaints = [] := by
    decide +kernel
  have full : Token.openings ((Token.tokens source).take 64) =
      Token.closings ((Token.tokens source).take 64) + maxDepth := by decide +kernel
  have viable := Parser.viable_of_quiet words quiet
  obtain ⟨exact_first, too_deep⟩ := first_report_exact source
  obtain ⟨d, rest, hd, position, message⟩ := too_deep 64 _ last rfl viable full
  obtain ⟨d', rest', k, t, hc, ht, hp, -, -, stuck⟩ := exact_first _ hd
  cases hc
  exact ⟨viable, _, d, rest, k, t, hd, rfl, ht, hp, position, message, stuck⟩

end TypedCommands
