import TypedCommands.Proofs.Descent
import TypedCommands.Proofs.Prefixes

/-! Where the cursor goes. The descent agrees with the single pass over every tape that shows the
tokens up to their first end. So it comes to that end and stays there, and what a tape would do
behind it is never asked. -/
namespace TypedCommands.Descent

/-- The tokens of a vector, for a reading that looks at nothing behind them and takes no end. One
that does is stuck. -/
def guarded (ts : List Token) : Tape where
  peek i := ts[i]?
  advance i := ts[i]?.bind fun t => if t.isFinish then none else some (i + 1)

/-- The tape is that of the tokens up to the one at `k`, which need not be taken. -/
structure Tape.Agrees (tape : Tape) (ts : List Token) (k : Nat) : Prop where
  peek : ∀ i ≤ k, tape.peek i = ts[i]?
  advance : ∀ i < k, tape.advance i = some (i + 1)

section Agrees

variable {tape : Tape} {ts : List Token} {k : Nat}

theorem clamped_agrees (inside : k < ts.length) : (clamped ts).Agrees ts k where
  peek i le := by
    have here : min i (ts.length - 1) = i := by omega
    simp only [clamped, here]
  advance i lt := by
    have here : min i (ts.length - 1) = i := by omega
    have inside : i < ts.length := by omega
    simp [clamped, here, inside]

theorem guarded_agrees (inside : k < ts.length)
    (first : ∀ j t, j < k → ts[j]? = some t → t.isFinish = false) : (guarded ts).Agrees ts k where
  peek _ _ := rfl
  advance i lt := by
    have here : ts[i]? = some ts[i] := List.getElem?_eq_getElem (Nat.lt_trans lt inside)
    simp [guarded, here, first i _ lt here]

/-- Behind the token at `k` the tokens do not matter. -/
theorem Tape.Agrees.of_take (h : tape.Agrees (ts.take (k + 1)) k) : tape.Agrees ts k where
  peek i le := by rw [h.peek i le, List.getElem?_take_of_lt (Nat.lt_succ_of_le le)]
  advance := h.advance

end Agrees

section FirstEnd

variable {tape : Tape} {front back : List Token} {f : Token}

/-- A tape that agrees with the tokens up to their first end shows the words and the end. -/
theorem shows_of_agrees (agrees : tape.Agrees (front ++ f :: back) front.length)
    (words : ∀ t ∈ front, t.isFinish = false) (finish : f.kind = .finish) (passed : List Token)
    {left : List Token} (split : front = passed ++ left) : Shows tape f passed.length left := by
  induction left generalizing passed with
  | nil =>
    refine .finish ⟨?_, finish⟩
    rw [agrees.peek _ (by simp [split]), split]
    simp
  | cons t left ih =>
    have lt : passed.length < front.length := by simp [split]
    have here : tape.peek passed.length = some t := by
      rw [agrees.peek _ (Nat.le_of_lt lt), split]
      simp
    have word : t.isFinish = false := words t (by simp [split])
    refine .word ⟨here, word, agrees.advance _ lt⟩ ?_
    simpa using ih (passed ++ [t]) (by simp [split])

/-- So the descent comes to the end, and to the outcome of the single pass. -/
theorem parse_of_agrees (agrees : tape.Agrees (front ++ f :: back) front.length)
    (words : ∀ t ∈ front, t.isFinish = false) (finish : f.isFinish = true) :
    Returns (parse tape) (Command.ofTokens (front ++ f :: back), ⟨front.length, 0, []⟩) := by
  have kind : f.kind = .finish := Decidable.byContradiction fun ne => by
    rw [Token.isFinish_of_kind_ne ne] at finish
    cases finish
  have shows : Shows tape f 0 front := shows_of_agrees agrees words kind [] rfl
  have due := shows.rest (s := .initial) (Nat.zero_le _)
  rw [Nat.zero_add, ← Parser.run_finish finish _ back, ← Parser.run_append_of_words words] at due
  exact returns_of_rest due

end FirstEnd

/-- Passing over the rest of the text stops nowhere but at an end. -/
theorem end_of_remaining {tape : Tape} {clock : Nat} {c c' : Cursor}
    (h : remaining tape clock c = .ok c') : ∃ f, peek tape c' = .ok f ∧ f.isFinish = true := by
  induction clock generalizing c with
  | zero => cases h
  | succ clock ih =>
    obtain ⟨t, here, h⟩ := bind_eq_ok.mp h
    split at h
    next finish =>
      cases h
      exact ⟨t, here, finish⟩
    next =>
      obtain ⟨next, -, h⟩ := bind_eq_ok.mp h
      exact ih h

theorem remaining_of_conclude {tape : Tape} {clock : Nat} {command? : Option Command} {c : Cursor}
    {r : Outcome} (h : conclude tape clock command? c = .ok r) :
    ∃ c c', remaining tape clock c = .ok c' := by
  cases command? with
  | none =>
    obtain ⟨c', passed, -⟩ := bind_eq_ok.mp h
    exact ⟨c, c', passed⟩
  | some d =>
    obtain ⟨next, -, h⟩ := bind_eq_ok.mp h
    obtain ⟨c', passed, -⟩ := bind_eq_ok.mp h
    exact ⟨next, c', passed⟩

/-- Over a vector without an end no clock is long enough. -/
theorem parse_ne_ok {ts : List Token} (words : ∀ t ∈ ts, t.isFinish = false) (clock : Nat)
    (r : Outcome) : parse (clamped ts) clock ≠ .ok r := by
  intro h
  obtain ⟨⟨command?, c⟩, -, concluded⟩ := bind_eq_ok.mp h
  obtain ⟨c, c', passed⟩ := remaining_of_conclude concluded
  obtain ⟨f, here, finish⟩ := end_of_remaining passed
  unfold peek at here
  split at here
  next t shown =>
    cases here
    rw [words _ (List.mem_of_getElem? shown)] at finish
    cases finish
  next => cases here

/-- The token at `k` is where a reading of the tokens stops. -/
structure StopsAt (ts : List Token) (k : Nat) : Prop where
  finish : ∃ f, ts[k]? = some f ∧ f.isFinish = true
  first : ∀ j t, j < k → ts[j]? = some t → t.isFinish = false
  /-- The descent ends, with the parser's outcome, and the cursor stands at `k` then. -/
  outcome : Returns (parse (clamped ts)) (Command.ofTokens ts, ⟨k, 0, []⟩)
  /-- It does not get stuck where no token behind that one can be seen, and no end be taken. -/
  guarded : Returns (parse (guarded (ts.take (k + 1)))) (Command.ofTokens ts, ⟨k, 0, []⟩)
  /-- What stands behind the token at `k` does not matter. -/
  cut : Returns (parse (clamped (ts.take (k + 1)))) (Command.ofTokens ts, ⟨k, 0, []⟩)

/-- Over every vector in which there is an end the parser terminates. Its cursor comes to the first
end and no further, and the outcome is that of the tokens up to there. -/
theorem stopsAt_first_end {ts : List Token} (ends : ∃ f ∈ ts, f.isFinish = true) :
    StopsAt ts (Token.body ts).length := by
  obtain ⟨front, f, back, rfl, words, finish⟩ := Token.exists_first_finish ends
  have body : Token.body (front ++ f :: back) = front := by
    rw [Token.body_append_of_words words, Token.body_cons_of_finish finish, List.append_nil]
  have inside : front.length < (front ++ f :: back).length := by simp
  have inside_cut : front.length < ((front ++ f :: back).take (front.length + 1)).length := by simp
  have first (j : Nat) (t : Token) (lt : j < front.length)
      (here : (front ++ f :: back)[j]? = some t) : t.isFinish = false := by
    rw [List.getElem?_append_left lt] at here
    exact words t (List.mem_of_getElem? here)
  have returns {tape : Tape} (agrees : tape.Agrees (front ++ f :: back) front.length) :=
    parse_of_agrees agrees words finish
  rw [body]
  constructor
  case finish => exact ⟨f, by simp, finish⟩
  case first => exact first
  case outcome => exact returns (clamped_agrees inside)
  case guarded =>
    refine returns (Tape.Agrees.of_take (guarded_agrees inside_cut fun j t lt here => ?_))
    rw [List.getElem?_take_of_lt (Nat.lt_succ_of_lt lt)] at here
    exact first j t lt here
  case cut => exact returns (Tape.Agrees.of_take (clamped_agrees inside_cut))

/-- An empty group, which is dropped, and one that is not closed: what follows is not seen. -/
theorem stopsAt_first_end_malformed :
    let finish := ⟨.finish, "", ⟨1, 8⟩⟩
    let ts := [⟨.identifier "x", "x", ⟨1, 1⟩⟩, ⟨.opening, "(", ⟨1, 3⟩⟩, ⟨.closing, ")", ⟨1, 4⟩⟩,
      ⟨.opening, "(", ⟨1, 6⟩⟩, ⟨.literal (.integer 3), "3", ⟨1, 7⟩⟩, finish,
      ⟨.closing, ")", ⟨7, 7⟩⟩, ⟨.finish, "", ⟨1, 1⟩⟩]
    (∃ f ∈ ts, f.isFinish = true) ∧ StopsAt ts 5 ∧ Command.ofTokens ts = .error
      [.expected .command ⟨.closing, ")", ⟨1, 4⟩⟩,
        .expected .command ⟨.literal (.integer 3), "3", ⟨1, 7⟩⟩, .expected .closing finish] := by
  intro finish ts
  have ends : ∃ f ∈ ts, f.isFinish = true := ⟨finish, by simp [ts], rfl⟩
  exact ⟨ends, stopsAt_first_end ends, rfl⟩

end TypedCommands.Descent
