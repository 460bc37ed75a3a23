import TypedCommands.Proofs.Grammar

/-! The parser accepts what the grammar derives and nothing else. While it has no complaint, the
tokens that it has read are the open groups, each with the command it interrupts, and behind them
the command at hand. -/
namespace TypedCommands.Parser

/-- A step at a token leaves the complaints as they are or adds one about that token. -/
inductive Adds (t : Token) (old : List Complaint) : List Complaint → Prop where
  | none : Adds t old old
  | one {c : Complaint} (about : c.token = t) : Adds t old (c :: old)

theorem Adds.eq_nil {t : Token} {old : List Complaint} (h : Adds t old []) : old = [] := by
  cases h
  rfl

namespace State

@[simp] theorem complain_complaints (s : State) (c : Complaint) :
    (s.complain c).complaints = c :: s.complaints := rfl

@[simp] theorem leave_complaints (s : State) (outer : List Group) (g : Group)
    (inner : Option Command) : (s.leave outer g inner).complaints = s.complaints := by
  unfold leave
  split <;> rfl

theorem enter_adds (s : State) (g : Group) (t : Token) :
    Adds t s.complaints (s.enter g t).complaints := by
  unfold enter
  split
  · exact .none
  · exact .one rfl

theorem closeAt_adds (s : State) (outer : List Group) (g : Group) (inner : Option Command)
    (t : Token) : Adds t s.complaints (s.closeAt outer g inner t).complaints := by
  unfold closeAt
  split
  · rw [leave_complaints]; exact .none
  · exact .one rfl
  · exact .one rfl

/-- No complaint is taken back, and at most one is made at a time. -/
theorem step_adds (s : State) (t : Token) : Adds t s.complaints (s.step t).complaints := by
  unfold step
  split
  · split
    · exact .none
    · exact s.enter_adds _ t
    · exact .one rfl
    · rw [leave_complaints]; exact .one rfl
    · exact .one rfl
  · split
    · exact .none
    · exact s.enter_adds _ t
    · exact s.closeAt_adds ..
    · exact .one rfl
  · exact s.closeAt_adds ..
  · split
    · exact .none
    · rw [leave_complaints]; exact .none
    · exact .none
    · exact .one rfl
    · exact .none
  · exact .one rfl
  · split
    · exact .one rfl
    · exact .none

theorem complaints_nil_of_step {s : State} {t : Token} (h : (s.step t).complaints = []) :
    s.complaints = [] := by
  have hs := s.step_adds t
  rw [h] at hs
  exact hs.eq_nil

theorem complaints_nil_of_foldl {s : State} {ts : List Token}
    (h : (ts.foldl step s).complaints = []) : s.complaints = [] := by
  induction ts generalizing s with
  | nil => exact h
  | cons t ts ih => exact complaints_nil_of_step (ih h)

end State

/-- The token that marks the end of a text, or one in its place if there is none. -/
def finishOf (ts : List Token) : Token :=
  (ts.find? Token.isFinish).getD ⟨.finish, "", Position.start⟩

/-- A run is the steps over the tokens up to the end, and what the end adds. -/
theorem run_eq (s : State) (ts : List Token) :
    run s ts = ((Token.body ts).foldl State.step s).finish (finishOf ts) := by
  induction ts generalizing s with
  | nil => rfl
  | cons t ts ih =>
    unfold run
    cases h : t.isFinish with
    | true => simp [Token.body, finishOf, h]
    | false =>
      simp only [Bool.false_eq_true, if_false]
      rw [ih]
      simp [Token.body, finishOf, h]

/-- What is read in front of the end is read one token after the other. -/
theorem run_append_of_words {front : List Token} (words : ∀ t ∈ front, t.isFinish = false)
    (s : State) (rest : List Token) :
    run s (front ++ rest) = run (front.foldl State.step s) rest := by
  induction front generalizing s with
  | nil => rfl
  | cons t front ih =>
    obtain ⟨word, words⟩ := List.forall_mem_cons.mp words
    rw [List.cons_append, run, word, List.foldl_cons, ← ih words]
    rfl

theorem run_finish {f : Token} (finish : f.isFinish = true) (s : State) (back : List Token) :
    run s (f :: back) = s.finish f := by
  rw [run, if_pos finish]

/-- The tokens are those of the groups that are still open, the innermost last. A group that is a
parameter interrupts the command that it belongs to. -/
inductive Opened : List Token → List Group → Prop where
  | nil : Opened [] []
  | plain {ts : List Token} {outer : List Group} {t : Token} (before : Opened ts outer)
      (room : outer.length < maxDepth) (opening : t.kind = .opening) :
      Opened (ts ++ [t]) (.plain :: outer)
  | parameter {ts us : List Token} {outer : List Group} {owner : Partial} {t : Token}
      (before : Opened ts outer) (room : outer.length < maxDepth)
      (command : WrittenSoFar (maxDepth - outer.length) us owner) (opening : t.kind = .opening) :
      Opened (ts ++ us ++ [t]) (.parameter owner :: outer)

/-- The parser has read the tokens and found no fault in them. -/
inductive Reads : List Token → State → Prop where
  | head {ts : List Token} {outer : List Group} (before : Opened ts outer) :
      Reads ts ⟨.head, outer, []⟩
  | parameters {ts us : List Token} {outer : List Group} {p : Partial} (before : Opened ts outer)
      (command : WrittenSoFar (maxDepth - outer.length) us p) :
      Reads (ts ++ us) ⟨.parameters p, outer, []⟩
  | close {ts us : List Token} {outer : List Group} {g : Group} {c : Command}
      (before : Opened ts (g :: outer)) (command : Written (maxDepth - (outer.length + 1)) us c) :
      Reads (ts ++ us) ⟨.close g (some c), outer, []⟩
  | complete {ts : List Token} {c : Command} (command : Written maxDepth ts c) :
      Reads ts ⟨.complete c, [], []⟩

namespace Reads

/-- The parenthesis that ends a group makes the group a command or a parameter of one. -/
theorem leave {ts us : List Token} {outer : List Group} {g : Group} {c : Command} {t : Token}
    {s : State} (before : Opened ts (g :: outer))
    (command : Written (maxDepth - (outer.length + 1)) us c) (closing : t.kind = .closing)
    (hs : s.complaints = []) : Reads (ts ++ us ++ [t]) (s.leave outer g (some c)) := by
  obtain ⟨phase, around, complaints⟩ := s
  obtain rfl : complaints = [] := hs
  cases before with
  | @plain vs _ o before room opening =>
    have hd : maxDepth - (outer.length + 1) + 1 = maxDepth - outer.length := by omega
    have written := Written.group opening command closing
    rw [hd] at written
    have ht : vs ++ [o] ++ us ++ [t] = vs ++ (o :: us ++ [t]) := by simp
    rw [ht]
    cases outer with
    | nil =>
      cases before
      exact .complete written
    | cons g' gs => exact .close before written
  | @parameter vs ws _ owner o before room owned opening =>
    have hd : maxDepth - (outer.length + 1) + 1 = maxDepth - outer.length := by omega
    rw [← hd] at owned
    have written := owned.command opening command closing
    rw [hd] at written
    have ht : vs ++ ws ++ [o] ++ us ++ [t] = vs ++ (ws ++ (o :: us ++ [t])) := by simp
    rw [ht]
    exact .parameters before written

/-- A step without a complaint reads one more token. -/
theorem step {ts : List Token} {s : State} {t : Token} (h : Reads ts s)
    (quiet : (s.step t).complaints = []) : Reads (ts ++ [t]) (s.step t) := by
  cases h with
  | @head _ outer before =>
    cases hk : t.kind with
    | identifier name =>
      simp only [State.step, hk]
      exact .parameters before (.start hk)
    | opening =>
      by_cases room : outer.length < maxDepth
      · simp only [State.step, State.enter, hk, room, if_true]
        exact .head (.plain before room hk)
      · simp [State.step, State.enter, hk, room] at quiet
    | literal value => cases outer <;> simp [State.step, hk] at quiet
    | closing => cases outer <;> simp [State.step, hk] at quiet
    | finish => cases outer <;> simp [State.step, hk] at quiet
    | invalid reason => cases outer <;> simp [State.step, hk] at quiet
  | @parameters ts us outer p before command =>
    cases hk : t.kind with
    | literal value =>
      simp only [State.step, hk]
      rw [List.append_assoc]
      exact .parameters before (command.literal hk)
    | opening =>
      by_cases room : outer.length < maxDepth
      · simp only [State.step, State.enter, hk, room, if_true]
        exact .head (.parameter before room command hk)
      · simp [State.step, State.enter, hk, room] at quiet
    | closing =>
      cases outer with
      | nil => simp [State.step, hk] at quiet
      | cons g gs =>
        simp only [State.step, State.closeAt, hk]
        exact leave before command.written hk rfl
    | identifier name => cases outer <;> simp [State.step, State.closeAt, hk] at quiet
    | finish => cases outer <;> simp [State.step, State.closeAt, hk] at quiet
    | invalid reason => cases outer <;> simp [State.step, State.closeAt, hk] at quiet
  | @close ts us outer g c before command =>
    cases hk : t.kind with
    | closing =>
      simp only [State.step, State.closeAt, hk]
      exact leave before command hk rfl
    | identifier name => simp [State.step, State.closeAt, hk] at quiet
    | literal value => simp [State.step, State.closeAt, hk] at quiet
    | opening => simp [State.step, State.closeAt, hk] at quiet
    | finish => simp [State.step, State.closeAt, hk] at quiet
    | invalid reason => simp [State.step, State.closeAt, hk] at quiet
  | complete command => simp [State.step] at quiet

/-- So does a run of such steps. -/
theorem foldl {ts us : List Token} {s : State} (h : Reads ts s)
    (quiet : (us.foldl State.step s).complaints = []) :
    Reads (ts ++ us) (us.foldl State.step s) := by
  induction us generalizing ts s with
  | nil => simpa using h
  | cons u us ih =>
    have hs := h.step (State.complaints_nil_of_foldl quiet)
    have hr := ih hs quiet
    rwa [List.append_assoc] at hr

/-- At the end of the text the parser has the command that the tokens spell, or objects. -/
theorem finish {ts : List Token} {s : State} (h : Reads ts s) (t : Token) :
    (∃ c, s.finish t = .ok c ∧ Written maxDepth ts c) ∨ ∃ x xs, s.finish t = .error (x :: xs) := by
  cases h with
  | head before => exact .inr ⟨_, _, rfl⟩
  | @parameters ts us outer p before command =>
    cases outer with
    | nil =>
      cases before
      exact .inl ⟨p.command, rfl, command.written⟩
    | cons g gs => exact .inr ⟨_, _, rfl⟩
  | close before command => exact .inr ⟨_, _, rfl⟩
  | @complete ts c command => exact .inl ⟨c, rfl, command⟩

end Reads

/-- The end rejects what was complained about or is unfinished. -/
theorem State.finish_complained {s : State} {t : Token}
    (faulty : s.complaints ≠ [] ∨ s.unfinished t ≠ []) :
    s.finish t = .error (s.complaints.reverse ++ s.unfinished t) := by
  have some_fault : s.complaints.reverse ++ s.unfinished t ≠ [] := by
    intro none
    obtain ⟨quiet, finished⟩ := List.append_eq_nil_iff.mp none
    exact faulty.elim (· (List.reverse_eq_nil_iff.mp quiet)) (· finished)
  obtain ⟨x, xs, hx⟩ := List.exists_cons_of_ne_nil some_fault
  rw [finish, hx]
  cases s.command? <;> rfl

/-- A complaint on the way is one at the end. -/
theorem State.finish_of_complaints {s : State} (t : Token) (h : s.complaints ≠ []) :
    ∃ x xs, s.finish t = .error (x :: xs) := by
  obtain ⟨x, xs, hx⟩ := List.exists_cons_of_ne_nil (List.reverse_ne_nil_iff.mpr h)
  refine ⟨x, xs ++ s.unfinished t, ?_⟩
  rw [finish_complained (.inl h), hx, List.cons_append]

/-- Every outcome is a command that the tokens spell or a list of complaints. -/
theorem run_sound (ts : List Token) :
    (∃ c, run .initial ts = .ok c ∧ Written maxDepth (Token.body ts) c) ∨
      ∃ x xs, run .initial ts = .error (x :: xs) := by
  rw [run_eq]
  by_cases quiet : ((Token.body ts).foldl State.step .initial).complaints = []
  · exact (Reads.foldl (.head .nil) quiet).finish _
  · exact .inr (State.finish_of_complaints _ quiet)

/-- The parser has read the whole of a command within open groups. -/
inductive Holds (outer : List Group) (c : Command) : State → Prop where
  | parameters {p : Partial} (command : p.command = c) : Holds outer c ⟨.parameters p, outer, []⟩
  | group {s : State} (quiet : s.complaints = []) : Holds outer c (s.leave outer .plain (some c))

namespace Holds

/-- The parenthesis behind a command ends the group around it. -/
theorem close {outer : List Group} {g : Group} {c : Command} {s : State} {t : Token}
    (h : Holds (g :: outer) c s) (closing : t.kind = .closing) :
    ∃ s' : State, s'.complaints = [] ∧ s.step t = s'.leave outer g (some c) := by
  cases h with
  | @parameters p command =>
    refine ⟨⟨.parameters p, g :: outer, []⟩, rfl, ?_⟩
    simp only [State.step, State.closeAt, closing, command]
  | @group s quiet =>
    refine ⟨⟨.close g (some c), outer, s.complaints⟩, quiet, ?_⟩
    simp only [State.leave, State.step, State.closeAt, closing]

theorem finish {c : Command} {s : State} (h : Holds [] c s) (t : Token) : s.finish t = .ok c := by
  cases h with
  | parameters command => simp [State.finish, State.command?, State.unfinished, command]
  | group quiet => simp [State.finish, State.leave, State.command?, State.unfinished, quiet]

end Holds

/-- The command with further parameters. -/
def Partial.addAll (p : Partial) (ps : List Parameter) : Partial := ps.foldl Partial.add p

theorem Partial.addAll_command (p : Partial) (ps : List Parameter) :
    (p.addAll ps).command = .mk p.name p.position (p.parameters.reverse ++ ps) := by
  induction ps generalizing p with
  | nil => simp [addAll, command]
  | cons q qs ih =>
    have hq := ih (p.add q)
    simpa [addAll, add] using hq

mutual

/-- The parser reads every command of the grammar that fits within the open groups. -/
theorem written_holds {depth : Nat} {ts : List Token} {c : Command} (h : Written depth ts c)
    {outer : List Group} (room : outer.length + depth ≤ maxDepth) :
    Holds outer c (ts.foldl State.step ⟨.head, outer, []⟩) := by
  match h with
  | @Written.name _ t ts name ps kind rest =>
    have hs : State.step ⟨.head, outer, []⟩ t =
        ⟨.parameters ⟨name, t.position, []⟩, outer, []⟩ := by
      simp only [State.step, kind]
    rw [List.foldl_cons, hs, writtenParameters_foldl rest room]
    exact .parameters (Partial.addAll_command _ ps)
  | @Written.group depth t u ts c opening inner closing =>
    have hl : outer.length < maxDepth := by omega
    have hs : State.step ⟨.head, outer, []⟩ t = ⟨.head, .plain :: outer, []⟩ := by
      simp only [State.step, State.enter, opening, hl, if_true]
    have hi : Holds (.plain :: outer) c (ts.foldl State.step ⟨.head, .plain :: outer, []⟩) :=
      written_holds inner (by simp only [List.length_cons]; omega)
    obtain ⟨s', quiet, hs'⟩ := hi.close closing
    rw [List.cons_append, List.foldl_cons, hs, List.foldl_append, List.foldl_cons, List.foldl_nil,
      hs']
    exact .group quiet

/-- It reads parameters one after the other. -/
theorem writtenParameters_foldl {depth : Nat} {ts : List Token} {ps : List Parameter}
    (h : WrittenParameters depth ts ps) {outer : List Group} {p : Partial}
    (room : outer.length + depth ≤ maxDepth) :
    ts.foldl State.step ⟨.parameters p, outer, []⟩ = ⟨.parameters (p.addAll ps), outer, []⟩ := by
  match h with
  | .nil => rfl
  | @WrittenParameters.literal _ t ts value ps kind rest =>
    have hs : State.step ⟨.parameters p, outer, []⟩ t =
        ⟨.parameters (p.add (.literal value t.position)), outer, []⟩ := by
      simp only [State.step, kind]
    rw [List.foldl_cons, hs, writtenParameters_foldl rest room]
    rfl
  | @WrittenParameters.command depth t u ts us c ps opening inner closing rest =>
    have hl : outer.length < maxDepth := by omega
    have hs : State.step ⟨.parameters p, outer, []⟩ t = ⟨.head, .parameter p :: outer, []⟩ := by
      simp only [State.step, State.enter, opening, hl, if_true]
    have hi : Holds (.parameter p :: outer) c
        (ts.foldl State.step ⟨.head, .parameter p :: outer, []⟩) :=
      written_holds inner (by simp only [List.length_cons]; omega)
    obtain ⟨s', quiet, hs'⟩ := hi.close closing
    have he : s'.leave outer (.parameter p) (some c) =
        ⟨.parameters (p.add (.command c)), outer, []⟩ := by
      simp only [State.leave, quiet]
    rw [List.cons_append, List.foldl_cons, hs, List.foldl_append, List.foldl_cons, hs', he,
      writtenParameters_foldl rest room]
    rfl

end

/-- The parser accepts what the grammar derives, as the command that it derives. -/
theorem run_complete {ts : List Token} {c : Command} (h : Written maxDepth (Token.body ts) c) :
    run .initial ts = .ok c := by
  rw [run_eq]
  exact (written_holds h (Nat.le_of_eq (Nat.zero_add _))).finish _

theorem run_eq_ok_iff {ts : List Token} {c : Command} :
    run .initial ts = .ok c ↔ Written maxDepth (Token.body ts) c := by
  constructor
  · intro h
    rcases run_sound ts with ⟨d, hd, written⟩ | ⟨x, xs, hx⟩
    · rw [hd] at h
      cases h
      exact written
    · rw [hx] at h
      cases h
  · exact run_complete

end TypedCommands.Parser

namespace TypedCommands.Command

/-- A text's outcome is that of its tokens. -/
theorem parse_eq_ok_iff {source : String} {c : Command} :
    parse source = .ok c ↔ ofTokens (Token.tokens source) = .ok c := by
  unfold parse
  cases ofTokens (Token.tokens source) <;> simp

/-- Tokens, and so a text, hold a command exactly if the grammar derives one from what stands
before the end, and then they hold that one. Else there is something to report. -/
theorem parse_iff_written :
    (∀ ts : List Token,
      (∀ c, ofTokens ts = .ok c ↔ Written maxDepth (Token.body ts) c) ∧
      ((¬∃ c, Written maxDepth (Token.body ts) c) →
        ∃ complaints, ofTokens ts = .error complaints ∧ complaints ≠ [])) ∧
    ∀ source : String,
      (∀ c, parse source = .ok c ↔ Written maxDepth (Token.body (Token.tokens source)) c) ∧
      ((¬∃ c, Written maxDepth (Token.body (Token.tokens source)) c) →
        ∃ diagnostics, parse source = .error diagnostics ∧ diagnostics ≠ []) := by
  have rejected (ts : List Token) (h : ¬∃ c, Written maxDepth (Token.body ts) c) :
      ∃ x xs, ofTokens ts = .error (x :: xs) := by
    rcases Parser.run_sound ts with ⟨c, -, written⟩ | hx
    · exact False.elim (h ⟨c, written⟩)
    · exact hx
  constructor
  · intro ts
    refine ⟨fun c => Parser.run_eq_ok_iff, fun h => ?_⟩
    obtain ⟨x, xs, hx⟩ := rejected ts h
    exact ⟨x :: xs, hx, by simp⟩
  · intro source
    refine ⟨fun c => parse_eq_ok_iff.trans Parser.run_eq_ok_iff, fun h => ?_⟩
    obtain ⟨x, xs, hx⟩ := rejected _ h
    simp only [parse, hx, List.map_cons]
    exact ⟨_, rfl, by simp⟩

end TypedCommands.Command
