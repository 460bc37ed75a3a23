import TypedCommands.Command.Descent
import TypedCommands.Proofs.Reports
import TypedCommands.Proofs.Traversal

/-! The descent and the single pass agree. A state of the pass says what the descent still has to
do, once the calls that wait for a group are read off the open groups. No token changes what comes of
that, so on a tape that comes to an end the descent comes to the outcome of the pass, and is then
at the end. -/
namespace TypedCommands.Descent

open TypedCommands.Parser (Group Partial Phase State)

section Clock

variable {α β : Type}

/-- Every clock that is long enough brings this. -/
def Returns (f : Nat → Except Stuck α) (x : α) : Prop := ∃ least, ∀ clock ≥ least, f clock = .ok x

/-- What every clock brings that is long enough has the property. -/
def Yields (f : Nat → Except Stuck α) (Q : α → Prop) : Prop := ∃ x, Returns f x ∧ Q x

namespace Yields

variable {f g : Nat → Except Stuck α} {Q : α → Prop} {x : α}

theorem of_ok (h : ∀ clock, f (clock + 1) = .ok x) (hx : Q x) : Yields f Q := by
  refine ⟨x, ⟨1, fun clock le => ?_⟩, hx⟩
  obtain ⟨n, rfl⟩ := Nat.exists_eq_add_of_le' le
  exact h n

/-- One call is made before the others. -/
theorem of_succ (h : ∀ clock, f (clock + 1) = g clock) (yields : Yields g Q) : Yields f Q := by
  obtain ⟨x, ⟨least, returns⟩, hx⟩ := yields
  refine ⟨x, ⟨least + 1, fun clock le => ?_⟩, hx⟩
  obtain ⟨n, rfl⟩ := Nat.exists_eq_add_of_le' (Nat.le_trans (Nat.le_add_left 1 least) le)
  rw [h]
  exact returns n (Nat.le_of_succ_le_succ le)

theorem bind {g : Nat → α → Except Stuck β} {Q : β → Prop}
    (yields : Yields f fun x => Yields (g · x) Q) :
    Yields (fun clock => f clock >>= g clock) Q := by
  obtain ⟨x, ⟨m, first⟩, y, ⟨n, second⟩, hy⟩ := yields
  refine ⟨y, ⟨max m n, fun clock le => bind_eq_ok.mpr ⟨x, first clock ?_, second clock ?_⟩⟩, hy⟩
  · exact Nat.le_trans (Nat.le_max_left m n) le
  · exact Nat.le_trans (Nat.le_max_right m n) le

theorem map {k : α → β} {Q : β → Prop} (yields : Yields f fun x => Q (k x)) :
    Yields (fun clock => f clock >>= fun x => .ok (k x)) Q := by
  obtain ⟨x, returns, hx⟩ := yields
  exact bind ⟨x, returns, of_ok (fun _ => rfl) hx⟩

end Yields
end Clock

/-- The tape shows a token from the cursor, and the cursor goes on behind it. -/
structure AtWord (tape : Tape) (i : Nat) (t : Token) : Prop where
  here : tape.peek i = some t
  word : t.isFinish = false
  next : tape.advance i = some (i + 1)

/-- The tape shows an end from the cursor. -/
structure AtEnd (tape : Tape) (i : Nat) (f : Token) : Prop where
  here : tape.peek i = some f
  finish : f.kind = .finish

/-- From the cursor on the tape shows these words, one after the other, and then the end `f`. -/
inductive Shows (tape : Tape) (f : Token) : Nat → List Token → Prop where
  | finish {i : Nat} (here : AtEnd tape i f) : Shows tape f i []
  | word {i : Nat} {t : Token} {ts : List Token} (here : AtWord tape i t)
      (rest : Shows tape f (i + 1) ts) : Shows tape f i (t :: ts)

section Rest

variable (tape : Tape) (r : Outcome)

/-- A group that has ended is the command that was due, or a parameter of its owner. -/
def ReturnTo (resume : Option Command × Cursor → Prop) : Group → Option Command × Cursor → Prop
  | .plain, x => resume x
  | .parameter owner, (inner, c) =>
    let read := match inner with
      | some d => owner.parameters.reverse ++ [.command d]
      | none => owner.parameters.reverse
    Yields (parameters tape · read c) fun x => resume (some (.mk owner.name owner.position x.1), x.2)

/-- `r` comes of what is left to do in the open groups, the innermost first, once the command of the
first one has been read, or has not been found. -/
def Resume : List Group → Option Command × Cursor → Prop
  | [], (inner, c) => Yields (conclude tape · inner c) (· = r)
  | g :: outer, (inner, c) =>
    Yields (close tape · inner { c with depth := c.depth - 1 }) (ReturnTo tape (Resume outer) g)

/-- `r` comes of what is left to do from a cursor where a single pass over the tokens is in this
state. -/
def Rest : State → Nat → Prop
  | ⟨.head, outer, cs⟩, i => Yields (command tape · ⟨i, outer.length, cs⟩) (Resume tape r outer)
  | ⟨.parameters p, outer, cs⟩, i =>
    Yields (parameters tape · p.parameters.reverse ⟨i, outer.length, cs⟩) fun x =>
      Resume tape r outer (some (.mk p.name p.position x.1), x.2)
  | ⟨.close g inner, outer, cs⟩, i =>
    Yields (close tape · inner ⟨i, outer.length, cs⟩) (ReturnTo tape (Resume tape r outer) g)
  | ⟨.skip g opened inner, outer, cs⟩, i =>
    Yields (skip tape · opened false ⟨i, outer.length, cs⟩) fun c =>
      ReturnTo tape (Resume tape r outer) g (inner, c)
  | ⟨.complete d, _, cs⟩, i => Yields (conclude tape · (some d) ⟨i, 0, cs⟩) (· = r)
  | ⟨.trailing, _, cs⟩, i => Yields (conclude tape · none ⟨i, 0, cs⟩) (· = r)

end Rest

variable {tape : Tape} {r : Outcome} {i : Nat} {t f : Token}

theorem returns_of_rest (h : Rest tape r .initial 0) : Returns (parse tape) r := by
  have yields : Yields (parse tape) (· = r) := Yields.bind h
  obtain ⟨x, returns, rfl⟩ := yields
  exact returns

theorem rest_leave (s : State) (outer : List Group) (g : Group) (inner : Option Command) (i : Nat) :
    Rest tape r (s.leave outer g inner) i =
      ReturnTo tape (Resume tape r outer) g (inner, ⟨i, outer.length, s.complaints⟩) := by
  cases g with
  | parameter owner =>
    cases inner with
    | none => rfl
    | some d => simp [State.leave, Rest, ReturnTo, Partial.add]
  | plain =>
    cases outer with
    | cons g outer => rfl
    | nil => cases inner <;> rfl

theorem reverse_append_replicate (x : Complaint) (cs : List Complaint) (n : Nat) :
    (x :: cs).reverse ++ List.replicate n x = cs.reverse ++ List.replicate (n + 1) x := by
  rw [List.reverse_cons, List.append_assoc, List.singleton_append, ← List.replicate_succ]

theorem verdict_complained (inner : Option Command) {d : Nat} {cs : List Complaint}
    (complained : cs ≠ []) : verdict inner ⟨i, d, cs⟩ = (.error cs.reverse, ⟨i, d, []⟩) := by
  obtain ⟨x, cs, rfl⟩ := List.exists_cons_of_ne_nil complained
  cases inner <;> rfl

theorem verdict_finish {s : State} {d : Command} (command : s.command? = some d)
    (finished : s.unfinished f = []) :
    verdict (some d) ⟨i, 0, s.complaints⟩ = (s.finish f, ⟨i, 0, []⟩) := by
  by_cases quiet : s.complaints = []
  · rw [State.finish, command, finished, quiet]
    rfl
  · rw [verdict_complained _ quiet, State.finish_complained (.inl quiet), finished, List.append_nil]

/-- No complaint is taken back on the way. -/
theorem complained_of_remaining {clock : Nat} {c c' : Cursor}
    (h : remaining tape clock c = .ok c') (complained : c.complaints ≠ []) :
    c'.complaints ≠ [] := by
  induction clock generalizing c with
  | zero => cases h
  | succ clock ih =>
    obtain ⟨t, -, h⟩ := bind_eq_ok.mp h
    split at h
    · cases h
      exact complained
    · obtain ⟨next, taken, h⟩ := bind_eq_ok.mp h
      refine ih h ?_
      unfold advance at taken
      split at taken
      · cases taken
        split
        · exact List.cons_ne_nil _ _
        · exact complained
      · cases taken

theorem peek_bind {α : Type} (here : tape.peek i = some t) (d : Nat) (cs : List Complaint)
    (k : Token → Except Stuck α) : peek tape ⟨i, d, cs⟩ >>= k = k t := by
  rw [peek, here]
  rfl

/-! ### At the end -/

namespace AtEnd

theorem isFinish (h : AtEnd tape i f) : f.isFinish = true := by
  rw [Token.isFinish, h.finish]

theorem skip_eq (h : AtEnd tape i f) (clock opened : Nat) (reported : Bool) (d : Nat)
    (cs : List Complaint) : skip tape (clock + 1) opened reported ⟨i, d, cs⟩ = .ok ⟨i, d, cs⟩ := by
  rw [skip, peek_bind h.here, h.finish]
  rfl

theorem close_eq (h : AtEnd tape i f) (clock : Nat) (inner : Option Command) (d : Nat)
    (cs : List Complaint) : close tape (clock + 1) inner ⟨i, d, cs⟩ =
      .ok (inner, ⟨i, d, .expected .closing f :: cs⟩) := by
  rw [close, peek_bind h.here, h.finish]
  simp only [Cursor.complain, h.skip_eq]
  rfl

theorem command_eq (h : AtEnd tape i f) (clock : Nat) (d : Nat) (cs : List Complaint) :
    command tape (clock + 1) ⟨i, d, cs⟩ = .ok (none, ⟨i, d, .expected .command f :: cs⟩) := by
  rw [command, peek_bind h.here, h.finish]
  rfl

theorem parameters_eq (h : AtEnd tape i f) (clock : Nat) (read : List Parameter) (d : Nat)
    (cs : List Complaint) :
    parameters tape (clock + 1) read ⟨i, d, cs⟩ = .ok (read, ⟨i, d, cs⟩) := by
  rw [parameters, peek_bind h.here, h.finish]
  rfl

theorem remaining_eq (h : AtEnd tape i f) (clock d : Nat) (cs : List Complaint) :
    remaining tape (clock + 1) ⟨i, d, cs⟩ = .ok ⟨i, d, cs⟩ := by
  rw [remaining, peek_bind h.here, if_pos h.isFinish]
  rfl

theorem conclude_eq (h : AtEnd tape i f) (clock : Nat) (inner : Option Command) (d : Nat)
    (cs : List Complaint) :
    conclude tape (clock + 1) inner ⟨i, d, cs⟩ = .ok (verdict inner ⟨i, d, cs⟩) := by
  cases inner with
  | none =>
    rw [conclude, h.remaining_eq]
    rfl
  | some inner =>
    have expected : expectEnd tape ⟨i, d, cs⟩ = .ok ⟨i, d, cs⟩ := by
      rw [expectEnd, peek_bind h.here, if_pos h.isFinish]
      rfl
    rw [conclude]
    exact bind_eq_ok.mpr ⟨_, expected, bind_eq_ok.mpr ⟨_, h.remaining_eq clock d cs, rfl⟩⟩

/-- A group that is over hands some command on, or none, and nothing else changes. -/
theorem returnTo (h : AtEnd tape i f) {k : Option Command × Cursor → Prop} {d : Nat}
    {cs : List Complaint} (handed : ∀ inner, k (inner, ⟨i, d, cs⟩)) (g : Group)
    (inner : Option Command) : ReturnTo tape k g (inner, ⟨i, d, cs⟩) := by
  cases g with
  | plain => exact handed inner
  | parameter owner => exact .of_ok (fun clock => h.parameters_eq clock _ d cs) (handed _)

/-- A parenthesis is missing for every open group. -/
theorem resume (h : AtEnd tape i f) (outer : List Group) {cs : List Complaint}
    (faulty : cs ≠ [] ∨ outer ≠ []) (inner : Option Command) :
    Resume tape (.error (cs.reverse ++ List.replicate outer.length (.expected .closing f)),
      ⟨i, 0, []⟩) outer (inner, ⟨i, outer.length, cs⟩) := by
  induction outer generalizing inner cs with
  | nil =>
    have complained : cs ≠ [] := faulty.resolve_right (· rfl)
    refine .of_ok (fun clock => h.conclude_eq clock inner 0 cs) ?_
    rw [verdict_complained _ complained, List.length_nil, List.replicate_zero, List.append_nil]
  | cons g outer ih =>
    have due := ih (.inl (List.cons_ne_nil (.expected .closing f) cs))
    rw [reverse_append_replicate] at due
    exact .of_ok (fun clock => h.close_eq clock inner _ cs) (h.returnTo due g inner)

/-- The end brings the same outcome to both, and the cursor does not pass it. -/
theorem rest (h : AtEnd tape i f) {s : State} (roomy : s.Roomy) :
    Rest tape (s.finish f, ⟨i, 0, []⟩) s i := by
  obtain ⟨phase, outer, cs⟩ := s
  cases phase with
  | head =>
    have unfinished : State.unfinished ⟨.head, outer, cs⟩ f ≠ [] := List.cons_ne_nil _ _
    have due := h.resume outer (.inl (List.cons_ne_nil (.expected .command f) cs)) none
    rw [List.reverse_cons, List.append_assoc, List.singleton_append] at due
    rw [State.finish_complained (.inr unfinished)]
    exact .of_ok (fun clock => h.command_eq clock _ cs) due
  | parameters p =>
    refine .of_ok (fun clock => h.parameters_eq clock _ _ cs) ?_
    cases outer with
    | nil =>
      refine .of_ok (fun clock => h.conclude_eq clock _ _ cs) ?_
      exact verdict_finish (s := ⟨.parameters p, [], cs⟩) rfl rfl
    | cons g outer =>
      have unfinished : State.unfinished ⟨.parameters p, g :: outer, cs⟩ f ≠ [] :=
        List.cons_ne_nil _ _
      rw [State.finish_complained (.inr unfinished)]
      exact h.resume (g :: outer) (.inr (List.cons_ne_nil g outer)) _
  | close g inner =>
    have unfinished : State.unfinished ⟨.close g inner, outer, cs⟩ f ≠ [] := List.cons_ne_nil _ _
    have due := h.resume outer (.inl (List.cons_ne_nil (.expected .closing f) cs))
    rw [reverse_append_replicate] at due
    rw [State.finish_complained (.inr unfinished)]
    exact .of_ok (fun clock => h.close_eq clock inner _ cs) (h.returnTo due g inner)
  | skip g opened inner =>
    -- Without a complaint the descent would take what it has read for the command.
    obtain ⟨complained, -⟩ : cs ≠ [] ∧ outer.length ≤ maxDepth := roomy
    rw [State.finish_complained (.inl complained)]
    refine .of_ok (fun clock => h.skip_eq clock opened false _ cs) ?_
    exact h.returnTo (h.resume outer (.inl complained)) g inner
  | complete d =>
    refine .of_ok (fun clock => h.conclude_eq clock _ _ cs) ?_
    exact verdict_finish (s := ⟨.complete d, outer, cs⟩) rfl rfl
  | trailing =>
    refine .of_ok (fun clock => h.conclude_eq clock none 0 cs) ?_
    simp [verdict, State.finish, State.command?, State.unfinished]

end AtEnd

/-! ### At a word -/

namespace AtWord

theorem advance_eq (h : AtWord tape i t) (d : Nat) (cs : List Complaint) :
    advance tape ⟨i, d, cs⟩ = .ok ⟨i + 1, d, cs⟩ := by
  rw [advance, h.next]

theorem advance_bind {α : Type} (h : AtWord tape i t) (d : Nat) (cs : List Complaint)
    (k : Cursor → Except Stuck α) : advance tape ⟨i, d, cs⟩ >>= k = k ⟨i + 1, d, cs⟩ := by
  rw [h.advance_eq]
  rfl

theorem kind_ne (h : AtWord tape i t) : t.kind ≠ .finish := by
  intro finish
  have word := h.word
  rw [Token.isFinish, finish] at word
  cases word

theorem remaining_eq (h : AtWord tape i t) (clock d : Nat) (cs : List Complaint) :
    remaining tape (clock + 1) ⟨i, d, cs⟩ =
      remaining tape clock ⟨i + 1, d, if t.isInvalid then .invalid t :: cs else cs⟩ := by
  have passed (cs : List Complaint) :
      advance tape ⟨i, d, cs⟩ >>= remaining tape clock = remaining tape clock ⟨i + 1, d, cs⟩ :=
    h.advance_bind d cs _
  rw [remaining, peek_bind h.here, h.word, if_neg Bool.false_ne_true]
  split
  · exact passed _
  · exact passed _

/-- Taking the parenthesis that opens a group. -/
theorem rest_enter (h : AtWord tape i t) (phase : Phase) {outer : List Group}
    {cs : List Complaint} {g : Group} (room : outer.length ≤ maxDepth)
    (entered : Rest tape r (State.enter ⟨phase, outer, cs⟩ g t) (i + 1)) :
    Yields (group tape · ⟨i, outer.length, cs⟩) (ReturnTo tape (Resume tape r outer) g) := by
  by_cases full : outer.length = maxDepth
  · have deep : State.enter ⟨phase, outer, cs⟩ g t = ⟨.skip g 0 none, outer, .tooDeep t :: cs⟩ := by
      simp [State.enter, State.complain, full]
    rw [deep] at entered
    refine .of_succ (fun clock => ?_) (Yields.map entered)
    rw [group, peek_bind h.here, h.advance_bind, if_pos full]
    rfl
  · have inside : State.enter ⟨phase, outer, cs⟩ g t = ⟨.head, g :: outer, cs⟩ := by
      simp [State.enter, Nat.lt_of_le_of_ne room full]
    rw [inside] at entered
    refine .of_succ (fun clock => ?_) (Yields.bind entered)
    rw [group, peek_bind h.here, h.advance_bind, if_neg full]
    rfl

theorem skip_eq (h : AtWord tape i t) (clock opened : Nat) (reported : Bool) (d : Nat)
    (cs : List Complaint) : skip tape (clock + 1) opened reported ⟨i, d, cs⟩ =
      match t.kind, opened with
      | .opening, n => skip tape clock (n + 1) false ⟨i + 1, d, cs⟩
      | .closing, 0 => .ok ⟨i + 1, d, cs⟩
      | .closing, n + 1 => skip tape clock n false ⟨i + 1, d, cs⟩
      | .invalid _, n =>
        skip tape clock n false ⟨i + 1, d, if reported then cs else .invalid t :: cs⟩
      | _, n => skip tape clock n false ⟨i + 1, d, cs⟩ := by
  rw [skip, peek_bind h.here]
  obtain ⟨kind, text, position⟩ := t
  cases kind with
  | finish => exact absurd rfl h.kind_ne
  | closing =>
    cases opened with
    | zero => exact h.advance_eq d cs
    | succ n => exact h.advance_bind d cs _
  | invalid reason =>
    cases reported with
    | true => exact h.advance_bind d cs _
    | false => exact h.advance_bind d _ _
  | _ => exact h.advance_bind d cs _

theorem close_eq (h : AtWord tape i t) (kind : t.kind = .closing) (clock : Nat)
    (inner : Option Command) (d : Nat) (cs : List Complaint) :
    close tape clock inner ⟨i, d, cs⟩ = .ok (inner, ⟨i + 1, d, cs⟩) := by
  rw [close, peek_bind h.here, kind]
  exact bind_eq_ok.mpr ⟨_, h.advance_eq _ _, rfl⟩

/-- Taking the token where the parenthesis that ends a group is due. -/
theorem rest_closeAt (h : AtWord tape i t) {s : State} {outer : List Group} {g : Group}
    {inner : Option Command} (closed : Rest tape r (s.closeAt outer g inner t) (i + 1)) :
    Yields (close tape · inner ⟨i, outer.length, s.complaints⟩)
      (ReturnTo tape (Resume tape r outer) g) := by
  cases kind : t.kind with
  | closing =>
    simp only [State.closeAt, kind, rest_leave] at closed
    exact .of_ok (fun _ => h.close_eq kind _ inner _ _) closed
  | finish => exact absurd kind h.kind_ne
  | _ =>
    have passed (clock : Nat) : close tape clock inner ⟨i, outer.length, s.complaints⟩ =
        skip tape clock 0 true ⟨i, outer.length, .expected .closing t :: s.complaints⟩ >>=
          fun c => .ok (inner, c) := by
      rw [close, peek_bind h.here, kind]
      rfl
    simp only [State.closeAt, kind] at closed
    simp only [passed]
    exact Yields.map (.of_succ (fun clock => by simp [h.skip_eq, kind]) closed)

theorem rest_skip (h : AtWord tape i t) {g : Group} {opened : Nat} {inner : Option Command}
    {outer : List Group} {cs : List Complaint}
    (skipped : Rest tape r (State.step ⟨.skip g opened inner, outer, cs⟩ t) (i + 1)) :
    Rest tape r ⟨.skip g opened inner, outer, cs⟩ i := by
  cases kind : t.kind with
  | finish => exact absurd kind h.kind_ne
  | closing =>
    cases opened with
    | zero =>
      simp only [State.step, kind, rest_leave] at skipped
      refine .of_ok (fun clock => ?_) skipped
      rw [h.skip_eq, kind]
    | succ n =>
      simp only [State.step, kind] at skipped
      refine .of_succ (fun clock => ?_) skipped
      rw [h.skip_eq, kind]
  | _ =>
    simp only [State.step, kind] at skipped
    exact .of_succ (fun clock => by simp [h.skip_eq, kind]) skipped

/-- Taking a token behind the command: what comes of the rest cannot be a command any more. -/
theorem rest_behind (h : AtWord tape i t) {inner : Command} {cs : List Complaint}
    (behind : Yields (conclude tape · none ⟨i + 1, 0, .expected .endOfInput t :: cs⟩) (· = r)) :
    Yields (conclude tape · (some inner) ⟨i, 0, cs⟩) (· = r) := by
  obtain ⟨x, ⟨least, returns⟩, hx⟩ := behind
  refine ⟨x, ⟨least, fun clock le => ?_⟩, hx⟩
  obtain ⟨c, passed, same⟩ := bind_eq_ok.mp (returns clock le)
  change conclude tape clock (some inner) ⟨i, 0, cs⟩ = .ok x
  have complained := complained_of_remaining passed (List.cons_ne_nil _ _)
  have verdicts : verdict (some inner) c = verdict none c :=
    (verdict_complained (some inner) complained).trans (verdict_complained none complained).symm
  have taken : expectEnd tape ⟨i, 0, cs⟩ = .ok ⟨i + 1, 0, .expected .endOfInput t :: cs⟩ := by
    rw [expectEnd, peek_bind h.here, h.word, if_neg Bool.false_ne_true]
    exact h.advance_eq _ _
  rw [conclude]
  refine bind_eq_ok.mpr ⟨_, taken, bind_eq_ok.mpr ⟨c, passed, ?_⟩⟩
  rw [verdicts]
  exact same

/-- Taking the token where a command is due. A parenthesis that ends a group is left to the group. -/
theorem rest_head (h : AtWord tape i t) {outer : List Group} {cs : List Complaint}
    (room : outer.length ≤ maxDepth)
    (read : Rest tape r (State.step ⟨.head, outer, cs⟩ t) (i + 1)) :
    Rest tape r ⟨.head, outer, cs⟩ i := by
  cases kind : t.kind with
  | identifier name =>
    simp only [State.step, kind] at read
    refine .of_succ (fun clock => ?_) (Yields.map read)
    rw [command, peek_bind h.here, kind]
    exact h.advance_bind _ _ _
  | opening =>
    simp only [State.step, kind] at read
    refine .of_succ (fun clock => ?_) (h.rest_enter _ room read)
    rw [command, peek_bind h.here, kind]
  | finish => exact absurd kind h.kind_ne
  | closing =>
    have left (clock : Nat) : command tape (clock + 1) ⟨i, outer.length, cs⟩ =
        .ok (none, ⟨i, outer.length, .expected .command t :: cs⟩) := by
      rw [command, peek_bind h.here, kind]
      rfl
    refine .of_ok left ?_
    cases outer with
    | nil =>
      simp only [State.step, kind] at read
      refine .of_succ (fun clock => ?_) read
      rw [conclude, h.remaining_eq, Token.isInvalid, kind]
      rfl
    | cons g outer =>
      simp only [State.step, kind, rest_leave] at read
      exact .of_ok (fun _ => h.close_eq kind _ none _ _) read
  | _ =>
    have passed (clock : Nat) : command tape (clock + 1) ⟨i, outer.length, cs⟩ =
        .ok (none, ⟨i + 1, outer.length, .expected .command t :: cs⟩) := by
      rw [command, peek_bind h.here, kind]
      exact bind_eq_ok.mpr ⟨_, h.advance_eq _ _, rfl⟩
    refine .of_ok passed ?_
    cases outer with
    | nil =>
      simp only [State.step, kind] at read
      exact read
    | cons g outer =>
      simp only [State.step, kind] at read
      exact read

/-- Taking a token behind the name or a parameter. A group that is dropped has taken its parenthesis,
so the loop goes on from further on. -/
theorem rest_parameters (h : AtWord tape i t) {outer : List Group} {p : Partial}
    {cs : List Complaint} (room : outer.length ≤ maxDepth)
    (read : Rest tape r (State.step ⟨.parameters p, outer, cs⟩ t) (i + 1)) :
    Rest tape r ⟨.parameters p, outer, cs⟩ i := by
  cases kind : t.kind with
  | literal value =>
    simp only [State.step, kind, Rest, Partial.add, List.reverse_cons] at read
    refine .of_succ (fun clock => ?_) read
    rw [parameters, peek_bind h.here, kind]
    exact h.advance_bind _ _ _
  | opening =>
    simp only [State.step, kind] at read
    have entered (clock : Nat) :
        parameters tape (clock + 1) p.parameters.reverse ⟨i, outer.length, cs⟩ =
          group tape clock ⟨i, outer.length, cs⟩ >>= fun x =>
            parameters tape clock
              (x.1.elim p.parameters.reverse (p.parameters.reverse ++ [.command ·])) x.2 := by
      rw [parameters, peek_bind h.here, kind]
      refine bind_congr fun x => ?_
      obtain ⟨inner, c⟩ := x
      cases inner with
      | none => rfl
      | some inner => rfl
    obtain ⟨⟨inner, c⟩, returns, back⟩ := h.rest_enter _ room read
    refine .of_succ entered (Yields.bind ⟨(inner, c), returns, ?_⟩)
    cases inner with
    | none => exact back
    | some inner => exact back
  | finish => exact absurd kind h.kind_ne
  | _ =>
    have left (clock : Nat) :
        parameters tape (clock + 1) p.parameters.reverse ⟨i, outer.length, cs⟩ =
          .ok (p.parameters.reverse, ⟨i, outer.length, cs⟩) := by
      rw [parameters, peek_bind h.here, kind]
      rfl
    refine .of_ok left ?_
    cases outer with
    | nil =>
      simp only [State.step, kind] at read
      exact h.rest_behind read
    | cons g outer =>
      simp only [State.step, kind] at read
      exact h.rest_closeAt read

/-- What the descent has to do once a step of the single pass is made, it has to do before. -/
theorem rest_of_step (h : AtWord tape i t) {s : State} (roomy : s.Roomy)
    (stepped : Rest tape r (s.step t) (i + 1)) : Rest tape r s i := by
  obtain ⟨phase, outer, cs⟩ := s
  cases phase with
  | head => exact h.rest_head roomy stepped
  | parameters p => exact h.rest_parameters roomy stepped
  | close g inner => exact h.rest_closeAt stepped
  | skip g opened inner => exact h.rest_skip stepped
  | complete d => exact h.rest_behind stepped
  | trailing =>
    have passed (clock : Nat) : conclude tape (clock + 1) none ⟨i, 0, cs⟩ = conclude tape clock none
        ⟨i + 1, 0, if t.isInvalid then .invalid t :: cs else cs⟩ := by
      rw [conclude, h.remaining_eq]
      rfl
    refine .of_succ passed ?_
    simp only [State.step] at stepped
    split at stepped
    next invalid => rwa [if_pos invalid]
    next valid => rwa [if_neg valid]

end AtWord

/-- The descent comes to an end, with the outcome of the single pass, and stands at the end of the
tape. -/
theorem Shows.rest {ts : List Token} (shows : Shows tape f i ts) {s : State} (roomy : s.Roomy) :
    Rest tape ((ts.foldl State.step s).finish f, ⟨i + ts.length, 0, []⟩) s i := by
  induction shows generalizing s with
  | finish here => exact here.rest roomy
  | @word i t ts here shows ih =>
    have stepped := ih (State.step_roomy roomy t)
    rw [Nat.add_assoc, Nat.add_comm 1] at stepped
    exact here.rest_of_step roomy stepped

end TypedCommands.Descent
