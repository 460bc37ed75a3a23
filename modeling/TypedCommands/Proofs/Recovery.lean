import TypedCommands.Proofs.Prefixes
import TypedCommands.Proofs.Lockstep

/-! Recovery within a group. A parenthesis opens a group, and the group ends at the parenthesis that
matches it, or with the text. Up to there nothing that was read before matters but the number of
open groups, and nothing that comes after. -/
namespace TypedCommands.Parser

theorem AddsAlike.exists_same {t : Token} {old old' new new' : List Complaint}
    (h : AddsAlike t t old old' new new') : ∃ xs, new = xs ++ old ∧ new' = xs ++ old' := by
  cases h with
  | none => exact ⟨[], rfl, rfl⟩
  | @one x about => exact ⟨[x], rfl, by rw [← about, Complaint.about_token]; rfl⟩

namespace State

/-- At a parenthesis the parser begins this group. -/
def Opens (s : State) (g : Group) : Prop :=
  match s.phase with
  | .head => g = .plain
  | .parameters p => g = .parameter p
  | _ => False

/-- Within so many groups, before anything else is read. -/
def blank (d : Nat) : State := ⟨.head, List.replicate d .plain, []⟩

/-- The state after `ts` in a group that `t` begins there. -/
def alone (d : Nat) (t : Token) (ts : List Token) : State :=
  ts.foldl step ((blank d).enter .plain t)

variable {n : Nat} {s s' : State} {g : Group} {t u f : Token} {ts inside : List Token} {d : Nat}

theorem Opens.step (h : s.Opens g) (opening : t.kind = .opening) : s.step t = s.enter g t := by
  obtain ⟨phase, outer, complaints⟩ := s
  cases phase with
  | head =>
    obtain rfl : g = .plain := h
    simp only [State.step, opening]
  | parameters p =>
    obtain rfl : g = .parameter p := h
    simp only [State.step, opening]
  | close _ _ => exact h.elim
  | skip _ _ _ => exact h.elim
  | complete _ => exact h.elim
  | trailing => exact h.elim

/-- Over the same tokens the complaints are the same. -/
theorem foldl_same (alike : Alike n s s')
    (deep : ∀ front, front <+: ts → n ≤ (front.foldl State.step s).groups.length) :
    Alike n (ts.foldl State.step s) (ts.foldl State.step s') ∧ ∃ xs,
      (ts.foldl State.step s).complaints = xs ++ s.complaints ∧
      (ts.foldl State.step s').complaints = xs ++ s'.complaints := by
  have same : List.Forall₂ (fun t u : Token => t.kind = u.kind ∧ t = u) ts ts :=
    List.forall₂_same.mpr fun t _ => ⟨rfl, rfl⟩
  obtain ⟨alike', xs, ys, hxs, hys, beside⟩ := foldl_alike same alike deep
  obtain rfl := eq_of_beside beside
  exact ⟨alike', _, hxs, hys⟩

theorem unfinished_same (alike : Alike n s s') : s'.unfinished t = s.unfinished t := by
  rw [unfinished_alike alike]
  refine (List.map_congr_left fun x hx => ?_).trans (List.map_id _)
  rw [← token_eq_of_mem_unfinished hx, Complaint.about_token, id]

/-- As long as no parenthesis ends it, the group stays open and the parentheses are counted. -/
theorem enter_within (s : State) (g : Group) (t : Token) (nested : Token.Nested 0 ts) :
    g :: s.outer <:+ (ts.foldl State.step (s.enter g t)).groups ∧
      (ts.foldl State.step (s.enter g t)).depth + Token.closings ts =
        s.outer.length + 1 + Token.openings ts := by
  have groups : (s.enter g t).groups = g :: s.outer := enter_groups s g t
  refine foldl_within (List.cons_ne_nil _ _) (groups ▸ List.suffix_refl _) ?_ nested
  rw [depth, groups, enter_opened, List.length_cons]

/-- The parser goes on as it would in any other group as deep, and complains of the same. -/
theorem enter_alike (s : State) (g : Group) (t : Token) (nested : Token.Nested 0 ts) :
    Alike (s.outer.length + 1) (alone s.outer.length t ts) (ts.foldl State.step (s.enter g t)) ∧
      (ts.foldl State.step (s.enter g t)).complaints =
        (alone s.outer.length t ts).complaints ++ s.complaints := by
  have groups : GroupsAlike (s.outer.length + 1) (.plain :: (blank s.outer.length).outer)
      (g :: s.outer) := .outermost (by simp [blank]) rfl
  obtain ⟨adds, alike⟩ := enter_stepAlike (t := t) (u := t) (blank s.outer.length) s groups
  obtain ⟨xs, blank_complaints, complaints⟩ := adds.exists_same
  have deep (front : List Token) (hf : front <+: ts) : s.outer.length + 1 ≤
      (front.foldl State.step ((blank s.outer.length).enter .plain t)).groups.length := by
    have open_ := (enter_within (blank s.outer.length) .plain t (nested.of_prefix hf)).1.length_le
    simpa [blank] using open_
  obtain ⟨alike', ys, hys, hys'⟩ := foldl_same (alike (deep [] List.nil_prefix)) deep
  refine ⟨alike', ?_⟩
  rw [alone, hys, hys', blank_complaints, complaints, List.append_assoc, List.append_assoc]
  rfl

/-- What is said about tokens that are passed over. -/
def passed (ts : List Token) : List Complaint := (ts.filter Token.isInvalid).map .invalid

theorem step_skip (nested : Token.Nested n (t :: ts)) (g : Group) (inner : Option Command)
    (outer : List Group) (complaints : List Complaint) : ∃ m, Token.Nested m ts ∧
      step ⟨.skip g n inner, outer, complaints⟩ t =
        ⟨.skip g m inner, outer, passed [t] ++ complaints⟩ := by
  cases hk : t.kind <;> simp only [step, passed, List.filter_cons, Token.isInvalid, hk]
  case opening => exact ⟨n + 1, (Token.Nested.opening_iff hk).mp nested, rfl⟩
  case closing =>
    obtain ⟨m, rfl, rest⟩ := (Token.Nested.closing_iff hk).mp nested
    exact ⟨m, rest, rfl⟩
  all_goals exact ⟨n, (Token.Nested.word_iff (by simp [hk]) (by simp [hk])).mp nested, rfl⟩

/-- The rest of a group is passed over up to the parenthesis that matches, and only what is invalid
there is reported. -/
theorem foldl_skip (nested : Token.Nested n ts) (g : Group) (inner : Option Command)
    (outer : List Group) (complaints : List Complaint) :
    ∃ m, ts.foldl step ⟨.skip g n inner, outer, complaints⟩ =
      ⟨.skip g m inner, outer, (passed ts).reverse ++ complaints⟩ := by
  induction ts generalizing n complaints with
  | nil => exact ⟨n, rfl⟩
  | cons t ts ih =>
    obtain ⟨m, rest, first⟩ := step_skip nested g inner outer complaints
    obtain ⟨k, hk⟩ := ih rest _
    refine ⟨k, ?_⟩
    have split : passed (t :: ts) = passed [t] ++ passed ts := by
      rw [passed, passed, passed, ← List.map_append, ← List.filter_append, List.singleton_append]
    have single : (passed [t]).reverse = passed [t] := by
      cases ht : t.isInvalid <;> simp [passed, ht]
    rw [List.foldl_cons, first, hk, split, List.reverse_append, single, List.append_assoc]

theorem finish_of_open (open_ : s.groups ≠ []) (f : Token) :
    s.finish f = .error (s.complaints.reverse ++ s.unfinished f) := by
  obtain ⟨phase, outer, complaints⟩ := s
  cases phase with
  | parameters p =>
    obtain ⟨g, gs, rfl⟩ : ∃ g gs, outer = g :: gs := List.exists_cons_of_ne_nil open_
    simp only [finish, command?, unfinished, List.length_cons, List.replicate_succ]
    cases complaints.reverse <;> rfl
  | head => rfl
  | close g inner => rfl
  | skip g opened inner => rfl
  | complete c => exact absurd rfl open_
  | trailing => rfl

/-- At the end of the text each open group lacks its parenthesis, except that the innermost one may
have been reported. -/
theorem exists_unfinished {base : List Group} (open_ : g :: base <:+ s.groups) (f : Token) :
    ∃ xs, s.unfinished f = xs ++ List.replicate base.length (.expected .closing f) := by
  obtain ⟨phase, outer, complaints⟩ := s
  have length := open_.length_le
  have closings {k : Nat} (le : base.length ≤ k) :
      List.replicate k (Complaint.expected .closing f) =
        List.replicate (k - base.length) (.expected .closing f) ++
          List.replicate base.length (.expected .closing f) := by
    rw [List.replicate_append_replicate, Nat.sub_add_cancel le]
  cases phase with
  | head =>
    have le : base.length ≤ outer.length := Nat.le_of_succ_le length
    exact ⟨_ :: _, congrArg (_ :: ·) (closings le)⟩
  | parameters p =>
    have le : base.length ≤ outer.length := Nat.le_of_succ_le length
    exact ⟨_, closings le⟩
  | close g' inner =>
    have le : base.length ≤ outer.length + 1 := Nat.le_of_succ_le length
    exact ⟨_, closings le⟩
  | skip g' n inner =>
    have le : base.length ≤ outer.length := Nat.le_of_succ_le_succ length
    exact ⟨_, closings le⟩
  | complete c => exact absurd length (Nat.not_succ_le_zero _)
  | trailing => exact absurd length (Nat.not_succ_le_zero _)

/-- A group at the limit is passed over from its parenthesis on. -/
theorem alone_too_deep (deep : maxDepth ≤ d) (t : Token) (nested : Token.Nested 0 ts) :
    ∃ m, alone d t ts = ⟨.skip .plain m none, List.replicate d .plain,
      (passed ts).reverse ++ [.tooDeep t]⟩ := by
  have full : ¬(List.replicate d Group.plain).length < maxDepth := by
    rw [List.length_replicate]
    exact Nat.not_lt.mpr deep
  simp only [alone, enter, blank, full, if_false, complain]
  exact foldl_skip nested ..

theorem step_skip_closing {inner : Option Command} {outer : List Group} {xs : List Complaint}
    (closing : u.kind = .closing) : (step ⟨.skip g n inner, outer, xs⟩ u).complaints = xs := by
  cases n with
  | zero => simp only [step, closing, leave_complaints]
  | succ m => simp only [step, closing]

/-- The group that begins at `t` ends at `u`, with these complaints, and the parser goes on behind
it as it would behind any group. -/
structure Ends (s : State) (g : Group) (t : Token) (inside : List Token) (u : Token)
    (xs : List Complaint) : Prop where
  within : ∀ front, front <+: inside → g :: s.outer <:+ ((t :: front).foldl step s).groups
  leaves : ∃ inner, (t :: (inside ++ [u])).foldl step s =
    { s with complaints := xs.reverse ++ s.complaints }.leave s.outer g inner
  resumes : ∀ after, run s (t :: (inside ++ u :: after)) =
    run ((t :: (inside ++ [u])).foldl step s) after

/-- The group that begins at `t` is still open at the end `f` of the text, with these complaints;
each of the groups around it then lacks its own parenthesis. -/
structure Unended (s : State) (g : Group) (t : Token) (inside : List Token) (f : Token)
    (xs : List Complaint) : Prop where
  within : ∀ front, front <+: inside → g :: s.outer <:+ ((t :: front).foldl step s).groups
  outcome : ∀ after, run s (t :: (inside ++ f :: after)) =
    .error (s.complaints.reverse ++ (xs ++ List.replicate s.outer.length (.expected .closing f)))

/-- Behind the parenthesis that matches, the group has been left. -/
theorem enter_leaves (s : State) (g : Group) (t : Token) (closes : Token.Closes inside u) :
    ∃ inner, (inside ++ [u]).foldl step (s.enter g t) =
      { s with complaints := (alone s.outer.length t (inside ++ [u])).complaints ++
          s.complaints }.leave s.outer g inner := by
  obtain ⟨open_, depth⟩ := enter_within s g t closes.nested
  obtain ⟨alike, complaints⟩ := enter_alike s g t closes.nested
  -- The parentheses inside are paired, so none but the group and those around it are open.
  have all : (inside.foldl step (s.enter g t)).depth = (g :: s.outer).length := by
    rw [closes.balanced] at depth
    exact Nat.add_right_cancel depth
  have groups : g :: s.outer = (inside.foldl step (s.enter g t)).groups :=
    open_.eq_of_length_le (all ▸ Nat.le_add_right ..)
  have opened : (inside.foldl step (s.enter g t)).opened = 0 := by
    rw [State.depth, ← groups] at all
    exact Nat.add_eq_left.mp all
  obtain ⟨inner, leaves⟩ := step_leaves groups.symm opened closes.closing
  obtain ⟨xs, alone_last, last⟩ := (step_stepAlike alike (rfl : u.kind = u.kind)).adds.exists_same
  refine ⟨inner, ?_⟩
  rw [alone, List.foldl_append, List.foldl_append]
  refine leaves.trans (leave_congr ?_ ..)
  rw [List.foldl_cons, List.foldl_nil, last, complaints, ← List.append_assoc, ← alone_last]
  rfl

theorem enter_stays (s : State) (g : Group) (t : Token) (opens : s.Opens g)
    (opening : t.kind = .opening) (nested : Token.Nested 0 inside) (front : List Token)
    (hf : front <+: inside) : g :: s.outer <:+ ((t :: front).foldl State.step s).groups := by
  rw [List.foldl_cons, opens.step opening]
  exact (enter_within s g t (nested.of_prefix hf)).1

theorem ends_of_closes (d : Nat) (opening : t.kind = .opening) (closes : Token.Closes inside u) :
    ∃ xs, (maxDepth ≤ d → xs = .tooDeep t :: passed inside) ∧
      ∀ (s : State) (g : Group), s.Opens g → s.outer.length = d → s.Ends g t inside u xs := by
  refine ⟨(alone d t (inside ++ [u])).complaints.reverse, ?_, ?_⟩
  · intro deep
    obtain ⟨m, hm⟩ := alone_too_deep deep t closes.nested
    have last : (alone d t (inside ++ [u])).complaints = (alone d t inside).complaints := by
      rw [alone, List.foldl_append, ← alone, hm]
      exact step_skip_closing closes.closing
    rw [last, hm, List.reverse_append, List.reverse_reverse]
    rfl
  · rintro s g opens rfl
    refine ⟨s.enter_stays g t opens opening closes.nested, ?_, fun after => ?_⟩
    · rw [List.foldl_cons, opens.step opening, List.reverse_reverse]
      exact s.enter_leaves g t closes
    · have words : ∀ v ∈ t :: (inside ++ [u]), v.isFinish = false := by
        refine List.forall_mem_cons.mpr ⟨by rw [Token.isFinish, opening], ?_⟩
        refine List.forall_mem_append.mpr ⟨closes.words, List.forall_mem_singleton.mpr ?_⟩
        rw [Token.isFinish, closes.closing]
      rw [← run_append_of_words words, List.cons_append, List.append_assoc, List.singleton_append]

theorem unended_of_nested (d : Nat) (opening : t.kind = .opening)
    (words : ∀ v ∈ inside, v.isFinish = false) (nested : Token.Nested 0 inside)
    (finish : f.isFinish = true) : ∃ xs, (maxDepth ≤ d → xs = .tooDeep t :: passed inside) ∧
      ∀ (s : State) (g : Group), s.Opens g → s.outer.length = d → s.Unended g t inside f xs := by
  -- What is missing at the end falls into the part of the groups inside and of those around.
  have open_ : .plain :: List.replicate d .plain <:+ (alone d t inside).groups :=
    (enter_within (blank d) .plain t nested).1
  obtain ⟨ys, own⟩ := exists_unfinished open_ f
  rw [List.length_replicate] at own
  refine ⟨(alone d t inside).complaints.reverse ++ ys, ?_, ?_⟩
  · intro deep
    obtain ⟨m, hm⟩ := alone_too_deep deep t nested
    have none : ys = [] := by
      rw [hm, unfinished, List.length_replicate] at own
      exact List.append_left_eq_self.mp own.symm
    rw [none, hm, List.append_nil, List.reverse_append, List.reverse_reverse]
    rfl
  · rintro s g opens rfl
    obtain ⟨alike, complaints⟩ := s.enter_alike g t nested
    have stays := s.enter_stays g t opens opening nested
    have nonempty : ((t :: inside).foldl step s).groups ≠ [] := by
      intro none
      have whole := stays inside (List.prefix_refl _)
      rw [none] at whole
      exact absurd (List.suffix_nil.mp whole) (List.cons_ne_nil _ _)
    refine ⟨stays, fun after => ?_⟩
    have words : ∀ v ∈ t :: inside, v.isFinish = false :=
      List.forall_mem_cons.mpr ⟨by rw [Token.isFinish, opening], words⟩
    rw [← List.cons_append, run_append_of_words words, run_finish finish,
      finish_of_open nonempty, List.foldl_cons, opens.step opening, complaints,
      unfinished_same alike, own, List.reverse_append]
    simp only [List.append_assoc]

end State

/-- Whatever is wrong in a group, the group ends at the parenthesis that matches its own, or with the
text if there is none. What the parser complains of on the way depends on nothing but the tokens up
to there and how many groups are open; at the limit it complains of the group itself and of what is
invalid in it. -/
theorem group_synchronised {t : Token} (opening : t.kind = .opening) (d : Nat) :
    (∀ inside u, Token.Closes inside u → ∃ xs,
      (maxDepth ≤ d → xs = .tooDeep t :: State.passed inside) ∧
      ∀ (s : State) (g : Group), s.Opens g → s.outer.length = d → s.Ends g t inside u xs) ∧
    (∀ inside f, (∀ v ∈ inside, v.isFinish = false) → Token.Nested 0 inside → f.isFinish = true →
      ∃ xs, (maxDepth ≤ d → xs = .tooDeep t :: State.passed inside) ∧
      ∀ (s : State) (g : Group), s.Opens g → s.outer.length = d → s.Unended g t inside f xs) ∧
    ∀ ts, (∃ f ∈ ts, f.isFinish = true) →
      (∃ inside u after, ts = inside ++ u :: after ∧ Token.Closes inside u) ∨
      ∃ inside f after, ts = inside ++ f :: after ∧ (∀ v ∈ inside, v.isFinish = false) ∧
        Token.Nested 0 inside ∧ f.isFinish = true := by
  refine ⟨fun inside u => State.ends_of_closes d opening,
    fun inside f => State.unended_of_nested d opening, fun ts ends => ?_⟩
  obtain ⟨front, f, back, rfl, words, finish⟩ := Token.exists_first_finish ends
  rcases Token.nested_or_closes 0 front with
    nested | ⟨inside, u, rest, rfl, closing, nested, balanced⟩
  · exact .inr ⟨front, f, back, rfl, words, nested, finish⟩
  · refine .inl ⟨inside, u, rest ++ f :: back, by simp, closing, ?_, nested, ?_⟩
    · exact (List.forall_mem_append.mp words).1
    · rw [balanced, Nat.zero_add]

/-- A parameter without a name, a stray group and an invalid token in it. -/
theorem group_synchronised_malformed :
    let p : Partial := ⟨"x", ⟨1, 2⟩, []⟩
    let t : Token := ⟨.opening, "(", ⟨1, 4⟩⟩
    let literal : Token := ⟨.literal (.text ""), "\"\"", ⟨1, 5⟩⟩
    let stray : Token := ⟨.opening, "(", ⟨1, 7⟩⟩
    let invalid : Token := ⟨.invalid "unexpected character", "@", ⟨1, 8⟩⟩
    let last : Token := ⟨.closing, ")", ⟨1, 9⟩⟩
    t.kind = .opening ∧ State.Ends ⟨.parameters p, [.plain], []⟩ (.parameter p) t
      [literal, stray, invalid, last] ⟨.closing, ")", ⟨1, 10⟩⟩
      [.expected .command literal, .expected .closing stray, .invalid invalid] := by
  intro p t literal stray invalid last
  have closes : Token.Closes [literal, stray, invalid, last] ⟨.closing, ")", ⟨1, 10⟩⟩ := by
    refine ⟨rfl, by decide, ?_, rfl⟩
    refine (Token.Nested.word_iff (by decide) (by decide)).mpr ?_
    refine (Token.Nested.opening_iff rfl).mpr ?_
    refine (Token.Nested.word_iff (by decide) (by decide)).mpr ?_
    exact (Token.Nested.closing_iff rfl).mpr ⟨0, rfl, .nil⟩
  obtain ⟨xs, -, ends⟩ := (group_synchronised (t := t) rfl 1).1 _ _ closes
  have read := ends ⟨.parameters p, [.plain], []⟩ (.parameter p) rfl rfl
  obtain ⟨inner, leaves⟩ := read.leaves
  have complaints := congrArg (List.reverse ∘ State.complaints) leaves
  simp only [Function.comp_apply, State.leave_complaints, List.append_nil,
    List.reverse_reverse] at complaints
  obtain rfl : _ = xs := complaints
  exact ⟨rfl, read⟩

end TypedCommands.Parser
