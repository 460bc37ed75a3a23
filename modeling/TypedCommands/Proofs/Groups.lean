import TypedCommands.Proofs.Prefixes

/-! Which groups are open. A token opens a group or closes one, in the count of parentheses too
while the rest of a group is passed over, and else leaves the groups as they are. So whatever is
wrong within a group, it ends at the parenthesis that matches its own. -/
namespace TypedCommands

namespace Token

/-- No parenthesis closes more than `n` groups that were open before. -/
def Nested (n : Nat) (ts : List Token) : Prop :=
  ∀ front, front <+: ts → closings front ≤ n + openings front

namespace Nested

variable {n : Nat} {t : Token} {ts us : List Token}

theorem nil : Nested n [] := by
  intro front h
  rw [List.prefix_nil.mp h]
  exact Nat.zero_le _

theorem of_prefix (h : Nested n ts) (front : us <+: ts) : Nested n us :=
  fun vs hv => h vs (hv.trans front)

theorem cons_iff : Nested n (t :: ts) ↔
    ∀ front, front <+: ts → closings (t :: front) ≤ n + openings (t :: front) := by
  constructor
  · intro h front hf
    exact h _ ((List.prefix_cons_inj t).mpr hf)
  · intro h front hf
    rcases List.prefix_cons_iff.mp hf with rfl | ⟨vs, rfl, hv⟩
    · exact Nat.zero_le _
    · exact h vs hv

theorem opening_iff (opening : t.kind = .opening) : Nested n (t :: ts) ↔ Nested (n + 1) ts := by
  rw [cons_iff]
  refine forall₂_congr fun front _ => ?_
  simp only [openings_cons, closings_cons, opening, if_true, reduceCtorEq, if_false]
  omega

theorem closing_iff (closing : t.kind = .closing) :
    Nested n (t :: ts) ↔ ∃ m, n = m + 1 ∧ Nested m ts := by
  have shift (m : Nat) : Nested (m + 1) (t :: ts) ↔ Nested m ts := by
    rw [cons_iff]
    refine forall₂_congr fun front _ => ?_
    simp only [openings_cons, closings_cons, closing, if_true, reduceCtorEq, if_false]
    omega
  constructor
  · intro h
    have first : closings [t] ≤ n + openings [t] := h [t] ⟨ts, rfl⟩
    simp only [openings_cons, closings_cons, closing, if_true, reduceCtorEq, if_false,
      openings_nil, closings_nil] at first
    obtain ⟨m, rfl⟩ : ∃ m, n = m + 1 := ⟨n - 1, by omega⟩
    exact ⟨m, rfl, (shift m).mp h⟩
  · rintro ⟨m, rfl, h⟩
    exact (shift m).mpr h

theorem word_iff (opening : t.kind ≠ .opening) (closing : t.kind ≠ .closing) :
    Nested n (t :: ts) ↔ Nested n ts := by
  rw [cons_iff]
  refine forall₂_congr fun front _ => ?_
  simp only [openings_cons, closings_cons, opening, closing, if_false, Nat.add_zero]

end Nested

/-- The parenthesis is the one that matches one in front of the tokens. -/
structure Closes (ts : List Token) (u : Token) : Prop where
  closing : u.kind = .closing
  words : ∀ t ∈ ts, t.isFinish = false
  nested : Nested 0 ts
  balanced : openings ts = closings ts

/-- Of so many open groups the outermost is closed somewhere or nowhere among the tokens. -/
theorem nested_or_closes (n : Nat) (ts : List Token) :
    Nested n ts ∨ ∃ front u back, ts = front ++ u :: back ∧ u.kind = .closing ∧ Nested n front ∧
      closings front = n + openings front := by
  induction ts generalizing n with
  | nil => exact .inl .nil
  | cons t ts ih =>
    by_cases opening : t.kind = .opening
    · rcases ih (n + 1) with nested | ⟨front, u, back, rfl, closing, nested, balanced⟩
      · exact .inl ((Nested.opening_iff opening).mpr nested)
      · refine .inr ⟨t :: front, u, back, rfl, closing, (Nested.opening_iff opening).mpr nested, ?_⟩
        simp only [openings_cons, closings_cons, opening, if_true, reduceCtorEq, if_false]
        omega
    · by_cases closing : t.kind = .closing
      · cases n with
        | zero => exact .inr ⟨[], t, ts, rfl, closing, .nil, rfl⟩
        | succ n =>
          rcases ih n with nested | ⟨front, u, back, rfl, closing', nested, balanced⟩
          · exact .inl ((Nested.closing_iff closing).mpr ⟨n, rfl, nested⟩)
          · refine .inr ⟨t :: front, u, back, rfl, closing',
              (Nested.closing_iff closing).mpr ⟨n, rfl, nested⟩, ?_⟩
            simp only [openings_cons, closings_cons, closing, if_true, reduceCtorEq, if_false]
            omega
      · rcases ih n with nested | ⟨front, u, back, rfl, closing', nested, balanced⟩
        · exact .inl ((Nested.word_iff opening closing).mpr nested)
        · refine .inr ⟨t :: front, u, back, rfl, closing',
            (Nested.word_iff opening closing).mpr nested, ?_⟩
          simpa only [openings_cons, closings_cons, opening, closing, if_false, Nat.add_zero]
            using balanced

end Token

namespace Parser

/-- The groups that are open, the innermost first. -/
def State.groups (s : State) : List Group :=
  match s.phase with
  | .head | .parameters _ => s.outer
  | .close g _ | .skip g _ _ => g :: s.outer
  | .complete _ | .trailing => []

/-- The parentheses that were opened while the rest of a group was passed over. -/
def State.opened (s : State) : Nat :=
  match s.phase with
  | .skip _ n _ => n
  | _ => 0

/-- All parentheses that have been opened and not been closed. -/
def State.depth (s : State) : Nat := s.groups.length + s.opened

/-- What a token does to the open groups of one state in the next. -/
inductive Shifts (t : Token) (s s' : State) : Prop where
  | enter {g : Group} (opening : t.kind = .opening) (groups : s'.groups = g :: s.groups)
      (before : s.opened = 0) (after : s'.opened = 0)
  | deepen (opening : t.kind = .opening) (groups : s'.groups = s.groups)
      (opened : s'.opened = s.opened + 1)
  | rise (closing : t.kind = .closing) (groups : s'.groups = s.groups)
      (opened : s.opened = s'.opened + 1)
  | leave {g : Group} (closing : t.kind = .closing) (groups : s.groups = g :: s'.groups)
      (before : s.opened = 0) (after : s'.opened = 0)
  | stay (word : t.kind ≠ .opening ∧ t.kind ≠ .closing) (groups : s'.groups = s.groups)
      (opened : s'.opened = s.opened)

namespace State

@[simp] theorem leave_groups (s : State) (outer : List Group) (g : Group)
    (inner : Option Command) : (s.leave outer g inner).groups = outer := by
  unfold leave
  split <;> rfl

@[simp] theorem leave_opened (s : State) (outer : List Group) (g : Group)
    (inner : Option Command) : (s.leave outer g inner).opened = 0 := by
  unfold leave
  split <;> rfl

@[simp] theorem enter_groups (s : State) (g : Group) (t : Token) :
    (s.enter g t).groups = g :: s.outer := by
  unfold enter
  split <;> rfl

@[simp] theorem enter_opened (s : State) (g : Group) (t : Token) : (s.enter g t).opened = 0 := by
  unfold enter
  split <;> rfl

/-- Leaving a group depends on the state for the complaints only. -/
theorem leave_congr {s s' : State} (same : s.complaints = s'.complaints) (outer : List Group)
    (g : Group) (inner : Option Command) : s.leave outer g inner = s'.leave outer g inner := by
  obtain ⟨phase, around, complaints⟩ := s
  obtain ⟨phase', around', complaints'⟩ := s'
  obtain rfl : complaints = complaints' := same
  unfold leave
  split <;> rfl

theorem closeAt_shifts {s s' : State} {outer : List Group} {g : Group} {inner : Option Command}
    {t : Token} (groups : s'.groups = g :: outer) (opened : s'.opened = 0) :
    Shifts t s' (s.closeAt outer g inner t) := by
  unfold closeAt
  split
  · rename_i closing
    exact .leave closing (by rw [leave_groups, groups]) opened (leave_opened ..)
  · rename_i opening
    exact .deepen opening groups.symm (by rw [opened]; rfl)
  · rename_i closing opening
    exact .stay ⟨opening, closing⟩ groups.symm opened.symm

/-- Within a group every parenthesis counts, whatever the parser is doing. -/
theorem step_shifts {s : State} (within : s.groups ≠ []) (t : Token) : Shifts t s (s.step t) := by
  obtain ⟨phase, outer, complaints⟩ := s
  cases phase with
  | head =>
    obtain ⟨g, gs, rfl⟩ : ∃ g gs, outer = g :: gs := List.exists_cons_of_ne_nil within
    cases hk : t.kind <;> simp only [step, hk]
    case opening => exact .enter hk (enter_groups ..) rfl (enter_opened ..)
    case closing => exact .leave hk (congrArg _ (leave_groups ..).symm) rfl (leave_opened ..)
    all_goals exact .stay (by simp [hk]) rfl rfl
  | parameters p =>
    obtain ⟨g, gs, rfl⟩ : ∃ g gs, outer = g :: gs := List.exists_cons_of_ne_nil within
    cases hk : t.kind <;> simp only [step, hk]
    case opening => exact .enter hk (enter_groups ..) rfl (enter_opened ..)
    case literal value => exact .stay (by simp [hk]) rfl rfl
    all_goals exact closeAt_shifts rfl rfl
  | close g inner => exact closeAt_shifts rfl rfl
  | skip g opened inner =>
    cases hk : t.kind <;> simp only [step, hk]
    case opening => exact .deepen hk rfl rfl
    case closing =>
      cases opened with
      | zero => exact .leave hk (congrArg _ (leave_groups ..).symm) rfl (leave_opened ..)
      | succ n => exact .rise hk rfl rfl
    all_goals exact .stay (by simp [hk]) rfl rfl
  | complete c => exact absurd rfl within
  | trailing => exact absurd rfl within

end State

namespace Shifts

variable {t : Token} {s s' : State} {base : List Group}

theorem depth (h : Shifts t s s') :
    s'.depth + Token.closings [t] = s.depth + Token.openings [t] := by
  simp only [Token.openings_cons, Token.closings_cons, Token.openings_nil, Token.closings_nil,
    State.depth]
  cases h with
  | enter opening groups before after =>
    simp only [opening, if_true, reduceCtorEq, if_false, groups, List.length_cons]
    omega
  | deepen opening groups opened =>
    simp only [opening, if_true, reduceCtorEq, if_false, groups]
    omega
  | rise closing groups opened =>
    simp only [closing, if_true, reduceCtorEq, if_false, groups]
    omega
  | leave closing groups before after =>
    simp only [closing, if_true, reduceCtorEq, if_false, groups, List.length_cons]
    omega
  | stay word groups opened =>
    simp only [word, if_false, groups, opened]

/-- The outermost groups stay open until there are no others to close. -/
theorem within (h : Shifts t s s') (open_ : base <:+ s.groups)
    (deep : t.kind = .closing → base.length < s.depth) : base <:+ s'.groups := by
  cases h with
  | enter opening groups => exact groups ▸ open_.trans (List.suffix_cons _ _)
  | deepen opening groups => exact groups ▸ open_
  | rise closing groups => exact groups ▸ open_
  | stay word groups => exact groups ▸ open_
  | leave closing groups before =>
    have long := deep closing
    rw [State.depth, before] at long
    rw [groups] at open_ long
    rcases List.suffix_cons_iff.mp open_ with rfl | open_
    · exact absurd long (Nat.lt_irrefl _)
    · exact open_

end Shifts

namespace State

variable {s : State} {base : List Group} {n : Nat} {ts : List Token}

/-- As long as no parenthesis closes one of the outermost groups, they stay open, and all others are
counted. -/
theorem foldl_within (nonempty : base ≠ []) (open_ : base <:+ s.groups)
    (depth : s.depth = base.length + n) (nested : Token.Nested n ts) :
    base <:+ (ts.foldl step s).groups ∧
      (ts.foldl step s).depth + Token.closings ts = base.length + n + Token.openings ts := by
  induction ts generalizing s n with
  | nil => exact ⟨open_, by simpa using depth⟩
  | cons t ts ih =>
    have shifts := step_shifts (s := s) (fun h => nonempty (List.suffix_nil.mp (h ▸ open_))) t
    have first : Token.closings [t] ≤ n + Token.openings [t] := nested [t] ⟨ts, rfl⟩
    -- Behind the first token the others may close as many groups as it has left open.
    obtain ⟨m, count, rest⟩ : ∃ m, m + Token.closings [t] = n + Token.openings [t] ∧
        Token.Nested m ts := by
      refine ⟨n + Token.openings [t] - Token.closings [t], Nat.sub_add_cancel first, ?_⟩
      intro front hf
      have whole := nested (t :: front) ((List.prefix_cons_inj t).mpr hf)
      rw [← List.singleton_append, Token.openings_append, Token.closings_append] at whole
      omega
    have open' : base <:+ (s.step t).groups := by
      refine shifts.within open_ fun closing => ?_
      simp only [Token.openings_cons, Token.closings_cons, closing, if_true, reduceCtorEq, if_false,
        Token.openings_nil, Token.closings_nil] at first
      omega
    have depth' := shifts.depth
    obtain ⟨still, total⟩ := ih open' (show (s.step t).depth = base.length + m by omega) rest
    refine ⟨still, ?_⟩
    rw [List.foldl_cons, ← List.singleton_append, Token.openings_append, Token.closings_append]
    omega

/-- The parenthesis that is read when no other group is open ends the group. -/
theorem step_leaves {g : Group} {outer : List Group} {u : Token} (groups : s.groups = g :: outer)
    (opened : s.opened = 0) (closing : u.kind = .closing) :
    ∃ inner, s.step u = { s with complaints := (s.step u).complaints }.leave outer g inner := by
  suffices ends : ∃ (s' : State) (inner : Option Command), s.step u = s'.leave outer g inner by
    obtain ⟨s', inner, h⟩ := ends
    refine ⟨inner, h.trans (leave_congr ?_ ..)⟩
    rw [h, leave_complaints]
  obtain ⟨phase, around, complaints⟩ := s
  cases phase with
  | head =>
    obtain rfl : around = g :: outer := groups
    simp only [step, closing]
    exact ⟨_, _, rfl⟩
  | parameters p =>
    obtain rfl : around = g :: outer := groups
    simp only [step, closeAt, closing]
    exact ⟨_, _, rfl⟩
  | close g' inner =>
    obtain ⟨rfl, rfl⟩ := List.cons.inj groups
    simp only [step, closeAt, closing]
    exact ⟨_, _, rfl⟩
  | skip g' n inner =>
    obtain ⟨rfl, rfl⟩ := List.cons.inj groups
    obtain rfl : n = 0 := opened
    simp only [step, closing]
    exact ⟨_, _, rfl⟩
  | complete c => cases groups
  | trailing => cases groups

end State

end Parser
end TypedCommands
