import Mathlib.Data.List.Forall2
import TypedCommands.Proofs.Groups

/-! Two runs of the parser side by side, over tokens of the same kinds. What the parser does next
depends on its phase, on the sorts of the open groups and on their number; what it has read and
where that stands is only handed on. So the runs make the same complaints at the same tokens, even
if the outermost groups differ, as long as these stay open. -/
namespace TypedCommands

namespace Complaint

/-- The same complaint about another token. -/
def about (x : Complaint) (t : Token) : Complaint :=
  match x with
  | .expected what _ => .expected what t
  | .tooDeep _ => .tooDeep t
  | .invalid _ => .invalid t

@[simp] theorem token_about (x : Complaint) (t : Token) : (x.about t).token = t := by
  cases x <;> rfl

@[simp] theorem kind_about (x : Complaint) (t : Token) : (x.about t).kind = x.kind := by
  cases x <;> rfl

@[simp] theorem about_token (x : Complaint) : x.about x.token = x := by cases x <;> rfl

/-- The complaint of one run next to that of the other, about tokens that stand next to each
other. -/
def Beside (pairs : Token → Token → Prop) (x y : Complaint) : Prop :=
  pairs x.token y.token ∧ y = x.about y.token

end Complaint

namespace Parser

/-- The same phase, whatever was read in it and whichever group it belongs to. -/
inductive Phase.Alike : Phase → Phase → Prop where
  | head : Alike .head .head
  | parameters {p q : Partial} : Alike (.parameters p) (.parameters q)
  | close {g h : Group} {c d : Option Command} (read : c.isSome = d.isSome) :
      Alike (.close g c) (.close h d)
  | skip {g h : Group} {n : Nat} {c d : Option Command} (read : c.isSome = d.isSome) :
      Alike (.skip g n c) (.skip h n d)
  | complete {c d : Command} : Alike (.complete c) (.complete d)
  | trailing : Alike .trailing .trailing

/-- As many groups, and of the same sorts, except that the outermost `n` may be of any. -/
inductive GroupsAlike (n : Nat) : List Group → List Group → Prop where
  | outermost {gs hs : List Group} (left : gs.length = n) (right : hs.length = n) :
      GroupsAlike n gs hs
  | plain {gs hs : List Group} (rest : GroupsAlike n gs hs) :
      GroupsAlike n (.plain :: gs) (.plain :: hs)
  | parameter {gs hs : List Group} {p q : Partial} (rest : GroupsAlike n gs hs) :
      GroupsAlike n (.parameter p :: gs) (.parameter q :: hs)

theorem GroupsAlike.length_eq {n : Nat} {gs hs : List Group} (h : GroupsAlike n gs hs) :
    gs.length = hs.length := by
  induction h with
  | outermost left right => exact left.trans right.symm
  | plain _ ih => rw [List.length_cons, List.length_cons, ih]
  | parameter _ ih => rw [List.length_cons, List.length_cons, ih]

/-- What is complained about at a token of one run is complained about next to it in the other. -/
inductive AddsAlike (t u : Token) (old old' : List Complaint) :
    List Complaint → List Complaint → Prop where
  | none : AddsAlike t u old old' old old'
  | one {x : Complaint} (about : x.token = t) :
      AddsAlike t u old old' (x :: old) (x.about u :: old')

namespace State

/-- States from which the parser goes on alike, as long as the outermost `n` groups stay open. -/
structure Alike (n : Nat) (s s' : State) : Prop where
  phase : s.phase.Alike s'.phase
  groups : GroupsAlike n s.groups s'.groups

/-- One step of each run, at `t` and at `u`. -/
structure StepAlike (n : Nat) (t u : Token) (s s' r r' : State) : Prop where
  adds : AddsAlike t u s.complaints s'.complaints r.complaints r'.complaints
  alike : n ≤ r.groups.length → Alike n r r'

variable {n : Nat} {s s' : State} {t u : Token} {g h : Group} {outer outer' : List Group}
variable {c d : Option Command}

theorem leave_alike (groups : GroupsAlike n (g :: outer) (h :: outer'))
    (read : c.isSome = d.isSome) (deep : n ≤ (s.leave outer g c).groups.length) :
    Alike n (s.leave outer g c) (s'.leave outer' h d) := by
  rw [leave_groups] at deep
  cases groups with
  | outermost left right =>
    rw [List.length_cons] at left
    omega
  | plain rest =>
    have lengths := rest.length_eq
    cases outer with
    | nil =>
      obtain rfl : outer' = [] := List.eq_nil_of_length_eq_zero lengths.symm
      match c, d, read with
      | none, none, _ => exact ⟨.trailing, rest⟩
      | some c, some d, _ => exact ⟨.complete, rest⟩
    | cons g' gs =>
      cases outer' with
      | nil => cases lengths
      | cons h' hs => exact ⟨.close read, rest⟩
  | parameter rest =>
    match c, d, read with
    | none, none, _ => exact ⟨.parameters, rest⟩
    | some c, some d, _ => exact ⟨.parameters, rest⟩

theorem leave_stepAlike (s s' : State) (groups : GroupsAlike n (g :: outer) (h :: outer'))
    (read : c.isSome = d.isSome) :
    StepAlike n t u s s' (s.leave outer g c) (s'.leave outer' h d) where
  adds := by
    rw [leave_complaints, leave_complaints]
    exact .none
  alike := leave_alike groups read

theorem enter_stepAlike (s s' : State) (groups : GroupsAlike n (g :: s.outer) (h :: s'.outer)) :
    StepAlike n t u s s' (s.enter g t) (s'.enter h u) := by
  have lengths : s.outer.length = s'.outer.length := Nat.succ.inj groups.length_eq
  unfold enter
  rw [lengths]
  split
  · exact ⟨.none, fun _ => ⟨.head, groups⟩⟩
  · exact ⟨.one rfl, fun _ => ⟨.skip rfl, groups⟩⟩

theorem closeAt_stepAlike (s s' : State) (groups : GroupsAlike n (g :: outer) (h :: outer'))
    (kinds : t.kind = u.kind) (read : c.isSome = d.isSome) :
    StepAlike n t u s s' (s.closeAt outer g c t) (s'.closeAt outer' h d u) := by
  unfold closeAt
  rw [kinds]
  split
  · exact leave_stepAlike s s' groups read
  · exact ⟨.one rfl, fun _ => ⟨.skip read, groups⟩⟩
  · exact ⟨.one rfl, fun _ => ⟨.skip read, groups⟩⟩

/-- At tokens of one kind states that are alike complain alike, and stay alike. -/
theorem step_stepAlike (alike : Alike n s s') (kinds : t.kind = u.kind) :
    StepAlike n t u s s' (s.step t) (s'.step u) := by
  obtain ⟨phase, outer, complaints⟩ := s
  obtain ⟨phase', outer', complaints'⟩ := s'
  obtain ⟨phases, groups⟩ := alike
  dsimp only at phases
  cases phases with
  | head =>
    -- What is due and does not come is passed over in other ways where no group is open.
    match outer, outer', GroupsAlike.length_eq groups with
    | [], [], _ =>
      cases hk : u.kind <;> simp only [step, kinds, hk]
      case opening => exact enter_stepAlike ⟨_, _, _⟩ ⟨_, _, _⟩ (.plain groups)
      case identifier name => exact ⟨.none, fun _ => ⟨.parameters, groups⟩⟩
      all_goals exact ⟨.one rfl, fun _ => ⟨.trailing, groups⟩⟩
    | g :: gs, h :: hs, _ =>
      cases hk : u.kind <;> simp only [step, kinds, hk]
      case opening => exact enter_stepAlike ⟨_, _, _⟩ ⟨_, _, _⟩ (.plain groups)
      case identifier name => exact ⟨.none, fun _ => ⟨.parameters, groups⟩⟩
      case closing =>
        refine ⟨?_, leave_alike groups rfl⟩
        rw [leave_complaints, leave_complaints]
        exact .one rfl
      all_goals exact ⟨.one rfl, fun _ => ⟨.close rfl, groups⟩⟩
  | parameters =>
    match outer, outer', GroupsAlike.length_eq groups with
    | [], [], _ =>
      cases hk : u.kind <;> simp only [step, kinds, hk]
      case opening => exact enter_stepAlike ⟨_, _, _⟩ ⟨_, _, _⟩ (.parameter groups)
      case literal value => exact ⟨.none, fun _ => ⟨.parameters, groups⟩⟩
      all_goals exact ⟨.one rfl, fun _ => ⟨.trailing, groups⟩⟩
    | g :: gs, h :: hs, _ =>
      cases hk : u.kind <;> simp only [step, kinds, hk]
      case opening => exact enter_stepAlike ⟨_, _, _⟩ ⟨_, _, _⟩ (.parameter groups)
      case literal value => exact ⟨.none, fun _ => ⟨.parameters, groups⟩⟩
      all_goals exact closeAt_stepAlike ⟨_, _, _⟩ ⟨_, _, _⟩ groups kinds rfl
  | close read => exact closeAt_stepAlike ⟨_, _, _⟩ ⟨_, _, _⟩ groups kinds read
  | @skip _ _ opened _ _ read =>
    cases hk : u.kind <;> simp only [step, kinds, hk]
    case closing =>
      cases opened with
      | zero => exact leave_stepAlike ⟨_, _, _⟩ ⟨_, _, _⟩ groups read
      | succ m => exact ⟨.none, fun _ => ⟨.skip read, groups⟩⟩
    case invalid reason => exact ⟨.one rfl, fun _ => ⟨.skip read, groups⟩⟩
    all_goals exact ⟨.none, fun _ => ⟨.skip read, groups⟩⟩
  | complete => exact ⟨.one rfl, fun _ => ⟨.trailing, groups⟩⟩
  | trailing =>
    have invalid : t.isInvalid = u.isInvalid := by simp only [Token.isInvalid, kinds]
    simp only [step, invalid]
    split
    · exact ⟨.one rfl, fun _ => ⟨.trailing, groups⟩⟩
    · exact ⟨.none, fun _ => ⟨.trailing, groups⟩⟩

/-- Whatever stays open, the runs go on alike, and make the same complaints about tokens that stand
next to each other. -/
theorem foldl_alike {pairs : Token → Token → Prop} {ts us : List Token}
    (same : List.Forall₂ (fun t u => t.kind = u.kind ∧ pairs t u) ts us) (alike : Alike n s s')
    (deep : ∀ front, front <+: ts → n ≤ (front.foldl step s).groups.length) :
    Alike n (ts.foldl step s) (us.foldl step s') ∧ ∃ xs ys,
      (ts.foldl step s).complaints = xs.reverse ++ s.complaints ∧
      (us.foldl step s').complaints = ys.reverse ++ s'.complaints ∧
      List.Forall₂ (Complaint.Beside pairs) xs ys := by
  induction same generalizing s s' with
  | nil => exact ⟨alike, [], [], rfl, rfl, .nil⟩
  | @cons t u ts us same rest ih =>
    have deep' : n ≤ (s.step t).groups.length := deep [t] ⟨ts, rfl⟩
    obtain ⟨first, alike⟩ := step_stepAlike alike same.1
    obtain ⟨alike', xs, ys, hxs, hys, beside⟩ := ih (alike deep')
      fun front hf => deep (t :: front) ((List.prefix_cons_inj t).mpr hf)
    refine ⟨alike', ?_⟩
    rw [List.foldl_cons, List.foldl_cons, hxs, hys]
    generalize (s.step t).complaints = old, (s'.step u).complaints = old' at first
    cases first with
    | none => exact ⟨xs, ys, rfl, rfl, beside⟩
    | @one x about =>
      refine ⟨x :: xs, x.about u :: ys, by simp, by simp, .cons ⟨?_, ?_⟩ beside⟩
      · rw [about, Complaint.token_about]
        exact same.2
      · rw [Complaint.token_about]

/-- What is missing at the end is the same. -/
theorem unfinished_alike (alike : Alike n s s') :
    s'.unfinished u = (s.unfinished t).map (·.about u) := by
  obtain ⟨phase, outer, complaints⟩ := s
  obtain ⟨phase', outer', complaints'⟩ := s'
  obtain ⟨phases, groups⟩ := alike
  have lengths := groups.length_eq
  dsimp only at phases
  cases phases with
  | head => simp only [unfinished, show outer.length = outer'.length from lengths, List.map_cons,
      List.map_replicate, Complaint.about]
  | parameters => simp only [unfinished, show outer.length = outer'.length from lengths,
      List.map_replicate, Complaint.about]
  | close => simp only [unfinished, show outer.length = outer'.length from Nat.succ.inj lengths,
      List.map_replicate, Complaint.about]
  | skip => simp only [unfinished, show outer.length = outer'.length from Nat.succ.inj lengths,
      List.map_replicate, Complaint.about]
  | complete => rfl
  | trailing => rfl

end State

/-- Complaints about the same tokens are the same. -/
theorem eq_of_beside {xs ys : List Complaint} (h : List.Forall₂ (Complaint.Beside Eq) xs ys) :
    xs = ys := by
  refine List.forall₂_eq_eq_eq ▸ h.imp fun x y beside => ?_
  rw [beside.2, ← beside.1, Complaint.about_token]

end Parser
end TypedCommands
