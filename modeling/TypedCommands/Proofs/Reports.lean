import TypedCommands.Proofs.Blame
import TypedCommands.Proofs.Order

/-! Which tokens of a text are reported. The parser looks at each token once. What it makes of a
token is at most one complaint about that token, and of an invalid token it is always one, whatever
the parser is doing at the time. Only the end of the text can be reported again and again: once as
the place where a command is due, and once for each open group. -/
namespace TypedCommands

/-- The message tells what the token is. -/
def Complaint.describes : Complaint → Bool
  | .expected .. | .invalid _ => true
  | .tooDeep _ => false

namespace Parser

theorem Adds.eq_or {t : Token} {old new : List Complaint} (h : Adds t old new) :
    new = old ∨ ∃ x : Complaint, x.token = t ∧ new = x :: old := by
  cases h with
  | none => exact .inl rfl
  | one about => exact .inr ⟨_, about, rfl⟩

namespace State

/-- In every phase an invalid token is complained about. -/
theorem step_invalid (s : State) {t : Token} {reason : String} (kind : t.kind = .invalid reason) :
    ∃ x : Complaint, x.token = t ∧ x.describes = true ∧
      (s.step t).complaints = x :: s.complaints := by
  obtain ⟨phase, outer, complaints⟩ := s
  cases phase with
  | head =>
    cases outer with
    | nil => exact ⟨.expected .command t, rfl, rfl, by simp only [step, kind, complain]⟩
    | cons g gs => exact ⟨.expected .command t, rfl, rfl, by simp only [step, kind, complain]⟩
  | parameters p =>
    cases outer with
    | nil => exact ⟨.expected .endOfInput t, rfl, rfl, by simp only [step, kind, complain]⟩
    | cons g gs =>
      exact ⟨.expected .closing t, rfl, rfl, by simp only [step, closeAt, kind, complain]⟩
  | close g inner =>
    exact ⟨.expected .closing t, rfl, rfl, by simp only [step, closeAt, kind, complain]⟩
  | skip g opened inner => exact ⟨.invalid t, rfl, rfl, by simp only [step, kind, complain]⟩
  | complete c => exact ⟨.expected .endOfInput t, rfl, rfl, rfl⟩
  | trailing =>
    exact ⟨.invalid t, rfl, rfl, by simp only [step, Token.isInvalid, kind, if_true, complain]⟩

/-- No more groups are open than may be. Without a fault so far, a group whose command was itself
a group is not even the last one that may be. -/
def Roomy (s : State) : Prop :=
  match s.phase with
  | .close .. => s.outer.length + 2 ≤ maxDepth ∨
      s.complaints ≠ [] ∧ s.outer.length + 1 ≤ maxDepth
  | .skip .. => s.complaints ≠ [] ∧ s.outer.length ≤ maxDepth
  | _ => s.outer.length ≤ maxDepth

theorem leave_roomy {s : State} {outer : List Group} {g : Group} {inner : Option Command}
    (h : outer.length + 1 ≤ maxDepth ∨ s.complaints ≠ [] ∧ outer.length ≤ maxDepth) :
    (s.leave outer g inner).Roomy := by
  unfold leave
  split
  · simp only [Roomy]
    omega
  · simp only [Roomy]
    omega
  · simp only [Roomy, List.length_cons] at h ⊢
    omega
  · exact Nat.zero_le _
  · exact Nat.zero_le _

theorem enter_roomy {s : State} {g : Group} {t : Token} (h : s.outer.length ≤ maxDepth) :
    (s.enter g t).Roomy := by
  unfold enter
  split
  · simp only [Roomy, List.length_cons]
    omega
  · exact ⟨List.cons_ne_nil _ _, h⟩

theorem closeAt_roomy {s : State} {outer : List Group} {g : Group} {inner : Option Command}
    {t : Token} (h : outer.length + 1 ≤ maxDepth) : (s.closeAt outer g inner t).Roomy := by
  unfold closeAt
  split
  · exact leave_roomy (.inl h)
  · exact ⟨List.cons_ne_nil _ _, Nat.le_of_succ_le h⟩
  · exact ⟨List.cons_ne_nil _ _, Nat.le_of_succ_le h⟩

theorem step_roomy {s : State} (h : s.Roomy) (t : Token) : (s.step t).Roomy := by
  obtain ⟨phase, outer, complaints⟩ := s
  cases phase with
  | head =>
    have room : outer.length ≤ maxDepth := h
    simp only [step]
    split
    · exact room
    · exact enter_roomy room
    · exact Nat.zero_le _
    · simp only [List.length_cons] at room
      exact leave_roomy (.inr ⟨List.cons_ne_nil _ _, Nat.le_of_succ_le room⟩)
    · exact .inr ⟨List.cons_ne_nil _ _, room⟩
  | parameters p =>
    have room : outer.length ≤ maxDepth := h
    simp only [step]
    split
    · exact room
    · exact enter_roomy room
    · exact closeAt_roomy room
    · exact Nat.zero_le _
  | close g inner =>
    have room : outer.length + 1 ≤ maxDepth := by
      simp only [Roomy] at h
      omega
    exact closeAt_roomy room
  | skip g opened inner =>
    obtain ⟨faulty, room⟩ : complaints ≠ [] ∧ outer.length ≤ maxDepth := h
    simp only [step]
    split
    · exact ⟨faulty, room⟩
    · exact leave_roomy (.inr ⟨faulty, room⟩)
    · exact ⟨faulty, room⟩
    · exact ⟨List.cons_ne_nil _ _, room⟩
    · exact ⟨faulty, room⟩
  | complete c => exact h
  | trailing =>
    simp only [step]
    split
    · exact h
    · exact h

theorem foldl_roomy {s : State} (h : s.Roomy) (ts : List Token) : (ts.foldl step s).Roomy := by
  induction ts generalizing s with
  | nil => exact h
  | cons t ts ih => exact ih (step_roomy h t)

/-- The end of the text is reported for a command that is due and for the open groups. -/
theorem unfinished_length {s : State} (h : s.Roomy) (t : Token) :
    (s.unfinished t).length ≤ maxDepth + 1 := by
  obtain ⟨phase, outer, complaints⟩ := s
  cases phase with
  | close g inner =>
    simp only [Roomy, unfinished, List.length_replicate] at h ⊢
    omega
  | head =>
    simp only [Roomy, unfinished, List.length_cons, List.length_replicate] at h ⊢
    omega
  | parameters p =>
    simp only [Roomy, unfinished, List.length_replicate] at h ⊢
    omega
  | skip g opened inner =>
    simp only [Roomy, unfinished, List.length_replicate] at h ⊢
    omega
  | complete c => exact Nat.zero_le _
  | trailing => exact Nat.zero_le _

end State

/-- A step passes over its token or complains about it, and never passes over an invalid one. -/
theorem State.step_reports (s : State) (t : Token) :
    (t.isInvalid = false ∧ (s.step t).complaints = s.complaints) ∨
      ∃ x : Complaint, x.token = t ∧ (t.isInvalid = true → x.describes = true) ∧
        (s.step t).complaints = x :: s.complaints := by
  cases hk : t.isInvalid with
  | true =>
    obtain ⟨reason, kind⟩ : ∃ reason, t.kind = .invalid reason := by
      unfold Token.isInvalid at hk
      split at hk
      · exact ⟨_, ‹_›⟩
      · cases hk
    obtain ⟨x, about, described, hx⟩ := s.step_invalid kind
    exact .inr ⟨x, about, fun _ => described, hx⟩
  | false =>
    rcases (s.step_adds t).eq_or with hx | ⟨x, about, hx⟩
    · exact .inl ⟨rfl, hx⟩
    · exact .inr ⟨x, about, nofun, hx⟩

/-- The complaints are about some of the tokens, in their order and one about each. What is passed
over is not invalid, and what is invalid is described. -/
inductive Reports : List Token → List Complaint → Prop where
  | nil : Reports [] []
  | pass {t : Token} {ts : List Token} {xs : List Complaint} (valid : t.isInvalid = false)
      (rest : Reports ts xs) : Reports (t :: ts) xs
  | report {t : Token} {x : Complaint} {ts : List Token} {xs : List Complaint}
      (about : x.token = t) (described : t.isInvalid = true → x.describes = true)
      (rest : Reports ts xs) : Reports (t :: ts) (x :: xs)

namespace Reports

theorem sublist {ts : List Token} {xs : List Complaint} (h : Reports ts xs) :
    (xs.map Complaint.token).Sublist ts := by
  induction h with
  | nil => exact .slnil
  | pass _ _ ih => exact ih.cons _
  | report about _ _ ih =>
    rw [List.map_cons, about]
    exact ih.cons_cons _

theorem exists_of_invalid {ts : List Token} {xs : List Complaint} (h : Reports ts xs) {t : Token}
    (mem : t ∈ ts) (invalid : t.isInvalid = true) :
    ∃ x ∈ xs, x.token = t ∧ x.describes = true := by
  induction h with
  | nil => exact absurd mem List.not_mem_nil
  | pass valid rest ih =>
    rcases List.mem_cons.mp mem with rfl | mem
    · rw [valid] at invalid
      cases invalid
    · exact ih mem
  | report about described rest ih =>
    rcases List.mem_cons.mp mem with rfl | mem
    · exact ⟨_, List.mem_cons_self, about, described invalid⟩
    · obtain ⟨x, hx, hd⟩ := ih mem
      exact ⟨x, List.mem_cons_of_mem _ hx, hd⟩

end Reports

theorem foldl_reports (s : State) (ts : List Token) :
    ∃ xs, (ts.foldl State.step s).complaints = xs.reverse ++ s.complaints ∧ Reports ts xs := by
  induction ts generalizing s with
  | nil => exact ⟨[], rfl, .nil⟩
  | cons t ts ih =>
    obtain ⟨xs, hxs, rest⟩ := ih (s.step t)
    rcases s.step_reports t with ⟨valid, hs⟩ | ⟨x, about, described, hs⟩
    · exact ⟨xs, by rw [List.foldl_cons, hxs, hs], .pass valid rest⟩
    · refine ⟨x :: xs, ?_, .report about described rest⟩
      rw [List.foldl_cons, hxs, hs, List.reverse_cons, List.append_assoc]
      rfl

/-- What is wrong, if anything is. -/
def complaintsOf : Except (List Complaint) Command → List Complaint
  | .ok _ => []
  | .error xs => xs

theorem complaintsOf_finish (s : State) (t : Token) :
    complaintsOf (s.finish t) = s.complaints.reverse ++ s.unfinished t := by
  unfold State.finish
  split
  · rename_i hx
    exact hx.symm
  · rfl

/-- All complaints: those about tokens before the end, and then those about the end. -/
theorem complaintsOf_run (ts : List Token) :
    ∃ xs ys, complaintsOf (run .initial ts) = xs ++ ys ∧ Reports (Token.body ts) xs ∧
      (∀ y ∈ ys, y.token = finishOf ts) ∧ ys.length ≤ maxDepth + 1 := by
  obtain ⟨xs, hxs, reports⟩ := foldl_reports .initial (Token.body ts)
  have roomy := State.foldl_roomy (s := .initial) (Nat.zero_le _) (Token.body ts)
  refine ⟨xs, _, ?_, reports, fun y => token_eq_of_mem_unfinished,
    State.unfinished_length roomy (finishOf ts)⟩
  rw [run_eq, complaintsOf_finish, hxs, List.reverse_append, List.reverse_reverse]
  rfl

end Parser

namespace Diagnostic

/-- The report is that the token cannot be read, or that something else was expected in its place,
and tells what the token is. -/
def Describes (d : Diagnostic) (t : Token) : Prop :=
  d.kind = .lexical ∧ d.message = t.describe ∨
    d.kind = .syntactic ∧ ∃ what : Expected,
      d.message = s!"expected {what.name} but found {t.describe}"

/-- The reports about one place. -/
def allAt (ds : List Diagnostic) (p : Position) : List Diagnostic :=
  ds.filter fun d => decide (d.position = p)

theorem allAt_append (ds es : List Diagnostic) (p : Position) :
    allAt (ds ++ es) p = allAt ds p ++ allAt es p := List.filter_append ..

theorem allAt_eq_nil {ds : List Diagnostic} {p : Position} (h : ∀ d ∈ ds, d.position ≠ p) :
    allAt ds p = [] := by
  refine List.filter_eq_nil_iff.mpr fun d hd => ?_
  simpa using h d hd

/-- Of reports in order each one is the only one about its place. -/
theorem allAt_of_mem {ds : List Diagnostic}
    (ordered : ds.Pairwise fun d e => d.position.Before e.position) {d : Diagnostic}
    (mem : d ∈ ds) : allAt ds d.position = [d] := by
  induction ds with
  | nil => exact absurd mem List.not_mem_nil
  | cons e es ih =>
    obtain ⟨before, rest⟩ := List.pairwise_cons.mp ordered
    rcases List.mem_cons.mp mem with rfl | mem
    · have hn : allAt es d.position = [] := by
        refine allAt_eq_nil fun e he hp => ?_
        have hb := before e he
        rw [hp] at hb
        exact hb.irrefl
      rw [allAt, List.filter_cons_of_pos (by simp)]
      exact congrArg (d :: ·) hn
    · have hne : e.position ≠ d.position := by
        intro hp
        have hb := before d mem
        rw [hp] at hb
        exact hb.irrefl
      rw [allAt, List.filter_cons_of_neg (by simpa using hne)]
      exact ih rest mem

theorem length_allAt_le_one {ds : List Diagnostic}
    (ordered : ds.Pairwise fun d e => d.position.Before e.position) (p : Position) :
    (allAt ds p).length ≤ 1 := by
  by_cases h : ∃ d ∈ ds, d.position = p
  · obtain ⟨d, mem, rfl⟩ := h
    rw [allAt_of_mem ordered mem]
    exact Nat.le_refl 1
  · rw [allAt_eq_nil fun d mem hp => h ⟨d, mem, hp⟩]
    exact Nat.zero_le 1

/-- The reports about some tokens. An invalid token has exactly one report and it is described
there, any other token has at most one, and the end of the text has at most one for each level of
nesting and one more. All reports are about tokens, and they are in the order of the tokens. -/
structure Cover (ts : List Token) (ds : List Diagnostic) : Prop where
  apart : ts.Pairwise fun t u => t.position.Before u.position
  invalid : ∀ t ∈ ts, t.isInvalid = true → ∃ d, allAt ds t.position = [d] ∧ d.Describes t
  word : ∀ t ∈ ts, t.isFinish = false → (allAt ds t.position).length ≤ 1
  finish : ∀ t ∈ ts, t.isFinish = true → (allAt ds t.position).length ≤ maxDepth + 1
  placed : ∀ d ∈ ds, ∃ t ∈ ts, t.position = d.position
  ordered : ds.Pairwise fun d e => d.position.Before e.position ∨
    d.position = e.position ∧ ∃ t ∈ ts, t.isFinish = true ∧ t.position = d.position

end Diagnostic

/-- The reports about a text; there are none if it holds a command. -/
def Command.diagnostics (source : String) : List Diagnostic :=
  match parse source with
  | .ok _ => []
  | .error ds => ds

theorem Complaint.diagnostic_describes {x : Complaint} (h : x.describes = true)
    (lines : List String) : (x.diagnostic.withLine lines).Describes x.token := by
  cases x with
  | expected what t => exact .inr ⟨rfl, what, rfl⟩
  | tooDeep t => cases h
  | invalid t => exact .inl ⟨rfl, rfl⟩

theorem Command.diagnostics_eq (source : String) :
    diagnostics source = (Parser.complaintsOf (ofTokens (Token.tokens source))).map fun x =>
      x.diagnostic.withLine (Text.shownLines source) := by
  unfold diagnostics parse
  cases ofTokens (Token.tokens source) with
  | ok c => rfl
  | error xs => rfl

/-- Complaints about words in their order, and behind them complaints about the end. -/
structure Parser.Split (body : List Token) (last : Token) (front back : List Diagnostic) :
    Prop where
  ordered : front.Pairwise fun d e => d.position.Before e.position
  words : ∀ d ∈ front, ∃ t ∈ body, t.position = d.position
  invalid : ∀ t ∈ body, t.isInvalid = true → ∃ d ∈ front, d.position = t.position ∧ d.Describes t
  finish : ∀ d ∈ back, d.position = last.position
  few : back.length ≤ maxDepth + 1

/-- The reports about a text cover its tokens. -/
theorem Parser.Split.cover {p : Position} {body : List Token} {last : Token}
    {front back : List Diagnostic} (h : Split body last front back)
    (ascending : Token.Ascending p body last) :
    Diagnostic.Cover (body ++ [last]) (front ++ back) := by
  have back_nil {t : Token} (mem : t ∈ body) : Diagnostic.allAt back t.position = [] := by
    refine Diagnostic.allAt_eq_nil fun d hd hp => ?_
    have hb := ascending.before_last mem
    rw [← hp, h.finish d hd] at hb
    exact hb.irrefl
  have front_nil : Diagnostic.allAt front last.position = [] := by
    refine Diagnostic.allAt_eq_nil fun d hd hp => ?_
    obtain ⟨t, mem, ht⟩ := h.words d hd
    have hb := ascending.before_last mem
    rw [ht, hp] at hb
    exact hb.irrefl
  constructor
  case apart => exact ascending.ordered
  case invalid =>
    intro t mem invalid
    rcases List.mem_append.mp mem with mem | mem
    · obtain ⟨d, hd, hp, describes⟩ := h.invalid t mem invalid
      refine ⟨d, ?_, describes⟩
      rw [Diagnostic.allAt_append, back_nil mem, List.append_nil, ← hp]
      exact Diagnostic.allAt_of_mem h.ordered hd
    · rw [List.mem_singleton.mp mem, Token.isInvalid_of_isFinish ascending.finish] at invalid
      cases invalid
  case word =>
    intro t mem word
    rcases List.mem_append.mp mem with mem | mem
    · rw [Diagnostic.allAt_append, back_nil mem, List.append_nil]
      exact Diagnostic.length_allAt_le_one h.ordered t.position
    · rw [List.mem_singleton.mp mem, ascending.finish] at word
      cases word
  case finish =>
    intro t mem finish
    rcases List.mem_append.mp mem with mem | mem
    · rw [ascending.words t mem] at finish
      cases finish
    · rw [List.mem_singleton.mp mem, Diagnostic.allAt_append, front_nil, List.nil_append]
      exact Nat.le_trans (List.length_filter_le ..) h.few
  case placed =>
    intro d hd
    rcases List.mem_append.mp hd with hd | hd
    · obtain ⟨t, mem, ht⟩ := h.words d hd
      exact ⟨t, List.mem_append_left _ mem, ht⟩
    · exact ⟨last, List.mem_append_right _ (List.mem_singleton.mpr rfl), (h.finish d hd).symm⟩
  case ordered =>
    refine List.pairwise_append.mpr ⟨h.ordered.imp .inl, ?_, ?_⟩
    · refine List.pairwise_of_forall_mem_list fun d hd e he => .inr ?_
      refine ⟨(h.finish d hd).trans (h.finish e he).symm, last, ?_, ascending.finish, ?_⟩
      · exact List.mem_append_right _ (List.mem_singleton.mpr rfl)
      · exact (h.finish d hd).symm
    · intro d hd e he
      obtain ⟨t, mem, ht⟩ := h.words d hd
      rw [h.finish e he, ← ht]
      exact .inl (ascending.before_last mem)

theorem diagnostics_cover (source : String) :
    Diagnostic.Cover (Token.tokens source) (Command.diagnostics source) := by
  obtain ⟨xs, ys, split, reports, about, few⟩ := Parser.complaintsOf_run (Token.tokens source)
  obtain ⟨htokens, ascending⟩ := Token.tokens_ascending source
  have hwords := (List.pairwise_append.mp ascending.ordered).1
  have parts : Parser.Split (Token.body (Token.tokens source))
      (Parser.finishOf (Token.tokens source))
      (xs.map fun x => x.diagnostic.withLine (Text.shownLines source))
      (ys.map fun x => x.diagnostic.withLine (Text.shownLines source)) := by
    constructor
    case ordered =>
      have tokens := hwords.sublist reports.sublist
      have ordered := List.pairwise_map.mp tokens
      exact List.pairwise_map.mpr ordered
    case words =>
      intro d hd
      obtain ⟨x, hx, rfl⟩ := List.mem_map.mp hd
      exact ⟨x.token, reports.sublist.subset (List.mem_map_of_mem hx), rfl⟩
    case invalid =>
      intro t mem invalid
      obtain ⟨x, hx, rfl, described⟩ := reports.exists_of_invalid mem invalid
      exact ⟨_, List.mem_map_of_mem hx, rfl, Complaint.diagnostic_describes described _⟩
    case finish =>
      intro d hd
      obtain ⟨y, hy, rfl⟩ := List.mem_map.mp hd
      exact congrArg Token.position (about y hy)
    case few => rwa [List.length_map]
  have cover := parts.cover ascending
  rw [← htokens] at cover
  rw [Command.diagnostics_eq, Command.ofTokens, split, List.map_append]
  exact cover

end TypedCommands
