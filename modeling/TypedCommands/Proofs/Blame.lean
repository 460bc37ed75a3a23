import TypedCommands.Environment
import TypedCommands.Proofs.Acceptance
import TypedCommands.Proofs.Binding
import TypedCommands.Proofs.Places

/-! What a report is about. The parser objects to a token of the text. Binding objects to the name
of a command in the text or to one of its parameters, and these have their tokens in the text. -/
namespace TypedCommands

namespace Parser

theorem Adds.mem {t : Token} {old new : List Complaint} {x : Complaint} (h : Adds t old new)
    (hx : x ∈ new) : x ∈ old ∨ x.token = t := by
  cases h with
  | none => exact .inl hx
  | one about =>
    rcases List.mem_cons.mp hx with rfl | hx
    · exact .inr about
    · exact .inl hx

/-- What is objected to on the way was read on the way. -/
theorem token_mem_of_foldl {ts : List Token} {s : State} {x : Complaint}
    (h : x ∈ (ts.foldl State.step s).complaints) : x ∈ s.complaints ∨ x.token ∈ ts := by
  induction ts generalizing s with
  | nil => exact .inl h
  | cons t ts ih =>
    rcases ih h with hx | hx
    · rcases (s.step_adds t).mem hx with hx | about
      · exact .inl hx
      · exact .inr (about ▸ List.mem_cons_self)
    · exact .inr (List.mem_cons_of_mem t hx)

theorem token_eq_of_mem_unfinished {s : State} {t : Token} {x : Complaint}
    (h : x ∈ s.unfinished t) : x.token = t := by
  have closings (n : Nat) (hx : x ∈ List.replicate n (Complaint.expected .closing t)) :
      x.token = t := by
    rw [List.eq_of_mem_replicate hx]
    rfl
  unfold State.unfinished at h
  dsimp only at h
  split at h
  · rcases List.mem_cons.mp h with rfl | h
    · rfl
    · exact closings _ h
  · exact closings _ h
  · exact closings _ h
  · exact closings _ h
  · exact absurd h List.not_mem_nil
  · exact absurd h List.not_mem_nil

theorem mem_of_finish_eq_error {s : State} {t : Token} {xs : List Complaint} {x : Complaint}
    (h : s.finish t = .error xs) (hx : x ∈ xs) : x ∈ s.complaints ∨ x.token = t := by
  have hxs : xs = s.complaints.reverse ++ s.unfinished t := by
    unfold State.finish at h
    split at h
    · cases h
    · cases h
      rfl
  rw [hxs, List.mem_append, List.mem_reverse] at hx
  exact hx.imp_right token_eq_of_mem_unfinished

theorem finishOf_mem {ts : List Token} (h : ∃ t ∈ ts, t.isFinish = true) : finishOf ts ∈ ts := by
  obtain ⟨t, ht, hf⟩ := h
  have hs : (ts.find? Token.isFinish).isSome = true := by
    rw [List.find?_isSome]
    exact ⟨t, ht, hf⟩
  obtain ⟨u, hu⟩ := Option.isSome_iff_exists.mp hs
  rw [finishOf, hu, Option.getD_some]
  exact List.mem_of_find?_eq_some hu

/-- Every complaint about a text is about one of its tokens. -/
theorem token_mem_of_run_eq_error {ts : List Token} {xs : List Complaint} {x : Complaint}
    (hend : ∃ t ∈ ts, t.isFinish = true) (h : run .initial ts = .error xs) (hx : x ∈ xs) :
    x.token ∈ ts := by
  rw [run_eq] at h
  rcases mem_of_finish_eq_error h hx with hx | hx
  · rcases token_mem_of_foldl hx with hi | ht
    · exact absurd hi List.not_mem_nil
    · exact (List.takeWhile_sublist _).subset ht
  · rw [hx]
    exact finishOf_mem hend

end Parser

/-- The command is the other one or stands among its parameters, at whatever depth. -/
inductive Command.Within (c : Command) : Command → Prop where
  | refl : Within c c
  | parameter {d e : Command} (mem : .command d ∈ e.parameters) (inner : Within c d) : Within c e

/-- The token whose place is the parameter's: the literal, or the name of the nested command. -/
def Parameter.head : Parameter → Token.Kind
  | .literal value _ => .literal value
  | .command c => .identifier c.name

/-- A fault is at the name of a command within `c`, or at the parameter whose position it tells. -/
inductive Blames (c : Command) : BindError → Token.Kind → Prop where
  | unknown {d : Command} (within : d.Within c) :
      Blames c ⟨d.position, .unknownCommand d.name⟩ (.identifier d.name)
  | missing {d : Command} {n : Nat} {parameter : String} {expected : Kind} (within : d.Within c) :
      Blames c ⟨d.position, .missingArgument d.name n parameter expected⟩ (.identifier d.name)
  | extra {d : Command} {n : Nat} {p : Parameter} (within : d.Within c)
      (argument : d.parameters[n]? = some p) :
      Blames c ⟨p.position, .extraArgument d.name (n + 1) n⟩ p.head
  | mismatch {d : Command} {n : Nat} {p : Parameter} {parameter : String} {expected : Kind}
      (within : d.Within c) (argument : d.parameters[n]? = some p) :
      Blames c ⟨p.position, .typeMismatch d.name (n + 1) parameter expected p.kind⟩ p.head

/-- What is wrong within a parameter is wrong within the command. -/
theorem Blames.parameter {c d : Command} {e : BindError} {k : Token.Kind} (h : Blames d e k)
    (mem : .command d ∈ c.parameters) : Blames c e k := by
  cases h with
  | unknown within => exact .unknown (.parameter mem within)
  | missing within => exact .missing (.parameter mem within)
  | extra within argument => exact .extra (.parameter mem within) argument
  | mismatch within argument => exact .mismatch (.parameter mem within) argument

theorem bind_blames {signatures : String → Option Signature} {c : Command} {e : BindError}
    (h : c.bind signatures = .error e) : ∃ k, Blames c e k := by
  induction c using Command.nested_induction generalizing e with
  | step c ih =>
    rcases c.bind_cases signatures with absent | ⟨s, found, ⟨p, absent⟩ | ⟨q, surplus⟩ | arity⟩
    · rw [Command.bind_unknown absent] at h
      cases h
      exact ⟨_, .unknown .refl⟩
    · rw [Command.bind_missing found absent] at h
      cases h
      exact ⟨_, .missing .refl⟩
    · rw [Command.bind_extra found surplus] at h
      cases h
      exact ⟨_, .extra .refl surplus⟩
    · rw [Command.bind_full found arity] at h
      rcases bindParameters_spec signatures c.name 1 s.parameters c.parameters with
        ⟨as, ok, -⟩ | ⟨e', i, p, q, error, -, hq, fault, -⟩
      · rw [ok] at h
        cases h
      · rw [error] at h
        cases h
        rw [Nat.add_comm] at fault
        rcases bindParameter_eq_error_iff.mp fault with ⟨-, rfl⟩ | ⟨-, d, rfl, hd⟩
        · exact ⟨_, .mismatch .refl hq⟩
        · have mem : .command d ∈ c.parameters := List.mem_of_getElem? hq
          obtain ⟨k, blames⟩ := ih d mem hd
          exact ⟨k, blames.parameter mem⟩

/-- The tokens have one of the kind at the place. -/
def Marked (ts : List Token) (kind : Token.Kind) (place : Position) : Prop :=
  ∃ t ∈ ts, t.kind = kind ∧ t.position = place

/-- The tokens have the command's name and a token for each of its parameters. -/
structure Traced (ts : List Token) (c : Command) : Prop where
  name : Marked ts (.identifier c.name) c.position
  parameters : ∀ p ∈ c.parameters, Marked ts p.head p.position

theorem Marked.mono {ts us : List Token} (hs : ts ⊆ us) {kind : Token.Kind} {place : Position}
    (h : Marked ts kind place) : Marked us kind place := by
  obtain ⟨t, ht, hk⟩ := h
  exact ⟨t, hs ht, hk⟩

theorem Traced.mono {ts us : List Token} (hs : ts ⊆ us) {c : Command} (h : Traced ts c) :
    Traced us c := ⟨h.name.mono hs, fun p hp => (h.parameters p hp).mono hs⟩

mutual

/-- Tokens that spell a command have a token for every name and literal in it. -/
theorem Written.traced {depth : Nat} {ts : List Token} {c d : Command} (h : Written depth ts c)
    (hd : d.Within c) : Traced ts d := by
  match h with
  | @Written.name _ t ts name ps kind rest =>
    obtain ⟨heads, inner⟩ := rest.traced
    have hs : ts ⊆ t :: ts := List.subset_cons_self t ts
    cases hd with
    | refl =>
      refine ⟨⟨t, List.mem_cons_self, kind, rfl⟩, fun p hp => ?_⟩
      exact (heads p hp).mono hs
    | parameter mem within => exact (inner _ mem _ within).mono hs
  | @Written.group _ t u ts _ opening inner closing =>
    refine (inner.traced hd).mono ?_
    intro x hx
    simp [hx]

theorem WrittenParameters.traced {depth : Nat} {ts : List Token} {ps : List Parameter}
    (h : WrittenParameters depth ts ps) : (∀ p ∈ ps, Marked ts p.head p.position) ∧
      ∀ c, .command c ∈ ps → ∀ d : Command, d.Within c → Traced ts d := by
  match h with
  | .nil => exact ⟨by simp, by simp⟩
  | @WrittenParameters.literal _ t ts value ps kind rest =>
    obtain ⟨heads, inner⟩ := rest.traced
    have hs : ts ⊆ t :: ts := List.subset_cons_self t ts
    constructor
    · intro p hp
      rcases List.mem_cons.mp hp with rfl | hp
      · exact ⟨t, List.mem_cons_self, kind, rfl⟩
      · exact (heads p hp).mono hs
    · intro c hc d hd
      rcases List.mem_cons.mp hc with he | hc
      · cases he
      · exact (inner c hc d hd).mono hs
  | @WrittenParameters.command _ t u ts us e ps opening nested closing rest =>
    obtain ⟨heads, inner⟩ := rest.traced
    have hl : ts ⊆ t :: ts ++ u :: us := by
      intro x hx
      simp [hx]
    have hr : us ⊆ t :: ts ++ u :: us := by
      intro x hx
      simp [hx]
    constructor
    · intro p hp
      rcases List.mem_cons.mp hp with rfl | hp
      · exact (nested.traced .refl).name.mono hl
      · exact (heads p hp).mono hr
    · intro c hc d hd
      rcases List.mem_cons.mp hc with he | hc
      · cases he
        exact (nested.traced hd).mono hl
      · exact (inner c hc d hd).mono hr

end

/-- What is at fault in a command has its token among those that spell the command. -/
theorem Blames.marked {depth : Nat} {ts : List Token} {c : Command} {e : BindError}
    {k : Token.Kind} (h : Blames c e k) (written : Written depth ts c) : Marked ts k e.place := by
  cases h with
  | unknown within => exact (written.traced within).name
  | missing within => exact (written.traced within).name
  | extra within argument =>
    exact (written.traced within).parameters _ (List.mem_of_getElem? argument)
  | mismatch within argument =>
    exact (written.traced within).parameters _ (List.mem_of_getElem? argument)

namespace Environment

variable {σ : Type} {env : Environment σ} {source line : String} {e : BindError}

theorem check_eq_bind (h : env.check source = .error (.bind e line)) :
    line = Text.line (Text.shownLines source) e.place.line ∧
      ∃ c, Command.parse source = .ok c ∧ env.bind c = .error e := by
  unfold check at h
  split at h
  · cases h
  · rename_i c hc
    split at h
    · rename_i e' he
      cases h
      exact ⟨rfl, c, hc, he⟩
    · cases h

/-- A run that ends in a fault of binding is one that the check ends. -/
theorem check_of_run_eq_bind {s : σ} (h : (env.run source s).1 = .error (.bind e line)) :
    env.check source = .error (.bind e line) := by
  unfold run at h
  split at h
  · rename_i e' he
    cases h
    exact he
  · split at h <;> cases h

end Environment
end TypedCommands
