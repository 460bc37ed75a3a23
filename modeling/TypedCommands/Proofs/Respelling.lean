import TypedCommands.Proofs.Lockstep
import TypedCommands.Proofs.Relocation
import TypedCommands.Proofs.Stages

/-! Texts that are spelt or laid out differently. Where the tokens are of the same kinds one after
the other, both texts hold the same command or both hold none, and in that case the same is wrong
with the same tokens. -/
namespace TypedCommands

namespace Token

/-- A token of one text and that of the other with the same index. -/
def Level (a b : String) (t u : Token) : Prop :=
  ∃ k : Nat, (tokens a)[k]? = some t ∧ (tokens b)[k]? = some u

theorem body_kinds {ts us : List Token} (same : ts.map (·.kind) = us.map (·.kind)) :
    (body ts).map (·.kind) = (body us).map (·.kind) := by
  let word (k : Kind) : Bool := !(Token.mk k "" Position.start).isFinish
  have kinds (ts : List Token) : (body ts).map (·.kind) = (ts.map (·.kind)).takeWhile word := by
    rw [List.takeWhile_map]
    rfl
  rw [kinds, kinds, same]

theorem getElem?_tokens {source : String} {k : Nat} (word : k < (body (tokens source)).length) :
    (tokens source)[k]? = some (body (tokens source))[k] := by
  refine (congrArg (·[k]?) (tokens_ascending source).1).trans ?_
  exact (List.getElem?_append_left word).trans (List.getElem?_eq_getElem word)

theorem getElem?_tokens_last (source : String) :
    (tokens source)[(body (tokens source)).length]? = some (Parser.finishOf (tokens source)) := by
  refine (congrArg (·[(body (tokens source)).length]?) (tokens_ascending source).1).trans ?_
  exact List.getElem?_concat_length

/-- The tokens of the texts in pairs: the words, and the two ends. -/
theorem levels {a b : String} (same : (tokens a).map (·.kind) = (tokens b).map (·.kind)) :
    List.Forall₂ (fun t u => t.kind = u.kind ∧ Level a b t u) (body (tokens a))
        (body (tokens b)) ∧
      Level a b (Parser.finishOf (tokens a)) (Parser.finishOf (tokens b)) := by
  have kinds := body_kinds same
  have lengths : (body (tokens a)).length = (body (tokens b)).length := by
    simpa using congrArg List.length kinds
  constructor
  · refine List.forall₂_iff_get.mpr ⟨lengths, fun k hk hk' => ⟨?_, k, ?_, ?_⟩⟩
    · simpa [hk, hk'] using congrArg (·[k]?) kinds
    · exact getElem?_tokens hk
    · exact getElem?_tokens hk'
  · exact ⟨_, getElem?_tokens_last a, lengths ▸ getElem?_tokens_last b⟩

end Token

namespace Parser

/-- The complaints about texts with tokens of the same kinds: the same ones, about the same
tokens. -/
theorem complaintsOf_respelt {a b : String}
    (same : (Token.tokens a).map (·.kind) = (Token.tokens b).map (·.kind)) :
    List.Forall₂ (Complaint.Beside (Token.Level a b))
      (complaintsOf (Command.ofTokens (Token.tokens a)))
      (complaintsOf (Command.ofTokens (Token.tokens b))) := by
  obtain ⟨words, ends⟩ := Token.levels same
  have initial : State.Alike 0 .initial .initial := ⟨.head, .outermost rfl rfl⟩
  obtain ⟨alike, xs, ys, hxs, hys, beside⟩ :=
    State.foldl_alike words initial fun _ _ => Nat.zero_le _
  rw [Command.ofTokens, Command.ofTokens, run_eq, run_eq, complaintsOf_finish, complaintsOf_finish,
    hxs, hys, State.unfinished_alike (t := finishOf (Token.tokens a)) alike, State.initial,
    List.append_nil, List.append_nil, List.reverse_reverse, List.reverse_reverse]
  refine List.rel_append beside (List.forall₂_map_right_iff.mpr (List.forall₂_same.mpr ?_))
  intro x hx
  rw [Complaint.Beside, Complaint.token_about, token_eq_of_mem_unfinished hx]
  exact ⟨ends, rfl⟩

end Parser

namespace Diagnostic

/-- The report is about the `k`th token of the text and about no other. -/
def AboutToken (source : String) (k : Nat) (d : Diagnostic) : Prop :=
  ∀ j, (∃ t, (Token.tokens source)[j]? = some t ∧ t.position = d.position) ↔ j = k

/-- Reports about the two texts that say the same of the same token. -/
structure Respelt (a b : String) (d e : Diagnostic) : Prop where
  kind : d.kind = e.kind
  token : ∃ k, d.AboutToken a k ∧ e.AboutToken b k

theorem aboutToken {source : String} {k : Nat} {t : Token} {d : Diagnostic}
    (here : (Token.tokens source)[k]? = some t) (position : d.position = t.position) :
    d.AboutToken source k := by
  intro j
  constructor
  · rintro ⟨u, there, same⟩
    obtain ⟨split, ascending⟩ := Token.tokens_ascending source
    rw [split] at here there
    exact ascending.index_unique here there (same.trans position)
  · rintro rfl
    exact ⟨t, here, position.symm⟩

theorem respelt {a b : String} {x y : Complaint} (h : x.Beside (Token.Level a b) y) :
    Respelt a b (x.diagnostic.withLine (Text.shownLines a))
      (y.diagnostic.withLine (Text.shownLines b)) := by
  obtain ⟨⟨k, here, there⟩, same⟩ := h
  refine ⟨?_, k, aboutToken here rfl, aboutToken there rfl⟩
  rw [same]
  exact (Complaint.kind_about x y.token).symm

end Diagnostic

namespace Command

/-- The commands of the two texts are the same but for the places, and so is what they are bound to
and what becomes of a run. -/
structure Respelt (a b : String) (c d : Command) : Prop where
  call : c.call = d.call
  bind : ∀ {σ : Type} (env : Environment σ), unplaced (env.bind c) = unplaced (env.bind d)
  run : ∀ {σ : Type} (env : Environment σ) (s : σ),
    (∃ call, env.bind c = .ok call ∧ env.bind d = .ok call ∧ env.run a s = env.run b s) ∨
    ∃ e e' line line', env.bind c = .error e ∧ env.bind d = .error e' ∧ e.fault = e'.fault ∧
      env.run a s = (.error (.bind e line), s) ∧ env.run b s = (.error (.bind e' line'), s)

variable {a b : String} {c d : Command}

theorem parse_of_kinds (same : (Token.tokens a).map (·.kind) = (Token.tokens b).map (·.kind))
    (parsed : parse a = .ok c) : ∃ d, parse b = .ok d ∧ c.call = d.call := by
  have written := Parser.run_eq_ok_iff.mp (parse_eq_ok_iff.mp parsed)
  obtain ⟨d, written, call⟩ := written.relocate (Token.body_kinds same).symm
  exact ⟨d, parse_eq_ok_iff.mpr (Parser.run_complete written), call.symm⟩

theorem respelt_of_call_eq (left : parse a = .ok c) (right : parse b = .ok d)
    (call : c.call = d.call) : Respelt a b c d := by
  have bind {σ : Type} (env : Environment σ) : unplaced (env.bind c) = unplaced (env.bind d) :=
    bind_relocate call
  refine ⟨call, bind, fun {σ} env s => ?_⟩
  have same := bind env
  cases bound : env.bind c with
  | ok result =>
    have bound' : env.bind d = .ok result := bind_eq_ok_of_call_eq call.symm bound
    have checked := Environment.check_eq_ok_iff.mpr ⟨c, left, bound⟩
    have checked' := Environment.check_eq_ok_iff.mpr ⟨d, right, bound'⟩
    refine .inl ⟨result, rfl, bound', ?_⟩
    rw [Environment.run_of_check_eq_ok checked, Environment.run_of_check_eq_ok checked']
  | error e =>
    cases bound' : env.bind d with
    | ok result =>
      rw [bound, bound'] at same
      cases same
    | error e' =>
      rw [bound, bound'] at same
      have ran := Environment.run_of_check_eq_error (Environment.check_of_unbound left bound) s
      have ran' := Environment.run_of_check_eq_error (Environment.check_of_unbound right bound') s
      exact .inr ⟨e, e', _, _, rfl, rfl, Except.error.inj same, ran, ran'⟩

/-- What the parser makes of two texts: it accepts both or neither. -/
inductive ParseRespelt (a b : String) : Prop where
  | accepted {c d : Command} (left : parse a = .ok c) (right : parse b = .ok d)
      (same : Respelt a b c d)
  | rejected {ds es : List Diagnostic} (left : parse a = .error ds) (right : parse b = .error es)
      (same : List.Forall₂ (Diagnostic.Respelt a b) ds es)

theorem diagnostics_respelt
    (same : (Token.tokens a).map (·.kind) = (Token.tokens b).map (·.kind)) :
    List.Forall₂ (Diagnostic.Respelt a b) (diagnostics a) (diagnostics b) := by
  rw [diagnostics_eq, diagnostics_eq, List.forall₂_map_left_iff, List.forall₂_map_right_iff]
  exact (Parser.complaintsOf_respelt same).imp fun x y => Diagnostic.respelt

/-- Spelling and layout do not matter. Texts with tokens of the same kinds hold the same command,
and it is bound and run alike, or they have the same reports about the same tokens. -/
theorem parse_respelt (same : (Token.tokens a).map (·.kind) = (Token.tokens b).map (·.kind)) :
    ParseRespelt a b := by
  cases left : parse a with
  | ok c =>
    obtain ⟨d, right, call⟩ := parse_of_kinds same left
    exact .accepted left right (respelt_of_call_eq left right call)
  | error ds =>
    cases right : parse b with
    | ok d =>
      obtain ⟨c, parsed, -⟩ := parse_of_kinds same.symm right
      rw [left] at parsed
      cases parsed
    | error es =>
      refine .rejected left right ?_
      have reports := diagnostics_respelt same
      simp only [diagnostics, left, right] at reports
      exact reports

/-- Blanks, a line break, an escape and a zero in front. -/
theorem parse_respelt_blanks :
    let a := "x \"'\" (y 10)"
    let b := "x\n  \"\\'\"( y 010 )"
    (Token.tokens a).map (·.kind) = (Token.tokens b).map (·.kind) ∧ ParseRespelt a b := by
  intro a b
  have same : (Token.tokens a).map (·.kind) = (Token.tokens b).map (·.kind) := by decide +kernel
  exact ⟨same, parse_respelt same⟩

end Command
end TypedCommands
