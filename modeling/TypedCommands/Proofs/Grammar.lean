import TypedCommands.Command.Parser

/-! The grammar of commands over tokens: which tokens spell a command, with parentheses nested no
deeper than a number, and which command they spell. -/
namespace TypedCommands

mutual

/-- The tokens spell the command with at most `depth` groups around any part of it. -/
inductive Written : Nat → List Token → Command → Prop where
  | name {depth : Nat} {t : Token} {ts : List Token} {name : String} {ps : List Parameter}
      (kind : t.kind = .identifier name) (rest : WrittenParameters depth ts ps) :
      Written depth (t :: ts) (.mk name t.position ps)
  | group {depth : Nat} {t u : Token} {ts : List Token} {c : Command} (opening : t.kind = .opening)
      (inner : Written depth ts c) (closing : u.kind = .closing) :
      Written (depth + 1) (t :: ts ++ [u]) c

/-- The same for the parameters behind a name, each a literal or a command in a group. -/
inductive WrittenParameters : Nat → List Token → List Parameter → Prop where
  | nil {depth : Nat} : WrittenParameters depth [] []
  | literal {depth : Nat} {t : Token} {ts : List Token} {value : Literal} {ps : List Parameter}
      (kind : t.kind = .literal value) (rest : WrittenParameters depth ts ps) :
      WrittenParameters depth (t :: ts) (.literal value t.position :: ps)
  | command {depth : Nat} {t u : Token} {ts us : List Token} {c : Command} {ps : List Parameter}
      (opening : t.kind = .opening) (inner : Written depth ts c) (closing : u.kind = .closing)
      (rest : WrittenParameters (depth + 1) us ps) :
      WrittenParameters (depth + 1) (t :: ts ++ u :: us) (.command c :: ps)

end

namespace WrittenParameters

theorem append {depth : Nat} {ts us : List Token} {ps qs : List Parameter}
    (h : WrittenParameters depth ts ps) (h' : WrittenParameters depth us qs) :
    WrittenParameters depth (ts ++ us) (ps ++ qs) := by
  match h with
  | .nil => exact h'
  | .literal kind rest => exact .literal kind (append rest h')
  | .command opening inner closing rest =>
    have := command opening inner closing (append rest h')
    simpa only [List.cons_append, List.append_assoc] using this

/-- A literal behind parameters is one more of them. -/
theorem snoc_literal {depth : Nat} {ts : List Token} {ps : List Parameter} {t : Token}
    {value : Literal} (h : WrittenParameters depth ts ps) (kind : t.kind = .literal value) :
    WrittenParameters depth (ts ++ [t]) (ps ++ [.literal value t.position]) :=
  h.append (.literal kind .nil)

theorem snoc_command {depth : Nat} {ts us : List Token} {ps : List Parameter} {t u : Token}
    {c : Command} (h : WrittenParameters (depth + 1) ts ps) (opening : t.kind = .opening)
    (inner : Written depth us c) (closing : u.kind = .closing) :
    WrittenParameters (depth + 1) (ts ++ (t :: us ++ [u])) (ps ++ [.command c]) :=
  h.append (.command opening inner closing .nil)

end WrittenParameters

mutual

/-- A command fits wherever there is more room for groups. -/
theorem Written.mono {m n : Nat} {ts : List Token} {c : Command} (h : Written m ts c)
    (room : m ≤ n) : Written n ts c := by
  match h with
  | .name kind rest => exact .name kind (rest.mono room)
  | @Written.group depth _ _ _ _ opening inner closing =>
    obtain ⟨n, rfl⟩ : ∃ k, n = k + 1 := ⟨n - 1, by omega⟩
    exact .group opening (inner.mono (Nat.le_of_succ_le_succ room)) closing

theorem WrittenParameters.mono {m n : Nat} {ts : List Token} {ps : List Parameter}
    (h : WrittenParameters m ts ps) (room : m ≤ n) : WrittenParameters n ts ps := by
  match h with
  | .nil => exact .nil
  | .literal kind rest => exact .literal kind (rest.mono room)
  | .command opening inner closing rest =>
    obtain ⟨n, rfl⟩ : ∃ k, n = k + 1 := ⟨n - 1, by omega⟩
    exact .command opening (inner.mono (Nat.le_of_succ_le_succ room)) closing (rest.mono room)

end

/-- The tokens of a text up to its end. -/
def Token.body (ts : List Token) : List Token := ts.takeWhile fun t => !t.isFinish

namespace Parser

/-- The tokens spell a command of which further parameters may follow. -/
def WrittenSoFar (depth : Nat) (ts : List Token) (p : Partial) : Prop :=
  ∃ t us, ts = t :: us ∧ t.kind = .identifier p.name ∧ t.position = p.position ∧
    WrittenParameters depth us p.parameters.reverse

namespace WrittenSoFar

theorem start {depth : Nat} {t : Token} {name : String} (kind : t.kind = .identifier name) :
    WrittenSoFar depth [t] ⟨name, t.position, []⟩ := ⟨t, [], rfl, kind, rfl, .nil⟩

theorem written {depth : Nat} {ts : List Token} {p : Partial} (h : WrittenSoFar depth ts p) :
    Written depth ts p.command := by
  obtain ⟨t, us, rfl, kind, position, rest⟩ := h
  rw [Partial.command, ← position]
  exact .name kind rest

theorem literal {depth : Nat} {ts : List Token} {p : Partial} {t : Token} {value : Literal}
    (h : WrittenSoFar depth ts p) (kind : t.kind = .literal value) :
    WrittenSoFar depth (ts ++ [t]) (p.add (.literal value t.position)) := by
  obtain ⟨u, us, rfl, name, position, rest⟩ := h
  refine ⟨u, us ++ [t], rfl, name, position, ?_⟩
  simpa only [Partial.add, List.reverse_cons] using rest.snoc_literal kind

theorem command {depth : Nat} {ts us : List Token} {p : Partial} {t u : Token} {c : Command}
    (h : WrittenSoFar (depth + 1) ts p) (opening : t.kind = .opening) (inner : Written depth us c)
    (closing : u.kind = .closing) :
    WrittenSoFar (depth + 1) (ts ++ (t :: us ++ [u])) (p.add (.command c)) := by
  obtain ⟨v, vs, rfl, name, position, rest⟩ := h
  refine ⟨v, vs ++ (t :: us ++ [u]), rfl, name, position, ?_⟩
  simpa only [Partial.add, List.reverse_cons] using rest.snoc_command opening inner closing

end WrittenSoFar
end Parser
end TypedCommands
