import TypedCommands.Proofs.Layout
import TypedCommands.Proofs.Order
import TypedCommands.Proofs.Reading

/-! Where a token begins. It is read off the text from its place on, and the tokens behind it are
those of the text that it leaves, as if a text began there. -/
namespace TypedCommands

/-- The place behind the front of a text tells where the front ends. -/
theorem Position.after_injective {p : Position} {xs xs' ys ys' : List Char}
    (h : xs ++ ys = xs' ++ ys') (same : p.after xs = p.after xs') : xs = xs' := by
  have longer {us vs : List Char} (h : p.after us = p.after (us ++ vs)) : vs = [] := by
    refine Classical.byContradiction fun more => ?_
    have before := (p.after us).before_after more
    rw [← Position.after_append, ← h] at before
    exact before.irrefl
  rcases List.append_eq_append_iff.mp h with ⟨more, rfl, -⟩ | ⟨more, rfl, -⟩
  · rw [longer same, List.append_nil]
  · rw [longer same.symm, List.append_nil]

namespace Token

/-- The tokens that are done already only come first. -/
theorem tokensFrom_done (done : List Token) (p : Position) (cs : List Char) :
    tokensFrom done p cs = done.reverse ++ tokensFrom [] p cs := by
  induction cs using kinds.induct generalizing done p with
  | case1 => simp [tokensFrom]
  | case2 c cs blank ih =>
    rw [tokensFrom, if_pos blank, ih, tokensFrom, if_pos blank]
  | case3 c cs visible ih =>
    rw [tokensFrom, if_neg visible, ih, tokensFrom, if_neg visible, ih [_], List.reverse_cons,
      List.append_assoc]
    rfl

theorem tokensFrom_nil (p : Position) : tokensFrom [] p [] = [⟨.finish, "", p⟩] := by
  rw [tokensFrom]
  rfl

theorem tokensFrom_blank {c : Char} (blank : Text.isBlank c = true) (p : Position)
    (cs : List Char) : tokensFrom [] p (c :: cs) = tokensFrom [] (p.next c) cs := by
  rw [tokensFrom, if_pos blank]

theorem tokensFrom_visible {c : Char} (visible : Text.isBlank c = false) (p : Position)
    (cs : List Char) :
    tokensFrom [] p (c :: cs) = ⟨(read c cs).kind, String.ofList (read c cs).text, p⟩ ::
      tokensFrom [] (p.after (read c cs).text) (read c cs).rest := by
  rw [tokensFrom, if_neg (Bool.eq_false_iff.mp visible), tokensFrom_done]
  rfl

/-- Reading the text again from a token on gives that token and those behind it. -/
theorem exists_suffix_of_mem {p : Position} {cs : List Char} {t : Token}
    (h : t ∈ tokensFrom [] p cs) :
    ∃ front back before rest, tokensFrom [] p cs = front ++ t :: back ∧ cs = before ++ rest ∧
      t.position = p.after before ∧ tokensFrom [] t.position rest = t :: back := by
  induction cs using kinds.induct generalizing p with
  | case1 =>
    rw [tokensFrom_nil] at h ⊢
    obtain rfl := List.mem_singleton.mp h
    exact ⟨[], [], [], [], rfl, rfl, rfl, tokensFrom_nil p⟩
  | case2 c cs blank ih =>
    rw [tokensFrom_blank blank] at h ⊢
    obtain ⟨front, back, before, rest, split, spelled, position, again⟩ := ih h
    exact ⟨front, back, c :: before, rest, split, congrArg (c :: ·) spelled, position, again⟩
  | case3 c cs visible ih =>
    have unblank := Bool.eq_false_iff.mpr visible
    have word := tokensFrom_visible unblank p cs
    rw [word] at h ⊢
    rcases List.mem_cons.mp h with rfl | h
    · exact ⟨[], _, [], c :: cs, rfl, rfl, rfl, word⟩
    · obtain ⟨front, back, before, rest, split, spelled, position, again⟩ := ih h
      rw [split]
      refine ⟨_ :: front, back, (read c cs).text ++ before, rest, rfl, ?_, ?_, again⟩
      · rw [List.append_assoc, ← spelled, read_text]
      · rw [position, Position.after_append]

/-- A token marks the end, or it is what is read at a character that can be seen. -/
theorem read_of_mem {p : Position} {cs : List Char} {t : Token} (h : t ∈ tokensFrom [] p cs) :
    (t.kind = .finish ∧ t.text = "") ∨
      ∃ before c rest, cs = before ++ c :: rest ∧ Text.isBlank c = false ∧
        t.kind = (read c rest).kind ∧ t.text.toList = (read c rest).text := by
  induction cs using kinds.induct generalizing p with
  | case1 =>
    rw [tokensFrom_nil] at h
    obtain rfl := List.mem_singleton.mp h
    exact .inl ⟨rfl, rfl⟩
  | case2 c cs blank ih =>
    rw [tokensFrom_blank blank] at h
    apply (ih h).imp_right
    rintro ⟨before, d, rest, spelled, word⟩
    exact ⟨c :: before, d, rest, congrArg (c :: ·) spelled, word⟩
  | case3 c cs visible ih =>
    have visible := Bool.eq_false_iff.mpr visible
    rw [tokensFrom_visible visible] at h
    rcases List.mem_cons.mp h with rfl | h
    · exact .inr ⟨[], c, cs, rfl, visible, rfl, String.toList_ofList⟩
    · apply (ih h).imp_right
      rintro ⟨before, d, rest, spelled, word⟩
      refine ⟨(read c cs).text ++ before, d, rest, ?_, word⟩
      rw [List.append_assoc, ← spelled, read_text]

/-- The token stands in the text behind `before`, where the text goes on with `cs`. -/
structure Stands (source : String) (before cs : List Char) (t : Token) : Prop where
  mem : t ∈ tokens source
  spelled : source.toList = before ++ cs
  position : t.position = Position.behind before

theorem exists_stands {source : String} {t : Token} (h : t ∈ tokens source) :
    ∃ before cs, Stands source before cs t := by
  obtain ⟨-, -, before, cs, -, spelled, position, -⟩ := exists_suffix_of_mem h
  exact ⟨before, cs, h, spelled, position.trans (Position.start_after before)⟩

/-- The token and those behind it are the tokens of a text that begins where the token stands. -/
theorem Stands.resumes {source : String} {before cs : List Char} {t : Token}
    (h : Stands source before cs t) :
    ∃ front back, tokens source = front ++ t :: back ∧ tokensFrom [] t.position cs = t :: back := by
  obtain ⟨front, back, before', rest, split, spelled, position, again⟩ :=
    exists_suffix_of_mem h.mem
  have place : Position.start.after before = Position.start.after before' := by
    rw [Position.start_after, ← h.position, position]
  rw [h.spelled] at spelled
  obtain rfl := Position.after_injective spelled place
  rw [List.append_cancel_left spelled]
  exact ⟨front, back, split, again⟩

/-- The tokens behind `t` are those of `rest`, which begins where `t` ends. -/
def Resumes (source : String) (before : List Char) (t : Token) (rest : List Char) : Prop :=
  ∃ front, tokens source =
    front ++ t :: tokensFrom [] (Position.behind (before ++ t.text.toList)) rest

/-- A token that begins with a character that can be seen is what is read there, and the tokens
behind it are those of what is left. -/
theorem Stands.read {source : String} {before cs : List Char} {c : Char} {t : Token}
    (h : Stands source before (c :: cs) t) (visible : Text.isBlank c = false) :
    t.kind = (read c cs).kind ∧ t.text.toList = (read c cs).text ∧
      Resumes source before t (read c cs).rest := by
  obtain ⟨front, back, split, again⟩ := h.resumes
  rw [tokensFrom_visible visible] at again
  obtain ⟨word, rest⟩ := List.cons.inj again
  have text : t.text.toList = (Token.read c cs).text := by
    rw [← word, String.toList_ofList]
  have place : Position.behind (before ++ t.text.toList) =
      t.position.after (Token.read c cs).text := by
    rw [text, h.position, ← Position.start_after, ← Position.start_after, Position.after_append]
  refine ⟨by rw [← word], text, front, ?_⟩
  rw [place, rest, split]

end Token
end TypedCommands
