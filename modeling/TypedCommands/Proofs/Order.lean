import TypedCommands.Proofs.Acceptance
import TypedCommands.Proofs.Places

/-! The order of the tokens of a text. Each one stands behind the one before it, so its position
tells it from all others; the end of the text is the last one, and there is no other end. -/
namespace TypedCommands

namespace Position

/-- The place is nearer to the start of the text. -/
def Before (p q : Position) : Prop := p.line < q.line ∨ p.line = q.line ∧ p.column < q.column

theorem Before.trans {p q r : Position} (h : p.Before q) (h' : q.Before r) : p.Before r := by
  unfold Before at h h' ⊢
  omega

theorem Before.asymm {p q : Position} (h : p.Before q) : ¬q.Before p := by
  unfold Before at h ⊢
  omega

theorem Before.irrefl {p : Position} (h : p.Before p) : False := h.asymm h

theorem before_next (p : Position) (c : Char) : p.Before (p.next c) := by
  unfold next
  split
  · exact .inl (Nat.lt_succ_self _)
  · exact .inr ⟨rfl, Nat.lt_succ_self _⟩

theorem before_after (p : Position) {cs : List Char} (h : cs ≠ []) : p.Before (p.after cs) := by
  induction cs generalizing p with
  | nil => exact absurd rfl h
  | cons c cs ih =>
    rw [after_cons]
    cases cs with
    | nil => exact p.before_next c
    | cons d ds => exact (p.before_next c).trans (ih _ (List.cons_ne_nil d ds))

end Position

namespace Token

/-- Tokens that end with the end of a text and stand one behind the other, none before `p`. -/
structure Ascending (p : Position) (body : List Token) (last : Token) : Prop where
  words : ∀ t ∈ body, t.isFinish = false
  finish : last.isFinish = true
  behind : ∀ t ∈ body ++ [last], ¬t.position.Before p
  ordered : (body ++ [last]).Pairwise fun t u => t.position.Before u.position

theorem Ascending.of_before {p q : Position} {body : List Token} {last : Token}
    (h : Ascending q body last) (before : p.Before q) : Ascending p body last where
  words := h.words
  finish := h.finish
  behind t ht hp := h.behind t ht (hp.trans before)
  ordered := h.ordered

/-- A token in front of others that begin behind it. -/
theorem Ascending.cons {t : Token} {q : Position} {body : List Token} {last : Token}
    (h : Ascending q body last) (word : t.isFinish = false) (before : t.position.Before q) :
    Ascending t.position (t :: body) last where
  words := by
    intro u hu
    rcases List.mem_cons.mp hu with rfl | hu
    · exact word
    · exact h.words u hu
  finish := h.finish
  behind := by
    intro u hu
    rcases List.mem_cons.mp hu with rfl | hu
    · exact Position.Before.irrefl
    · exact (h.of_before before).behind u hu
  ordered := by
    rw [List.cons_append]
    refine List.pairwise_cons.mpr ⟨fun u hu => ?_, h.ordered⟩
    have hq := h.behind u hu
    unfold Position.Before at before hq ⊢
    omega

theorem Ascending.before_last {p : Position} {body : List Token} {last t : Token}
    (h : Ascending p body last) (mem : t ∈ body) : t.position.Before last.position :=
  (List.pairwise_append.mp h.ordered).2.2 t mem last (List.mem_singleton.mpr rfl)

theorem Ascending.index_unique {p : Position} {body : List Token} {last t u : Token}
    (h : Ascending p body last) {j k : Nat} (ht : (body ++ [last])[k]? = some t)
    (hu : (body ++ [last])[j]? = some u) (same : u.position = t.position) : j = k := by
  obtain ⟨hk, rfl⟩ := List.getElem?_eq_some_iff.mp ht
  obtain ⟨hj, rfl⟩ := List.getElem?_eq_some_iff.mp hu
  have before := List.pairwise_iff_getElem.mp h.ordered
  rcases Nat.lt_trichotomy j k with hjk | rfl | hkj
  · have hb := before j k hj hk hjk
    rw [same] at hb
    exact hb.irrefl.elim
  · rfl
  · have hb := before k j hk hj hkj
    rw [same] at hb
    exact hb.irrefl.elim

theorem isInvalid_of_isFinish {t : Token} (h : t.isFinish = true) : t.isInvalid = false := by
  unfold isFinish at h
  split at h
  · rename_i kind
    simp only [isInvalid, kind]
  · cases h

theorem isFinish_of_kind_ne {t : Token} (h : t.kind ≠ .finish) : t.isFinish = false := by
  unfold isFinish
  split
  · rename_i hk
    exact absurd hk h
  · rfl

theorem tokensFrom_ascending (done : List Token) (p : Position) (cs : List Char) :
    ∃ body last, tokensFrom done p cs = done.reverse ++ (body ++ [last]) ∧
      Ascending p body last := by
  fun_induction tokensFrom done p cs with
  | case1 done p =>
    refine ⟨[], ⟨.finish, "", p⟩, by rw [List.reverse_cons, List.nil_append], ?_⟩
    refine ⟨by simp, rfl, ?_, List.pairwise_singleton _ _⟩
    intro t ht
    rw [List.mem_singleton.mp ht]
    exact Position.Before.irrefl
  | case2 done p c cs blank ih =>
    obtain ⟨body, last, split, ascending⟩ := ih
    exact ⟨body, last, split, ascending.of_before (p.before_next c)⟩
  | case3 done p c cs visible r ih =>
    obtain ⟨body, last, split, ascending⟩ := ih
    refine ⟨⟨r.kind, String.ofList r.text, p⟩ :: body, last, ?_, ?_⟩
    · rw [split, List.reverse_cons, List.append_assoc]
      rfl
    · have word := isFinish_of_kind_ne (t := ⟨r.kind, String.ofList r.text, p⟩)
        (read_kind_ne_finish c cs)
      exact ascending.cons word (p.before_after (read_text_ne_nil c cs))

/-- The tokens of a text are the words, as far as the parser reads, and then the end of the text. -/
theorem tokens_ascending (source : String) :
    tokens source = body (tokens source) ++ [Parser.finishOf (tokens source)] ∧
      Ascending Position.start (body (tokens source)) (Parser.finishOf (tokens source)) := by
  obtain ⟨words, last, split, ascending⟩ := tokensFrom_ascending [] Position.start source.toList
  have hs : tokens source = words ++ [last] := split
  have hb : body (tokens source) = words := by
    rw [body, hs, List.takeWhile_append_of_pos (by simpa using ascending.words)]
    simp [ascending.finish]
  have hl : Parser.finishOf (tokens source) = last := by
    have hn : words.find? isFinish = none := by simpa using ascending.words
    rw [Parser.finishOf, hs, List.find?_append, hn]
    simp [ascending.finish]
  rw [hb, hl]
  exact ⟨hs, ascending⟩

end Token
end TypedCommands
