import TypedCommands.Text.Lines
import TypedCommands.Token.Lexer

/-! Where the tokens of a text stand. A position counts what comes before it: the lines that have
ended, and the characters of the line that it is on. -/
namespace TypedCommands

namespace Text

theorem pieces_go_eq_cons (line cs : List Char) :
    ∃ more, pieces.go [] line cs = (line.reverse ++ cs.takeWhile (· ≠ '\n')) :: more := by
  induction cs generalizing line with
  | nil => exact ⟨[], by simp [pieces.go]⟩
  | cons c cs ih =>
    by_cases newline : c = '\n'
    · refine ⟨pieces.go [] [] cs, ?_⟩
      rw [pieces.go, if_pos newline, pieces_go]
      simp [newline]
    · obtain ⟨more, hm⟩ := ih (c :: line)
      refine ⟨more, ?_⟩
      rw [pieces.go, if_neg newline, hm]
      simp [newline]

end Text

theorem Numeral.kind_cases {n : Numeral} {k : Token.Kind} (h : n.kind = k) :
    (∃ i, k = .literal (.integer i)) ∨ (∃ x, k = .literal (.float x)) ∨ ∃ r, k = .invalid r := by
  subst h
  unfold kind
  split
  · split <;> simp
  · split <;> simp

theorem Quoted.kind_cases {body : List Char} {k : Token.Kind} (h : kind body = k) :
    (∃ s, k = .literal (.text s)) ∨ ∃ r, k = .invalid r := by
  subst h
  unfold kind
  split <;> simp

namespace Token

/-- Only the end of a text is read as its end. -/
theorem read_kind_ne_finish (c : Char) (cs : List Char) : (read c cs).kind ≠ .finish := by
  unfold read
  split
  · simp
  split
  · simp
  split
  · unfold readString Quoted.take
    dsimp only
    split
    · intro finish
      rcases Quoted.kind_cases finish with ⟨_, ⟨⟩⟩ | ⟨_, ⟨⟩⟩
    · simp
  split
  · unfold readNumber
    dsimp only
    split
    · intro finish
      rcases Numeral.kind_cases finish with ⟨_, ⟨⟩⟩ | ⟨_, ⟨⟩⟩ | ⟨_, ⟨⟩⟩
    · simp
  split
  · simp [readName]
  · simp

/-- The token begins where its position says, in a text that begins at `p`: the end of the text is
behind everything, and any other token is spelled out from a character on that can be seen. -/
inductive Placed (cs : List Char) (p : Position) (t : Token) : Prop where
  | finish (kind : t.kind = .finish) (position : t.position = p.after cs)
  | word (before more rest : List Char) (c : Char) (kind : t.kind ≠ .finish)
      (text : t.text.toList = c :: more) (visible : Text.isBlank c = false)
      (spelled : cs = before ++ (c :: more ++ rest)) (position : t.position = p.after before)

theorem Placed.skip {cs skipped : List Char} {p : Position} {t : Token}
    (h : Placed cs (p.after skipped) t) : Placed (skipped ++ cs) p t := by
  cases h with
  | finish kind position =>
    rw [← Position.after_append] at position
    exact .finish kind position
  | word before more rest c kind text visible spelled position =>
    rw [← Position.after_append] at position
    refine .word (skipped ++ before) more rest c kind text visible ?_ position
    rw [spelled, List.append_assoc]

theorem placed_of_mem_tokensFrom {done : List Token} {p : Position} {cs : List Char} {t : Token}
    (h : t ∈ tokensFrom done p cs) : t ∈ done ∨ Placed cs p t := by
  fun_induction tokensFrom done p cs with
  | case1 done p =>
    rw [List.mem_reverse, List.mem_cons] at h
    rcases h with rfl | h
    · exact .inr (.finish rfl rfl)
    · exact .inl h
  | case2 done p c cs blank ih =>
    rcases ih h with hd | placed
    · exact .inl hd
    · have skipped : Placed ([c] ++ cs) p t := Placed.skip placed
      exact .inr skipped
  | case3 done p c cs visible r ih =>
    have hr : r.text ++ r.rest = c :: cs := read_text c cs
    rcases ih h with hd | placed
    · rcases List.mem_cons.mp hd with rfl | hd
      · obtain ⟨x, more, hx⟩ := List.exists_cons_of_ne_nil (read_text_ne_nil c cs)
        have ht : r.text = x :: more := hx
        obtain rfl : x = c := by
          rw [ht] at hr
          exact (List.cons.inj hr).1
        refine .inr (.word [] more r.rest x (read_kind_ne_finish x cs) ?_
          (Bool.eq_false_iff.mpr visible) ?_ rfl)
        · rw [String.toList_ofList, ht]
        · rw [← ht, hr]
          rfl
      · exact .inl hd
    · rw [← hr]
      exact .inr placed.skip

theorem placed_of_mem_tokens {source : String} {t : Token} (h : t ∈ tokens source) :
    Placed source.toList Position.start t := by
  rcases placed_of_mem_tokensFrom h with hd | placed
  · exact absurd hd List.not_mem_nil
  · exact placed

/-- The end of a text is among its tokens. -/
theorem exists_finish_mem_tokensFrom (done : List Token) (p : Position) (cs : List Char) :
    ∃ t ∈ tokensFrom done p cs, t.isFinish = true := by
  fun_induction tokensFrom done p cs with
  | case1 done p => exact ⟨⟨.finish, "", p⟩, by simp, rfl⟩
  | case2 done p c cs blank ih => exact ih
  | case3 done p c cs visible r ih => exact ih

end Token
end TypedCommands
