import Mathlib.Logic.Relation
import TypedCommands.Proofs.Framing

/-! What the buffer of a connection holds when bytes may arrive at any time, also between the steps
that one event causes. A read may take one byte too many, and only the next round refuses the
request: the bounds are kept by each single step. -/
namespace TypedCommands.Bridge

variable {σ : Type}

/-- One step of a connection. That nothing arrives for a while, or nothing any more, shows only when
all that has arrived is read. -/
inductive Step (b : Bridge σ) (c : Connection σ) : Connection σ → Prop where
  | advance : Step b c (b.advance c)
  | arrive (busy : c.phase = .ready ∨ c.phase = .complete) (chunk : List UInt8) :
      Step b c { c with arrived := c.arrived ++ chunk }
  | wake (idle : c.phase = .waiting) (chunk : List UInt8) :
      Step b c { c with phase := .ready, arrived := c.arrived ++ chunk }
  | pause (idle : c.phase = .waiting) (stopped : Bool) : Step b c (b.handle c (.pause stopped))
  | close (idle : c.phase = .waiting) : Step b c (b.handle c .close)

/-- What a connection can become. -/
def Reachable (b : Bridge σ) (s : σ) : Connection σ → Prop :=
  Relation.ReflTransGen (Step b) (.opened s)

/-- In a read, or about to read and not to refuse. -/
def Reading (b : Bridge σ) (c : Connection σ) : Prop :=
  c.phase = .waiting ∨ c.phase = .ready ∧ (b.advance c).phase ≠ .closed

/-- A read takes nothing if it may take nothing or if there is nothing left. -/
theorem takeThrough_eq_nil_iff {sentinel : UInt8} {n : Nat} {stream : List UInt8} :
    (takeThrough sentinel [] n stream).1 = [] ↔ n = 0 ∨ stream = [] := by
  constructor
  · intro none
    obtain ⟨xs, rest, taken, split, -, stops⟩ := takeThrough_spec sentinel [] n stream
    rw [taken, List.reverse_nil, List.nil_append] at none
    subst none
    rcases stops with ⟨ys, brought, -⟩ | ⟨-, bound | rfl⟩
    · cases ys <;> cases brought
    · exact .inl bound.symm
    · exact .inr split.symm
  · rintro (rfl | rfl)
    · simp [takeThrough]
    · cases n <;> simp [takeThrough]

theorem advance_eq_self (b : Bridge σ) {c : Connection σ}
    (rests : ¬(c.phase = .ready ∨ c.phase = .complete)) : b.advance c = c := by
  cases phase : c.phase with
  | ready => exact absurd (.inl phase) rests
  | complete => exact absurd (.inr phase) rests
  | waiting | closed => simp only [advance, phase]

/-! ### The invariant -/

/-- The buffer is tidy, and the bounds also hold of what a closed connection leaves behind. -/
structure Kept (b : Bridge σ) (c : Connection σ) : Prop where
  tidy : Tidy b c
  left : c.phase = .closed → b.sentinel ∉ c.buffer ∧ c.buffer.length ≤ maxRequest + 1

namespace Kept

variable {b : Bridge σ} {c : Connection σ}

theorem opened (b : Bridge σ) (s : σ) : Kept b (.opened s) :=
  ⟨(Rests.opened b s).tidy, nofun⟩

theorem of_closed (phase : c.phase = .closed) (fresh : b.sentinel ∉ c.buffer)
    (size : c.buffer.length ≤ maxRequest + 1) : Kept b c :=
  ⟨by simp only [Tidy, phase], fun _ => ⟨fresh, size⟩⟩

theorem ready (k : Kept b c) (phase : c.phase = .ready) :
    b.sentinel ∉ c.buffer ∧ c.buffer.length ≤ maxRequest + 1 := by
  have tidy := k.tidy
  simp only [Tidy, phase] at tidy
  exact tidy

theorem complete (k : Kept b c) (phase : c.phase = .complete) :
    ∃ request, c.buffer = request ++ [b.sentinel] ∧ b.sentinel ∉ request ∧
      request.length ≤ maxRequest := by
  have tidy := k.tidy
  simp only [Tidy, phase] at tidy
  exact tidy

theorem waiting (k : Kept b c) (phase : c.phase = .waiting) :
    b.sentinel ∉ c.buffer ∧ c.buffer.length ≤ maxRequest := by
  have tidy := k.tidy
  simp only [Tidy, phase] at tidy
  exact ⟨tidy.1, tidy.2.1⟩

theorem advance (k : Kept b c) : Kept b (b.advance c) := by
  by_cases busy : c.phase = .ready ∨ c.phase = .complete
  · have step := b.advance_spec c busy
    refine ⟨step.tidy k.tidy, ?_⟩
    generalize b.advance c = c' at step
    cases step with
    | refuse phase full => exact fun _ => k.ready phase
    | complete | overflow | wait | answer => nofun
  · rw [b.advance_eq_self busy]
    exact k

theorem arrive (k : Kept b c) (busy : c.phase = .ready ∨ c.phase = .complete)
    (chunk : List UInt8) : Kept b { c with arrived := c.arrived ++ chunk } := by
  rcases busy with phase | phase
  · exact ⟨by simpa only [Tidy, phase] using k.ready phase, k.left⟩
  · exact ⟨by simpa only [Tidy, phase] using k.complete phase, k.left⟩

theorem wake (k : Kept b c) (idle : c.phase = .waiting) (chunk : List UInt8) :
    Kept b { c with phase := .ready, arrived := c.arrived ++ chunk } :=
  ⟨(k.waiting idle).imp_right Nat.le_succ_of_le, nofun⟩

theorem pause (k : Kept b c) (idle : c.phase = .waiting) (stopped : Bool) :
    Kept b (b.handle c (.pause stopped)) := by
  obtain ⟨fresh, size⟩ := k.waiting idle
  simp only [handle, idle]
  cases stopped with
  | false => exact k
  | true => exact of_closed rfl fresh (Nat.le_succ_of_le size)

theorem close (k : Kept b c) (idle : c.phase = .waiting) : Kept b (b.handle c .close) := by
  obtain ⟨fresh, size⟩ := k.waiting idle
  simp only [handle, idle]
  split
  · exact of_closed rfl fresh (Nat.le_succ_of_le size)
  · rw [answer_eq]
    exact of_closed rfl List.not_mem_nil (Nat.zero_le _)

theorem step (k : Kept b c) {c' : Connection σ} (h : Step b c c') : Kept b c' := by
  cases h with
  | advance => exact k.advance
  | arrive busy chunk => exact k.arrive busy chunk
  | wake idle chunk => exact k.wake idle chunk
  | pause idle stopped => exact k.pause idle stopped
  | close idle => exact k.close idle

theorem of_reachable {s : σ} (h : Reachable b s c) : Kept b c := by
  induction h with
  | refl => exact opened b s
  | tail _ step ih => exact ih.step step

end Kept

/-! ### Events as steps -/

theorem steps_settle (b : Bridge σ) (c : Connection σ) :
    Relation.ReflTransGen (Step b) c (b.settle c) := by
  fun_induction settle b c with
  | case1 c busy _ ih => exact .head .advance ih
  | case2 c rest => exact .refl

theorem steps_handle (b : Bridge σ) {c : Connection σ} (h : Rests b c) (e : Event) :
    Relation.ReflTransGen (Step b) c (b.handle c e) ∧ Rests b (b.handle c e) := by
  rcases h.phase with idle | phase
  · have kept : Kept b c := ⟨h.tidy, fun phase => by cases idle.symm.trans phase⟩
    cases e with
    | bytes chunk =>
      have same : b.handle c (.bytes chunk) =
          b.settle { c with phase := .ready, arrived := c.arrived ++ chunk } := by
        simp only [handle, idle]
      refine ⟨?_, (h.bytes chunk).1⟩
      rw [same]
      exact .head (.wake idle chunk) (b.steps_settle _)
    | pause stopped =>
      refine ⟨.single (.pause idle stopped), (kept.pause idle stopped).tidy, ?_⟩
      cases stopped <;> simp [handle, idle]
    | close =>
      exact ⟨.single (.close idle), (kept.close idle).tidy, .inr h.outcome_close.2⟩
  · have same : b.handle c e = c := by simp only [handle, phase]
    rw [same]
    exact ⟨.refl, h⟩

theorem steps_foldl (b : Bridge σ) (events : List Event) {c : Connection σ} (h : Rests b c) :
    Relation.ReflTransGen (Step b) c (events.foldl b.handle c) := by
  induction events generalizing c with
  | nil => exact .refl
  | cons e events ih =>
    obtain ⟨steps, rests⟩ := b.steps_handle h e
    exact steps.trans (ih rests)

/-! ### The bounds -/

/-- The buffer never holds more than a request and one byte, so that the limit of a read is an
exact difference. A sentinel is its last byte; the read that completed the request has just brought
it, and the next step takes it away. A read has room for a byte: it takes nothing only if nothing
is left to come. -/
structure Bounds (b : Bridge σ) (c : Connection σ) : Prop where
  size : c.buffer.length ≤ maxRequest + 1
  difference : c.limit + c.buffer.length = maxRequest + 1
  last : ∀ front back, c.buffer = front ++ b.sentinel :: back → back = []
  complete : b.sentinel ∈ c.buffer ↔ c.phase = .complete
  brought : ∀ c', Step b c c' → b.sentinel ∈ c'.buffer →
    c'.buffer = c.buffer ∨ Reading b c ∧ c' = b.advance c
  answered : b.sentinel ∈ c.buffer → (b.advance c).buffer = []
  room : Reading b c → c.buffer.length ≤ maxRequest ∧ 1 ≤ c.limit
  ends : Reading b c → ∀ stream, (takeThrough b.sentinel [] c.limit stream).1 = [] ↔ stream = []

namespace Kept

variable {b : Bridge σ} {c : Connection σ}

theorem mem_buffer_iff (k : Kept b c) : b.sentinel ∈ c.buffer ↔ c.phase = .complete := by
  cases phase : c.phase with
  | ready => simpa using (k.ready phase).1
  | complete =>
    obtain ⟨request, text, -⟩ := k.complete phase
    simp [text]
  | waiting => simpa using (k.waiting phase).1
  | closed => simpa using (k.left phase).1

theorem length_buffer_le (k : Kept b c) : c.buffer.length ≤ maxRequest + 1 := by
  cases phase : c.phase with
  | ready => exact (k.ready phase).2
  | complete =>
    obtain ⟨request, text, -, fits⟩ := k.complete phase
    rw [text, List.length_append, List.length_singleton]
    exact Nat.succ_le_succ fits
  | waiting => exact Nat.le_succ_of_le (k.waiting phase).2
  | closed => exact (k.left phase).2

theorem eq_nil_of_buffer_eq (k : Kept b c) {front back : List UInt8}
    (h : c.buffer = front ++ b.sentinel :: back) : back = [] := by
  have mem : b.sentinel ∈ c.buffer := by simp [h]
  obtain ⟨request, text, fresh, -⟩ := k.complete (k.mem_buffer_iff.mp mem)
  rw [h] at text
  rcases List.eq_nil_or_concat back with rfl | ⟨init, x, rfl⟩
  · rfl
  · -- The last byte apart, the sentinel would be part of the request.
    have same : front ++ b.sentinel :: init = request := by
      rw [List.concat_eq_append, ← List.cons_append, ← List.append_assoc] at text
      exact (List.append_inj' text rfl).1
    rw [← same] at fresh
    simp at fresh

theorem length_buffer_le_of_reading (k : Kept b c) (h : Reading b c) :
    c.buffer.length ≤ maxRequest := by
  rcases h with phase | ⟨phase, goes⟩
  · exact (k.waiting phase).2
  · have step := b.advance_spec c (.inl phase)
    generalize b.advance c = c' at step goes
    cases step with
    | refuse => exact absurd rfl goes
    | complete _ room | overflow _ room => exact room
    | wait _ _ fits =>
      rw [List.length_append] at fits
      exact Nat.le_of_add_right_le fits
    | answer complete => cases phase.symm.trans complete

/-- Of all steps only a read brings a sentinel. -/
theorem brought (k : Kept b c) {c' : Connection σ} (h : Step b c c')
    (mem : b.sentinel ∈ c'.buffer) :
    c'.buffer = c.buffer ∨ Reading b c ∧ c' = b.advance c := by
  have complete := (k.step h).mem_buffer_iff.mp mem
  cases h with
  | advance =>
    cases phase : c.phase with
    | ready => exact .inr ⟨.inr ⟨phase, by simp [complete]⟩, rfl⟩
    | complete => simp [Bridge.advance, phase, answer_eq, Connection.write] at complete
    | waiting | closed =>
      exact .inl (congrArg Connection.buffer (b.advance_eq_self (by simp [phase])))
  | arrive busy chunk => exact .inl rfl
  | wake idle chunk => cases complete
  | pause idle stopped =>
    cases stopped <;> simp [handle, idle] at complete
  | close idle =>
    simp only [handle, idle] at complete
    split at complete <;> cases complete

theorem bounds (k : Kept b c) : Bounds b c where
  size := k.length_buffer_le
  difference := Nat.sub_add_cancel k.length_buffer_le
  last _ _ text := k.eq_nil_of_buffer_eq text
  complete := k.mem_buffer_iff
  brought _ step mem := k.brought step mem
  answered mem := by
    have phase := k.mem_buffer_iff.mp mem
    simp only [Bridge.advance, phase]
    rfl
  room reading :=
    have fits := k.length_buffer_le_of_reading reading
    ⟨fits, Nat.le_sub_of_add_le (Nat.add_comm _ _ ▸ Nat.succ_le_succ fits)⟩
  ends reading stream := by
    have fits := k.length_buffer_le_of_reading reading
    have room : c.limit ≠ 0 := Nat.sub_ne_zero_of_lt (Nat.lt_succ_of_le fits)
    rw [takeThrough_eq_nil_iff, or_iff_right room]

end Kept

/-- Every state in which events leave a connection is reached by steps, and whatever the steps and
whatever arrives between them, the bounds hold of the buffer. -/
theorem buffer_bounded (b : Bridge σ) (s : σ) :
    (∀ events : List Event, Reachable b s (events.foldl b.handle (.opened s))) ∧
      ∀ c, Reachable b s c → Bounds b c :=
  ⟨fun events => b.steps_foldl events (Rests.opened b s),
    fun _ reached => (Kept.of_reachable reached).bounds⟩

/-- A request of which nothing comes for a while, and then the rest with the start of another. -/
theorem buffer_bounded_paused_request :
    let b : Bridge Unit := ⟨⟨.empty, .simple⟩, 0⟩
    let half : Connection Unit := ⟨.waiting, [65], [], [], ()⟩
    let whole : Connection Unit := ⟨.complete, [65, 0], [66], [], ()⟩
    (Reachable b () half ∧ Reading b half ∧
      (half.buffer.length ≤ maxRequest ∧ 1 ≤ half.limit) ∧
      ∀ stream, (takeThrough 0 [] half.limit stream).1 = [] ↔ stream = []) ∧
    Reachable b () whole ∧ 0 ∈ whole.buffer ∧ (b.advance whole).buffer = [] := by
  let b : Bridge Unit := ⟨⟨.empty, .simple⟩, 0⟩
  let half : Connection Unit := ⟨.waiting, [65], [], [], ()⟩
  have first : Reachable b () half :=
    .tail (.tail (.single (.wake rfl [65])) .advance) (.pause rfl false)
  have second : Reachable b () ⟨.complete, [65, 0], [66], [], ()⟩ :=
    .tail (.tail first (.wake rfl [0, 66])) .advance
  have bounds := (buffer_bounded b ()).2
  exact ⟨⟨first, .inl rfl, (bounds _ first).room (.inl rfl), (bounds _ first).ends (.inl rfl)⟩,
    second, by decide, (bounds _ second).answered (by decide)⟩

end TypedCommands.Bridge
