import TypedCommands.Bridge

/-! What a connection sends depends on the bytes that arrive and on how they end, but not on how
they were cut on the way. The reference is a walk over the whole stream; a run of the bridge keeps
what that walk would still have to answer. -/
namespace TypedCommands.Bridge

variable {σ : Type}

/-- What a stream of bytes asks for. -/
inductive Demand where
  | request (bytes : List UInt8)
  /-- More bytes than a request may have stand before the next sentinel. -/
  | refusal
  deriving DecidableEq

/-- The demands of a stream from left to right: the bytes before each sentinel, and at the end of
the stream those behind the last one if there are any. Nothing behind a refusal counts. -/
def demands (sentinel : UInt8) (ended : Bool) (stream : List UInt8) : List Demand :=
  let run := stream.takeWhile (· != sentinel)
  if maxRequest < run.length then [.refusal]
  else
    match _h : stream.dropWhile (· != sentinel) with
    | [] => if ended && !run.isEmpty then [.request run] else []
    | _ :: rest => .request run :: demands sentinel ended rest
termination_by stream.length
decreasing_by
  have hl := (List.dropWhile_suffix (l := stream) (· != sentinel)).length_le
  rw [_h, List.length_cons] at hl
  omega

/-- The bytes that answer a demand, and the state in which they leave the host. -/
def Demand.answer (b : Bridge σ) (s : σ) : Demand → List UInt8 × σ
  | .request bytes =>
    match String.fromUTF8? ⟨bytes.toArray⟩ with
    | some text =>
      let (response, s) := b.environment.respond text s
      (response.toUTF8.toList ++ [b.sentinel], s)
    | none => ("request is not valid UTF-8".toUTF8.toList ++ [b.sentinel], s)
  | .refusal => ("request exceeds 65536 bytes".toUTF8.toList ++ [b.sentinel], s)

/-- The answers to demands, each from the state that the one before it left. -/
def answers (b : Bridge σ) : List Demand → σ → List UInt8 × σ
  | [], s => ([], s)
  | d :: ds, s =>
    let (bytes, s) := d.answer b s
    let (more, s) := answers b ds s
    (bytes ++ more, s)

theorem answer_request (b : Bridge σ) (bytes : List UInt8) (s : σ) :
    (Demand.request bytes).answer b s =
      (b.frame (b.respond bytes s).1, (b.respond bytes s).2) := by
  simp only [Demand.answer, respond, frame]
  cases String.fromUTF8? ⟨bytes.toArray⟩ with
  | none => rfl
  | some text => rfl

theorem answer_refusal (b : Bridge σ) (s : σ) :
    Demand.refusal.answer b s = (b.frame tooLong, s) := by
  have h : tooLong = "request exceeds 65536 bytes" := by decide +kernel
  rw [Demand.answer, frame, h]

theorem ne_of_mem {sentinel : UInt8} {run : List UInt8} (hs : sentinel ∉ run) :
    ∀ x ∈ run, (x != sentinel) = true := by
  intro x hx
  rw [bne_iff_ne]
  rintro rfl
  exact hs hx

/-- Bytes before a sentinel are a request. -/
theorem demands_request {sentinel : UInt8} {ended : Bool} {run rest : List UInt8}
    (hs : sentinel ∉ run) (hl : run.length ≤ maxRequest) :
    demands sentinel ended (run ++ sentinel :: rest) =
      .request run :: demands sentinel ended rest := by
  have ht : (run ++ sentinel :: rest).takeWhile (· != sentinel) = run := by
    simp [List.takeWhile_append_of_pos (ne_of_mem hs)]
  have hd : (run ++ sentinel :: rest).dropWhile (· != sentinel) = sentinel :: rest := by
    simp [List.dropWhile_append_of_pos (ne_of_mem hs)]
  rw [demands]
  simp only [ht, Nat.not_lt.mpr hl, if_false]
  split
  · rename_i h
    rw [hd] at h
    cases h
  · rename_i h
    rw [hd] at h
    cases h
    rfl

/-- Bytes with no sentinel behind them are a request only if nothing more can come. -/
theorem demands_tail {sentinel : UInt8} {ended : Bool} {run : List UInt8} (hs : sentinel ∉ run)
    (hl : run.length ≤ maxRequest) :
    demands sentinel ended run = if ended && !run.isEmpty then [.request run] else [] := by
  have ht : run.takeWhile (· != sentinel) = run := by
    have h : (run ++ []).takeWhile (· != sentinel) = run ++ [].takeWhile (· != sentinel) :=
      List.takeWhile_append_of_pos (ne_of_mem hs)
    simpa using h
  have hd : run.dropWhile (· != sentinel) = [] := by
    have h : (run ++ []).dropWhile (· != sentinel) = [].dropWhile (· != sentinel) :=
      List.dropWhile_append_of_pos (ne_of_mem hs)
    simpa using h
  rw [demands]
  simp only [ht, Nat.not_lt.mpr hl, if_false]
  split
  · rfl
  · rename_i h
    rw [hd] at h
    cases h

theorem demands_refusal {sentinel : UInt8} {ended : Bool} {run rest : List UInt8}
    (hs : sentinel ∉ run) (hl : maxRequest < run.length) :
    demands sentinel ended (run ++ rest) = [.refusal] := by
  have ht : maxRequest < ((run ++ rest).takeWhile (· != sentinel)).length := by
    rw [List.takeWhile_append_of_pos (ne_of_mem hs), List.length_append]
    omega
  rw [demands]
  simp only [ht, if_true]

/-- A read takes bytes from the front: up to the first sentinel, or else all it may or all there
are. -/
theorem takeThrough_spec (sentinel : UInt8) (taken : List UInt8) (n : Nat) (bytes : List UInt8) :
    ∃ xs rest, takeThrough sentinel taken n bytes = (taken.reverse ++ xs, rest) ∧
      xs ++ rest = bytes ∧ xs.length ≤ n ∧
      ((∃ ys, xs = ys ++ [sentinel] ∧ sentinel ∉ ys) ∨
        sentinel ∉ xs ∧ (xs.length = n ∨ rest = [])) := by
  fun_induction takeThrough sentinel taken n bytes with
  | case1 taken bytes => exact ⟨[], bytes, by simp, by simp, by simp, .inr ⟨by simp, .inl rfl⟩⟩
  | case2 taken n => exact ⟨[], [], by simp, by simp, by simp, .inr ⟨by simp, .inr rfl⟩⟩
  | case3 taken n bytes =>
    exact ⟨[sentinel], bytes, by simp, by simp, by simp, .inl ⟨[], by simp, by simp⟩⟩
  | case4 taken n x bytes hx ih =>
    obtain ⟨xs, rest, he, hb, hl, hc⟩ := ih
    refine ⟨x :: xs, rest, by simpa using he, by simp [hb], by simp [hl], ?_⟩
    rcases hc with ⟨ys, rfl, hy⟩ | ⟨hs, hc⟩
    · refine .inl ⟨x :: ys, rfl, ?_⟩
      simp [hy, Ne.symm hx]
    · refine .inr ⟨?_, hc.imp_left ?_⟩
      · simp [hs, Ne.symm hx]
      · intro hn
        simp [hn]

/-- The buffer holds bytes of one request. Its sentinel is there only right after the read that
brought it, and a connection waits only when it has read all that arrived. -/
def Tidy (b : Bridge σ) (c : Connection σ) : Prop :=
  match c.phase with
  | .ready => b.sentinel ∉ c.buffer ∧ c.buffer.length ≤ maxRequest + 1
  | .complete => ∃ request, c.buffer = request ++ [b.sentinel] ∧ b.sentinel ∉ request ∧
      request.length ≤ maxRequest
  | .waiting => b.sentinel ∉ c.buffer ∧ c.buffer.length ≤ maxRequest ∧ c.arrived = []
  | .closed => True

/-- What a connection has sent and still has to send, and where it leaves the host, if `more`
arrives and then the stream ends or not. -/
def outcome (b : Bridge σ) (ended : Bool) (more : List UInt8) (c : Connection σ) :
    List UInt8 × σ :=
  match c.phase with
  | .closed => (c.output, c.host)
  | _ =>
    let (rest, s) := b.answers (demands b.sentinel ended (c.buffer ++ (c.arrived ++ more))) c.host
    (c.output ++ rest, s)

/-- A new connection has sent nothing and owes the answers to all that arrives. -/
theorem outcome_opened (b : Bridge σ) (ended : Bool) (more : List UInt8) (s : σ) :
    b.outcome ended more (.opened s) = b.answers (demands b.sentinel ended more) s := by
  simp [outcome, Connection.opened, Connection.output]

theorem output_write (c : Connection σ) (bytes : List UInt8) :
    (c.write bytes).output = c.output ++ bytes := by
  simp [Connection.output, Connection.write]

theorem answer_eq (b : Bridge σ) (request : List UInt8) (c : Connection σ) :
    b.answer request c = { c with host := (b.respond request c.host).2, buffer := [] }.write
      (b.frame (b.respond request c.host).1) := rfl

/-- What the next step does is told by the buffer and the bytes that the read can take. -/
inductive Advance (b : Bridge σ) (c : Connection σ) : Connection σ → Prop where
  | refuse (phase : c.phase = .ready) (full : maxRequest < c.buffer.length) :
      Advance b c ({ c with phase := .closed }.write (b.frame tooLong))
  | complete {xs rest : List UInt8} (phase : c.phase = .ready)
      (room : c.buffer.length ≤ maxRequest) (taken : c.arrived = xs ++ b.sentinel :: rest)
      (fresh : b.sentinel ∉ xs) (fits : (c.buffer ++ xs).length ≤ maxRequest) :
      Advance b c { c with phase := .complete, buffer := c.buffer ++ xs ++ [b.sentinel],
                           arrived := rest }
  | overflow {xs rest : List UInt8} (phase : c.phase = .ready)
      (room : c.buffer.length ≤ maxRequest) (taken : c.arrived = xs ++ rest)
      (fresh : b.sentinel ∉ xs) (full : (c.buffer ++ xs).length = maxRequest + 1) :
      Advance b c { c with phase := .ready, buffer := c.buffer ++ xs, arrived := rest }
  | wait (phase : c.phase = .ready) (fresh : b.sentinel ∉ c.arrived)
      (fits : (c.buffer ++ c.arrived).length ≤ maxRequest) :
      Advance b c { c with phase := .waiting, buffer := c.buffer ++ c.arrived, arrived := [] }
  | answer (phase : c.phase = .complete) :
      Advance b c (b.answer c.buffer.dropLast { c with phase := .ready })

theorem advance_spec (b : Bridge σ) (c : Connection σ)
    (h : c.phase = .ready ∨ c.phase = .complete) : Advance b c (b.advance c) := by
  rcases h with phase | phase
  · by_cases full : maxRequest < c.buffer.length
    · simp only [advance, phase, full, if_true]
      exact .refuse phase full
    · obtain ⟨xs, rest, he, hb, hl, hc⟩ := takeThrough_spec b.sentinel [] c.limit c.arrived
      have room : c.buffer.length ≤ maxRequest := Nat.not_lt.mp full
      have hn : c.limit = maxRequest + 1 - c.buffer.length := rfl
      simp only [advance, phase, full, if_false, he, List.reverse_nil, List.nil_append]
      rcases hc with ⟨ys, rfl, fresh⟩ | ⟨fresh, hc⟩
      · have fits : (c.buffer ++ ys).length ≤ maxRequest := by
          simp only [List.length_append, List.length_singleton] at hl ⊢
          omega
        simp only [List.getLast?_concat, if_true, ← List.append_assoc]
        exact .complete phase room (by rw [← hb]; simp) fresh fits
      · have hlast : xs.getLast? ≠ some b.sentinel := fun hx => fresh (List.mem_of_getLast? hx)
        simp only [hlast, if_false]
        by_cases long : maxRequest < (c.buffer ++ xs).length
        · simp only [long, if_true]
          refine .overflow phase room hb.symm fresh ?_
          simp only [List.length_append] at long ⊢
          omega
        · have fits : (c.buffer ++ xs).length ≤ maxRequest := Nat.not_lt.mp long
          obtain rfl : rest = [] := by
            rcases hc with hx | hr
            · simp only [List.length_append] at fits
              omega
            · exact hr
          obtain rfl : xs = c.arrived := by simpa using hb
          simp only [long, if_false]
          exact .wait phase fresh fits
  · simp only [advance, phase]
    exact .answer phase

theorem Advance.tidy {b : Bridge σ} {c c' : Connection σ} (h : Advance b c c') (ht : Tidy b c) :
    Tidy b c' := by
  cases h with
  | refuse phase full => trivial
  | complete phase room taken fresh fits =>
    simp only [Tidy, phase] at ht
    exact ⟨_, rfl, by simp [ht.1, fresh], fits⟩
  | overflow phase room taken fresh full =>
    simp only [Tidy, phase] at ht
    exact ⟨by simp [ht.1, fresh], Nat.le_of_eq full⟩
  | wait phase fresh fits =>
    simp only [Tidy, phase] at ht
    exact ⟨by simp [ht.1, fresh], fits, rfl⟩
  | answer phase =>
    rw [answer_eq]
    exact ⟨List.not_mem_nil, Nat.zero_le _⟩

/-- A step answers what the walk over the stream would answer next. -/
theorem Advance.outcome_eq {b : Bridge σ} {c c' : Connection σ} (h : Advance b c c')
    (ht : Tidy b c) (ended : Bool) (more : List UInt8) :
    b.outcome ended more c' = b.outcome ended more c := by
  cases h with
  | refuse phase full =>
    simp only [Tidy, phase] at ht
    simp only [outcome, phase, output_write, demands_refusal ht.1 full, answers, answer_refusal,
      List.append_nil]
    rfl
  | complete phase room taken fresh fits =>
    simp only [outcome, phase, taken, List.append_assoc, List.cons_append]
    rfl
  | overflow phase room taken fresh full =>
    simp only [outcome, phase, taken, List.append_assoc]
    rfl
  | wait phase fresh fits =>
    simp only [outcome, phase, List.append_assoc, List.nil_append]
    rfl
  | answer phase =>
    simp only [Tidy, phase] at ht
    obtain ⟨request, hb, fresh, fits⟩ := ht
    simp only [outcome, phase, hb, List.append_assoc, List.singleton_append,
      demands_request fresh fits, answers, answer_request, answer_eq, List.dropLast_concat,
      output_write]
    simp [Connection.write, Connection.output]

/-- A connection that goes on until it must wait owes the same answers. -/
theorem settle_spec (b : Bridge σ) (c : Connection σ) (ht : Tidy b c) :
    Tidy b (b.settle c) ∧ ((b.settle c).phase = .waiting ∨ (b.settle c).phase = .closed) ∧
      ∀ ended more, b.outcome ended more (b.settle c) = b.outcome ended more c := by
  fun_induction settle b c with
  | case1 c h _ ih =>
    have ha := b.advance_spec c h
    obtain ⟨tidy, phase, outcome⟩ := ih (ha.tidy ht)
    exact ⟨tidy, phase, fun ended more => (outcome ended more).trans (ha.outcome_eq ht ended more)⟩
  | case2 c h =>
    refine ⟨ht, ?_, fun _ _ => rfl⟩
    cases hp : c.phase with
    | ready => exact False.elim (h (.inl hp))
    | complete => exact False.elim (h (.inr hp))
    | waiting => exact .inl rfl
    | closed => exact .inr rfl

/-- The bytes that come before the client closes its side or the bridge finds itself stopped. -/
def received : List Event → List UInt8
  | [] => []
  | .bytes chunk :: events => chunk ++ received events
  | .pause stopped :: events => if stopped then [] else received events
  | .close :: _ => []

/-- Whether the client closes its side before the bridge finds itself stopped. -/
def ended : List Event → Bool
  | [] => false
  | .bytes _ :: events => ended events
  | .pause stopped :: events => !stopped && ended events
  | .close :: _ => true

/-- Nothing is read or sent on a closed connection. -/
theorem foldl_handle_closed (b : Bridge σ) (events : List Event) {c : Connection σ}
    (h : c.phase = .closed) : events.foldl b.handle c = c := by
  induction events with
  | nil => rfl
  | cons e events ih =>
    have he : b.handle c e = c := by simp only [handle, h]
    rw [List.foldl_cons, he, ih]

/-- Between two events a connection waits or is closed. -/
structure Rests (b : Bridge σ) (c : Connection σ) : Prop where
  tidy : Tidy b c
  phase : c.phase = .waiting ∨ c.phase = .closed

namespace Rests

theorem opened (b : Bridge σ) (s : σ) : Rests b (.opened s) :=
  ⟨⟨List.not_mem_nil, Nat.zero_le _, rfl⟩, .inl rfl⟩

theorem bytes {b : Bridge σ} {c : Connection σ} (h : Rests b c) (chunk : List UInt8) :
    Rests b (b.handle c (.bytes chunk)) ∧ ∀ ended more,
      b.outcome ended more (b.handle c (.bytes chunk)) = b.outcome ended (chunk ++ more) c := by
  rcases h.phase with phase | phase
  · have ht := h.tidy
    simp only [Tidy, phase] at ht
    obtain ⟨fresh, fits, -⟩ := ht
    have tidy : Tidy b { c with phase := .ready, arrived := c.arrived ++ chunk } :=
      ⟨fresh, Nat.le_succ_of_le fits⟩
    obtain ⟨tidy', phase', outcome'⟩ := settle_spec b _ tidy
    have he : b.handle c (.bytes chunk) =
        b.settle { c with phase := .ready, arrived := c.arrived ++ chunk } := by
      simp only [handle, phase]
    rw [he]
    refine ⟨⟨tidy', phase'⟩, fun ended more => (outcome' ended more).trans ?_⟩
    simp only [outcome, phase, List.append_assoc]
    rfl
  · have he : b.handle c (.bytes chunk) = c := by simp only [handle, phase]
    rw [he]
    exact ⟨h, fun _ _ => by simp only [outcome, phase]⟩

/-- A connection that stays open owes nothing but what it has sent. -/
theorem outcome_open {b : Bridge σ} {c : Connection σ} (h : Rests b c) :
    b.outcome false [] c = (c.output, c.host) := by
  rcases h.phase with phase | phase
  · have ht := h.tidy
    simp only [Tidy, phase] at ht
    obtain ⟨fresh, fits, arrived⟩ := ht
    simp [outcome, phase, arrived, demands_tail fresh fits, answers]
  · simp only [outcome, phase]

/-- The end of the stream ends a request that has begun. -/
theorem outcome_close {b : Bridge σ} {c : Connection σ} (h : Rests b c) :
    b.outcome true [] c = ((b.handle c .close).output, (b.handle c .close).host) ∧
      (b.handle c .close).phase = .closed := by
  rcases h.phase with phase | phase
  · have ht := h.tidy
    simp only [Tidy, phase] at ht
    obtain ⟨fresh, fits, arrived⟩ := ht
    cases hb : c.buffer.isEmpty with
    | true =>
      simp [outcome, phase, arrived, demands_tail fresh fits, answers, handle, hb,
        Connection.output]
    | false =>
      simp [outcome, phase, arrived, demands_tail fresh fits, answers, handle, hb, answer_request,
        answer_eq, Connection.output, Connection.write]
  · simp only [outcome, handle, phase, and_self]

/-- What a run of events sends is what its bytes and its end make the connection owe. -/
theorem foldl_handle {b : Bridge σ} {c : Connection σ} (h : Rests b c) (events : List Event) :
    ((events.foldl b.handle c).output, (events.foldl b.handle c).host) =
      b.outcome (ended events) (received events) c := by
  induction events generalizing c with
  | nil => exact h.outcome_open.symm
  | cons e events ih =>
    rw [List.foldl_cons]
    cases e with
    | bytes chunk =>
      obtain ⟨rests, same⟩ := h.bytes chunk
      rw [ih rests, same]
      rfl
    | pause stopped =>
      cases stopped with
      | false =>
        have he : b.handle c (.pause false) = c := by
          rcases h.phase with phase | phase <;> simp [handle, phase]
        rw [he]
        exact ih h
      | true =>
        have hp : (b.handle c (.pause true)).phase = .closed := by
          rcases h.phase with phase | phase <;> simp [handle, phase]
        have same : (b.handle c (.pause true)).output = c.output ∧
            (b.handle c (.pause true)).host = c.host := by
          rcases h.phase with phase | phase <;> simp [handle, phase, Connection.output]
        rw [foldl_handle_closed b events hp, same.1, same.2]
        exact h.outcome_open.symm
    | close =>
      obtain ⟨outcome, closed⟩ := h.outcome_close
      rw [foldl_handle_closed b events closed]
      exact outcome.symm

end Rests

/-- However the bytes of a connection arrive, the bridge sends the answers to the demands of the
whole stream, and leaves the host where these leave it. If it finds itself stopped before the
client has closed its side, a request that has begun stays unanswered. -/
theorem serve_eq_answers (b : Bridge σ) (events : List Event) (s : σ) :
    b.serve events s = b.answers (demands b.sentinel (ended events) (received events)) s := by
  have h := (Rests.opened b s).foldl_handle events
  rw [outcome_opened] at h
  exact h

end TypedCommands.Bridge
