import TypedCommands.Environment

/-! The control bridge: requests and responses on a connection, each ended by a sentinel byte or,
for the last request, by the client closing its side. A request that is too long ends the
connection. -/
namespace TypedCommands

/-- Longest request, in bytes, its sentinel not counted. -/
def maxRequest : Nat := 65536

structure Bridge (σ : Type) where
  environment : Environment σ
  sentinel : UInt8

namespace Bridge

variable {σ : Type}

def notText : String := "request is not valid UTF-8"
def tooLong : String := s!"request exceeds {maxRequest} bytes"

/-- A response and the sentinel that ends it. -/
def frame (b : Bridge σ) (response : String) : List UInt8 :=
  response.toUTF8.toList ++ [b.sentinel]

/-- The response to the bytes of a request. -/
def respond (b : Bridge σ) (request : List UInt8) (s : σ) : String × σ :=
  match String.fromUTF8? ⟨request.toArray⟩ with
  | some text => b.environment.respond text s
  | none => (notText, s)

/-- What happens to a connection: bytes arrive; for a while none do, and then the bridge may find
that it has been stopped; the client closes its side. -/
inductive Event where
  | bytes (chunk : List UInt8)
  | pause (stopped : Bool)
  | close
  deriving DecidableEq

inductive Phase where
  /-- About to read, or to refuse a request that has grown too long. -/
  | ready
  /-- A read has just brought the sentinel. -/
  | complete
  /-- All that has arrived has been read. -/
  | waiting
  | closed
  deriving DecidableEq

/-- One connection. -/
structure Connection (σ : Type) where
  phase : Phase
  /-- The request so far. -/
  buffer : List UInt8
  /-- What has arrived and not been read. -/
  arrived : List UInt8
  /-- The responses, the last one first. -/
  written : List (List UInt8)
  host : σ

namespace Connection

def opened (s : σ) : Connection σ := ⟨.waiting, [], [], [], s⟩

def write (c : Connection σ) (bytes : List UInt8) : Connection σ :=
  { c with written := bytes :: c.written }

def output (c : Connection σ) : List UInt8 := c.written.reverse.flatten

/-- How many bytes the next read takes at most: one more than a request may have. -/
def limit (c : Connection σ) : Nat := maxRequest + 1 - c.buffer.length

end Connection

/-- Bytes up to and including the sentinel, but no more than the limit, and the rest. -/
def takeThrough (sentinel : UInt8) (taken : List UInt8) : Nat → List UInt8 → List UInt8 × List UInt8
  | 0, bytes => (taken.reverse, bytes)
  | _, [] => (taken.reverse, [])
  | n + 1, x :: bytes =>
    if x = sentinel then ((x :: taken).reverse, bytes) else takeThrough sentinel (x :: taken) n bytes

/-- Answers a request whose bytes are all there. -/
def answer (b : Bridge σ) (request : List UInt8) (c : Connection σ) : Connection σ :=
  let (response, host) := b.respond request c.host
  { c with host, buffer := [] }.write (b.frame response)

/-- One read, one answer or one refusal. -/
def advance (b : Bridge σ) (c : Connection σ) : Connection σ :=
  match c.phase with
  | .ready =>
    if maxRequest < c.buffer.length then { c with phase := .closed }.write (b.frame tooLong)
    else
      let (taken, arrived) := takeThrough b.sentinel [] c.limit c.arrived
      let buffer := c.buffer ++ taken
      let phase :=
        if taken.getLast? = some b.sentinel then .complete
        else if maxRequest < buffer.length then .ready
        else .waiting
      { c with phase, buffer, arrived }
  | .complete => b.answer c.buffer.dropLast { c with phase := .ready }
  | .waiting | .closed => c

/-- Goes down with every step that changes the connection. -/
def rank (c : Connection σ) : Nat :=
  3 * c.arrived.length + match c.phase with
    | .complete => 2
    | .ready => 1
    | .waiting | .closed => 0

theorem takeThrough_length (sentinel : UInt8) (taken : List UInt8) (n : Nat) (bytes : List UInt8) :
    (takeThrough sentinel taken n bytes).1.length + (takeThrough sentinel taken n bytes).2.length =
      taken.length + bytes.length := by
  fun_induction takeThrough sentinel taken n bytes with
  | case1 => simp
  | case2 => simp
  | case3 => simp; omega
  | case4 taken n x bytes h ih => simp only [ih, List.length_cons]; omega

theorem rank_advance_lt (b : Bridge σ) (c : Connection σ)
    (h : c.phase = .ready ∨ c.phase = .complete) : rank (b.advance c) < rank c := by
  rcases h with h | h
  · unfold advance
    rw [h]
    dsimp only
    split
    · simp [rank, h, Connection.write]
    · rename_i hb
      have hl := takeThrough_length b.sentinel [] c.limit c.arrived
      generalize takeThrough b.sentinel [] c.limit c.arrived = r at hl
      obtain ⟨taken, arrived⟩ := r
      simp only [List.length_nil, Nat.zero_add] at hl
      by_cases ht : taken.getLast? = some b.sentinel
      · have : taken ≠ [] := by rintro rfl; simp at ht
        have := List.length_pos_iff.2 this
        simp only [rank, h, ht, if_true]
        omega
      · by_cases hf : maxRequest < (c.buffer ++ taken).length
        · simp only [rank, h, ht, hf, if_true, if_false]
          rw [List.length_append] at hf
          omega
        · simp only [rank, h, ht, hf, if_false]
          omega
  · simp [advance, h, rank, answer, Connection.write]

/-- Goes on until all that has arrived is read or the connection is closed. -/
def settle (b : Bridge σ) (c : Connection σ) : Connection σ :=
  if h : c.phase = .ready ∨ c.phase = .complete then
    have := rank_advance_lt b c h
    settle b (b.advance c)
  else c
termination_by rank c

/-- What an event does to a connection. -/
def handle (b : Bridge σ) (c : Connection σ) (e : Event) : Connection σ :=
  match c.phase, e with
  | .closed, _ => c
  | _, .bytes chunk => b.settle { c with phase := .ready, arrived := c.arrived ++ chunk }
  | _, .pause stopped => if stopped then { c with phase := .closed } else c
  | _, .close =>
    let c := { c with phase := .closed }
    if c.buffer.isEmpty then c else b.answer c.buffer c

/-- A whole connection: the bytes that the bridge sends, and the state in which it leaves the
host. -/
def serve (b : Bridge σ) (events : List Event) (s : σ) : List UInt8 × σ :=
  let c := events.foldl b.handle (.opened s)
  (c.output, c.host)

end Bridge
end TypedCommands
