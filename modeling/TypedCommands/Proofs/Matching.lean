import TypedCommands.Proofs.Encoding
import TypedCommands.Proofs.Framing

/-! Which part of what a bridge sends answers which request. A response goes out as it is, with the
sentinel behind it: nothing in it is escaped, so cutting at the sentinels gives the responses back
exactly when none of them holds a sentinel. -/
namespace TypedCommands.Bridge

variable {σ : Type}

/-- The responses to requests, each from the state that the one before it left. -/
def responses (b : Bridge σ) : List (List UInt8) → σ → List String
  | [], _ => []
  | request :: requests, s =>
    let (text, s) := b.respond request s
    text :: b.responses requests s

theorem length_responses (b : Bridge σ) (requests : List (List UInt8)) (s : σ) :
    (b.responses requests s).length = requests.length := by
  induction requests generalizing s with
  | nil => rfl
  | cons request requests ih =>
    rw [responses, List.length_cons, ih, List.length_cons]

/-- Requests that each have their sentinel are the demands of the stream, and nothing else is. -/
theorem demands_flatMap {sentinel : UInt8} (ended : Bool) {requests : List (List UInt8)}
    (h : ∀ request ∈ requests, request.length ≤ maxRequest ∧ sentinel ∉ request) :
    demands sentinel ended (requests.flatMap (· ++ [sentinel])) = requests.map .request := by
  induction requests with
  | nil =>
    have ht : demands sentinel ended [] = if ended && !true then [.request []] else [] :=
      demands_tail List.not_mem_nil (Nat.zero_le _)
    simpa using ht
  | cons request requests ih =>
    rw [List.forall_mem_cons] at h
    obtain ⟨⟨fits, fresh⟩, hrest⟩ := h
    rw [List.flatMap_cons, List.append_assoc, List.singleton_append, demands_request fresh fits,
      ih hrest, List.map_cons]

theorem answers_map_request (b : Bridge σ) (requests : List (List UInt8)) (s : σ) :
    (b.answers (requests.map .request) s).1 = (b.responses requests s).flatMap b.frame := by
  induction requests generalizing s with
  | nil => rfl
  | cons request requests ih =>
    simp only [List.map_cons, answers, answer_request, responses, List.flatMap_cons, ih]

/-- The pieces between the sentinels are those of the responses, one response after the other. -/
theorem splitOn_flatMap_frame (b : Bridge σ) (texts : List String) :
    (texts.flatMap b.frame).splitOn b.sentinel =
      texts.flatMap (·.toUTF8.toList.splitOn b.sentinel) ++ [[]] := by
  induction texts with
  | nil => rfl
  | cons text texts ih =>
    rw [List.flatMap_cons, frame, List.append_assoc, List.singleton_append,
      List.splitOn_append_cons_self, ih, List.flatMap_cons, List.append_assoc]

/-- Bytes that are cut somewhere do not come out as a piece of their own. -/
theorem not_mem_of_splitOn_append {sentinel : UInt8} {bytes : List UInt8}
    {more others : List (List UInt8)} (h : bytes.splitOn sentinel ++ more = bytes :: others) :
    sentinel ∉ bytes := by
  intro hs
  obtain ⟨front, rest, rfl, fresh⟩ := List.eq_append_cons_of_mem hs
  rw [List.splitOn_append_cons_self_of_not_mem fresh, List.cons_append] at h
  have hl := congrArg List.length (List.cons.inj h).1
  simp only [List.length_append, List.length_cons] at hl
  omega

theorem flatMap_splitOn_eq_iff (sentinel : UInt8) (pieces : List (List UInt8)) :
    pieces.flatMap (·.splitOn sentinel) = pieces ↔ ∀ bytes ∈ pieces, sentinel ∉ bytes := by
  induction pieces with
  | nil => simp
  | cons bytes pieces ih =>
    rw [List.flatMap_cons, List.forall_mem_cons]
    constructor
    · intro h
      have fresh := not_mem_of_splitOn_append h
      rw [List.splitOn_eq_singleton fresh, List.singleton_append, List.cons.injEq] at h
      exact ⟨fresh, ih.mp h.2⟩
    · rintro ⟨fresh, hrest⟩
      rw [List.splitOn_eq_singleton fresh, ih.mpr hrest, List.singleton_append]

/-- Each request is answered by its response and one sentinel, in the order of the requests. Cutting
what was sent at the sentinels gives the responses back, one piece for each request and nothing
behind the last sentinel, if and only if no response holds the sentinel. It always does so if the
sentinel is none of the bytes that texts are made of. -/
theorem splitOn_serve (b : Bridge σ) (events : List Event) (requests : List (List UInt8)) (s : σ)
    (h : ∀ request ∈ requests, request.length ≤ maxRequest ∧ b.sentinel ∉ request)
    (hr : received events = requests.flatMap (· ++ [b.sentinel])) :
    (b.responses requests s).length = requests.length ∧
      (b.serve events s).1 = (b.responses requests s).flatMap b.frame ∧
      ((b.serve events s).1.splitOn b.sentinel =
          (b.responses requests s).map (·.toUTF8.toList) ++ [[]] ↔
        ∀ text ∈ b.responses requests s, b.sentinel ∉ text.toUTF8.toList) ∧
      (0xF8 ≤ b.sentinel → (b.serve events s).1.splitOn b.sentinel =
          (b.responses requests s).map (·.toUTF8.toList) ++ [[]]) := by
  have hsent : (b.serve events s).1 = (b.responses requests s).flatMap b.frame := by
    have hrun := (Rests.opened b s).foldl_handle events
    rw [outcome_opened, hr, demands_flatMap (ended events) h] at hrun
    rw [serve, hrun, answers_map_request]
  have hcut : (b.serve events s).1.splitOn b.sentinel =
        (b.responses requests s).map (·.toUTF8.toList) ++ [[]] ↔
      ∀ text ∈ b.responses requests s, b.sentinel ∉ text.toUTF8.toList := by
    have hiff := flatMap_splitOn_eq_iff b.sentinel ((b.responses requests s).map (·.toUTF8.toList))
    rw [List.flatMap_map, List.forall_mem_map] at hiff
    rw [hsent, splitOn_flatMap_frame, List.append_left_inj, hiff]
  refine ⟨length_responses b requests s, hsent, hcut, ?_⟩
  intro hbyte
  apply hcut.mpr
  intro text _ hmem
  exact absurd (lt_of_mem_toUTF8 hmem) (UInt8.not_lt.mpr hbyte)

theorem splitOn_serve_two_requests :
    let b : Bridge Unit := ⟨⟨.empty, .simple⟩, 0⟩
    let requests := ["Nope".toUTF8.toList, [0xFF]]
    let events := [.bytes [78, 111], .pause false, .bytes [112, 101, 0, 0xFF, 0], .close]
    (∀ request ∈ requests, request.length ≤ maxRequest ∧ b.sentinel ∉ request) ∧
      received events = requests.flatMap (· ++ [b.sentinel]) ∧
      (b.serve events ()).1 = (b.responses requests ()).flatMap b.frame := by
  have h : ∀ request ∈ ["Nope".toUTF8.toList, [0xFF]],
      request.length ≤ maxRequest ∧ (0 : UInt8) ∉ request := by decide +kernel
  have hr : received [.bytes [78, 111], .pause false, .bytes [112, 101, 0, 0xFF, 0], .close] =
      ["Nope".toUTF8.toList, [0xFF]].flatMap (· ++ [(0 : UInt8)]) := by decide +kernel
  exact ⟨h, hr, (splitOn_serve ⟨⟨.empty, .simple⟩, 0⟩ _ _ () h hr).2.1⟩

/-- One request and two pieces: the text that `Echo` gives back holds the sentinel. -/
theorem splitOn_echoed_sentinel :
    let b : Bridge Unit :=
      ⟨⟨⟨[⟨Builtin.echo.signature, Builtin.echo.handler⟩], by simp⟩, .verbose⟩, 0⟩
    let request := "Echo \"a\\0b\"".toUTF8.toList
    let events := [.bytes (request ++ [b.sentinel]), .close]
    let pieces := (b.serve events ()).1.splitOn b.sentinel
    request.length ≤ maxRequest ∧ b.sentinel ∉ request ∧
      received events = [request].flatMap (· ++ [b.sentinel]) ∧
      b.responses [request] () = ["a\x00b"] ∧ pieces = [[97], [98], []] ∧
      pieces ≠ (b.responses [request] ()).map (·.toUTF8.toList) ++ [[]] := by
  decide +kernel

end TypedCommands.Bridge
