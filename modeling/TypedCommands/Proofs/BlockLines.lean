import TypedCommands.Proofs.PlainScalars

/-! The tokens of the lines of a block mapping: a key, a colon, and a plain scalar or nothing. -/
namespace TypedCommands.Yaml.Lexer

open State

section Keys

variable {ts : List Token} {is : List Nat} {line column offset : Nat} {rest : List Char}

/-- A key at the column begins a block mapping, or goes on with the innermost one. -/
inductive Enters (column : Nat) : List Nat → List Nat → List Token → Prop where
  | first : Enters column [] [column] [.blockMapping]
  | deeper {i : Nat} {is : List Nat} (deeper : i < column) :
      Enters column (i :: is) (column :: i :: is) [.blockMapping]
  | again {is : List Nat} : Enters column (column :: is) (column :: is) []

variable {is' : List Nat} {begun : List Token} {key : List Char}

theorem Enters.fits (enters : Enters column is is' begun) : Fits is column := by
  intro i mem
  cases enters with
  | first => cases mem
  | deeper deeper =>
    cases mem
    exact Nat.le_of_lt deeper
  | again =>
    cases mem
    exact Nat.le_refl _

theorem Enters.fits_behind (enters : Enters column is is' begun) {k : Nat} (behind : column ≤ k) :
    Fits is' k := by
  intro i mem
  cases enters <;> cases mem <;> exact behind

/-- No key is a document marker, since a colon is behind it. -/
theorem startsMarker_key {c : Char} {cs : List Char} (begins : plainBegins (c :: cs) = true) :
    startsMarker c (cs ++ ':' :: rest) = false := by
  simp only [plainBegins, Bool.and_eq_true, Bool.not_eq_true', Bool.and_eq_false_iff,
    Bool.or_eq_false_iff, beq_eq_false_iff_ne] at begins
  obtain ⟨⟨-, mark⟩, -⟩ := begins
  rcases mark with ⟨dash, dot⟩ | other
  · simp [startsMarker, dash, dot]
  · by_cases colon : c = ':'
    · rw [colon]
      rfl
    · have colon : ':' ≠ c := Ne.symm colon
      rcases cs with _ | ⟨d, _ | ⟨e, cs⟩⟩
      · cases rest <;> simp [startsMarker, colon]
      · simp [startsMarker, colon]
      · have different : d = c → e ≠ c := by simpa using other
        by_cases same : d = c
        · simp [startsMarker, different same]
        · simp [startsMarker, same]

theorem step_plain_colon {s : State} {text : List Char} (plain : InPlain s text none)
    (near : gapNext rest = true) (outer : s.outer = []) :
    s.step ':' rest = (s.endPlain text none).stepBetween ':' rest := by
  have ends : s.endsPlain ':' rest = true := by simp [endsPlain, near]
  have stray : s.strayColon ':' rest = false := by simp [strayColon, inFlow, outer]
  unfold InPlain at plain
  rw [State.step, plain]
  simp [stepPlain, isSpace, isBreak, ends, stray]

theorem stepBetween_colon {s : State} (near : gapNext rest = true) (fresh : s.dropStale = some s)
    (fits : Fits s.indents s.column) :
    s.stepBetween ':' rest = s.value.map (·.forward ':') := by
  have marked : startsMarker ':' rest = false := rfl
  rw [stepBetween_of_visible ⟨rfl, by decide, by decide⟩]
  simp only [begin, fresh, unroll_of_fits fits, marked, near, Option.bind_eq_bind, Option.bind_some,
    Bool.and_false, Bool.false_eq_true, if_false, Char.reduceEq, false_and, or_true, and_self,
    if_true]
  rw [Option.map_eq_bind]
  rfl

/-- The colon behind a scalar makes a key of it. -/
theorem step_colon (short : bytes key ≤ 1024) (enters : Enters column is is' begun)
    (near : gapNext rest = true) :
    (scanned (atScalar ts is true line column offset) key.reverse none key.length (bytes key)).step
        ':' rest =
      some (between (.value :: .scalar true (String.ofList key) :: .key :: (begun ++ ts)) is' false
        line (column + key.length + 1) (offset + bytes key + 1)) := by
  have size : ':'.utf8Size = 1 := rfl
  rw [step_plain_colon inPlain_scanned near rfl, stepBetween_colon near]
  · cases enters with
    | first =>
      simp [endPlain, scanned, atScalar, between, State.value, opensBlock, inFlow, State.insert,
        emit, forward, isBreak, size]
    | deeper deeper =>
      simp [endPlain, scanned, atScalar, between, State.value, opensBlock, inFlow, State.insert,
        emit, forward, isBreak, size, deeper]
    | again =>
      simp [endPlain, scanned, atScalar, between, State.value, opensBlock, inFlow, State.insert,
        emit, forward, isBreak, size]
  · apply if_neg
    simp only [endPlain, scanned, atScalar, between, emit, if_true, Option.any_some]
    simp only [decide_eq_true_eq, not_or]
    omega
  · intro i mem
    exact Nat.le_add_right_of_le (enters.fits i mem)

theorem run_key (named : KeyText key) (enters : Enters column is is' begun)
    (near : gapNext rest = true) :
    run (between ts is true line column offset) (key ++ ':' :: rest) =
      run (between (.value :: .scalar true (String.ofList key) :: .key :: (begun ++ ts)) is' false
        line (column + key.length + 1) (offset + bytes key + 1)) rest := by
  rw [run_scalar named.plain enters.fits, run_of_step (step_colon named.short enters near)]
  rintro - c cs rfl
  exact startsMarker_key named.plain.begins

end Keys

section Lines

variable {s s' s'' : State} {ts : List Token} {is : List Nat} {line column offset : Nat}
  {cs ds key value : List Char}

/-- The characters lead from one state to another, whatever follows them. -/
def Leads (s : State) (cs : List Char) (s' : State) : Prop :=
  ∀ rest, run s (cs ++ rest) = run s' rest

theorem Leads.trans (first : Leads s cs s') (second : Leads s' ds s'') :
    Leads s (cs ++ ds) s'' := by
  intro rest
  rw [List.append_assoc, first, second]

/-- At the beginning of the line below a plain scalar, which could still go on. -/
def below (ts : List Token) (is : List Nat) (text : List Char) (line column offset : Nat) : State :=
  ⟨.plain text.reverse (some ⟨[], true, some '\n', []⟩), ts, ts.length, is, false, none, [], line,
    column, offset⟩

theorem leads_space {keyAllowed : Bool} :
    Leads (between ts is keyAllowed line column offset) [' ']
      (between ts is keyAllowed line (column + 1) (offset + 1)) := by
  intro rest
  exact run_of_step rfl

/-- A scalar behind its key, up to the end of the line. -/
theorem leads_value (plain : PlainText value) (fits : Fits is column) :
    Leads (between ts is false line column offset) (' ' :: (value ++ ['\n']))
      (below ts is value (line + 1) 0 (offset + 1 + bytes value + 1)) := by
  have deeper : Fits is (column + 1) := fun i mem => Nat.le_succ_of_le (fits i mem)
  intro rest
  rw [List.cons_append, List.append_assoc, ← List.singleton_append, leads_space,
    run_scalar plain deeper nofun]
  exact run_of_step rfl

/-- A line with a key only. -/
theorem leads_header {is' : List Nat} {begun : List Token} (named : KeyText key)
    (enters : Enters column is is' begun) :
    Leads (between ts is true line column offset) (key ++ [':', '\n'])
      (between (.value :: .scalar true (String.ofList key) :: .key :: (begun ++ ts)) is' true
        (line + 1) 0 (offset + bytes key + 1 + 1)) := by
  intro rest
  rw [List.append_assoc, List.cons_append, run_key named enters rfl]
  exact run_of_step rfl

/-- An item at the column of the innermost block. -/
theorem leads_item :
    Leads (between ts (column :: is) true line column offset) ['-', ' ']
      (between (.item :: ts) (column :: is) true line (column + 2) (offset + 2)) := by
  have dash (rest : List Char) : (between ts (column :: is) true line column offset).step '-'
      (' ' :: rest) = some (between (.item :: ts) (column :: is) true line (column + 1)
        (offset + 1)) := by
    have ready : Ready (between ts (column :: is) true line column offset) :=
      ready_between Enters.again.fits
    have marked : startsMarker '-' (' ' :: rest) = false := by cases rest <;> rfl
    have near : gapNext (' ' :: rest) = true := rfl
    have stays : (between ts (column :: is) true line column offset).opensBlock column = false :=
      decide_eq_false (Nat.lt_irrefl column)
    have added : (between ts (column :: is) true line column offset).item =
        some (between (.item :: ts) (column :: is) true line column offset) := by
      change ((between ts (column :: is) true line column offset).roll column _).dropCandidate.bind
        _ = _
      rw [roll, stays]
      rfl
    rw [ready.step_eq ⟨rfl, by decide, by decide⟩]
    simp only [begin, ready.fresh, ready.unrolled, marked, near, added, Option.bind_eq_bind,
      Option.bind_some, Bool.and_false, Bool.false_eq_true, if_false, and_self, if_true,
      Char.reduceEq]
    rfl
  intro rest
  exact (run_of_step (dash rest)).trans (leads_space rest)

/-- A sequence without items behind its key, up to the end of the line. -/
theorem leads_brackets (fits : Fits is column) :
    Leads (between ts is false line column offset) [' ', '[', ']', '\n']
      (between (.flowSequenceEnd :: .flowSequence :: ts) is true (line + 1) 0 (offset + 4)) := by
  have deeper : Fits is (column + 1) := fun i mem => Nat.le_succ_of_le (fits i mem)
  have opened (rest : List Char) :
      (between ts is false line (column + 1) (offset + 1)).step '[' (']' :: '\n' :: rest) =
      some { between (.flowSequence :: ts) is true line (column + 2) (offset + 2) with
        outer := [none] } := by
    have ready : Ready (between ts is false line (column + 1) (offset + 1)) := ready_between deeper
    have marked : startsMarker '[' (']' :: '\n' :: rest) = false := rfl
    rw [ready.step_eq ⟨rfl, by decide, by decide⟩]
    simp only [begin, ready.fresh, ready.unrolled, marked, Option.bind_eq_bind, Option.bind_some,
      Bool.and_false, Bool.false_eq_true, if_false, if_true]
    rfl
  have closed (rest : List Char) :
      { between (.flowSequence :: ts) is true line (column + 2) (offset + 2) with
        outer := [none] }.step ']' ('\n' :: rest) =
      some (between (.flowSequenceEnd :: .flowSequence :: ts) is false line (column + 3)
        (offset + 3)) := rfl
  intro rest
  rw [List.cons_append, ← List.singleton_append, leads_space]
  exact (run_of_step (opened rest)).trans ((run_of_step (closed rest)).trans (run_of_step rfl))

/-- A line with a key and a sequence without items. -/
theorem leads_no_items {is' : List Nat} {begun : List Token} (named : KeyText key)
    (enters : Enters column is is' begun) :
    Leads (between ts is true line column offset) (key ++ [':', ' ', '[', ']', '\n'])
      (between (.flowSequenceEnd :: .flowSequence :: .value :: .scalar true (String.ofList key) ::
        .key :: (begun ++ ts)) is' true (line + 1) 0 (offset + bytes key + 1 + 4)) := by
  have fits : Fits is' (column + key.length + 1) := enters.fits_behind (by omega)
  intro rest
  rw [List.append_assoc, List.cons_append, run_key named enters rfl, leads_brackets fits]

end Lines

section Below

variable {ts : List Token} {is : List Nat} {text : List Char} {line column offset : Nat}
  {c : Char} {cs next : List Char}

theorem exists_endBlocks (closing : List Nat) :
    ∃ ts' is', endBlocks column closing (between ts is true line column offset) =
      between ts' is' true line column offset ∧ Fits is' column := by
  induction closing generalizing ts with
  | nil => exact ⟨ts, [], rfl, nofun⟩
  | cons i closing ih =>
    unfold endBlocks
    split
    · exact ih
    · rename_i inside
      refine ⟨ts, i :: closing, rfl, ?_⟩
      rintro i ⟨⟩
      exact Nat.not_lt.mp inside

/-- A token first ends the blocks that are indented further than it. -/
theorem step_unroll (visible : Visible c) :
    (between ts is true line column offset).step c next =
      ((between ts is true line column offset).unroll column).step c next := by
  obtain ⟨ts', is', ended, fits⟩ :
      ∃ ts' is', (between ts is true line column offset).unroll column =
        between ts' is' true line column offset ∧ Fits is' column := exists_endBlocks is
  have fresh : (between ts is true line column offset).dropStale = some _ := rfl
  have unrolled : (between ts is true line column offset).unroll
      (between ts is true line column offset).column =
        between ts' is' true line column offset := ended
  have ready : Ready (between ts' is' true line column offset) := ready_between fits
  rw [ended, ready.step_eq visible]
  change stepBetween _ _ _ = _
  rw [stepBetween_of_visible visible]
  simp only [begin, fresh, ready.fresh, Option.bind_eq_bind, Option.bind_some, unrolled,
    ready.unrolled]

/-- A line that is not indented further ends the plain scalar above it, and the blocks that are. -/
theorem run_below {i : Nat} (visible : Visible c) (inside : column ≤ i) :
    run (below ts (i :: is) text line column offset) (c :: cs) =
      run ((between (.scalar true (String.ofList text) :: ts) (i :: is) true line column
        offset).unroll column) (c :: cs) := by
  have within : column < (below ts (i :: is) text line column offset).margin :=
    Nat.lt_succ_of_le inside
  have ends : (below ts (i :: is) text line column offset).endsAtGap c cs = true := by
    have outer : (below ts (i :: is) text line column offset).inFlow = false := rfl
    have column_eq : (below ts (i :: is) text line column offset).column = column := rfl
    simp [endsAtGap, outer, column_eq, within]
  have ended : (below ts (i :: is) text line column offset).step c cs =
      (between (.scalar true (String.ofList text) :: ts) (i :: is) true line column offset).step c
        cs := by
    have solid := visible.solid
    simp only [isGap, Bool.or_eq_false_iff] at solid
    have plain : (below ts (i :: is) text line column offset).step c cs =
        (below ts (i :: is) text line column offset).stepPlain text.reverse
          (some ⟨[], true, some '\n', []⟩) c cs := rfl
    rw [plain, stepPlain, solid.1, solid.2, ends]
    simp only [Option.isSome_some, Bool.and_self, Bool.false_eq_true, if_false, if_true, endPlain,
      below, List.reverse_reverse]
    rfl
  rw [run, run, ended, step_unroll visible]

theorem leads_below {i : Nat} {s' : State} (visible : Visible c) (inside : column ≤ i)
    (leads : Leads ((between (.scalar true (String.ofList text) :: ts) (i :: is) true line column
      offset).unroll column) (c :: cs) s') :
    Leads (below ts (i :: is) text line column offset) (c :: cs) s' :=
  fun rest => (run_below visible inside).trans (leads rest)

theorem leads_below_space :
    Leads (below ts is text line column offset) [' ']
      (below ts is text line (column + 1) (offset + 1)) := by
  intro rest
  apply run_of_step
  change (below ts is text line column offset).stepPlain text.reverse
    (some ⟨[], true, some '\n', []⟩) ' ' rest = _
  simp only [stepPlain, isSpace, BEq.rfl, Bool.true_or, if_true, Char.reduceBEq, Bool.and_false,
    Bool.false_eq_true, if_false]
  rfl

/-- Between the entries of the mapping that a document is, which may go on or end. -/
structure Awaits (s : State) (ts : List Token) : Prop where
  goesOn : ∃ line offset, ∀ c cs, Visible c →
    run s (c :: cs) = run (between ts [0] true line 0 offset) (c :: cs)
  ends : run s [] = some (ts.reverse ++ [.blockEnd])

theorem awaits_between : Awaits (between ts [0] true line 0 offset) ts where
  goesOn := ⟨line, offset, fun _ _ _ => rfl⟩
  ends := congrArg some List.reverse_cons

theorem awaits_below_entry :
    Awaits (below ts [0] text line 0 offset) (.scalar true (String.ofList text) :: ts) where
  goesOn := ⟨line, offset, fun _ _ visible => run_below visible (Nat.le_refl 0)⟩
  ends := by
    change some (.blockEnd :: .scalar true (String.ofList text.reverse.reverse) :: ts).reverse = _
    rw [List.reverse_reverse, List.reverse_cons]

/-- Below the last entry of a mapping within. -/
theorem awaits_below_mapping {i : Nat} :
    Awaits (below ts [i + 1, 0] text line 0 offset)
      (.blockEnd :: .scalar true (String.ofList text) :: ts) where
  goesOn := ⟨line, offset, fun _ _ visible => run_below visible (Nat.zero_le _)⟩
  ends := by
    change some (.blockEnd :: .blockEnd :: .scalar true (String.ofList text.reverse.reverse) ::
      ts).reverse = _
    rw [List.reverse_reverse, List.reverse_cons]

end Below

/-! ### Mappings within -/

/-- A key with its value, both plain. -/
structure Writable (e : String × String) : Prop where
  key : KeyText e.1.toList
  value : PlainText e.2.toList

def entryLine (e : String × String) : List Char :=
  e.1.toList ++ ':' :: ' ' :: (e.2.toList ++ ['\n'])

/-- The lines of a mapping in a block that is indented by two columns, from its first key on. -/
def mappingLines : List (String × String) → List Char
  | [] => []
  | e :: es => entryLine e ++ es.flatMap fun e => ' ' :: ' ' :: entryLine e

def entryTokens (e : String × String) : List Token :=
  [.key, .scalar true e.1, .value, .scalar true e.2]

def mappingTokens (es : List (String × String)) : List Token :=
  .blockMapping :: es.flatMap entryTokens ++ [.blockEnd]

section Mappings

variable {s s' : State} {ts ts' : List Token} {is is' : List Nat} {column line offset : Nat}
  {cs ds text key : List Char} {begun : List Token} {e : String × String}
  {es : List (String × String)}

/-- The characters lead to a state between the entries of the outermost mapping. -/
def Arrives (s : State) (cs : List Char) (ts : List Token) : Prop :=
  ∃ s', Leads s cs s' ∧ Awaits s' ts

theorem Leads.arrives (first : Leads s cs s') (second : Arrives s' ds ts) :
    Arrives s (cs ++ ds) ts := by
  obtain ⟨s'', leads, awaits⟩ := second
  exact ⟨s'', first.trans leads, awaits⟩

theorem Arrives.trans (first : Arrives s cs ts) (second : ∀ s', Awaits s' ts → Arrives s' ds ts') :
    Arrives s (cs ++ ds) ts' := by
  obtain ⟨s', leads, awaits⟩ := first
  exact leads.arrives (second s' awaits)

/-- At the end of the text the outermost mapping ends. -/
theorem Arrives.run_eq (arrives : Arrives s cs ts) :
    run s cs = some (ts.reverse ++ [.blockEnd]) := by
  obtain ⟨s', leads, awaits⟩ := arrives
  have last := leads []
  rw [List.append_nil] at last
  exact last.trans awaits.ends

/-- What begins an entry of the outermost mapping also ends the blocks within. -/
theorem Awaits.leads (awaits : Awaits s ts) : ∃ line offset, ∀ c cs s', Visible c →
    Leads (between ts [0] true line 0 offset) (c :: cs) s' → Leads s (c :: cs) s' := by
  obtain ⟨line, offset, on⟩ := awaits.goesOn
  refine ⟨line, offset, fun c cs s' visible leads rest => ?_⟩
  rw [List.cons_append, on c _ visible, ← List.cons_append, leads]

theorem Awaits.leads_key (awaits : Awaits s ts) (named : PlainText key) :
    ∃ line offset, ∀ cs s', Leads (between ts [0] true line 0 offset) (key ++ cs) s' →
      Leads s (key ++ cs) s' := by
  obtain ⟨line, offset, on⟩ := awaits.leads
  obtain ⟨c, key, rfl, visible⟩ := named.exists_cons
  exact ⟨line, offset, fun cs s' => on c (key ++ cs) s' visible⟩

theorem Awaits.header (awaits : Awaits s ts) (named : KeyText key) :
    ∃ line offset, Leads s (key ++ [':', '\n'])
      (between (.value :: .scalar true (String.ofList key) :: .key :: ts) [0] true line 0
        offset) := by
  obtain ⟨line, offset, on⟩ := awaits.leads_key named.plain
  exact ⟨_, _, on _ _ (leads_header named .again)⟩

theorem Awaits.no_items (awaits : Awaits s ts) (named : KeyText key) :
    Arrives s (key ++ [':', ' ', '[', ']', '\n'])
      (.flowSequenceEnd :: .flowSequence :: .value :: .scalar true (String.ofList key) :: .key ::
        ts) := by
  obtain ⟨line, offset, on⟩ := awaits.leads_key named.plain
  exact ⟨_, on _ _ (leads_no_items named .again), awaits_between⟩

theorem Awaits.item (awaits : Awaits s ts) :
    ∃ line offset, Leads s ['-', ' '] (between (.item :: ts) [0] true line 2 offset) := by
  obtain ⟨line, offset, on⟩ := awaits.leads
  exact ⟨_, _, on '-' [' '] _ ⟨rfl, by decide, by decide⟩ leads_item⟩

/-- A line with a key and a scalar. -/
theorem leads_entryLine (writable : Writable e) (enters : Enters column is is' begun) :
    Leads (between ts is true line column offset) (entryLine e)
      (below (.value :: .scalar true e.1 :: .key :: (begun ++ ts)) is' e.2.toList (line + 1) 0
        (offset + bytes e.1.toList + 1 + 1 + bytes e.2.toList + 1)) := by
  have fits : Fits is' (column + e.1.toList.length + 1) := enters.fits_behind (by omega)
  intro rest
  rw [entryLine, List.append_assoc, List.cons_append, run_key writable.key enters rfl,
    leads_value writable.value fits, String.ofList_toList]

/-- The first entry of the outermost mapping. -/
theorem arrives_first (writable : Writable e) :
    Arrives .initial (entryLine e) ((entryTokens e).reverse ++ [.blockMapping]) := by
  have arrives : Arrives .initial (entryLine e) _ :=
    ⟨_, leads_entryLine writable .first, awaits_below_entry⟩
  rw [String.ofList_toList] at arrives
  exact arrives

theorem exists_head_entryLine (writable : Writable e) :
    ∃ c cs, entryLine e = c :: cs ∧ Visible c := by
  obtain ⟨c, cs, head, visible⟩ := writable.key.plain.exists_cons
  exact ⟨c, _, by rw [entryLine, head, List.cons_append], visible⟩

/-- Another entry of the mapping within. -/
theorem leads_further_line (writable : Writable e) :
    Leads (below ts [2, 0] text line 0 offset) (' ' :: ' ' :: entryLine e)
      (below (.value :: .scalar true e.1 :: .key :: .scalar true (String.ofList text) :: ts) [2, 0]
        e.2.toList (line + 1) 0
        (offset + 2 + bytes e.1.toList + 1 + 1 + bytes e.2.toList + 1)) := by
  obtain ⟨c, cs, head, visible⟩ := exists_head_entryLine writable
  have entry : Leads (between (.scalar true (String.ofList text) :: ts) [2, 0] true line 2
      (offset + 2)) (entryLine e) _ := leads_entryLine writable .again
  rw [head] at entry ⊢
  exact (leads_below_space.trans leads_below_space).trans
    (leads_below visible (Nat.le_refl 2) entry)

/-- The entries that follow the first one. -/
theorem arrives_entryLines (writable : ∀ e ∈ es, Writable e) :
    Arrives (below ts [2, 0] text line 0 offset) (es.flatMap fun e => ' ' :: ' ' :: entryLine e)
      (Token.blockEnd :: ((es.flatMap entryTokens).reverse ++
        .scalar true (String.ofList text) :: ts)) := by
  induction es generalizing ts text line offset with
  | nil => exact ⟨_, fun rest => rfl, awaits_below_mapping⟩
  | cons e es ih =>
    obtain ⟨first, more⟩ := List.forall_mem_cons.mp writable
    have further : Leads (below ts [2, 0] text line 0 offset) _ _ := leads_further_line first
    have arrives := further.arrives (ih more)
    rw [String.ofList_toList] at arrives
    simpa [entryTokens] using arrives

theorem arrives_mapping (writable : ∀ e' ∈ e :: es, Writable e') :
    Arrives (between ts [0] true line 2 offset) (mappingLines (e :: es))
      ((mappingTokens (e :: es)).reverse ++ ts) := by
  obtain ⟨first, more⟩ := List.forall_mem_cons.mp writable
  have deeper : Enters 2 [0] [2, 0] [.blockMapping] := .deeper (Nat.zero_lt_succ 1)
  have begun : Leads (between ts [0] true line 2 offset) _ _ := leads_entryLine first deeper
  have arrives := begun.arrives (arrives_entryLines more)
  rw [String.ofList_toList] at arrives
  simpa [entryTokens, mappingTokens, mappingLines] using arrives

end Mappings

section Lined

theorem Writable.lined {e : String × String} (writable : Writable e) : Lined (entryLine e) := by
  have colon : Lined [':', ' '] := by decide
  have newline : Lined ['\n'] := by decide
  exact writable.key.plain.lined.append (colon.append (writable.value.lined.append newline))

theorem lined_mappingLines {es : List (String × String)} (writable : ∀ e ∈ es, Writable e) :
    Lined (mappingLines es) := by
  cases es with
  | nil => rfl
  | cons e es =>
    obtain ⟨first, more⟩ := List.forall_mem_cons.mp writable
    have indent : Lined [' ', ' '] := by decide
    exact first.lined.append (lined_flatMap fun e mem => indent.append (more e mem).lined)

/-- Nothing is changed in such a text before it is read. -/
theorem ofText?_of_lined {text : String} (lined : Lined text.toList) :
    Token.ofText? text = run .initial text.toList := by
  rw [Token.ofText?, if_pos lined.isAllowed, lined.unifyBreaks_eq]

end Lined

end TypedCommands.Yaml.Lexer
