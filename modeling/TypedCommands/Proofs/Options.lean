import TypedCommands.Invocation
import TypedCommands.Proofs.Traversal

/-! How arguments are read, one option or text after the other, and what asking for short reports
among them changes: what else is read stays the same. -/
namespace TypedCommands.Invocation

namespace Given

/-- The same, and short reports are asked for. -/
def brief (g : Given) : Given := { g with simple := true }

/-- A step that short reports asked for before do not disturb. It may only stumble over them when it
asks for them itself. -/
def Tolerant (step : Given → Step Given) : Prop :=
  ∀ ⦃g g' : Given⦄, step g = .ok g' → g'.simple = false →
    g.simple = false ∧ step g.brief = .ok g'.brief

theorem setFlag_eq_ok_iff {g g' : Given} {flag : Flag} : g.setFlag flag = .ok g' ↔
    flag = .simple ∧ g.simple = false ∧ g' = { g with simple := true } ∨
      flag = .types ∧ g.types = false ∧ g' = { g with types := true } := by
  cases flag with
  | simple => cases given : g.simple <;> simp [setFlag, given, @eq_comm _ g']
  | types => cases given : g.types <;> simp [setFlag, given, @eq_comm _ g']
  | help => simp [setFlag]
  | version => simp [setFlag]

theorem setKey_eq_ok_iff {g g' : Given} {key : Key} {value : String} :
    g.setKey key value = .ok g' ↔
      key = .config ∧ g.config = none ∧ value ≠ "" ∧ g' = { g with config := some value } ∨
        key = .port ∧ g.port = none ∧ ∃ p, port? value = some p ∧ g' = { g with port := some p } := by
  cases key with
  | config =>
    by_cases empty : value = "" <;> cases given : g.config <;>
      simp [setKey, empty, given, @eq_comm _ g']
  | port =>
    cases given : g.port <;> cases read : port? value <;>
      simp [setKey, given, read, @eq_comm _ g']

theorem tolerant_setFlag (flag : Flag) : Tolerant (·.setFlag flag) := by
  intro g g' h plain
  rcases setFlag_eq_ok_iff.mp h with ⟨rfl, -, rfl⟩ | ⟨rfl, unset, rfl⟩
  · cases plain
  · exact ⟨plain, setFlag_eq_ok_iff.mpr (.inr ⟨rfl, unset, rfl⟩)⟩

theorem tolerant_setKey (key : Key) (value : String) : Tolerant (·.setKey key value) := by
  intro g g' h plain
  rcases setKey_eq_ok_iff.mp h with ⟨rfl, unset, text, rfl⟩ | ⟨rfl, unset, p, read, rfl⟩
  · exact ⟨plain, setKey_eq_ok_iff.mpr (.inl ⟨rfl, unset, text, rfl⟩)⟩
  · exact ⟨plain, setKey_eq_ok_iff.mpr (.inr ⟨rfl, unset, p, read, rfl⟩)⟩

theorem addText_brief {g g' : Given} {capacity : Nat} {text : String}
    (h : g.addText capacity text = .ok g') :
    g'.simple = g.simple ∧ g.brief.addText capacity text = .ok g'.brief := by
  unfold addText at h ⊢
  split at h
  · rename_i room
    cases h
    exact ⟨rfl, if_pos room⟩
  · cases h

theorem addTexts_brief {g g' : Given} {capacity : Nat} {texts : List String}
    (h : texts.foldlM (fun (g : Given) text => g.addText capacity text) g = .ok g') :
    g'.simple = g.simple ∧
      texts.foldlM (fun (g : Given) text => g.addText capacity text) g.brief = .ok g'.brief := by
  induction texts generalizing g with
  | nil =>
    cases h
    exact ⟨rfl, rfl⟩
  | cons text texts ih =>
    rw [List.foldlM_cons] at h ⊢
    obtain ⟨g₁, first, rest⟩ := bind_eq_ok.mp h
    obtain ⟨same, first⟩ := addText_brief first
    obtain ⟨same', rest⟩ := ih rest
    exact ⟨same'.trans same, bind_eq_ok.mpr ⟨g₁.brief, first, rest⟩⟩

end Given

variable {verb : Option Verb} {capacity : Nat}

/-- Arguments that are taken together, and what they ask for. -/
inductive Takes (verb : Option Verb) (capacity : Nat) :
    List String → (Given → Step Given) → Prop where
  | text {arg text : String} (shape : Shape.of arg = .text text) (behind : verb.isNone = false) :
      Takes verb capacity [arg] (·.addText capacity text)
  | flag {arg name : String} {flag : Flag} (shape : Shape.of arg = .long name none)
      (known : flag? verb name = some flag) : Takes verb capacity [arg] (·.setFlag flag)
  | joined {arg name value : String} {key : Key} (shape : Shape.of arg = .long name (some value))
      (known : key? verb name = some key) : Takes verb capacity [arg] (·.setKey key value)
  | separate {arg name value text : String} {key : Key} (shape : Shape.of arg = .long name none)
      (unflagged : flag? verb name = none) (known : key? verb name = some key)
      (shape' : Shape.of value = .text text) :
      Takes verb capacity [arg, value] (·.setKey key text)

theorem Takes.tolerant {taken : List String} {step : Given → Step Given}
    (h : Takes verb capacity taken step) : Given.Tolerant step := by
  cases h with
  | text =>
    intro g g' h plain
    obtain ⟨same, brief⟩ := Given.addText_brief h
    exact ⟨same.symm.trans plain, brief⟩
  | flag => exact Given.tolerant_setFlag _
  | joined => exact Given.tolerant_setKey _ _
  | separate => exact Given.tolerant_setKey _ _

theorem Takes.readSide_append {taken : List String} {step : Given → Step Given}
    (h : Takes verb capacity taken step) (g : Given) (rest : List String) :
    readSide verb capacity g (taken ++ rest) =
      (step g).bind fun g => readSide verb capacity g rest := by
  cases h with
  | text shape behind =>
    rw [List.singleton_append, readSide, shape]
    simp only [behind, Bool.false_eq_true, if_false]
  | flag shape known =>
    rw [List.singleton_append, readSide, shape]
    simp only [known]
  | joined shape known =>
    rw [List.singleton_append, readSide, shape]
    simp only [known]
  | separate shape unflagged known shape' =>
    rw [List.cons_append, List.singleton_append, readSide, shape]
    simp only [unflagged, known, shape']

/-- One side is read to its end, or up to the name of an action. -/
inductive Reads (verb : Option Verb) (capacity : Nat) :
    Given → List String → Given → List String → Prop where
  | nil {g : Given} : Reads verb capacity g [] g []
  | name {g : Given} {arg text : String} {rest : List String} (shape : Shape.of arg = .text text)
      (before : verb = none) : Reads verb capacity g (arg :: rest) g (arg :: rest)
  | divider {g g' : Given} {arg : String} {rest : List String} (shape : Shape.of arg = .divider)
      (texts : rest.foldlM (fun (g : Given) text => g.addText capacity text) g = .ok g') :
      Reads verb capacity g (arg :: rest) g' []
  | step {g g₁ g' : Given} {taken rest left : List String} {step : Given → Step Given}
      (takes : Takes verb capacity taken step) (first : step g = .ok g₁)
      (reads : Reads verb capacity g₁ rest g' left) :
      Reads verb capacity g (taken ++ rest) g' left

theorem readSide_eq_ok_iff {g g' : Given} {args left : List String} :
    readSide verb capacity g args = .ok (g', left) ↔ Reads verb capacity g args g' left := by
  constructor
  · intro h
    fun_induction readSide verb capacity g args with
    | case1 g =>
      cases h
      exact .nil
    | case2 g arg rest text shape before =>
      cases h
      exact .name shape (Option.isNone_iff_eq_none.mp before)
    | case3 g arg rest text shape behind ih =>
      obtain ⟨g₁, first, h⟩ := bind_eq_ok.mp h
      exact .step (.text shape (Bool.eq_false_iff.mpr behind)) first (ih g₁ h)
    | case4 g arg rest shape =>
      obtain ⟨g₁, texts, h⟩ := map_eq_ok.mp h
      cases h
      exact .divider shape texts
    | case6 g arg rest name value shape key known ih =>
      obtain ⟨g₁, first, h⟩ := bind_eq_ok.mp h
      exact .step (.joined shape known) first (ih g₁ h)
    | case8 g arg rest name shape flag known ih =>
      obtain ⟨g₁, first, h⟩ := bind_eq_ok.mp h
      exact .step (.flag shape known) first (ih g₁ h)
    | case11 g arg name shape key known unflagged value rest text shape' ih =>
      obtain ⟨g₁, first, h⟩ := bind_eq_ok.mp h
      exact .step (.separate shape unflagged known shape') first (ih g₁ h)
    | case5 | case7 | case9 | case10 | case12 => cases h
  · intro h
    induction h with
    | nil => rfl
    | name shape before =>
      rw [readSide, shape]
      simp [before]
    | divider shape texts =>
      rw [readSide, shape]
      simp only [texts]
      rfl
    | step takes first reads ih =>
      rw [takes.readSide_append, first]
      exact ih

theorem Reads.unique {g g' g'' : Given} {args left left' : List String}
    (h : Reads verb capacity g args g' left) (h' : Reads verb capacity g args g'' left') :
    g'' = g' ∧ left' = left := by
  have found := readSide_eq_ok_iff.mpr h
  rw [readSide_eq_ok_iff.mpr h'] at found
  cases found
  exact ⟨rfl, rfl⟩

/-- Once something was taken, the rest is read. -/
theorem Takes.reads_iff {taken rest left : List String} {step : Given → Step Given}
    {g g₁ g' : Given} (h : Takes verb capacity taken step) (first : step g = .ok g₁) :
    Reads verb capacity g (taken ++ rest) g' left ↔ Reads verb capacity g₁ rest g' left := by
  rw [← readSide_eq_ok_iff, ← readSide_eq_ok_iff, h.readSide_append, first]
  rfl

/-- What is read without a request for short reports is read alike behind one. -/
theorem Reads.brief {g g' : Given} {args left : List String}
    (h : Reads verb capacity g args g' left) (plain : g'.simple = false) :
    g.simple = false ∧ Reads verb capacity g.brief args g'.brief left := by
  induction h with
  | nil => exact ⟨plain, .nil⟩
  | name shape before => exact ⟨plain, .name shape before⟩
  | divider shape texts =>
    obtain ⟨same, texts⟩ := Given.addTexts_brief texts
    exact ⟨same.symm.trans plain, .divider shape texts⟩
  | step takes first reads ih =>
    obtain ⟨plain, reads⟩ := ih plain
    obtain ⟨plain, first⟩ := takes.tolerant first plain
    exact ⟨plain, .step takes first reads⟩

theorem Shape.of_simple : Shape.of "--simple" = .long "simple" none := by decide

theorem Reads.simple_cons {g g' : Given} {args left : List String}
    (h : Reads verb capacity g args g' left) (plain : g'.simple = false) :
    Reads verb capacity g ("--simple" :: args) g'.brief left := by
  obtain ⟨unset, reads⟩ := h.brief plain
  have takes : Takes verb capacity ["--simple"] (·.setFlag .simple) :=
    .flag Shape.of_simple rfl
  exact .step takes (if_neg (by rw [unset]; decide)) reads

/-- The request for short reports cannot stand between arguments that are taken together. -/
theorem Takes.not_reads_split {pre more rest left : List String} {value : String}
    {step : Given → Step Given} {g g' : Given}
    (h : Takes verb capacity (pre ++ value :: more) step) (inside : pre ≠ []) :
    ¬Reads verb capacity g (pre ++ "--simple" :: rest) g' left := by
  obtain ⟨arg, pre, rfl⟩ := List.exists_cons_of_ne_nil inside
  generalize taken : arg :: pre ++ value :: more = args at h
  cases h with
  | separate shape unflagged known shape' =>
    cases pre with
    | nil =>
      obtain ⟨rfl, -⟩ := List.cons.inj taken
      rw [← readSide_eq_ok_iff, List.singleton_append, readSide, shape]
      simp only [unflagged, known, Shape.of_simple]
      nofun
    | cons arg pre => simp at taken
  | text | flag | joined => simp at taken

/-- Where the request for short reports can be put among arguments that are read without it: it is
taken as what it is, or as a text, or it stands behind the name of the action. -/
theorem Reads.insert {g g' g'' : Given} {pre post left left' : List String}
    (h : Reads verb capacity g (pre ++ post) g' left) (plain : g'.simple = false)
    (h' : Reads verb capacity g (pre ++ "--simple" :: post) g'' left') :
    g'' = g'.brief ∧ left' = left ∨ g''.simple = false ∧ left' = [] ∨
      verb = none ∧ g'' = g' ∧ ∃ name pre', left = name :: pre' ++ post ∧
        left' = name :: pre' ++ "--simple" :: post := by
  -- Without the request in them, the arguments are read step by step; it stands in front of one.
  generalize args : pre ++ post = all at h
  induction h generalizing pre with
  | nil =>
    obtain ⟨rfl, rfl⟩ := List.append_eq_nil_iff.mp args
    exact .inl ((Reads.nil.simple_cons plain).unique h')
  | name shape before =>
    cases pre with
    | nil =>
      obtain rfl := args
      exact .inl (((Reads.name shape before).simple_cons plain).unique h')
    | cons arg pre =>
      obtain ⟨rfl, rfl⟩ := List.cons.inj args
      obtain ⟨rfl, rfl⟩ := Reads.unique (.name shape before) h'
      exact .inr (.inr ⟨before, rfl, arg, pre, rfl, rfl⟩)
  | divider shape texts =>
    cases pre with
    | nil =>
      obtain rfl := args
      exact .inl (((Reads.divider shape texts).simple_cons plain).unique h')
    | cons arg pre =>
      obtain ⟨rfl, rfl⟩ := List.cons.inj args
      have read := readSide_eq_ok_iff.mpr h'
      rw [List.cons_append, readSide, shape] at read
      obtain ⟨g₁, more, ⟨⟩⟩ := map_eq_ok.mp read
      have same := (Given.addTexts_brief more).1.trans (Given.addTexts_brief texts).1.symm
      exact .inr (.inl ⟨same.trans plain, rfl⟩)
  | step takes first reads ih =>
    -- What is taken first ends behind the request's place, or at it, or before it.
    rcases List.append_eq_append_iff.mp args with ⟨more, rfl, rfl⟩ | ⟨more, rfl, rfl⟩
    · cases more with
      | nil =>
        rw [List.append_nil] at takes
        exact @ih [] plain ((takes.reads_iff first).mp h') rfl
      | cons value more =>
        by_cases front : pre = []
        · subst front
          exact .inl (((Reads.step takes first reads).simple_cons plain).unique h')
        · exact absurd h' (takes.not_reads_split front)
    · rw [List.append_assoc] at h'
      exact ih plain ((takes.reads_iff first).mp h') rfl

/-- Both sides of an action's name are read, and the action has what it needs. -/
inductive Asks : List String → Invocation → Prop where
  | intro {args rest left : List String} {name : String} {verb : Verb} {before behind : Given}
      {action : Action} (reads : Reads none 0 .nothing args before (name :: rest))
      (named : Verb.ofName? name = some verb)
      (reads' : Reads (some verb) verb.capacity .nothing rest behind left)
      (complete : actionOf verb behind = .ok action) :
      Asks args ⟨before.simple || behind.simple, behind.config.or before.config, action⟩

theorem parse_eq_ok_iff {args : List String} {i : Invocation} :
    parse args = .ok i ↔ Asks args i := by
  constructor
  · intro h
    obtain ⟨⟨before, rest⟩, reads, h⟩ := bind_eq_ok.mp h
    cases rest with
    | nil => cases h
    | cons name rest =>
      dsimp only at h
      split at h
      · cases h
      · rename_i verb named
        obtain ⟨⟨behind, left⟩, reads', h⟩ := bind_eq_ok.mp h
        obtain ⟨action, complete, ⟨⟩⟩ := bind_eq_ok.mp h
        exact .intro (readSide_eq_ok_iff.mp reads) named (readSide_eq_ok_iff.mp reads') complete
  · rintro ⟨reads, named, reads', complete⟩
    refine bind_eq_ok.mpr ⟨_, readSide_eq_ok_iff.mpr reads, ?_⟩
    simp only [named]
    refine bind_eq_ok.mpr ⟨_, readSide_eq_ok_iff.mpr reads', ?_⟩
    exact bind_eq_ok.mpr ⟨_, complete, rfl⟩

/-- The same invocation, and short reports are asked for. -/
def brief (i : Invocation) : Invocation := { i with simple := true }

theorem actionOf_brief (verb : Verb) (g : Given) : actionOf verb g.brief = actionOf verb g := by
  cases verb <;> rfl

theorem parse_simple_cons {args : List String} {i : Invocation} (h : parse args = .ok i)
    (plain : i.simple = false) : parse ("--simple" :: args) = .ok i.brief := by
  obtain ⟨reads, named, reads', complete⟩ := parse_eq_ok_iff.mp h
  have unset := (Bool.or_eq_false_iff.mp plain).1
  exact parse_eq_ok_iff.mpr (.intro (reads.simple_cons unset) named reads' complete)

/-- Wherever short reports are asked for in addition, the rest of the invocation is the same. -/
theorem parse_insert {pre post : List String} {i i' : Invocation}
    (h : parse (pre ++ post) = .ok i) (plain : i.simple = false)
    (h' : parse (pre ++ "--simple" :: post) = .ok i') (asked : i'.simple = true) :
    i' = i.brief := by
  obtain ⟨reads, named, reads', complete⟩ := parse_eq_ok_iff.mp h
  obtain ⟨read, named', read', complete'⟩ := parse_eq_ok_iff.mp h'
  obtain ⟨unset, unset'⟩ := Bool.or_eq_false_iff.mp plain
  rcases reads.insert unset read with ⟨rfl, ⟨⟩⟩ | ⟨-, ⟨⟩⟩ | ⟨-, rfl, name, pre, split, ⟨⟩⟩
  · cases named.symm.trans named'
    obtain ⟨rfl, -⟩ := reads'.unique read'
    cases complete.symm.trans complete'
    rfl
  · cases split
    cases named.symm.trans named'
    rcases reads'.insert unset' read' with ⟨rfl, -⟩ | ⟨taken, -⟩ | ⟨⟨⟩, -⟩
    · rw [actionOf_brief] at complete'
      cases complete.symm.trans complete'
      exact congrArg (Invocation.mk · _ _) asked
    · rw [unset, taken] at asked
      cases asked

end TypedCommands.Invocation
