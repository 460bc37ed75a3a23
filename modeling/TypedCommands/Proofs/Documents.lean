import Mathlib.Logic.Relation
import TypedCommands.Proofs.Entries
import TypedCommands.Settings.File

/-! What the settings in a document depend on: the values under the known keys of its mappings. A
fault in one of them leaves no settings at all, wherever it stands. -/
namespace TypedCommands.Settings

open Yaml (Node Natural naturalOf_eq_some_iff)

inductive HasItems : Node → List Node → Prop where
  | sequence (items : List Node) : HasItems (.sequence items) items
  | nothing : HasItems .empty []

def settingsKeys : List String := ["diagnostics", "control", "rules"]
def controlKeys : List String := ["port", "sentinel"]
def ruleKeys : List String := ["name", "condition", "consequence"]

/-- The values that a known key has without an entry. -/
def SettingsDefault : String → Node → Prop
  | "diagnostics", value => ∃ plain, value = .scalar plain "verbose"
  | "control", value => control? value = some Control.default
  | "rules", value => HasItems value []
  | _, _ => False

def ControlDefault : String → Node → Prop
  | "port", value => Whole value 9100
  | "sentinel", value => Whole value 0
  | _, _ => False

/-- Nothing in a rule can be left out. -/
def RuleDefault (_ : String) (_ : Node) : Prop := False

/-- An edit of one mapping of a document: of the settings, of their control, or of a rule. -/
inductive Rewritten : Node → Node → Prop where
  | settings {n n' : Node} {es fs : List (Node × Node)} (has : HasEntries n es)
      (has' : HasEntries n' fs) (edit : Edit settingsKeys SettingsDefault es fs) : Rewritten n n'
  | control (front back : List (Node × Node)) {plain : Bool} {n n' : Node}
      {es fs : List (Node × Node)} (has : HasEntries n es) (has' : HasEntries n' fs)
      (edit : Edit controlKeys ControlDefault es fs) :
      Rewritten (.mapping (front ++ (.scalar plain "control", n) :: back))
        (.mapping (front ++ (.scalar plain "control", n') :: back))
  | rule (front back : List (Node × Node)) {plain : Bool} (before after : List Node) {n n' : Node}
      {es fs : List (Node × Node)} (has : HasEntries n es) (has' : HasEntries n' fs)
      (edit : Edit ruleKeys RuleDefault es fs) :
      Rewritten
        (.mapping (front ++ (.scalar plain "rules", .sequence (before ++ n :: after)) :: back))
        (.mapping (front ++ (.scalar plain "rules", .sequence (before ++ n' :: after)) :: back))

/-- A known key is there more than once. -/
def Repeats (keys : List String) (es : List (Node × Node)) : Prop :=
  ∃ key ∈ keys, 2 ≤ (under key es).length

inductive ControlFault (n : Node) : Prop where
  | repeated {es : List (Node × Node)} (has : HasEntries n es) (repeats : Repeats controlKeys es)
  | port {es : List (Node × Node)} {plain : Bool} {value : Node} (has : HasEntries n es)
      (entry : (.scalar plain "port", value) ∈ es) (other : ∀ k ≤ 65535, ¬Whole value k)
  | sentinel {es : List (Node × Node)} {plain : Bool} {value : Node} (has : HasEntries n es)
      (entry : (.scalar plain "sentinel", value) ∈ es) (other : ∀ k ≤ 255, ¬Whole value k)

inductive RuleFault (n : Node) : Prop where
  | repeated {es : List (Node × Node)} (has : HasEntries n es) (repeats : Repeats ruleKeys es)
  | lacks {key : String} (due : key ∈ ruleKeys)
      (lacks : ∀ es, HasEntries n es → ∀ plain text, .scalar plain text ∉ under key es)

/-- The faults of a document, in any of its mappings. -/
inductive Fault (n : Node) : Prop where
  | repeated {es : List (Node × Node)} (has : HasEntries n es) (repeats : Repeats settingsKeys es)
  | diagnostics {es : List (Node × Node)} {plain : Bool} {value : Node} (has : HasEntries n es)
      (entry : (.scalar plain "diagnostics", value) ∈ es)
      (other : ∀ plain, value ≠ .scalar plain "simple" ∧ value ≠ .scalar plain "verbose")
  | control {es : List (Node × Node)} {plain : Bool} {value : Node} (has : HasEntries n es)
      (entry : (.scalar plain "control", value) ∈ es) (fault : ControlFault value)
  | rule {es : List (Node × Node)} {plain : Bool} {items : List Node} {r : Node}
      (has : HasEntries n es) (entry : (.scalar plain "rules", .sequence items) ∈ es)
      (item : r ∈ items) (fault : RuleFault r)

section Values

theorem natural?_eq_some_iff {bound k : Nat} {n : Node} :
    natural? bound n = some k ↔ Whole n k ∧ k < bound := by
  unfold natural? Whole
  split
  · rename_i text
    rw [Option.filter_eq_some_iff, naturalOf_eq_some_iff, decide_eq_true_eq]
    simp
  · rename_i other
    constructor
    · nofun
    · rintro ⟨⟨text, rfl, -⟩, -⟩
      exact absurd rfl (other text)

theorem natural?_eq_none {bound : Nat} {n : Node} (other : ∀ k ≤ bound, ¬Whole n k) :
    natural? (bound + 1) n = none := by
  apply Option.eq_none_iff_forall_ne_some.mpr
  intro k read
  obtain ⟨whole, small⟩ := natural?_eq_some_iff.mp read
  exact other k (by omega) whole

theorem mode?_eq_none {n : Node}
    (other : ∀ plain, n ≠ .scalar plain "simple" ∧ n ≠ .scalar plain "verbose") :
    mode? n = none := by
  cases n with
  | sequence _ => rfl
  | mapping _ => rfl
  | scalar plain name =>
    change Mode.ofName? name = none
    unfold Mode.ofName?
    split
    · exact absurd rfl (other plain).1
    · exact absurd rfl (other plain).2
    · rfl

theorem text?_eq_some_iff {n : Node} {text : String} :
    text? n = some text ↔ ∃ plain, n = .scalar plain text := by
  cases n <;> simp [text?]

end Values

section Readers

variable {n n' : Node} {es fs : List (Node × Node)}

theorem control?_edited (edit : Edit controlKeys ControlDefault es fs) (has : HasEntries n es)
    (has' : HasEntries n' fs) : control? n = control? n' := by
  have port : readUnder "port" es (some Control.default.port.toNat) (natural? UInt16.size) =
      readUnder "port" fs (some Control.default.port.toNat) (natural? UInt16.size) := by
    apply edit.readUnder_eq (by decide)
    intro value whole
    exact natural?_eq_some_iff.mpr ⟨whole, by decide⟩
  have sentinel :
      readUnder "sentinel" es (some Control.default.sentinel.toNat) (natural? UInt8.size) =
      readUnder "sentinel" fs (some Control.default.sentinel.toNat) (natural? UInt8.size) := by
    apply edit.readUnder_eq (by decide)
    intro value whole
    exact natural?_eq_some_iff.mpr ⟨whole, by decide⟩
  apply bind_entries_congr has has' edit.named_iff
  intro kvs kvs' same
  rw [same _ _ _ _ port, same _ _ _ _ sentinel]

theorem rule?_edited (edit : Edit ruleKeys RuleDefault es fs) (has : HasEntries n es)
    (has' : HasEntries n' fs) : rule? n = rule? n' := by
  have text (key : String) (known : key ∈ ruleKeys) :
      readUnder key es none text? = readUnder key fs none text? :=
    edit.readUnder_eq known nofun
  apply bind_entries_congr has has' edit.named_iff
  intro kvs kvs' same
  rw [same _ _ _ _ (text "name" (by decide)), same _ _ _ _ (text "condition" (by decide)),
    same _ _ _ _ (text "consequence" (by decide))]

theorem ofNode?_edited (edit : Edit settingsKeys SettingsDefault es fs) (has : HasEntries n es)
    (has' : HasEntries n' fs) : ofNode? n = ofNode? n' := by
  have diagnostics : readUnder "diagnostics" es (some default.mode) mode? =
      readUnder "diagnostics" fs (some default.mode) mode? := by
    apply edit.readUnder_eq (by decide)
    rintro value ⟨plain, rfl⟩
    rfl
  have control : readUnder "control" es (some default.control) control? =
      readUnder "control" fs (some default.control) control? := by
    apply edit.readUnder_eq (by decide)
    exact fun value unwritten => unwritten
  have rules : readUnder "rules" es (some default.rules) rules? =
      readUnder "rules" fs (some default.rules) rules? := by
    apply edit.readUnder_eq (by decide)
    rintro value (empty : HasItems value [])
    cases empty <;> rfl
  apply bind_entries_congr has has' edit.named_iff
  intro kvs kvs' same
  rw [same _ _ _ _ diagnostics, same _ _ _ _ control, same _ _ _ _ rules]

theorem ofNode?_replaced {front back : List (Node × Node)} {plain : Bool} {name : String}
    {value other : Node} (mode : name = "diagnostics" → mode? value = mode? other)
    (control : name = "control" → control? value = control? other)
    (rules : name = "rules" → rules? value = rules? other) :
    ofNode? (.mapping (front ++ (.scalar plain name, value) :: back)) =
      ofNode? (.mapping (front ++ (.scalar plain name, other) :: back)) := by
  apply bind_entries_congr (.mapping _) (.mapping _) (named_insert_iff.trans named_insert_iff.symm)
  intro kvs kvs' same
  rw [same _ _ _ _ (readUnder_replace mode), same _ _ _ _ (readUnder_replace control),
    same _ _ _ _ (readUnder_replace rules)]

theorem Rewritten.ofNode?_eq (rewritten : Rewritten n n') : ofNode? n = ofNode? n' := by
  cases rewritten with
  | settings has has' edit => exact ofNode?_edited edit has has'
  | control front back has has' edit =>
    apply ofNode?_replaced
    · exact fun other => absurd other (by decide)
    · exact fun _ => control?_edited edit has has'
    · exact fun other => absurd other (by decide)
  | rule front back before after has has' edit =>
    apply ofNode?_replaced
    · exact fun other => absurd other (by decide)
    · exact fun other => absurd other (by decide)
    · intro _
      simp only [rules?, items?, Option.bind_eq_bind, Option.bind_some, List.mapM_append,
        List.mapM_cons, rule?_edited edit has has']

theorem ofNode?_eq_of_edits (edits : Relation.EqvGen Rewritten n n') : ofNode? n = ofNode? n' := by
  induction edits with
  | rel n n' rewritten => exact rewritten.ofNode?_eq
  | refl n => rfl
  | symm n n' _ ih => exact ih.symm
  | trans n m n' _ _ ih ih' => exact ih.trans ih'

end Readers

section Faults

variable {n : Node}

theorem control?_eq_none (fault : ControlFault n) : control? n = none := by
  cases fault with
  | repeated has repeats =>
    obtain ⟨key, known, two⟩ := repeats
    apply bind_entries_eq_none has
    intro kvs found
    simp only [controlKeys, List.mem_cons, List.not_mem_nil, or_false] at known
    rcases known with rfl | rfl <;> simp [found, readUnder_eq_none_of_two two]
  | port has entry other =>
    apply bind_entries_eq_none has
    intro kvs found
    rw [found, readUnder_eq_none_of_mem entry (natural?_eq_none other)]
    rfl
  | sentinel has entry other =>
    apply bind_entries_eq_none has
    intro kvs found
    simp only [found, readUnder_eq_none_of_mem entry (natural?_eq_none other)]
    simp

theorem rule?_eq_none (fault : RuleFault n) : rule? n = none := by
  cases fault with
  | repeated has repeats =>
    obtain ⟨key, known, two⟩ := repeats
    apply bind_entries_eq_none has
    intro kvs found
    simp only [ruleKeys, List.mem_cons, List.not_mem_nil, or_false] at known
    rcases known with rfl | rfl | rfl <;> simp [found, readUnder_eq_none_of_two two]
  | @lacks key due lacks =>
    by_cases mapping : ∃ es, HasEntries n es
    · obtain ⟨es, has⟩ := mapping
      have unread : readUnder key es none text? = none := by
        apply only_eq_none_of_forall
        intro r mem
        obtain ⟨value, found, rfl⟩ := List.mem_map.mp mem
        apply Option.eq_none_iff_forall_ne_some.mpr
        intro text read
        obtain ⟨plain, rfl⟩ := text?_eq_some_iff.mp read
        exact lacks es has plain text found
      apply bind_entries_eq_none has
      intro kvs found
      simp only [ruleKeys, List.mem_cons, List.not_mem_nil, or_false] at due
      rcases due with rfl | rfl | rfl <;> simp [found, unread]
    · have unread : entries? n = none :=
        entries?_eq_none_of_forall fun es has => mapping ⟨es, has⟩
      rw [rule?, unread]
      rfl

theorem ofNode?_eq_none (fault : Fault n) : ofNode? n = none := by
  cases fault with
  | repeated has repeats =>
    obtain ⟨key, known, two⟩ := repeats
    apply bind_entries_eq_none has
    intro kvs found
    simp only [settingsKeys, List.mem_cons, List.not_mem_nil, or_false] at known
    rcases known with rfl | rfl | rfl <;> simp [found, readUnder_eq_none_of_two two]
  | diagnostics has entry other =>
    apply bind_entries_eq_none has
    intro kvs found
    rw [found, readUnder_eq_none_of_mem entry (mode?_eq_none other)]
    rfl
  | control has entry fault =>
    apply bind_entries_eq_none has
    intro kvs found
    simp [found, readUnder_eq_none_of_mem entry (control?_eq_none fault)]
  | rule has entry item fault =>
    have unread : rules? (.sequence _) = none := mapM_eq_none_of_mem item (rule?_eq_none fault)
    apply bind_entries_eq_none has
    intro kvs found
    simp [found, readUnder_eq_none_of_mem entry unread]

end Faults

/-- The bytes are a text, and the document in it is `n`. -/
def Holds (content : ByteArray) (n : Node) : Prop :=
  ∃ text, String.fromUTF8? content = some text ∧ Node.ofText? text = some n

theorem ofFile_of_holds {content : ByteArray} {n : Node} (holds : Holds content n) :
    ofFile (.ok content) = (ofNode? n).elim (.error .invalid) .ok := by
  obtain ⟨text, utf8, document⟩ := holds
  simp only [ofFile, utf8, ofText?, document, Option.bind_eq_bind, Option.bind_some]
  cases ofNode? n <;> rfl

/-- What reading a file brings depends on the values under the known keys: however many edits lead
from its document to another, both bring the same. A fault anywhere leaves no settings. -/
theorem known_keys_decide {content : ByteArray} {n : Node} (holds : Holds content n) :
    (∀ content' n', Holds content' n' → Relation.EqvGen Rewritten n n' →
      ofFile (.ok content') = ofFile (.ok content)) ∧
    (Fault n → ofFile (.ok content) = .error .invalid) := by
  constructor
  · intro content' n' holds' edits
    rw [ofFile_of_holds holds, ofFile_of_holds holds', ofNode?_eq_of_edits edits]
  · intro fault
    rw [ofFile_of_holds holds, ofNode?_eq_none fault]
    rfl

theorem known_keys_decide_color :
    ofFile (.ok "color: red\ncontrol:\n  sentinel: 0\n  port: 80\n".toUTF8) =
      ofFile (.ok "control: {port: 80}\n".toUTF8) ∧
    ofFile (.ok "rules: [{name: a, consequence: b}]\n".toUTF8) = .error .invalid := by
  constructor
  · have holds : Holds "control: {port: 80}\n".toUTF8
        (.mapping [(.scalar true "control",
          .mapping [(.scalar true "port", .scalar true "80")])]) :=
      ⟨_, rfl, rfl⟩
    have holds' : Holds "color: red\ncontrol:\n  sentinel: 0\n  port: 80\n".toUTF8
        (.mapping [(.scalar true "color", .scalar true "red"),
          (.scalar true "control", .mapping [(.scalar true "sentinel", .scalar true "0"),
            (.scalar true "port", .scalar true "80")])]) :=
      ⟨_, rfl, rfl⟩
    apply (known_keys_decide holds).1 _ _ holds'
    apply Relation.EqvGen.trans _ (.mapping [(.scalar true "color", .scalar true "red"),
      (.scalar true "control", .mapping [(.scalar true "port", .scalar true "80")])])
    · have color : "color" ∉ settingsKeys := by decide
      exact .rel _ _ (.settings (.mapping _) (.mapping _) (.unknown [] _ color))
    · have sentinel : ControlDefault "sentinel" (.scalar true "0") := ⟨"0", rfl, .unsigned .zero⟩
      exact .symm _ _ (.rel _ _ (.control [_] [] (.mapping _) (.mapping _)
        (.omitted [] _ sentinel rfl)))
  · have holds : Holds "rules: [{name: a, consequence: b}]\n".toUTF8
        (.mapping [(.scalar true "rules", .sequence [.mapping [
          (.scalar true "name", .scalar true "a"),
          (.scalar true "consequence", .scalar true "b")]])]) :=
      ⟨_, rfl, rfl⟩
    have lacks : RuleFault (.mapping [(.scalar true "name", .scalar true "a"),
        (.scalar true "consequence", .scalar true "b")]) := by
      apply RuleFault.lacks (show "condition" ∈ ruleKeys by decide)
      rintro es ⟨⟩ plain text mem
      cases mem
    exact (known_keys_decide holds).2
      (.rule (.mapping _) List.mem_cons_self List.mem_cons_self lacks)

end TypedCommands.Settings
