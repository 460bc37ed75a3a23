import Mathlib.Data.List.Forall2
import Mathlib.Data.List.Nodup
import Mathlib.Data.List.Perm.Basic
import Mathlib.Data.List.Permutation
import TypedCommands.Listing
import TypedCommands.Proofs.Admission

/-! Listings. A list of usages is in order of the names, because nothing that can follow a name in
its usage comes behind a character of a name; a list of typed usages is in order of its lines. In
which order the commands were declared, or are gone through, makes no difference. -/
namespace TypedCommands

namespace Registry

section Sorting

variable {texts lines : List String}

theorem mergeSort_ascending {α : Type} (key : α → String) (as : List α) :
    (as.mergeSort fun a b => decide (key a ≤ key b)).Pairwise fun a b => key a ≤ key b := by
  have sorted : (as.mergeSort fun a b => decide (key a ≤ key b)).Pairwise fun a b =>
      decide (key a ≤ key b) = true := by
    apply List.pairwise_mergeSort
    · intro a b c hab hbc
      exact decide_eq_true (String.le_trans (of_decide_eq_true hab) (of_decide_eq_true hbc))
    · intro a b
      rw [Bool.or_eq_true, decide_eq_true_eq, decide_eq_true_eq]
      exact String.le_total (key a) (key b)
  exact sorted.imp of_decide_eq_true

theorem sortTexts_perm (texts : List String) : (sortTexts texts).Perm texts :=
  List.mergeSort_perm _ _

theorem sortTexts_pairwise (texts : List String) : (sortTexts texts).Pairwise (· ≤ ·) :=
  mergeSort_ascending (fun text => text) texts

/-- Sorting finds the one ascending order that the texts have. -/
theorem sortTexts_eq (same : texts.Perm lines) (ascending : lines.Pairwise (· ≤ ·)) :
    sortTexts texts = lines := by
  have perm := (sortTexts_perm texts).trans same
  exact perm.eq_of_pairwise (fun _ _ _ _ => String.le_antisymm) (sortTexts_pairwise texts) ascending

theorem sortTexts_congr (same : texts.Perm lines) : sortTexts texts = sortTexts lines :=
  sortTexts_eq (same.trans (sortTexts_perm lines).symm) (sortTexts_pairwise lines)

end Sorting

end Registry

/-- What stands behind a text does not change its place among others, if that comes before every
character of theirs. -/
theorem append_lt_append {cs ds behind : List Char} (lt : cs < ds)
    (low : ∀ c ∈ behind.head?, ∀ d ∈ ds, c < d) (behind' : List Char) :
    cs ++ behind < ds ++ behind' := by
  induction cs generalizing ds with
  | nil =>
    cases ds with
    | nil => exact absurd lt (List.not_lt_nil [])
    | cons d ds =>
      cases behind with
      | nil => exact List.nil_lt_cons d _
      | cons c behind => exact List.cons_lt_cons_iff.mpr (.inl (low c rfl d List.mem_cons_self))
  | cons c cs ih =>
    cases ds with
    | nil => exact absurd lt (List.not_lt_nil _)
    | cons d ds =>
      apply List.cons_lt_cons_iff.mpr
      rcases List.cons_lt_cons_iff.mp lt with head | ⟨same, rest⟩
      · exact .inl head
      · exact .inr ⟨same, ih rest fun c hc d hd => low c hc d (List.mem_cons_of_mem _ hd)⟩

theorem Name.Spelled.space_lt {s : String} (h : Name.Spelled s) : ∀ c ∈ s.toList, ' ' < c := by
  obtain ⟨d, ds, text, head, parts⟩ := h
  have visible {c : Char} (part : Letter c ∨ Figure c ∨ c = '_') : ' ' < c := by
    have codes : 48 ≤ c.toNat := by
      rcases part with (⟨upper, -⟩ | ⟨lower, -⟩) | ⟨figure, -⟩ | rfl
      · exact Nat.le_trans (by decide) upper
      · exact Nat.le_trans (by decide) lower
      · exact figure
      · decide
    exact Nat.lt_of_lt_of_le (by decide : 32 < 48) codes
  rw [text]
  intro c mem
  rcases List.mem_cons.mp mem with rfl | mem
  · exact visible (head.imp_right .inr)
  · exact visible (parts c mem)

namespace Signature

/-- A usage is the name, perhaps with a space and more behind it. -/
theorem exists_usage_toList (s : Signature) : ∃ behind, s.usage.toList = s.name.toList ++ behind ∧
    ∀ c ∈ behind.head?, c = ' ' := by
  unfold usage
  cases s.parameters with
  | nil => exact ⟨[], by simp, nofun⟩
  | cons p ps =>
    refine ⟨' ' :: (" ".intercalate ((p :: ps).map (·.name))).toList, ?_, ?_⟩
    · rw [String.intercalate_cons_of_ne_nil (by simp), String.toList_append, String.toList_append,
        List.append_assoc]
      rfl
    · rintro c ⟨⟩
      rfl

/-- Usages are in the order of the names. -/
theorem usage_lt {s t : Signature} (named : Name.Spelled t.name) (lt : s.name < t.name) :
    s.usage < t.usage := by
  obtain ⟨behind, hs, space⟩ := s.exists_usage_toList
  obtain ⟨behind', ht, -⟩ := t.exists_usage_toList
  rw [String.lt_iff] at lt ⊢
  rw [hs, ht]
  refine append_lt_append lt (fun c hc d hd => ?_) behind'
  rw [space c hc]
  exact named.space_lt d hd

end Signature

namespace Declaration

variable {σ : Type} {d : Declaration σ} {s : Signature}

/-- The parameters of a declaration in order of position. -/
structure InOrder (d : Declaration σ) (ps : List Parameter) : Prop where
  declared : ps.Perm d.parameters
  ascending : ps.Pairwise fun p q => p.position < q.position

theorem InOrder.unique {ps qs : List Parameter} (hp : d.InOrder ps) (hq : d.InOrder qs) :
    ps = qs := by
  refine (hp.declared.trans hq.declared.symm).eq_of_pairwise ?_ hp.ascending hq.ascending
  intro p q _ _ lt gt
  omega

/-- The usage of a declared command: its name, and the names of its parameters in order. -/
inductive UsageLine (d : Declaration σ) : String → Prop where
  | intro {ps : List Parameter} (order : d.InOrder ps) :
      UsageLine d (" ".intercalate (d.name :: ps.map (·.name)))

/-- A parameter with its kind. -/
inductive Parameter.Shown : Parameter → String → Prop where
  | intro (position : Nat) (name : String) (kind : Kind) :
      Shown ⟨position, name, [kind]⟩ ("(" ++ name ++ " :: " ++ kind.name ++ ")")

/-- The typed usage: a colon behind the name, and the parameters with their kinds. -/
inductive TypedLine (d : Declaration σ) : String → Prop where
  | bare (none : d.parameters = []) : TypedLine d d.name
  | typed {ps : List Parameter} {texts : List String} (order : d.InOrder ps) (some : ps ≠ [])
      (shown : List.Forall₂ Parameter.Shown ps texts) :
      TypedLine d (" ".intercalate ((d.name ++ ":") :: texts))

/-- The parameters of a signature as they were declared. -/
def declared (ps : List Signature.Parameter) : List Parameter :=
  ps.zipIdx.map fun p => ⟨p.2 + 1, p.1.name, [p.1.kind]⟩

theorem getElem?_declared (ps : List Signature.Parameter) (i : Nat) :
    (declared ps)[i]? = ps[i]?.map fun p => ⟨i + 1, p.name, [p.kind]⟩ := by
  rw [declared, List.getElem?_map, List.getElem?_zipIdx, Option.map_map]
  simp [Function.comp_def]

theorem position_declared (ps : List Signature.Parameter) :
    (declared ps).map (·.position) = List.range' 1 ps.length := by
  apply List.ext_getElem?
  intro i
  rw [List.getElem?_map, getElem?_declared, Option.map_map]
  by_cases inside : i < ps.length
  · simp [inside, Nat.add_comm]
  · simp [inside]

theorem Describes.inOrder (h : d.Describes s) (sound : d.Sound) :
    d.InOrder (declared s.parameters) := by
  have ascending : (declared s.parameters).Pairwise fun p q => p.position < q.position := by
    have range : (List.range' 1 s.parameters.length).Pairwise (· < ·) :=
      List.pairwise_lt_range' 1
    rw [← position_declared, List.pairwise_map] at range
    exact range
  have nodup : (declared s.parameters).Nodup := by
    refine ascending.imp fun lt same => ?_
    rw [same] at lt
    omega
  have nodup' : d.parameters.Nodup := List.Nodup.of_map _ sound.positions.1
  refine ⟨(List.perm_ext_iff_of_nodup nodup nodup').mpr fun p => ?_, ascending⟩
  rw [List.mem_iff_getElem?]
  constructor
  · rintro ⟨i, hi⟩
    rw [getElem?_declared, Option.map_eq_some_iff] at hi
    obtain ⟨q, hq, rfl⟩ := hi
    exact (h.parameter i q).mp hq
  · intro mem
    obtain ⟨kind, one⟩ := sound.kind p mem
    have positive := sound.position_ne_zero mem
    obtain ⟨position, name, kinds⟩ := p
    obtain rfl : kinds = [kind] := one
    obtain ⟨i, rfl⟩ : ∃ i, position = i + 1 := ⟨position - 1, by dsimp only at positive; omega⟩
    have place := (h.parameter i ⟨name, kind⟩).mpr mem
    exact ⟨i, by rw [getElem?_declared, place, Option.map_some]⟩

theorem Describes.usageLine (h : d.Describes s) (sound : d.Sound) : d.UsageLine s.usage := by
  have names : (declared s.parameters).map (·.name) = s.parameters.map (·.name) := by
    apply List.ext_getElem?
    intro i
    rw [List.getElem?_map, getElem?_declared, Option.map_map, List.getElem?_map]
    rfl
  have line := UsageLine.intro (h.inOrder sound)
  rw [names, ← h.name] at line
  exact line

theorem shown_declared (ps : List Signature.Parameter) :
    List.Forall₂ Parameter.Shown (declared ps) (ps.map (·.typed)) := by
  have texts : ps.map (·.typed) = ps.zipIdx.map fun p => p.1.typed := by
    conv_lhs => rw [← List.zipIdx_map_fst 0 ps, List.map_map]
    rfl
  rw [texts, declared]
  apply List.forall₂_map_left_iff.mpr
  apply List.forall₂_map_right_iff.mpr
  exact List.forall₂_same.mpr fun p _ => .intro (p.2 + 1) p.1.name p.1.kind

theorem Describes.typedLine (h : d.Describes s) (sound : d.Sound) : d.TypedLine s.typedUsage := by
  have arity := h.arity
  unfold Signature.typedUsage
  split
  · rename_i none
    rw [Signature.arity, none] at arity
    rw [h.name]
    exact .bare (List.eq_nil_of_length_eq_zero arity.symm)
  · rename_i some
    have nonempty : declared s.parameters ≠ [] := by
      intro none
      have length := congrArg List.length none
      rw [declared, List.length_map, List.length_zipIdx] at length
      exact some (List.eq_nil_of_length_eq_zero length)
    rw [h.name]
    exact .typed (h.inOrder sound) nonempty (shown_declared s.parameters)

end Declaration

namespace Registry

variable {σ : Type} {ds es : List (Declaration σ)} {r r' : Registry σ}

/-- The declarations and the entries that were made of them, side by side. -/
theorem forall₂_entries (h : build ds = .ok r) :
    List.Forall₂ (fun d e => d.Sound ∧ d.Describes e.signature) ds r.entries := by
  have made : List.Forall₂ (· = ·) (ds.map fun d => (d.signature, d.handler))
      (r.entries.map fun e => (.ok e.signature, e.handler)) := by
    rw [build_entries h]
    exact List.forall₂_refl _
  refine (List.forall₂_map_right_iff.mp (List.forall₂_map_left_iff.mp made)).imp fun d e same => ?_
  have signature := (Prod.mk.inj same).1
  exact ⟨Declaration.signature_eq_ok_iff.mp ⟨_, signature⟩,
    Declaration.signature_describes signature⟩

theorem map_name_of_describes {entries : List (Entry σ)}
    (beside : List.Forall₂ (fun d e => d.Describes e.signature) ds entries) :
    entries.map (·.signature.name) = ds.map (·.name) := by
  induction beside with
  | nil => rfl
  | cons head rest ih => rw [List.map_cons, List.map_cons, ih, head.name]

theorem name_spelled (h : build ds = .ok r) {e : Entry σ} (mem : e ∈ r.entries) :
    Name.Spelled e.signature.name := by
  obtain ⟨d, declared, named, -⟩ := exists_of_find? h (find?_of_mem mem)
  rw [← named]
  exact ((build_eq_ok_iff.mp ⟨r, h⟩).1 d declared).name

theorem exists_ascending_names (distinct : (ds.map (·.name)).Nodup) :
    ∃ es : List (Declaration σ), es.Perm ds ∧ es.Pairwise fun d e => d.name < e.name := by
  have perm := List.mergeSort_perm ds fun d e => decide (d.name ≤ e.name)
  have sorted := mergeSort_ascending Declaration.name ds
  have different := List.pairwise_map.mp ((perm.map Declaration.name).nodup_iff.mpr distinct)
  refine ⟨_, perm, (sorted.and different).imp ?_⟩
  rintro d e ⟨le, ne⟩
  exact String.not_le.mp fun ge => ne (String.le_antisymm le ge)

/-- The usages are listed in the order of the names. -/
theorem list_by_name (h : build ds = .ok r) : ∃ es lines, es.Perm ds ∧
    es.Pairwise (fun d e => d.name < e.name) ∧ List.Forall₂ Declaration.UsageLine es lines ∧
    lines.Pairwise (· < ·) ∧ r.list = "\n".intercalate lines := by
  obtain ⟨-, distinct⟩ := build_eq_ok_iff.mp ⟨r, h⟩
  obtain ⟨es, perm, ascending⟩ := exists_ascending_names distinct
  obtain ⟨entries, beside, same⟩ := List.perm_comp_forall₂ perm (forall₂_entries h)
  have names : (entries.map (·.signature.name)).Pairwise (· < ·) := by
    rw [map_name_of_describes (beside.imp fun _ _ made => made.2), List.pairwise_map]
    exact ascending
  have spelled : ∀ e ∈ entries, Name.Spelled e.signature.name := fun e mem =>
    name_spelled h (same.mem_iff.mp mem)
  have lines : (entries.map (·.signature.usage)).Pairwise (· < ·) := by
    rw [List.pairwise_map] at names ⊢
    exact names.imp_of_mem fun _ mem lt => Signature.usage_lt (spelled _ mem) lt
  have sorted :
      sortTexts (r.entries.map (·.signature.usage)) = entries.map (·.signature.usage) := by
    apply sortTexts_eq (same.map _).symm
    exact lines.imp fun lt => String.not_lt.mp fun gt => String.lt_irrefl _ (String.lt_trans lt gt)
  refine ⟨es, entries.map (·.signature.usage), perm, ascending, ?_, lines, ?_⟩
  · exact List.forall₂_map_right_iff.mpr (beside.imp fun d e made => made.2.usageLine made.1)
  · rw [list, listBy, sorted]

/-- The typed usages are listed in the order of the lines. -/
theorem typedList_by_line (h : build ds = .ok r) : ∃ es lines, es.Perm ds ∧
    List.Forall₂ Declaration.TypedLine es lines ∧ lines.Pairwise (· ≤ ·) ∧
    r.typedList = "\n".intercalate lines := by
  have made : List.Forall₂ (flip Declaration.TypedLine)
      (r.entries.map (·.signature.typedUsage)) ds := by
    apply List.forall₂_map_left_iff.mpr
    exact ((forall₂_entries h).imp fun d e made => made.2.typedLine made.1).flip
  have perm := sortTexts_perm (r.entries.map (·.signature.typedUsage))
  obtain ⟨es, beside, same⟩ := List.perm_comp_forall₂ perm made
  exact ⟨es, _, same, beside.flip, sortTexts_pairwise _, rfl⟩

/-- It does not matter in which order the commands are gone through. -/
theorem listBy_of_perm {entries : List (Entry σ)} (same : entries.Perm r.entries)
    (line : Signature → String) :
    "\n".intercalate (sortTexts (entries.map fun e => line e.signature)) = r.listBy line := by
  rw [listBy, sortTexts_congr (same.map fun e => line e.signature)]

theorem mem_entries_iff {e : Entry σ} : e ∈ r.entries ↔ r.find? e.signature.name = some e :=
  ⟨find?_of_mem, List.mem_of_find?_eq_some⟩

theorem entries_perm (same : Declaration.Rearranged ds es) (h : build ds = .ok r)
    (h' : build es = .ok r') : r'.entries.Perm r.entries := by
  have nodup (r : Registry σ) : r.entries.Nodup := List.Nodup.of_map _ r.distinct
  refine (List.perm_ext_iff_of_nodup (nodup r') (nodup r)).mpr fun e => ?_
  rw [mem_entries_iff, mem_entries_iff, find?_rearranged same h h']

/-- The list of usages has a line for each declaration, by name, and the list of typed usages has
one, by text. Both stay the same when the declarations come in another order, or the parameters in
them, and in whatever order the entries of the registry are gone through. -/
theorem lists_exact (h : build ds = .ok r) :
    (∃ es lines, es.Perm ds ∧ es.Pairwise (fun d e => d.name < e.name) ∧
      List.Forall₂ Declaration.UsageLine es lines ∧ lines.Pairwise (· < ·) ∧
      r.list = "\n".intercalate lines) ∧
    (∃ es lines, es.Perm ds ∧ List.Forall₂ Declaration.TypedLine es lines ∧
      lines.Pairwise (· ≤ ·) ∧ r.typedList = "\n".intercalate lines) ∧
    (∀ entries : List (Entry σ), entries.Perm r.entries → ∀ line : Signature → String,
      "\n".intercalate (sortTexts (entries.map fun e => line e.signature)) = r.listBy line) ∧
    ∀ es r', Declaration.Rearranged ds es → build es = .ok r' →
      r'.list = r.list ∧ r'.typedList = r.typedList := by
  refine ⟨list_by_name h, typedList_by_line h, fun _ same => listBy_of_perm same, ?_⟩
  intro es r' same h'
  have entries := entries_perm same h h'
  exact ⟨listBy_of_perm entries Signature.usage, listBy_of_perm entries Signature.typedUsage⟩

/-- One name is the beginning of the other, and the parameters of the shorter one are declared in
the opposite order. It comes first by name, but its typed usage comes behind. -/
theorem lists_exact_beginning :
    let longer : Declaration Unit := ⟨some "A1", [], ⟨"longer", fun _ => return .ofBool true⟩⟩
    let shorter : Declaration Unit :=
      ⟨some "A", [⟨2, "Y", [.text]⟩, ⟨1, "X", [.integer]⟩],
        ⟨"shorter", fun _ => return .ofBool true⟩⟩
    ∃ r, build [longer, shorter] = .ok r ∧ r.list = "A X Y\nA1" ∧
      r.typedList = "A1\nA: (X :: Integer) (Y :: Text)" := by
  intro longer shorter
  have sorted : Declaration.sort [⟨2, "Y", .text⟩, ⟨1, "X", .integer⟩] =
      [⟨1, "X", .integer⟩, ⟨2, "Y", .text⟩] := by
    simp [Declaration.sort, List.mergeSort, List.MergeSort.Internal.splitInTwo]
  have ordered : Declaration.order "A" [⟨2, "Y", .text⟩, ⟨1, "X", .integer⟩] =
      .ok [⟨"X", .integer⟩, ⟨"Y", .text⟩] := by
    unfold Declaration.order
    rw [sorted]
    rfl
  have sound : ∀ d ∈ [longer, shorter], ∃ s, d.signature = .ok s := by
    intro d mem
    rcases List.mem_cons.mp mem with rfl | mem
    · exact ⟨_, Declaration.signature_of_no_parameters (by decide) rfl⟩
    · obtain rfl := List.mem_singleton.mp mem
      exact ⟨_, Declaration.signature_eq_ok (by decide) rfl ordered⟩
  obtain ⟨r, h⟩ := build_eq_ok sound (by decide)
  obtain ⟨⟨es, lines, perm, ascending, each, -, list⟩,
    ⟨es', lines', perm', each', ascending', typed⟩, -⟩ := lists_exact h
  have order : shorter.InOrder [⟨1, "X", [.integer]⟩, ⟨2, "Y", [.text]⟩] :=
    ⟨List.Perm.swap _ _ _, by decide⟩
  refine ⟨r, h, ?_, ?_⟩
  · obtain rfl | rfl := List.perm_pair.mp perm
    · exact absurd ascending (by decide)
    obtain _ | ⟨⟨order'⟩, _ | ⟨⟨none⟩, ⟨⟩⟩⟩ := each
    obtain rfl := order'.unique order
    obtain rfl := none.declared.eq_nil
    exact list
  · have longer_line {line : String} (line' : longer.TypedLine line) : line = "A1" := by
      cases line' with
      | bare none => rfl
      | typed order some shown => exact absurd order.declared.eq_nil some
    have shorter_line {line : String} (line' : shorter.TypedLine line) :
        line = "A: (X :: Integer) (Y :: Text)" := by
      cases line' with
      | bare none => cases none
      | typed order' some shown =>
        obtain rfl := order'.unique order
        obtain _ | ⟨⟨⟩, _ | ⟨⟨⟩, ⟨⟩⟩⟩ := shown
        decide
    obtain rfl | rfl := List.perm_pair.mp perm'
    · obtain _ | ⟨head, _ | ⟨next, ⟨⟩⟩⟩ := each'
      obtain rfl := longer_line head
      obtain rfl := shorter_line next
      exact typed
    · obtain _ | ⟨head, _ | ⟨next, ⟨⟩⟩⟩ := each'
      obtain rfl := shorter_line head
      obtain rfl := longer_line next
      exact absurd ascending' (by decide)

end Registry
end TypedCommands
