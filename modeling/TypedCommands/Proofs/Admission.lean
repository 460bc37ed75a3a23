import TypedCommands.Environment
import TypedCommands.Proofs.Names
import TypedCommands.Proofs.Registration

/-! Which declarations make a registry: those that are sound one by one and have different names.
The positions of a sound declaration are 1, 2, 3, … in some order, and neither that order nor the
order of the declarations changes what is found. -/
namespace TypedCommands

theorem Text.allBlank_eq_false_iff {s : String} :
    allBlank s = false ↔ ∃ c ∈ s.toList, isBlank c = false := by
  rw [allBlank, List.all_eq_false]
  simp only [Bool.not_eq_true]

namespace Declaration

/-- The numbers 1, 2, …, up to how many there are, in some order. -/
def Contiguous (positions : List Nat) : Prop :=
  positions.Nodup ∧ ∀ n, n ∈ positions ↔ 1 ≤ n ∧ n ≤ positions.length

theorem contiguous_iff_perm {positions : List Nat} :
    Contiguous positions ↔ positions.Perm (List.range' 1 positions.length) := by
  have mem (n : Nat) : n ∈ List.range' 1 positions.length ↔ 1 ≤ n ∧ n ≤ positions.length := by
    rw [List.mem_range'_1]
    omega
  constructor
  · rintro ⟨nodup, members⟩
    refine (List.perm_ext_iff_of_nodup nodup List.nodup_range').mpr fun n => ?_
    rw [members, mem]
  · intro perm
    refine ⟨perm.nodup_iff.mpr List.nodup_range', fun n => ?_⟩
    rw [perm.mem_iff, mem]

/-- Different positions do not clash. -/
theorem clash?_eq_none {ps : List Placed} (h : (ps.map (·.position)).Nodup) :
    clash? ps = none := by
  induction ps with
  | nil => rfl
  | cons a ps ih =>
    cases ps with
    | nil => rfl
    | cons b ps =>
      rw [List.map_cons, List.nodup_cons] at h
      have differs : a.position ≠ b.position := by
        intro same
        exact h.1 (same ▸ List.mem_cons_self)
      rw [clash?, if_neg differs]
      exact ih h.2

theorem sort_perm (ps : List Placed) : (sort ps).Perm ps := List.mergeSort_perm _ _

theorem position_trans (a b c : Placed) (hab : decide (a.position ≤ b.position) = true)
    (hbc : decide (b.position ≤ c.position) = true) : decide (a.position ≤ c.position) = true := by
  rw [decide_eq_true_eq] at hab hbc ⊢
  exact Nat.le_trans hab hbc

theorem position_total (a b : Placed) :
    (decide (a.position ≤ b.position) || decide (b.position ≤ a.position)) = true := by
  rw [Bool.or_eq_true, decide_eq_true_eq, decide_eq_true_eq]
  exact Nat.le_total a.position b.position

theorem sort_pairwise (ps : List Placed) :
    ((sort ps).map (·.position)).Pairwise (· ≤ ·) := by
  have sorted : (sort ps).Pairwise fun a b => decide (a.position ≤ b.position) = true :=
    List.pairwise_mergeSort position_trans position_total ps
  rw [List.pairwise_map]
  exact sorted.imp of_decide_eq_true

/-- Sorting puts contiguous positions into their order. -/
theorem sort_positions {ps : List Placed} (h : Contiguous (ps.map (·.position))) :
    (sort ps).map (·.position) = List.range' 1 (sort ps).length := by
  have perm := ((sort_perm ps).map (·.position)).trans (contiguous_iff_perm.mp h)
  rw [List.length_map, ← (sort_perm ps).length_eq] at perm
  have ascending : (List.range' 1 (sort ps).length).Pairwise (· ≤ ·) :=
    (List.pairwise_lt_range' 1).imp Nat.le_of_lt
  exact perm.eq_of_pairwise (fun _ _ _ _ => Nat.le_antisymm) (sort_pairwise ps) ascending

/-- Parameters are put in order exactly if their positions leave nothing out and repeat nothing. -/
theorem order_eq_ok_iff {command : String} {ps : List Placed} :
    (∃ qs, order command ps = .ok qs) ↔ Contiguous (ps.map (·.position)) := by
  have perm := (sort_perm ps).map (·.position)
  constructor
  · rintro ⟨qs, h⟩
    unfold order at h
    dsimp only at h
    split at h
    · cases h
    · cases h
    · rename_i gap
      rw [gap?_eq_none_iff] at gap
      rw [contiguous_iff_perm, List.length_map, ← (sort_perm ps).length_eq, ← gap]
      exact perm.symm
  · intro contiguous
    have gap := gap?_eq_none_iff.mpr (sort_positions contiguous)
    have clash := clash?_eq_none (perm.nodup_iff.mpr contiguous.1)
    exact ⟨_, by simp only [order, clash, gap]; rfl⟩

theorem place_eq_ok_iff {command : String} {p : Parameter} :
    (∃ q, place command p = .ok q) ↔
      (∃ c ∈ p.name.toList, Text.isBlank c = false) ∧ p.position ≠ 0 ∧ ∃ kind, p.kinds = [kind] := by
  rw [← Text.allBlank_eq_false_iff]
  unfold place
  cases Text.allBlank p.name with
  | true => simp
  | false =>
    by_cases zero : p.position = 0
    · simp [zero]
    · simp only [Bool.false_eq_true, if_false, zero, true_and, not_false_eq_true, ne_eq]
      split
      · rename_i kind one
        simp [one]
      · rename_i other
        constructor
        · rintro ⟨q, h⟩
          cases h
        · rintro ⟨kind, one⟩
          exact absurd one (other kind)

variable {σ : Type} {d d' : Declaration σ} {s s' : Signature}

/-- What a declaration has to be by itself: a name that can be written, parameters that can be seen
and accept one kind each, and positions that leave nothing out and repeat nothing. -/
structure Sound (d : Declaration σ) : Prop where
  name : Name.Spelled d.name
  visible : ∀ p ∈ d.parameters, ∃ c ∈ p.name.toList, Text.isBlank c = false
  kind : ∀ p ∈ d.parameters, ∃ kind, p.kinds = [kind]
  positions : Contiguous (d.parameters.map (·.position))

theorem Sound.position_ne_zero (h : d.Sound) {p : Parameter} (mem : p ∈ d.parameters) :
    p.position ≠ 0 := by
  have := (h.positions.2 p.position).mp (List.mem_map_of_mem mem)
  omega

theorem signature_eq_ok_iff : (∃ s, d.signature = .ok s) ↔ d.Sound := by
  constructor
  · rintro ⟨s, h⟩
    unfold signature at h
    split at h
    · cases h
    · rename_i named
      obtain ⟨placed, places, h⟩ := bind_eq_ok.mp h
      obtain ⟨qs, ordered, -⟩ := bind_eq_ok.mp h
      have each := mapM_eq_ok_iff.mp ⟨placed, places⟩
      have declared := mapM_place_eq_ok places
      refine ⟨Name.isName_iff.mp (by simpa using named), ?_, ?_, ?_⟩
      · intro p mem
        exact (place_eq_ok_iff.mp (each p mem)).1
      · intro p mem
        exact (place_eq_ok_iff.mp (each p mem)).2.2
      · rw [declared, List.map_map]
        exact order_eq_ok_iff.mp ⟨qs, ordered⟩
  · intro sound
    obtain ⟨placed, places⟩ : ∃ placed, d.parameters.mapM (place d.name) = .ok placed := by
      refine mapM_eq_ok_iff.mpr fun p mem => place_eq_ok_iff.mpr ?_
      exact ⟨sound.visible p mem, sound.position_ne_zero mem, sound.kind p mem⟩
    have contiguous := sound.positions
    rw [mapM_place_eq_ok places, List.map_map] at contiguous
    obtain ⟨qs, ordered⟩ := order_eq_ok_iff.mpr contiguous
    exact ⟨_, signature_eq_ok (Name.isName_iff.mpr sound.name) places ordered⟩

/-- A declaration describes one signature only. -/
theorem Describes.unique (h : d.Describes s) (h' : d.Describes s') : s = s' := by
  obtain ⟨name, parameters⟩ := s
  obtain ⟨name', parameters'⟩ := s'
  obtain rfl : name = name' := h.name.trans h'.name.symm
  have same : parameters = parameters' := by
    refine List.ext_getElem? fun i => Option.ext fun p => ?_
    exact (h.parameter i p).trans (h'.parameter i p).symm
  rw [same]

/-- The signature answers for a position with the parameter that was declared there. -/
theorem Describes.parameter?_eq_some_iff (h : d.Describes s) (sound : d.Sound) {k : Nat}
    {p : Signature.Parameter} :
    s.parameter? k = some p ↔ ⟨k, p.name, [p.kind]⟩ ∈ d.parameters := by
  cases k with
  | zero =>
    rw [Signature.parameter?_zero]
    constructor
    · nofun
    · intro mem
      exact absurd rfl (sound.position_ne_zero mem)
  | succ i =>
    rw [Signature.parameter?_succ]
    exact h.parameter i p

theorem Describes.parameter?_eq_none_iff (h : d.Describes s) {k : Nat} :
    s.parameter? k = none ↔ k = 0 ∨ d.parameters.length < k := by
  cases k with
  | zero => simp
  | succ i =>
    rw [Signature.parameter?_succ, List.getElem?_eq_none_iff, ← h.arity, Signature.arity]
    omega

/-- A signature as its declaration has it: the name, and at each position the parameter declared
for it, with its name and its only kind. At every other position there is none. -/
structure Answers (d : Declaration σ) (s : Signature) : Prop where
  name : s.name = d.name
  arity : s.arity = d.parameters.length
  declared : ∀ k p, s.parameter? k = some p ↔ ⟨k, p.name, [p.kind]⟩ ∈ d.parameters
  absent : ∀ k, s.parameter? k = none ↔ k = 0 ∨ d.parameters.length < k

theorem Describes.answers (h : d.Describes s) (sound : d.Sound) : d.Answers s where
  name := h.name
  arity := h.arity
  declared _ _ := h.parameter?_eq_some_iff sound
  absent _ := h.parameter?_eq_none_iff

/-- The same declaration with its parameters in another order. -/
structure Reordered (d e : Declaration σ) : Prop where
  name : e.name = d.name
  handler : e.handler = d.handler
  parameters : d.parameters.Perm e.parameters

theorem Reordered.symm {e : Declaration σ} (h : d.Reordered e) : e.Reordered d :=
  ⟨h.name.symm, h.handler.symm, h.parameters.symm⟩

theorem Contiguous.perm {ms ns : List Nat} (h : Contiguous ms) (order : ms.Perm ns) :
    Contiguous ns := by
  rw [contiguous_iff_perm, ← order.length_eq]
  exact order.symm.trans (contiguous_iff_perm.mp h)

theorem Reordered.sound {e : Declaration σ} (h : d.Reordered e) (sound : d.Sound) : e.Sound where
  name := h.name ▸ sound.name
  visible p mem := sound.visible p (h.parameters.mem_iff.mpr mem)
  kind p mem := sound.kind p (h.parameters.mem_iff.mpr mem)
  positions := sound.positions.perm (h.parameters.map _)

theorem Reordered.describes {e : Declaration σ} (h : d.Reordered e) (describes : d.Describes s) :
    e.Describes s where
  name := describes.name.trans h.name.symm
  arity := describes.arity.trans h.parameters.length_eq
  parameter i p := (describes.parameter i p).trans h.parameters.mem_iff

/-- The same declarations in another order, each with its parameters in another order. -/
inductive Rearranged : List (Declaration σ) → List (Declaration σ) → Prop where
  | nil : Rearranged [] []
  | cons {d e : Declaration σ} {ds es : List (Declaration σ)} (head : d.Reordered e)
      (rest : Rearranged ds es) : Rearranged (d :: ds) (e :: es)
  | perm {ds es fs : List (Declaration σ)} (before : Rearranged ds es) (order : es.Perm fs) :
      Rearranged ds fs

namespace Rearranged

variable {ds es : List (Declaration σ)}

theorem forward (h : Rearranged ds es) {d : Declaration σ} (mem : d ∈ ds) :
    ∃ e ∈ es, d.Reordered e := by
  induction h with
  | nil => cases mem
  | @cons d e ds es head rest ih =>
    rcases List.mem_cons.mp mem with rfl | mem
    · exact ⟨e, List.mem_cons_self, head⟩
    · obtain ⟨e', he', reordered⟩ := ih mem
      exact ⟨e', List.mem_cons_of_mem e he', reordered⟩
  | perm before order ih =>
    obtain ⟨e, he, reordered⟩ := ih mem
    exact ⟨e, order.mem_iff.mp he, reordered⟩

theorem backward (h : Rearranged ds es) {e : Declaration σ} (mem : e ∈ es) :
    ∃ d ∈ ds, d.Reordered e := by
  induction h with
  | nil => cases mem
  | @cons d e ds es head rest ih =>
    rcases List.mem_cons.mp mem with rfl | mem
    · exact ⟨d, List.mem_cons_self, head⟩
    · obtain ⟨d', hd', reordered⟩ := ih mem
      exact ⟨d', List.mem_cons_of_mem d hd', reordered⟩
  | perm before order ih => exact ih (order.mem_iff.mpr mem)

theorem names (h : Rearranged ds es) : (ds.map (·.name)).Perm (es.map (·.name)) := by
  induction h with
  | nil => exact .nil
  | cons head rest ih =>
    rw [List.map_cons, List.map_cons, head.name]
    exact ih.cons _
  | perm before order ih => exact ih.trans (order.map _)

end Rearranged

/-- Declarations that are sound one by one and have different names. -/
def Admissible (ds : List (Declaration σ)) : Prop :=
  (∀ d ∈ ds, d.Sound) ∧ (ds.map (·.name)).Nodup

theorem Rearranged.admissible_iff {ds es : List (Declaration σ)} (h : Rearranged ds es) :
    Admissible ds ↔ Admissible es := by
  refine and_congr ⟨?_, ?_⟩ h.names.nodup_iff
  · intro sound e mem
    obtain ⟨d, hd, reordered⟩ := h.backward mem
    exact reordered.sound (sound d hd)
  · intro sound d mem
    obtain ⟨e, he, reordered⟩ := h.forward mem
    exact reordered.symm.sound (sound e he)

end Declaration

theorem Environment.ofDeclarations_eq_ok_iff {σ : Type} {ds : List (Declaration σ)} {mode : Mode}
    {env : Environment σ} :
    ofDeclarations ds mode = .ok env ↔ Registry.build ds = .ok env.registry ∧ env.mode = mode := by
  constructor
  · intro h
    obtain ⟨r, built, h⟩ := bind_eq_ok.mp h
    cases h
    exact ⟨built, rfl⟩
  · rintro ⟨built, rfl⟩
    exact bind_eq_ok.mpr ⟨env.registry, built, rfl⟩

namespace Registry

variable {σ : Type} {ds es : List (Declaration σ)} {r r' : Registry σ}

theorem build_size (h : build ds = .ok r) : r.size = ds.length := by
  simpa [size] using congrArg List.length (build_entries h)

/-- The entries have the declared names, in the order of the declarations. -/
theorem build_names (h : build ds = .ok r) :
    r.entries.map (·.signature.name) = ds.map (·.name) := by
  refine List.ext_getElem? fun i => ?_
  have same := congrArg (·[i]?) (build_entries h)
  simp only [List.getElem?_map] at same ⊢
  cases he : r.entries[i]? with
  | none =>
    rw [he] at same
    rw [Option.map_eq_none_iff.mp same.symm]
    rfl
  | some e =>
    rw [he] at same
    obtain ⟨d, hd, described⟩ := Option.map_eq_some_iff.mp same.symm
    have describes := Declaration.signature_describes (Prod.mk.inj described).1
    rw [hd, Option.map_some, Option.map_some, describes.name]

theorem build_eq_ok_iff : (∃ r, build ds = .ok r) ↔ Declaration.Admissible ds := by
  constructor
  · rintro ⟨r, h⟩
    refine ⟨fun d mem => Declaration.signature_eq_ok_iff.mp ?_, build_names h ▸ r.distinct⟩
    have entry : (d.signature, d.handler) ∈ r.entries.map fun e =>
        (Except.ok e.signature, e.handler) := by
      rw [build_entries h]
      exact List.mem_map_of_mem mem
    obtain ⟨e, -, same⟩ := List.mem_map.mp entry
    exact ⟨e.signature, (Prod.mk.inj same).1.symm⟩
  · rintro ⟨sound, distinct⟩
    exact build_eq_ok (fun d mem => Declaration.signature_eq_ok_iff.mpr (sound d mem)) distinct

/-- A declared command is found with its signature and its handler. -/
theorem found_of_signature (h : build ds = .ok r) {d : Declaration σ} (mem : d ∈ ds) {s : Signature}
    (sound : d.signature = .ok s) :
    r.signature? d.name = some s ∧ r.handler? d.name = some d.handler := by
  obtain ⟨s', describes, signature, handler⟩ := lookup_of_mem h mem
  exact ⟨describes.unique (Declaration.signature_describes sound) ▸ signature, handler⟩

/-- What a registry finds under a name is what was declared under it. -/
theorem find?_eq_some_iff (h : build ds = .ok r) {name : String} {e : Entry σ} :
    r.find? name = some e ↔
      ∃ d ∈ ds, d.name = name ∧ d.Describes e.signature ∧ e.handler = d.handler := by
  constructor
  · exact exists_of_find? h
  · rintro ⟨d, mem, rfl, describes, handler⟩
    obtain ⟨e', found, describes', handler'⟩ := found_of_mem h mem
    have same : e' = e := by
      rw [Entry.mk.injEq e'.signature e'.handler e.signature e.handler]
      exact ⟨describes'.unique describes, handler'.trans handler.symm⟩
    rw [found, same]

theorem contains_iff (h : build ds = .ok r) {name : String} :
    r.contains name = true ↔ ∃ d ∈ ds, d.name = name := by
  rw [contains, Option.isSome_iff_exists]
  constructor
  · rintro ⟨e, found⟩
    obtain ⟨d, mem, named, -⟩ := exists_of_find? h found
    exact ⟨d, mem, named⟩
  · rintro ⟨d, mem, rfl⟩
    obtain ⟨e, found, -⟩ := found_of_mem h mem
    exact ⟨e, found⟩

/-- The order of the declarations, and of the parameters within them, changes no lookup. -/
theorem find?_rearranged (same : Declaration.Rearranged ds es) (h : build ds = .ok r)
    (h' : build es = .ok r') (name : String) : r.find? name = r'.find? name := by
  refine Option.ext fun e => ?_
  rw [find?_eq_some_iff h, find?_eq_some_iff h']
  constructor
  · rintro ⟨d, mem, named, describes, handler⟩
    obtain ⟨d', mem', reordered⟩ := same.forward mem
    exact ⟨d', mem', reordered.name.trans named, reordered.describes describes,
      handler.trans reordered.handler.symm⟩
  · rintro ⟨d', mem', named, describes, handler⟩
    obtain ⟨d, mem, reordered⟩ := same.backward mem'
    exact ⟨d, mem, reordered.name.symm.trans named, reordered.symm.describes describes,
      handler.trans reordered.handler⟩

/-- A registry of the declared commands and no others. -/
structure Holds (r : Registry σ) (ds : List (Declaration σ)) : Prop where
  size : r.size = ds.length
  contains : ∀ name, r.contains name = true ↔ ∃ d ∈ ds, d.name = name
  command : ∀ d ∈ ds, ∃ s, r.signature? d.name = some s ∧ d.Answers s ∧
    r.handler? d.name = some d.handler

theorem build_holds (h : build ds = .ok r) : r.Holds ds where
  size := build_size h
  contains _ := contains_iff h
  command d mem := by
    obtain ⟨s, describes, signature, handler⟩ := lookup_of_mem h mem
    have sound := (build_eq_ok_iff.mp ⟨r, h⟩).1 d mem
    exact ⟨s, signature, describes.answers sound, handler⟩

/-- Exactly the admissible declarations make a registry, and an environment with it. It holds what
was declared, and rearranging the declarations changes neither whether there is one nor what it
finds. -/
theorem admissible_iff_registered (ds : List (Declaration σ)) :
    ((∃ r, build ds = .ok r) ↔ Declaration.Admissible ds) ∧
    (∀ mode env, Environment.ofDeclarations ds mode = .ok env ↔
      build ds = .ok env.registry ∧ env.mode = mode) ∧
    (∀ r, build ds = .ok r → r.Holds ds) ∧
    ∀ es, Declaration.Rearranged ds es →
      ((∃ r, build ds = .ok r) ↔ ∃ r, build es = .ok r) ∧
      ∀ r r', build ds = .ok r → build es = .ok r' →
        r.size = r'.size ∧ ∀ name, r.find? name = r'.find? name := by
  refine ⟨build_eq_ok_iff, fun _ _ => Environment.ofDeclarations_eq_ok_iff, fun _ => build_holds, ?_⟩
  intro es same
  refine ⟨?_, fun r r' h h' => ⟨?_, find?_rearranged same h h'⟩⟩
  · rw [build_eq_ok_iff, build_eq_ok_iff]
    exact same.admissible_iff
  · rw [build_size h, build_size h']
    simpa using same.names.length_eq

end Registry
end TypedCommands
