import TypedCommands.Builtin
import TypedCommands.Proofs.Traversal

/-! What a registry knows of the commands it was built from: under each declared name a signature
with the declared parameters, each at the position it was declared for, and the declared handler. -/
namespace TypedCommands

namespace Declaration

/-- The parameter as it was declared. -/
def Placed.declared (q : Placed) : Parameter := ⟨q.position, q.parameter.name, [q.parameter.kind]⟩

theorem Placed.eq_of_declared_eq {q q' : Placed} (h : q.declared = q'.declared) : q = q' := by
  obtain ⟨position, name, kind⟩ := q
  obtain ⟨position', name', kind'⟩ := q'
  cases h
  rfl

theorem place_eq_ok {command : String} {p : Parameter} {q : Placed} (h : place command p = .ok q) :
    p = q.declared := by
  obtain ⟨position, name, kinds⟩ := p
  unfold place at h
  split at h
  · cases h
  · split at h
    · cases h
    · split at h
      · rename_i kind one
        cases h
        obtain rfl : kinds = [kind] := one
        rfl
      · cases h

theorem mapM_place_eq_ok {command : String} {ps : List Parameter} {qs : List Placed}
    (h : ps.mapM (place command) = .ok qs) : ps = qs.map Placed.declared := by
  induction ps generalizing qs with
  | nil =>
    cases h
    rfl
  | cons p ps ih =>
    rw [List.mapM_cons] at h
    obtain ⟨q, hp, h⟩ := bind_eq_ok.mp h
    obtain ⟨rest, hps, h⟩ := bind_eq_ok.mp h
    cases h
    rw [List.map_cons, ← place_eq_ok hp, ← ih hps]

/-- There is no gap exactly if the positions count up. -/
theorem gap?_eq_none_iff {n : Nat} {ps : List Placed} :
    gap? n ps = none ↔ ps.map (·.position) = List.range' n ps.length := by
  induction ps generalizing n with
  | nil => simp [gap?]
  | cons p ps ih =>
    rw [gap?, List.map_cons, List.length_cons, List.range'_succ, List.cons.injEq]
    by_cases hp : p.position = n
    · simp only [hp, if_true, ih, true_and]
    · simp only [hp, if_false, false_and, reduceCtorEq]

theorem position_of_gap?_eq_none {n : Nat} {ps : List Placed} (h : gap? n ps = none) {i : Nat}
    {q : Placed} (hq : ps[i]? = some q) : q.position = n + i := by
  have hi := (List.getElem?_eq_some_iff.mp hq).1
  have place := congrArg (·[i]?) (gap?_eq_none_iff.mp h)
  simp only [List.getElem?_map, hq, Option.map_some, List.getElem?_range' hi] at place
  have := Option.some.inj place
  omega

/-- The parameters in order have their positions as places. -/
theorem order_eq_ok {command : String} {ps : List Placed} {qs : List Signature.Parameter}
    (h : order command ps = .ok qs) :
    qs.length = ps.length ∧ ∀ i p, qs[i]? = some p ↔ ⟨i + 1, p⟩ ∈ ps := by
  unfold order at h
  dsimp only at h
  split at h
  · cases h
  · cases h
  · rename_i clash gap
    cases h
    refine ⟨by rw [List.length_map, sort, List.length_mergeSort], fun i p => ?_⟩
    have hm (q : Placed) : q ∈ sort ps ↔ q ∈ ps := List.mem_mergeSort
    rw [List.getElem?_map, Option.map_eq_some_iff, ← hm]
    constructor
    · rintro ⟨⟨position, p⟩, hq, rfl⟩
      have hp : position = 1 + i := position_of_gap?_eq_none gap hq
      rw [Nat.add_comm, ← hp]
      exact List.mem_of_getElem? hq
    · intro mem
      obtain ⟨j, hj⟩ := List.mem_iff_getElem?.mp mem
      have hp : i + 1 = 1 + j := position_of_gap?_eq_none gap hj
      obtain rfl : i = j := by omega
      exact ⟨_, hj, rfl⟩

variable {σ : Type}

/-- The signature has the declared name and, at each position, the parameter declared for it. -/
structure Describes (d : Declaration σ) (s : Signature) : Prop where
  name : s.name = d.name
  arity : s.arity = d.parameters.length
  parameter : ∀ i p, s.parameters[i]? = some p ↔ ⟨i + 1, p.name, [p.kind]⟩ ∈ d.parameters

theorem signature_describes {d : Declaration σ} {s : Signature} (h : d.signature = .ok s) :
    d.Describes s := by
  unfold signature at h
  split at h
  · cases h
  · obtain ⟨placed, hp, h⟩ := bind_eq_ok.mp h
    obtain ⟨qs, ho, h⟩ := bind_eq_ok.mp h
    cases h
    obtain ⟨length, places⟩ := order_eq_ok ho
    have declared := mapM_place_eq_ok hp
    refine ⟨rfl, ?_, fun i p => ?_⟩
    · rw [declared, List.length_map]
      exact length
    · rw [places, declared, List.mem_map]
      constructor
      · intro mem
        exact ⟨_, mem, rfl⟩
      · rintro ⟨q, mem, hq⟩
        have same : q = ⟨i + 1, p⟩ := Placed.eq_of_declared_eq hq
        exact same ▸ mem

theorem signature_eq_ok {d : Declaration σ} {placed : List Placed}
    {qs : List Signature.Parameter} (named : Name.isName d.name = true)
    (places : d.parameters.mapM (place d.name) = .ok placed)
    (ordered : order d.name placed = .ok qs) : d.signature = .ok ⟨d.name, qs⟩ := by
  unfold signature
  rw [named, places]
  exact bind_eq_ok.mpr ⟨placed, rfl, bind_eq_ok.mpr ⟨qs, ordered, rfl⟩⟩

theorem signature_of_no_parameters {d : Declaration σ} (named : Name.isName d.name = true)
    (none : d.parameters = []) : d.signature = .ok ⟨d.name, []⟩ := by
  have ordered : order d.name [] = .ok [] := by simp [order, sort, clash?, gap?]
  exact signature_eq_ok named (by rw [none]; rfl) ordered

end Declaration

namespace Registry

variable {σ : Type} {ds : List (Declaration σ)} {r r' : Registry σ} {d : Declaration σ}

theorem register_entries (h : r.register d = .ok r') :
    ∃ e : Entry σ, d.signature = .ok e.signature ∧ e.handler = d.handler ∧
      r'.entries = r.entries ++ [e] := by
  obtain ⟨s, hs, h⟩ := bind_eq_ok.mp h
  unfold add at h
  split at h
  · cases h
    exact ⟨⟨s, d.handler⟩, hs, rfl, rfl⟩
  · cases h

/-- A registry has one entry for each declaration, in their order. -/
theorem foldlM_register_entries (h : ds.foldlM register r = .ok r') :
    ∃ es, r'.entries = r.entries ++ es ∧
      (es.map fun e => (Except.ok e.signature, e.handler)) =
        ds.map fun d => (d.signature, d.handler) := by
  induction ds generalizing r with
  | nil =>
    cases h
    exact ⟨[], (List.append_nil _).symm, rfl⟩
  | cons d ds ih =>
    rw [List.foldlM_cons] at h
    obtain ⟨r₁, hd, h⟩ := bind_eq_ok.mp h
    obtain ⟨es, hes, rest⟩ := ih h
    obtain ⟨e, signature, handler, entries⟩ := register_entries hd
    refine ⟨e :: es, ?_, ?_⟩
    · rw [hes, entries, List.append_assoc]
      rfl
    · rw [List.map_cons, List.map_cons, rest, signature, handler]

theorem build_entries (h : build ds = .ok r) :
    (r.entries.map fun e => (Except.ok e.signature, e.handler)) =
      ds.map fun d => (d.signature, d.handler) := by
  obtain ⟨es, hes, entries⟩ := foldlM_register_entries h
  rw [hes]
  exact entries

/-- Each entry is found by its name. -/
theorem find?_of_mem {e : Entry σ} (mem : e ∈ r.entries) : r.find? e.signature.name = some e := by
  obtain ⟨entries, distinct⟩ := r
  unfold find?
  dsimp only at mem ⊢
  induction entries with
  | nil => exact absurd mem List.not_mem_nil
  | cons e' es ih =>
    rw [List.map_cons, List.nodup_cons] at distinct
    rcases List.mem_cons.mp mem with rfl | mem
    · exact List.find?_cons_of_pos (by simp)
    · have hne : e'.signature.name ≠ e.signature.name := by
        intro same
        exact distinct.1 (same ▸ List.mem_map_of_mem mem)
      rw [List.find?_cons_of_neg (by simpa using hne)]
      exact ih distinct.2 mem

/-- What was declared is found under its name. -/
theorem found_of_mem (h : build ds = .ok r) (mem : d ∈ ds) :
    ∃ e, r.find? d.name = some e ∧ d.Describes e.signature ∧ e.handler = d.handler := by
  have declared : (d.signature, d.handler) ∈ r.entries.map fun e =>
      (Except.ok e.signature, e.handler) := by
    rw [build_entries h]
    exact List.mem_map_of_mem mem
  obtain ⟨e, he, same⟩ := List.mem_map.mp declared
  obtain ⟨signature, handler⟩ := Prod.mk.inj same
  have describes := Declaration.signature_describes signature.symm
  exact ⟨e, describes.name ▸ find?_of_mem he, describes, handler⟩

theorem lookup_of_mem (h : build ds = .ok r) (mem : d ∈ ds) :
    ∃ s, d.Describes s ∧ r.signature? d.name = some s ∧ r.handler? d.name = some d.handler := by
  obtain ⟨e, found, describes, handler⟩ := found_of_mem h mem
  refine ⟨e.signature, describes, ?_, ?_⟩
  · rw [signature?, found]
    rfl
  · rw [handler?, found, ← handler]
    rfl

theorem exists_describes (h : build ds = .ok r) (mem : d ∈ ds) {name : String}
    (named : d.name = name) : ∃ s, r.signature? name = some s ∧ d.Describes s := by
  obtain ⟨s, describes, found, -⟩ := lookup_of_mem h mem
  exact ⟨s, named ▸ found, describes⟩

/-- What is found was declared under that name. -/
theorem exists_of_find? (h : build ds = .ok r) {name : String} {e : Entry σ}
    (found : r.find? name = some e) :
    ∃ d ∈ ds, d.name = name ∧ d.Describes e.signature ∧ e.handler = d.handler := by
  have entry : (Except.ok e.signature, e.handler) ∈ ds.map fun d => (d.signature, d.handler) := by
    rw [← build_entries h]
    exact List.mem_map_of_mem (List.mem_of_find?_eq_some found)
  obtain ⟨d, mem, same⟩ := List.mem_map.mp entry
  obtain ⟨signature, handler⟩ := Prod.mk.inj same
  have describes := Declaration.signature_describes signature
  have hn := List.find?_some found
  exact ⟨d, mem, describes.name.symm.trans (eq_of_beq hn), describes, handler.symm⟩

theorem exists_of_signature? (h : build ds = .ok r) {name : String} {s : Signature}
    (found : r.signature? name = some s) : ∃ d ∈ ds, d.name = name ∧ d.Describes s := by
  obtain ⟨e, he, rfl⟩ := Option.map_eq_some_iff.mp found
  obtain ⟨d, mem, named, describes, -⟩ := exists_of_find? h he
  exact ⟨d, mem, named, describes⟩

theorem signature?_eq_none_iff (h : build ds = .ok r) {name : String} :
    r.signature? name = none ↔ ∀ d ∈ ds, d.name ≠ name := by
  constructor
  · rintro absent d mem rfl
    obtain ⟨s, -, found, -⟩ := lookup_of_mem h mem
    rw [absent] at found
    cases found
  · intro absent
    refine Option.eq_none_iff_forall_ne_some.mpr fun s found => ?_
    obtain ⟨d, mem, hd, -⟩ := exists_of_signature? h found
    exact absent d mem hd

theorem register_eq_ok {s : Signature} (sound : d.signature = .ok s)
    (fresh : d.name ∉ r.entries.map (·.signature.name)) :
    ∃ r', r.register d = .ok r' ∧ r'.entries = r.entries ++ [⟨s, d.handler⟩] := by
  have absent : r.find? s.name = none := by
    rw [(Declaration.signature_describes sound).name]
    refine List.find?_eq_none.mpr fun e he taken => fresh ?_
    exact List.mem_map.mpr ⟨e, he, eq_of_beq taken⟩
  refine ⟨⟨r.entries ++ [⟨s, d.handler⟩], nodup_add absent⟩, ?_, rfl⟩
  exact bind_eq_ok.mpr ⟨s, sound, dif_pos absent⟩

theorem foldlM_register_eq_ok (sound : ∀ d ∈ ds, ∃ s, d.signature = .ok s)
    (distinct : (r.entries.map (·.signature.name) ++ ds.map (·.name)).Nodup) :
    ∃ r', ds.foldlM register r = .ok r' := by
  induction ds generalizing r with
  | nil => exact ⟨r, rfl⟩
  | cons d ds ih =>
    obtain ⟨s, hs⟩ := sound d List.mem_cons_self
    have fresh : d.name ∉ r.entries.map (·.signature.name) := by
      intro taken
      exact (List.nodup_append.mp distinct).2.2 _ taken _ List.mem_cons_self rfl
    obtain ⟨r₁, hd, entries⟩ := register_eq_ok hs fresh
    have distinct₁ : (r₁.entries.map (·.signature.name) ++ ds.map (·.name)).Nodup := by
      rw [entries, List.map_append, List.append_assoc]
      simp only [List.map_cons, List.map_nil, List.cons_append, List.nil_append,
        (Declaration.signature_describes hs).name]
      exact distinct
    obtain ⟨r', rest⟩ := ih (fun d mem => sound d (List.mem_cons_of_mem _ mem)) distinct₁
    exact ⟨r', by rw [List.foldlM_cons]; exact bind_eq_ok.mpr ⟨r₁, hd, rest⟩⟩

/-- Declarations that are sound one by one and have different names make a registry. -/
theorem build_eq_ok (sound : ∀ d ∈ ds, ∃ s, d.signature = .ok s)
    (distinct : (ds.map (·.name)).Nodup) : ∃ r, build ds = .ok r :=
  foldlM_register_eq_ok sound (by simpa [empty] using distinct)

end Registry

namespace Builtin

variable {σ : Type}

theorem order_parameters (b : Builtin) :
    Declaration.order b.name (b.parameters.zipIdx.map fun p => ⟨p.2 + 1, p.1⟩) =
      .ok b.parameters := by
  unfold Declaration.order Declaration.sort
  rw [List.mergeSort_of_pairwise (by cases b <;> decide)]
  cases b <;> rfl

theorem declaration_signature (b : Builtin) :
    (b.declaration : Declaration σ).signature = .ok b.signature := by
  have named : Name.isName b.name = true := by cases b <;> decide
  have places : (b.declaration : Declaration σ).parameters.mapM (Declaration.place b.name) =
      .ok (b.parameters.zipIdx.map fun p => ⟨p.2 + 1, p.1⟩) := by cases b <;> rfl
  exact Declaration.signature_eq_ok named places b.order_parameters

theorem declaration_mem (b : Builtin) : (b.declaration : Declaration σ) ∈ declarations :=
  List.mem_map_of_mem (by cases b <;> decide)

/-- The built-in commands make a registry, with other ones that are sound and have names of their
own. -/
theorem build_declarations_append (hosts : List (Declaration σ))
    (sound : ∀ d ∈ hosts, ∃ s, d.signature = .ok s)
    (distinct : (all.map name ++ hosts.map (·.name)).Nodup) :
    ∃ r, Registry.build (declarations ++ hosts) = .ok r := by
  apply Registry.build_eq_ok
  · intro d mem
    rcases List.mem_append.mp mem with builtin | host
    · obtain ⟨b, -, rfl⟩ := List.mem_map.mp builtin
      exact ⟨b.signature, b.declaration_signature⟩
    · exact sound d host
  · rw [List.map_append]
    exact distinct

theorem build_declarations : ∃ r : Registry σ, Registry.build declarations = .ok r := by
  have distinct : (all.map name ++ []).Nodup := by decide
  have h := build_declarations_append ([] : List (Declaration σ)) (by simp) distinct
  rwa [List.append_nil] at h

end Builtin
end TypedCommands
