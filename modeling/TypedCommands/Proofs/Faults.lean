import TypedCommands.Proofs.Admission

/-! Why declarations are refused. The first of them that is not sound, or whose name is taken, is to
blame, and of its faults the first one in a fixed order of checks. The positions are checked in
order of size, but what is told of them is told in the order of the declaration. -/
namespace TypedCommands

namespace Declaration

/-- What is wrong with a parameter by itself. -/
inductive Parameter.Faulty (command : String) (p : Parameter) : RegistrationError → Prop
  | blank (blank : ∀ c ∈ p.name.toList, Text.isBlank c = true) :
      Faulty command p (.emptyParameterName command p.position)
  | zero (visible : ∃ c ∈ p.name.toList, Text.isBlank c = false) (zero : p.position = 0) :
      Faulty command p (.zeroPosition command p.name)
  | kinds (visible : ∃ c ∈ p.name.toList, Text.isBlank c = false) (positive : p.position ≠ 0)
      (several : p.kinds.length ≠ 1) :
      Faulty command p (.unsupportedKinds command p.name p.kinds)

theorem place_eq_error_iff {command : String} {p : Parameter} {e : RegistrationError} :
    place command p = .error e ↔ p.Faulty command e := by
  constructor
  · intro h
    unfold place at h
    split at h
    · rename_i blank
      cases h
      exact .blank (List.all_eq_true.mp blank)
    · rename_i seen
      have visible := Text.allBlank_eq_false_iff.mp (Bool.eq_false_iff.mpr seen)
      split at h
      · rename_i zero
        cases h
        exact .zero visible zero
      · rename_i positive
        split at h
        · cases h
        · rename_i several
          cases h
          refine .kinds visible positive fun one => ?_
          obtain ⟨kind, only⟩ := List.length_eq_one_iff.mp one
          exact several kind only
  · rintro (blank | ⟨visible, zero⟩ | ⟨visible, positive, several⟩)
    · have hidden : Text.allBlank p.name = true := List.all_eq_true.mpr blank
      rw [place, if_pos hidden]
    · have seen := Bool.eq_false_iff.mp (Text.allBlank_eq_false_iff.mpr visible)
      rw [place, if_neg seen, if_pos zero]
    · have seen := Bool.eq_false_iff.mp (Text.allBlank_eq_false_iff.mpr visible)
      rw [place, if_neg seen, if_neg positive]
      split
      · rename_i kind only
        exact absurd (congrArg List.length only) several
      · rfl

/-- The first two of the parameters that declare the least position that is declared twice. -/
structure Clash (ps : List Parameter) (k : Nat) (a b : Parameter) : Prop where
  first : ∃ more, ps.filter (fun p => p.position = k) = a :: b :: more
  least : ∀ j < k, (ps.map (·.position)).count j ≤ 1

/-- The least position that is not declared. -/
structure Gap (ps : List Parameter) (k : Nat) : Prop where
  positive : 1 ≤ k
  absent : k ∉ ps.map (·.position)
  least : ∀ j, 1 ≤ j → j < k → j ∈ ps.map (·.position)

/-- Sorting leaves parameters of one position in the order of their declaration. -/
theorem sort_filter (ps : List Placed) (k : Nat) :
    (sort ps).filter (fun p => p.position = k) = ps.filter (fun p => p.position = k) := by
  have at_k : ∀ p ∈ ps.filter (fun p => p.position = k), p.position = k := by
    intro p mem
    simpa using (List.mem_filter.mp mem).2
  have level : (ps.filter (fun p => p.position = k)).Pairwise
      fun a b => decide (a.position ≤ b.position) = true := by
    refine List.pairwise_iff_forall_sublist.mpr fun {a b} pair => ?_
    have ha := at_k a (pair.subset List.mem_cons_self)
    have hb := at_k b (pair.subset (List.mem_cons_of_mem a List.mem_cons_self))
    exact decide_eq_true (Nat.le_of_eq (ha.trans hb.symm))
  have sublist : (ps.filter (fun p => p.position = k)).Sublist (sort ps) :=
    List.sublist_mergeSort position_trans position_total level List.filter_sublist
  have kept := sublist.filter fun p => decide (p.position = k)
  rw [List.filter_filter] at kept
  simp only [Bool.and_self] at kept
  exact (kept.eq_of_length ((sort_perm ps).filter _).length_eq.symm).symm

theorem lt_of_ascending {p q : Placed} {ps : List Placed}
    (sorted : ((p :: q :: ps).map (·.position)).Pairwise (· ≤ ·)) (differs : p.position ≠ q.position) :
    ∀ m ∈ (q :: ps).map (·.position), p.position < m := by
  obtain ⟨above, sorted⟩ := List.pairwise_cons.mp sorted
  have next : p.position ≤ q.position := above q.position List.mem_cons_self
  intro m hm
  rcases List.mem_cons.mp hm with (here : m = q.position) | hm
  · omega
  · have top : q.position ≤ m := (List.pairwise_cons.mp sorted).1 m hm
    omega

/-- In ascending order, neighbours of one position are the first ones of the least position that is
declared twice. -/
theorem clash?_eq_some {ps : List Placed} (sorted : (ps.map (·.position)).Pairwise (· ≤ ·))
    {a b : Placed} (h : clash? ps = some (a, b)) :
    a ∈ ps ∧ (∃ more, ps.filter (fun p => p.position = a.position) = a :: b :: more) ∧
      ∀ j < a.position, (ps.map (·.position)).count j ≤ 1 := by
  induction ps with
  | nil => cases h
  | cons p ps ih =>
    obtain ⟨above, others⟩ := List.pairwise_cons.mp sorted
    cases ps with
    | nil => cases h
    | cons q ps =>
      rw [clash?] at h
      split at h
      · rename_i same
        cases h
        refine ⟨List.mem_cons_self, ?_, fun j less => ?_⟩
        · rw [List.filter_cons_of_pos (by simp), List.filter_cons_of_pos (by simp [same])]
          exact ⟨_, rfl⟩
        · have none : j ∉ (a :: b :: ps).map (·.position) := by
            intro mem
            rcases List.mem_cons.mp mem with rfl | mem
            · exact Nat.lt_irrefl _ less
            · exact absurd (above j mem) (Nat.not_le.mpr less)
          rw [List.count_eq_zero.mpr none]
          exact Nat.zero_le 1
      · rename_i differs
        -- The first parameter stands alone at its position, below all that come after it.
        obtain ⟨mem, first, least⟩ := ih others h
        have higher := lt_of_ascending sorted differs
        have skipped := higher a.position (List.mem_map_of_mem mem)
        refine ⟨List.mem_cons_of_mem p mem, ?_, fun j less => ?_⟩
        · rw [List.filter_cons_of_neg (by simp; omega)]
          exact first
        · rw [List.map_cons, List.count_cons]
          split
          · rename_i here
            obtain rfl := eq_of_beq here
            have none : p.position ∉ (q :: ps).map (·.position) := by
              intro hm
              exact Nat.lt_irrefl _ (higher _ hm)
            have zero := List.count_eq_zero.mpr none
            omega
          · exact least j less

theorem nodup_of_clash? {ps : List Placed} (sorted : (ps.map (·.position)).Pairwise (· ≤ ·))
    (h : clash? ps = none) : (ps.map (·.position)).Nodup := by
  induction ps with
  | nil => exact List.nodup_nil
  | cons p ps ih =>
    cases ps with
    | nil => simp
    | cons q ps =>
      rw [clash?] at h
      split at h
      · cases h
      · rename_i differs
        rw [List.map_cons, List.nodup_cons]
        refine ⟨fun mem => ?_, ih (List.pairwise_cons.mp sorted).2 h⟩
        exact Nat.lt_irrefl _ (lt_of_ascending sorted differs _ mem)

/-- In ascending order, the first position that is left out is the least one. -/
theorem gap?_eq_some {n k : Nat} {ps : List Placed}
    (sorted : (ps.map (·.position)).Pairwise (· < ·)) (low : ∀ m ∈ ps.map (·.position), n ≤ m)
    (h : gap? n ps = some k) :
    n ≤ k ∧ k ∉ ps.map (·.position) ∧ ∀ j, n ≤ j → j < k → j ∈ ps.map (·.position) := by
  induction ps generalizing n with
  | nil => cases h
  | cons p ps ih =>
    obtain ⟨above, sorted⟩ := List.pairwise_cons.mp sorted
    rw [gap?] at h
    split at h
    · rename_i here
      have above : ∀ m ∈ ps.map (·.position), n + 1 ≤ m := fun m hm => here ▸ above m hm
      obtain ⟨le, absent, least⟩ := ih sorted above h
      refine ⟨by omega, fun mem => ?_, fun j hj less => ?_⟩
      · rcases List.mem_cons.mp mem with (same : k = p.position) | mem
        · omega
        · exact absent mem
      · rcases Nat.eq_or_lt_of_le hj with rfl | more
        · exact here ▸ List.mem_cons_self
        · exact List.mem_cons_of_mem _ (least j more less)
    · rename_i differs
      cases h
      refine ⟨Nat.le_refl _, fun mem => ?_, fun j hj less => absurd hj (Nat.not_le.mpr less)⟩
      have first : k ≤ p.position := low p.position List.mem_cons_self
      rcases List.mem_cons.mp mem with (same : k = p.position) | mem
      · exact differs same.symm
      · have : p.position < k := above k mem
        omega

theorem Clash.two_le_count {ps : List Parameter} {k : Nat} {a b : Parameter} (h : Clash ps k a b) :
    2 ≤ (ps.map (·.position)).count k := by
  obtain ⟨more, first⟩ := h.first
  have count : (ps.map (·.position)).count k = (ps.filter fun p => p.position = k).length := by
    rw [List.count, List.countP_map, List.countP_eq_length_filter]
    rfl
  rw [count, first, List.length_cons, List.length_cons]
  omega

theorem Clash.unique {ps : List Parameter} {k k' : Nat} {a a' b b' : Parameter}
    (h : Clash ps k a b) (h' : Clash ps k' a' b') : k = k' ∧ a = a' ∧ b = b' := by
  have twice := h.two_le_count
  have twice' := h'.two_le_count
  rcases Nat.lt_trichotomy k k' with less | rfl | more
  · have := h'.least k less
    omega
  · obtain ⟨more, first⟩ := h.first
    obtain ⟨more', first'⟩ := h'.first
    rw [first] at first'
    obtain ⟨rfl, rest⟩ := List.cons.inj first'
    exact ⟨rfl, rfl, (List.cons.inj rest).1⟩
  · have := h.least k' more
    omega

theorem Clash.not_nodup {ps : List Parameter} {k : Nat} {a b : Parameter} (h : Clash ps k a b) :
    ¬(ps.map (·.position)).Nodup := by
  intro distinct
  have once := List.nodup_iff_count.mp distinct k
  have twice := h.two_le_count
  omega

theorem Gap.unique {ps : List Parameter} {k k' : Nat} (h : Gap ps k) (h' : Gap ps k') : k = k' := by
  rcases Nat.lt_trichotomy k k' with less | same | more
  · exact absurd (h'.least k h.positive less) h.absent
  · exact same
  · exact absurd (h.least k' h'.positive more) h'.absent

theorem positions_declared (ps : List Placed) :
    (ps.map Placed.declared).map (·.position) = ps.map (·.position) := by
  rw [List.map_map]
  rfl

/-- What clashes after sorting are the first two that are declared for the position. -/
theorem clash_of_sort {ps : List Placed} {a b : Placed} (h : clash? (sort ps) = some (a, b)) :
    Clash (ps.map Placed.declared) a.position a.declared b.declared := by
  obtain ⟨-, ⟨more, first⟩, least⟩ := clash?_eq_some (sort_pairwise ps) h
  rw [sort_filter] at first
  refine ⟨⟨more.map Placed.declared, ?_⟩, fun j less => ?_⟩
  · rw [List.filter_map, ← List.map_cons, ← List.map_cons, ← first]
    rfl
  · rw [positions_declared, ← ((sort_perm ps).map (·.position)).count_eq]
    exact least j less

theorem gap_of_sort {ps : List Placed} {k : Nat} (positive : ∀ p ∈ ps, p.position ≠ 0)
    (distinct : (ps.map (·.position)).Nodup) (h : gap? 1 (sort ps) = some k) :
    Gap (ps.map Placed.declared) k := by
  have perm := (sort_perm ps).map (·.position)
  have sorted : ((sort ps).map (·.position)).Pairwise (· < ·) :=
    ((sort_pairwise ps).and (perm.nodup_iff.mpr distinct)).imp fun h => Nat.lt_of_le_of_ne h.1 h.2
  have low : ∀ m ∈ (sort ps).map (·.position), 1 ≤ m := by
    intro m hm
    obtain ⟨p, mem, rfl⟩ := List.mem_map.mp (perm.mem_iff.mp hm)
    exact Nat.pos_of_ne_zero (positive p mem)
  obtain ⟨le, absent, least⟩ := gap?_eq_some sorted low h
  refine ⟨le, ?_, fun j hj less => ?_⟩
  · rw [positions_declared, ← perm.mem_iff]
    exact absent
  · rw [positions_declared, ← perm.mem_iff]
    exact least j hj less

/-- Why parameters that are sound one by one cannot be put in order. -/
theorem order_eq_error_iff {command : String} {ps : List Placed}
    (positive : ∀ p ∈ ps, p.position ≠ 0) {e : RegistrationError} :
    order command ps = .error e ↔
      (∃ k a b, Clash (ps.map Placed.declared) k a b ∧
        e = .duplicatePosition command k a.name b.name) ∨
      ((ps.map (·.position)).Nodup ∧ ¬Contiguous (ps.map (·.position)) ∧
        ∃ k, Gap (ps.map Placed.declared) k ∧ e = .missingPosition command k) := by
  have perm := (sort_perm ps).map (·.position)
  cases clash : clash? (sort ps) with
  | some pair =>
    obtain ⟨a, b⟩ := pair
    have found := clash_of_sort clash
    have result : order command ps =
        .error (.duplicatePosition command a.position a.parameter.name b.parameter.name) := by
      simp only [order, clash]
    rw [result]
    constructor
    · rintro ⟨⟩
      exact .inl ⟨_, _, _, found, rfl⟩
    · rintro (⟨k, a', b', other, rfl⟩ | ⟨distinct, -⟩)
      · obtain ⟨rfl, rfl, rfl⟩ := found.unique other
        rfl
      · exact absurd (positions_declared ps ▸ distinct) found.not_nodup
  | none =>
    have distinct := perm.nodup_iff.mp (nodup_of_clash? (sort_pairwise ps) clash)
    have none (k a b) : ¬Clash (ps.map Placed.declared) k a b := by
      intro other
      exact other.not_nodup (by rwa [positions_declared])
    cases gap : gap? 1 (sort ps) with
    | some k =>
      have found := gap_of_sort positive distinct gap
      have result : order command ps = .error (.missingPosition command k) := by
        simp only [order, clash, gap]
      have broken : ¬Contiguous (ps.map (·.position)) := by
        intro contiguous
        rw [gap?_eq_none_iff.mpr (sort_positions contiguous)] at gap
        cases gap
      rw [result]
      constructor
      · rintro ⟨⟩
        exact .inr ⟨distinct, broken, k, found, rfl⟩
      · rintro (⟨k', a, b, other, -⟩ | ⟨-, -, k', other, rfl⟩)
        · exact absurd other (none k' a b)
        · rw [found.unique other]
    | none =>
      have result : order command ps = .ok ((sort ps).map (·.parameter)) := by
        simp only [order, clash, gap]
      have contiguous := order_eq_ok_iff.mp ⟨_, result⟩
      rw [result]
      constructor
      · rintro ⟨⟩
      · rintro (⟨k, a, b, other, -⟩ | ⟨-, broken, -⟩)
        · exact absurd other (none k a b)
        · exact absurd contiguous broken

example : order "Move" [⟨7, "a", .integer⟩, ⟨2, "b", .float⟩, ⟨2, "c", .text⟩] =
    .error (.duplicatePosition "Move" 2 "b" "c") := by cbv

variable {σ : Type}

/-- What is wrong with a declaration by itself, if nothing that is checked before is wrong. -/
inductive Fault (d : Declaration σ) : RegistrationError → Prop
  | name (unspelled : ¬Name.Spelled d.name) : Fault d (.invalidName d.name)
  | parameter {before after : List Parameter} {p : Parameter} {e : RegistrationError}
      (named : Name.Spelled d.name) (split : d.parameters = before ++ p :: after)
      (earlier : ∀ q ∈ before, ∀ e, ¬q.Faulty d.name e) (faulty : p.Faulty d.name e) : Fault d e
  | duplicate {k : Nat} {a b : Parameter} (named : Name.Spelled d.name)
      (sound : ∀ p ∈ d.parameters, ∀ e, ¬p.Faulty d.name e) (clash : Clash d.parameters k a b) :
      Fault d (.duplicatePosition d.name k a.name b.name)
  | missing {k : Nat} (named : Name.Spelled d.name)
      (sound : ∀ p ∈ d.parameters, ∀ e, ¬p.Faulty d.name e)
      (distinct : (d.parameters.map (·.position)).Nodup)
      (broken : ¬Contiguous (d.parameters.map (·.position))) (gap : Gap d.parameters k) :
      Fault d (.missingPosition d.name k)

theorem exists_place_iff {command : String} {p : Parameter} :
    (∃ q, place command p = .ok q) ↔ ∀ e, ¬p.Faulty command e := by
  simp only [← place_eq_error_iff]
  cases place command p <;> simp

theorem positive_of_places {command : String} {ps : List Parameter} {placed : List Placed}
    (places : ps.mapM (place command) = .ok placed) : ∀ q ∈ placed, q.position ≠ 0 := by
  intro q mem
  have declared : q.declared ∈ ps := by
    rw [mapM_place_eq_ok places]
    exact List.mem_map_of_mem mem
  exact (place_eq_ok_iff.mp (mapM_eq_ok_iff.mp ⟨placed, places⟩ _ declared)).2.1

/-- The first parameter that is not sound by itself is told before the positions are checked. -/
theorem parameters_eq_error_iff {d : Declaration σ} {e' : RegistrationError}
    (named : Name.Spelled d.name) (places : d.parameters.mapM (place d.name) = .error e')
    {e : RegistrationError} : d.parameters.mapM (place d.name) = .error e ↔ d.Fault e := by
  have some : ¬∀ p ∈ d.parameters, ∀ e, ¬p.Faulty d.name e := by
    intro sound
    obtain ⟨placed, ok⟩ := mapM_eq_ok_iff.mpr fun p mem => exists_place_iff.mpr (sound p mem)
    rw [ok] at places
    cases places
  rw [mapM_eq_error_iff]
  constructor
  · rintro ⟨before, p, after, split, passed, faulty⟩
    exact .parameter named split (fun q mem => exists_place_iff.mp (passed q mem))
      (place_eq_error_iff.mp faulty)
  · rintro (unspelled | ⟨_, split, earlier, faulty⟩ | ⟨_, sound, _⟩ | ⟨_, sound, _⟩)
    · exact absurd named unspelled
    · exact ⟨_, _, _, split, fun q mem => exists_place_iff.mpr (earlier q mem),
        place_eq_error_iff.mpr faulty⟩
    · exact absurd sound some
    · exact absurd sound some

/-- The checks of the positions are made when all parameters are sound by themselves. -/
theorem positions_eq_error_iff {d : Declaration σ} {placed : List Placed} {e : RegistrationError}
    (named : Name.Spelled d.name) (places : d.parameters.mapM (place d.name) = .ok placed) :
    order d.name placed = .error e ↔ d.Fault e := by
  have sound : ∀ p ∈ d.parameters, ∀ e, ¬p.Faulty d.name e := fun p mem =>
    exists_place_iff.mp (mapM_eq_ok_iff.mp ⟨placed, places⟩ p mem)
  have declared := mapM_place_eq_ok places
  rw [order_eq_error_iff (positive_of_places places), ← positions_declared, ← declared]
  constructor
  · rintro (⟨k, a, b, clash, rfl⟩ | ⟨distinct, broken, k, gap, rfl⟩)
    · exact .duplicate named sound clash
    · exact .missing named sound distinct broken gap
  · rintro (unspelled | ⟨_, split, _, faulty⟩ | ⟨_, _, clash⟩ | ⟨_, _, distinct, broken, gap⟩)
    · exact absurd named unspelled
    · refine absurd faulty (sound _ ?_ _)
      rw [split]
      exact List.mem_append_right _ List.mem_cons_self
    · exact .inl ⟨_, _, _, clash, rfl⟩
    · exact .inr ⟨distinct, broken, _, gap, rfl⟩

theorem signature_eq_error_iff {d : Declaration σ} {e : RegistrationError} :
    d.signature = .error e ↔ d.Fault e := by
  by_cases named : Name.isName d.name = true
  · have spelled := Name.isName_iff.mp named
    have checks : d.signature = (d.parameters.mapM (place d.name) >>= fun placed =>
        order d.name placed >>= fun qs => pure ⟨d.name, qs⟩) := by
      rw [signature, named]
      rfl
    rw [checks]
    cases places : d.parameters.mapM (place d.name) with
    | error e' =>
      rw [← parameters_eq_error_iff spelled places, places, bind_eq_error]
      constructor
      · rintro (h | ⟨_, ⟨⟩, _⟩)
        exact h
      · exact .inl
    | ok placed =>
      rw [← positions_eq_error_iff spelled places]
      show (order d.name placed >>= fun qs => pure (⟨d.name, qs⟩ : Signature)) = .error e ↔ _
      rw [bind_eq_error]
      constructor
      · rintro (h | ⟨_, _, ⟨⟩⟩)
        exact h
      · exact .inl
  · have refused : d.signature = .error (.invalidName d.name) := by
      rw [signature, Bool.eq_false_iff.mpr named]
      rfl
    rw [refused]
    have unspelled := mt Name.isName_iff.mpr named
    constructor
    · rintro ⟨⟩
      exact .name unspelled
    · rintro (_ | ⟨named, _⟩ | ⟨named, _⟩ | ⟨named, _⟩)
      · rfl
      all_goals exact absurd named unspelled

theorem fault_iff_not_sound {d : Declaration σ} : (∃ e, d.Fault e) ↔ ¬d.Sound := by
  simp only [← signature_eq_error_iff, ← signature_eq_ok_iff]
  cases d.signature <;> simp

end Declaration

namespace Registry

variable {σ : Type}

theorem add_eq_error_iff {r : Registry σ} {entry : Entry σ} {e : RegistrationError} :
    r.add entry = .error e ↔ entry.signature.name ∈ r.entries.map (·.signature.name) ∧
      e = .duplicateCommand entry.signature.name := by
  have taken : r.find? entry.signature.name = none ↔
      entry.signature.name ∉ r.entries.map (·.signature.name) := by
    rw [find?, List.find?_eq_none, List.mem_map]
    simp
  unfold add
  split
  · rename_i fresh
    constructor
    · rintro ⟨⟩
    · rintro ⟨mem, -⟩
      exact absurd mem (taken.mp fresh)
  · rename_i found
    rw [taken, Classical.not_not] at found
    constructor
    · rintro ⟨⟩
      exact ⟨found, rfl⟩
    · rintro ⟨-, rfl⟩
      rfl

theorem register_eq_error_iff {r : Registry σ} {d : Declaration σ} {e : RegistrationError} :
    r.register d = .error e ↔ d.Fault e ∨
      (d.Sound ∧ d.name ∈ r.entries.map (·.signature.name) ∧ e = .duplicateCommand d.name) := by
  rw [← Declaration.signature_eq_error_iff, ← Declaration.signature_eq_ok_iff, register,
    bind_eq_error]
  refine or_congr_right ⟨?_, ?_⟩
  · rintro ⟨s, sound, refused⟩
    obtain ⟨mem, rfl⟩ := add_eq_error_iff.mp refused
    rw [(Declaration.signature_describes sound).name] at mem ⊢
    exact ⟨⟨s, sound⟩, mem, rfl⟩
  · rintro ⟨⟨s, sound⟩, mem, rfl⟩
    rw [← (Declaration.signature_describes sound).name] at mem ⊢
    exact ⟨s, sound, add_eq_error_iff.mpr ⟨mem, rfl⟩⟩

/-- Declarations are refused for one reason. The declaration that is blamed is the first one that is
not sound by itself or whose name one before it has; it is told what is wrong with it, and only of a
declaration that is sound that its name is taken. -/
theorem build_eq_error_iff :
    (∀ d : Declaration σ, (∃ e, d.Fault e) ↔ ¬d.Sound) ∧
    ∀ (ds : List (Declaration σ)) (e : RegistrationError), build ds = .error e ↔
      ∃ before d after, ds = before ++ d :: after ∧ Declaration.Admissible before ∧
        (d.Fault e ∨
          (d.Sound ∧ (∃ c ∈ before, c.name = d.name) ∧ e = .duplicateCommand d.name)) := by
  refine ⟨fun d => Declaration.fault_iff_not_sound, fun ds e => ?_⟩
  rw [build, foldlM_eq_error_iff]
  constructor
  · rintro ⟨before, d, after, r, split, built, refused⟩
    refine ⟨before, d, after, split, build_eq_ok_iff.mp ⟨r, built⟩, ?_⟩
    rw [register_eq_error_iff, build_names built, List.mem_map] at refused
    exact refused
  · rintro ⟨before, d, after, split, admissible, blamed⟩
    obtain ⟨r, built⟩ := build_eq_ok_iff.mpr admissible
    refine ⟨before, d, after, r, split, built, ?_⟩
    rw [register_eq_error_iff, build_names built, List.mem_map]
    exact blamed

end Registry
end TypedCommands
