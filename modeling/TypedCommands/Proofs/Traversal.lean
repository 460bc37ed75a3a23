/-! Computations that stop at the first error: when a sequence of steps, or a step for each element
of a list, gives a result, and which error it ends with otherwise. -/
namespace TypedCommands

theorem bind_eq_ok {ε α β : Type} {x : Except ε α} {f : α → Except ε β} {b : β} :
    x >>= f = .ok b ↔ ∃ a, x = .ok a ∧ f a = .ok b := by
  constructor
  · intro h
    cases x with
    | error e => cases h
    | ok a => exact ⟨a, rfl, h⟩
  · rintro ⟨a, rfl, h⟩
    exact h

theorem bind_eq_error {ε α β : Type} {x : Except ε α} {f : α → Except ε β} {e : ε} :
    x >>= f = .error e ↔ x = .error e ∨ ∃ a, x = .ok a ∧ f a = .error e := by
  cases x with
  | error e' =>
    constructor
    · rintro ⟨⟩
      exact .inl rfl
    · rintro (⟨⟨⟩⟩ | ⟨_, ⟨⟩, -⟩)
      rfl
  | ok a =>
    constructor
    · exact fun h => .inr ⟨a, rfl, h⟩
    · rintro (⟨⟨⟩⟩ | ⟨_, ⟨⟩, h⟩)
      exact h

theorem map_eq_ok {ε α β : Type} {x : Except ε α} {f : α → β} {b : β} :
    x.map f = .ok b ↔ ∃ a, x = .ok a ∧ f a = b := by
  cases x <;> simp [Except.map]

theorem mapM_eq_ok_iff {α β ε : Type} {f : α → Except ε β} {xs : List α} :
    (∃ ys, xs.mapM f = .ok ys) ↔ ∀ x ∈ xs, ∃ y, f x = .ok y := by
  induction xs with
  | nil => exact ⟨fun _ => nofun, fun _ => ⟨[], rfl⟩⟩
  | cons x xs ih =>
    rw [List.forall_mem_cons, ← ih, List.mapM_cons]
    constructor
    · rintro ⟨ys, h⟩
      obtain ⟨y, hy, h⟩ := bind_eq_ok.mp h
      obtain ⟨zs, hzs, -⟩ := bind_eq_ok.mp h
      exact ⟨⟨y, hy⟩, zs, hzs⟩
    · rintro ⟨⟨y, hy⟩, zs, hzs⟩
      exact ⟨y :: zs, bind_eq_ok.mpr ⟨y, hy, bind_eq_ok.mpr ⟨zs, hzs, rfl⟩⟩⟩

/-- Of the results of a list there is none when a first element has an error. -/
theorem mapM_eq_error_iff {α β ε : Type} {f : α → Except ε β} {xs : List α} {e : ε} :
    xs.mapM f = .error e ↔ ∃ before x after, xs = before ++ x :: after ∧
      (∀ b ∈ before, ∃ y, f b = .ok y) ∧ f x = .error e := by
  induction xs with
  | nil =>
    constructor
    · nofun
    · rintro ⟨before, x, after, split, -⟩
      simp at split
  | cons x xs ih =>
    rw [List.mapM_cons, bind_eq_error]
    constructor
    · rintro (hx | ⟨y, hy, rest⟩)
      · exact ⟨[], x, xs, rfl, nofun, hx⟩
      · rcases bind_eq_error.mp rest with hxs | ⟨ys, -, ⟨⟩⟩
        obtain ⟨before, z, after, rfl, passed, hz⟩ := ih.mp hxs
        exact ⟨x :: before, z, after, rfl, List.forall_mem_cons.mpr ⟨⟨y, hy⟩, passed⟩, hz⟩
    · rintro ⟨before, z, after, split, passed, hz⟩
      cases before with
      | nil =>
        cases split
        exact .inl hz
      | cons b before =>
        obtain ⟨rfl, rfl⟩ := List.cons.inj split
        obtain ⟨⟨y, hy⟩, passed⟩ := List.forall_mem_cons.mp passed
        exact .inr ⟨y, hy, bind_eq_error.mpr (.inl (ih.mpr ⟨before, z, after, rfl, passed, hz⟩))⟩

/-- A run ends with the error of the first step that has one, after the steps before it. -/
theorem foldlM_eq_error_iff {α β ε : Type} {f : β → α → Except ε β} {xs : List α} {b : β} {e : ε} :
    xs.foldlM f b = .error e ↔ ∃ before x after b', xs = before ++ x :: after ∧
      before.foldlM f b = .ok b' ∧ f b' x = .error e := by
  induction xs generalizing b with
  | nil =>
    constructor
    · nofun
    · rintro ⟨before, x, after, b', split, -⟩
      simp at split
  | cons x xs ih =>
    rw [List.foldlM_cons, bind_eq_error]
    constructor
    · rintro (hx | ⟨b₁, hb, rest⟩)
      · exact ⟨[], x, xs, b, rfl, rfl, hx⟩
      · obtain ⟨before, y, after, b', rfl, run, hy⟩ := ih.mp rest
        exact ⟨x :: before, y, after, b', rfl, bind_eq_ok.mpr ⟨b₁, hb, run⟩, hy⟩
    · rintro ⟨before, y, after, b', split, run, hy⟩
      cases before with
      | nil =>
        cases split
        cases run
        exact .inl hy
      | cons a before =>
        obtain ⟨rfl, rfl⟩ := List.cons.inj split
        obtain ⟨b₁, hb, run⟩ := bind_eq_ok.mp run
        exact .inr ⟨b₁, hb, ih.mpr ⟨before, y, after, b', rfl, run, hy⟩⟩

variable {α ε : Type} {f : α → Except ε Unit} {xs : List α}

theorem forM_eq_ok_iff {u : Unit} : forM xs f = .ok u ↔ ∀ x ∈ xs, f x = .ok () := by
  induction xs with
  | nil => exact ⟨fun _ => nofun, fun _ => rfl⟩
  | cons x xs ih =>
    rw [List.forM_cons, bind_eq_ok, List.forall_mem_cons]
    constructor
    · rintro ⟨_, hx, hxs⟩
      exact ⟨hx, ih.mp hxs⟩
    · rintro ⟨hx, hxs⟩
      exact ⟨(), hx, ih.mpr hxs⟩

/-- A traversal ends with the error of the first element that has one. -/
theorem forM_eq_error_iff {e : ε} :
    forM xs f = .error e ↔ ∃ before x after, xs = before ++ x :: after ∧
      (∀ b ∈ before, f b = .ok ()) ∧ f x = .error e := by
  constructor
  · intro h
    induction xs with
    | nil => cases h
    | cons x xs ih =>
      rw [List.forM_cons] at h
      cases hx : f x with
      | error e' =>
        rw [hx] at h
        cases h
        exact ⟨[], x, xs, rfl, nofun, hx⟩
      | ok u =>
        rw [hx] at h
        obtain ⟨before, y, after, rfl, passed, hy⟩ := ih h
        exact ⟨x :: before, y, after, rfl, List.forall_mem_cons.mpr ⟨hx, passed⟩, hy⟩
  · rintro ⟨before, x, after, rfl, passed, hx⟩
    induction before with
    | nil =>
      rw [List.nil_append, List.forM_cons, hx]
      rfl
    | cons b before ih =>
      obtain ⟨hb, passed⟩ := List.forall_mem_cons.mp passed
      rw [List.cons_append, List.forM_cons, hb]
      exact ih passed

end TypedCommands
