import TypedCommands.Proofs.Naturals
import TypedCommands.Settings

/-! Mappings with known keys. What is read from one depends on the values under those keys only, not
on their order or on what stands under others, and each key that is known may come once. -/
namespace TypedCommands.Settings

open Yaml (Node Natural naturalOf_eq_some_iff)

/-- The entries of a mapping. Where nothing was written is a mapping without any. -/
inductive HasEntries : Node → List (Node × Node) → Prop where
  | mapping (es : List (Node × Node)) : HasEntries (.mapping es) es
  | nothing : HasEntries .empty []

/-- All keys are texts. -/
def Named (es : List (Node × Node)) : Prop := ∀ e ∈ es, ∃ plain key, e.1 = .scalar plain key

/-- The values under a key, in their order. -/
def under (key : String) (es : List (Node × Node)) : List Node :=
  (es.filter fun e => text? e.1 == some key).map Prod.snd

/-- A text that denotes a natural number, without quotes. -/
def Whole (n : Node) (k : Nat) : Prop :=
  ∃ text : String, n = .scalar true text ∧ Natural text.toList k

/-- One element that has no result leaves the whole list without one. -/
theorem mapM_eq_none_of_mem {α β : Type} {f : α → Option β} {xs : List α} {x : α} (mem : x ∈ xs)
    (none : f x = none) : xs.mapM f = Option.none := by
  induction xs with
  | nil => cases mem
  | cons y ys ih =>
    rw [List.mapM_cons]
    rcases List.mem_cons.mp mem with rfl | mem
    · rw [none]
      rfl
    · rw [ih mem]
      cases f y <;> rfl

section Values

/-- The only value, if there is one. -/
def only {α : Type} (default : Option α) : List (Option α) → Option α
  | [] => default
  | [r] => r
  | _ => none

variable {α : Type} {default : Option α} {rs rs' : List (Option α)}

theorem only_perm (perm : rs.Perm rs') : only default rs = only default rs' := by
  match rs, rs', perm with
  | [], rs', perm => rw [perm.nil_eq]
  | [r], rs', perm => rw [List.perm_singleton.mp perm.symm]
  | _ :: _ :: _, [], perm => exact absurd perm.length_eq (by simp)
  | _ :: _ :: _, [_], perm => exact absurd perm.length_eq (by simp)
  | _ :: _ :: _, _ :: _ :: _, _ => rfl

theorem only_eq_none_of_mem (mem : none ∈ rs) : only default rs = none := by
  match rs, mem with
  | [r], mem => exact (List.mem_singleton.mp mem).symm
  | _ :: _ :: _, _ => rfl

theorem only_eq_none_of_two (two : 2 ≤ rs.length) : only default rs = none := by
  match rs, two with
  | _ :: _ :: _, _ => rfl

/-- Without a default there must be a value that can be read. -/
theorem only_eq_none_of_forall (none : ∀ r ∈ rs, r = none) : only Option.none rs = Option.none := by
  match rs with
  | [] => rfl
  | [r] => exact none r List.mem_cons_self
  | _ :: _ :: _ => rfl

end Values

section Entries

variable {α : Type} {n : Node} {es fs : List (Node × Node)} {key : String} {default : Option α}
  {ofNode? : Node → Option α}

/-- What is read from the values under a key. -/
def readUnder (key : String) (es : List (Node × Node)) (default : Option α)
    (ofNode? : Node → Option α) : Option α :=
  only default ((under key es).map ofNode?)

theorem read?_eq (kvs : List (String × Node)) :
    read? key kvs default ofNode? =
      only default (((kvs.filter fun e => e.1 == key).map Prod.snd).map ofNode?) := by
  unfold read? unique?
  generalize kvs.filter (fun e => e.1 == key) = found
  match found with
  | [] => rfl
  | [e] => rfl
  | _ :: _ :: _ => rfl

theorem under_cons (plain : Bool) (name : String) (value : Node) :
    under key ((.scalar plain name, value) :: es) =
      if name = key then value :: under key es else under key es := by
  by_cases same : name = key <;> simp [under, text?, same]

theorem under_perm (perm : es.Perm fs) : (under key es).Perm (under key fs) :=
  (perm.filter _).map _

theorem mem_under_iff {value : Node} :
    value ∈ under key es ↔ ∃ plain, (.scalar plain key, value) ∈ es := by
  constructor
  · intro mem
    obtain ⟨⟨k, v⟩, found, rfl⟩ := List.mem_map.mp mem
    obtain ⟨entry, named⟩ := List.mem_filter.mp found
    cases k with
    | scalar plain name =>
      obtain rfl : name = key := by simpa [text?] using named
      exact ⟨plain, entry⟩
    | sequence _ => simp [text?] at named
    | mapping _ => simp [text?] at named
  · rintro ⟨plain, mem⟩
    exact List.mem_map.mpr ⟨_, List.mem_filter.mpr ⟨mem, by simp [text?]⟩, rfl⟩

theorem entries?_cons (plain : Bool) (name : String) (value : Node) :
    entries? (.mapping ((.scalar plain name, value) :: es)) =
      (entries? (.mapping es)).map ((name, value) :: ·) := by
  change List.mapM _ _ = Option.map _ (List.mapM _ es)
  rw [List.mapM_cons, Option.map_eq_bind]
  rfl

theorem exists_entries (has : HasEntries n es) (named : Named es) :
    ∃ kvs, entries? n = some kvs ∧
      ∀ key, (kvs.filter fun e => e.1 == key).map Prod.snd = under key es := by
  cases has with
  | nothing => exact ⟨[], rfl, fun _ => rfl⟩
  | mapping es =>
    induction es with
    | nil => exact ⟨[], rfl, fun _ => rfl⟩
    | cons e es ih =>
      obtain ⟨k, value⟩ := e
      obtain ⟨plain, name, rfl⟩ := named (k, value) List.mem_cons_self
      obtain ⟨kvs, read, found⟩ := ih fun e mem => named e (List.mem_cons_of_mem _ mem)
      refine ⟨(name, value) :: kvs, ?_, fun key => ?_⟩
      · rw [entries?_cons, read, Option.map_some]
      · rw [under_cons, ← found key]
        by_cases same : name = key <;> simp [same]

theorem exists_read (has : HasEntries n es) (named : Named es) :
    ∃ kvs, entries? n = some kvs ∧
      ∀ (α : Type) (key : String) (default : Option α) (ofNode? : Node → Option α),
        read? key kvs default ofNode? = readUnder key es default ofNode? := by
  obtain ⟨kvs, read, found⟩ := exists_entries has named
  refine ⟨kvs, read, fun α key default ofNode? => ?_⟩
  rw [read?_eq, found key, readUnder]

theorem readUnder_eq_none_of_mem {plain : Bool} {value : Node}
    (entry : (.scalar plain key, value) ∈ es) (unread : ofNode? value = none) :
    readUnder key es default ofNode? = none :=
  only_eq_none_of_mem (List.mem_map.mpr ⟨value, mem_under_iff.mpr ⟨plain, entry⟩, unread⟩)

theorem readUnder_eq_none_of_two (two : 2 ≤ (under key es).length) :
    readUnder key es default ofNode? = none := by
  apply only_eq_none_of_two
  rw [List.length_map]
  exact two

theorem entries?_eq_none (has : HasEntries n es) (unnamed : ¬Named es) : entries? n = none := by
  cases has with
  | nothing => exact absurd nofun unnamed
  | mapping es =>
    obtain ⟨e, mem, unnamed⟩ : ∃ e ∈ es, ∀ plain key, e.1 ≠ .scalar plain key := by
      simpa [Named] using unnamed
    apply mapM_eq_none_of_mem mem
    split
    · exact absurd rfl (unnamed _ _)
    · rfl

theorem entries?_eq_none_of_forall (other : ∀ es, ¬HasEntries n es) : entries? n = none := by
  unfold entries?
  split
  · exact absurd (.mapping _) (other _)
  · exact absurd .nothing (other _)
  · rfl

/-- A reader gives the same on two mappings if what it asks for is read the same from both. -/
theorem bind_entries_congr {β : Type} {n' : Node} {g : List (String × Node) → Option β}
    (has : HasEntries n es) (has' : HasEntries n' fs) (named : Named es ↔ Named fs)
    (reads : ∀ kvs kvs', (∀ (α : Type) (key : String) (default : Option α)
        (ofNode? : Node → Option α),
        readUnder key es default ofNode? = readUnder key fs default ofNode? →
          read? key kvs default ofNode? = read? key kvs' default ofNode?) → g kvs = g kvs') :
    (entries? n).bind g = (entries? n').bind g := by
  by_cases all : Named es
  · obtain ⟨kvs, read, found⟩ := exists_read has all
    obtain ⟨kvs', read', found'⟩ := exists_read has' (named.mp all)
    rw [read, read', Option.bind_some, Option.bind_some]
    apply reads
    intro α key default ofNode? same
    rw [found, found', same]
  · rw [entries?_eq_none has all, entries?_eq_none has' (mt named.mpr all)]

theorem bind_entries_eq_none {β : Type} {g : List (String × Node) → Option β}
    (has : HasEntries n es)
    (fails : ∀ kvs, (∀ (α : Type) (key : String) (default : Option α) (ofNode? : Node → Option α),
        read? key kvs default ofNode? = readUnder key es default ofNode?) → g kvs = none) :
    (entries? n).bind g = none := by
  by_cases all : Named es
  · obtain ⟨kvs, read, found⟩ := exists_read has all
    rw [read, Option.bind_some]
    exact fails kvs found
  · rw [entries?_eq_none has all, Option.bind_none]

end Entries

/-! ### Edits that change nothing -/

section Edits

/-- Changes of a mapping with known keys: its entries are put into another order, one is added
under a key that is not known, or one that is alone under its key and has the default value is left
out. -/
inductive Edit (keys : List String) (IsDefault : String → Node → Prop) :
    List (Node × Node) → List (Node × Node) → Prop where
  | permuted {es fs : List (Node × Node)} (perm : es.Perm fs) : Edit keys IsDefault es fs
  | unknown (front back : List (Node × Node)) {plain : Bool} {key : String} {value : Node}
      (unknown : key ∉ keys) :
      Edit keys IsDefault (front ++ back) (front ++ (.scalar plain key, value) :: back)
  | omitted (front back : List (Node × Node)) {plain : Bool} {key : String} {value : Node}
      (default : IsDefault key value) (alone : under key (front ++ back) = []) :
      Edit keys IsDefault (front ++ (.scalar plain key, value) :: back) (front ++ back)

variable {keys : List String} {IsDefault : String → Node → Prop} {es fs : List (Node × Node)}

theorem named_insert_iff {front back : List (Node × Node)} {plain : Bool} {key : String}
    {value : Node} :
    Named (front ++ (.scalar plain key, value) :: back) ↔ Named (front ++ back) := by
  simp [Named, or_imp, forall_and]

theorem Edit.named_iff (edit : Edit keys IsDefault es fs) : Named es ↔ Named fs := by
  cases edit with
  | permuted perm => simp only [Named, perm.mem_iff]
  | unknown front back unknown => exact named_insert_iff.symm
  | omitted front back default alone => exact named_insert_iff

section Inserted

variable {α : Type} {front back : List (Node × Node)} {plain : Bool} {name key : String}
  {value : Node} {default : Option α} {ofNode? : Node → Option α}

theorem readUnder_perm (perm : es.Perm fs) :
    readUnder key es default ofNode? = readUnder key fs default ofNode? :=
  only_perm ((under_perm perm).map _)

theorem readUnder_middle {e : Node × Node} :
    readUnder key (front ++ e :: back) default ofNode? =
      readUnder key (e :: (front ++ back)) default ofNode? :=
  readUnder_perm List.perm_middle

/-- An entry under another key is passed over. -/
theorem readUnder_insert (other : name ≠ key) :
    readUnder key (front ++ (.scalar plain name, value) :: back) default ofNode? =
      readUnder key (front ++ back) default ofNode? := by
  rw [readUnder_middle, readUnder, under_cons, if_neg other, ← readUnder]

theorem readUnder_alone (alone : under key (front ++ back) = []) :
    readUnder key (front ++ (.scalar plain key, value) :: back) default ofNode? =
      ofNode? value := by
  rw [readUnder_middle, readUnder, under_cons, if_pos rfl, alone]
  rfl

/-- A value can be replaced by one that is read the same. -/
theorem readUnder_replace {other : Node} (same : name = key → ofNode? value = ofNode? other) :
    readUnder key (front ++ (.scalar plain name, value) :: back) default ofNode? =
      readUnder key (front ++ (.scalar plain name, other) :: back) default ofNode? := by
  rw [readUnder_middle, readUnder_middle, readUnder, readUnder, under_cons, under_cons]
  split
  · rename_i named
    rw [List.map_cons, List.map_cons, same named]
  · rfl

end Inserted

/-- An edit changes nothing of what is read under a known key. -/
theorem Edit.readUnder_eq {α : Type} {key : String} {default : Option α}
    {ofNode? : Node → Option α} (edit : Edit keys IsDefault es fs) (known : key ∈ keys)
    (defaults : ∀ value, IsDefault key value → ofNode? value = default) :
    readUnder key es default ofNode? = readUnder key fs default ofNode? := by
  cases edit with
  | permuted perm => exact readUnder_perm perm
  | @unknown front back plain name value unknown =>
    have other : name ≠ key := fun same => unknown (same ▸ known)
    exact (readUnder_insert other).symm
  | @omitted front back plain name value isDefault alone =>
    by_cases same : name = key
    · subst same
      have none : readUnder name (front ++ back) default ofNode? = default := by
        rw [readUnder, alone]
        rfl
      rw [readUnder_alone alone, defaults value isDefault, none]
    · exact readUnder_insert same

end Edits

end TypedCommands.Settings
