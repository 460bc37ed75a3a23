import TypedCommands.Declaration

/-! Registries: the commands that an environment knows, no two of one name. -/
namespace TypedCommands

structure Registry.Entry (σ : Type) where
  signature : Signature
  handler : Handler σ

structure Registry (σ : Type) where
  /-- In order of registration. -/
  entries : List (Registry.Entry σ)
  distinct : (entries.map (·.signature.name)).Nodup

namespace Registry

variable {σ : Type}

def empty : Registry σ := ⟨[], List.nodup_nil⟩

def find? (r : Registry σ) (name : String) : Option (Entry σ) :=
  r.entries.find? fun e => e.signature.name == name

def signature? (r : Registry σ) (name : String) : Option Signature := (r.find? name).map (·.signature)
def handler? (r : Registry σ) (name : String) : Option (Handler σ) := (r.find? name).map (·.handler)
def contains (r : Registry σ) (name : String) : Bool := (r.find? name).isSome
def size (r : Registry σ) : Nat := r.entries.length
def isEmpty (r : Registry σ) : Bool := r.entries.isEmpty

def sortTexts (texts : List String) : List String := texts.mergeSort fun a b => decide (a ≤ b)

/-- The names in ascending order. -/
def names (r : Registry σ) : List String := sortTexts (r.entries.map (·.signature.name))

theorem nodup_add {r : Registry σ} {e : Entry σ} (h : r.find? e.signature.name = none) :
    ((r.entries ++ [e]).map (·.signature.name)).Nodup := by
  rw [List.map_append, List.nodup_append]
  refine ⟨r.distinct, by simp, ?_⟩
  intro a ha b hb
  simp only [List.map_cons, List.map_nil, List.mem_singleton] at hb
  obtain ⟨x, hx, rfl⟩ := List.mem_map.1 ha
  subst hb
  have := List.find?_eq_none.1 h x hx
  simpa using this

/-- Adds a command under a name that is not yet taken. -/
def add (r : Registry σ) (e : Entry σ) : Except RegistrationError (Registry σ) :=
  if h : r.find? e.signature.name = none then .ok ⟨r.entries ++ [e], nodup_add h⟩
  else .error (.duplicateCommand e.signature.name)

def register (r : Registry σ) (d : Declaration σ) : Except RegistrationError (Registry σ) := do
  r.add ⟨← d.signature, d.handler⟩

/-- The registry of the declared commands, or the first fault. -/
def build (ds : List (Declaration σ)) : Except RegistrationError (Registry σ) :=
  ds.foldlM register empty

end Registry
end TypedCommands
