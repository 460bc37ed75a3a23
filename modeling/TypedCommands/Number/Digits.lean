/-! Numbers from their digits. Neighbours are joined into digits of the squared base, so that a long
number costs few long products. -/
namespace TypedCommands.Digits

/-- The number with these digits, the least significant one first. -/
def sum (base : Nat) (ds : List Nat) : Nat := ds.foldr (fun d n => base * n + d) 0

/-- Joins pairs of digits; those that are joined already come with the last one first. -/
def joinPairs (base : Nat) (joined : List Nat) : List Nat → List Nat
  | low :: high :: ds => joinPairs base ((base * high + low) :: joined) ds
  | [d] => (d :: joined).reverse
  | [] => joined.reverse

theorem sum_reverse (base : Nat) (ds : List Nat) :
    sum base ds.reverse = ds.foldl (fun n d => base * n + d) 0 := by
  simp [sum, List.foldr_reverse]

theorem sum_joinPairs (base : Nat) (joined ds : List Nat) :
    sum (base * base) (joinPairs base joined ds) =
      joined.foldl (fun n d => base * base * n + d) (sum base ds) := by
  fun_induction joinPairs base joined ds with
  | case1 joined low high ds ih =>
    rw [ih]
    simp only [List.foldl_cons, sum, List.foldr_cons]
    rw [Nat.mul_add, Nat.mul_assoc, Nat.add_assoc]
  | case2 => simp [sum]
  | case3 => simp [sum]

/-- The same number, by that many rounds of joining. -/
def joinedSum (base : Nat) : Nat → List Nat → Nat
  | 0, ds => sum base ds
  | _, [] => 0
  | _, [d] => d
  | rounds + 1, ds => joinedSum (base * base) rounds (joinPairs base [] ds)

theorem joinedSum_eq (base rounds : Nat) (ds : List Nat) :
    joinedSum base rounds ds = sum base ds := by
  fun_induction joinedSum base rounds ds with
  | case1 => rfl
  | case2 => rfl
  | case3 => simp [sum]
  | case4 base rounds ds _ _ ih => rw [ih, sum_joinPairs]; rfl

def ofChar (c : Char) : Nat := c.toNat - '0'.toNat

def ofHex? (c : Char) : Option Nat :=
  if c.isDigit then some (ofChar c)
  else if 'a' ≤ c ∧ c ≤ 'f' then some (c.toNat - 'a'.toNat + 10)
  else if 'A' ≤ c ∧ c ≤ 'F' then some (c.toNat - 'A'.toNat + 10)
  else none

/-- The number that decimal digits denote, the most significant one first. -/
def value (cs : List Char) : Nat := joinedSum 10 cs.length (cs.reverse.map ofChar)

theorem value_eq (cs : List Char) : value cs = cs.foldl (fun n c => 10 * n + ofChar c) 0 := by
  rw [value, joinedSum_eq, List.map_reverse, sum_reverse, List.foldl_map]

example : value ['0', '4', '0', '9', '6'] = 4096 := by decide

end TypedCommands.Digits
