/-! Binary floating-point numbers of 64 bits: a sign and a magnitude. Magnitudes below `infinite`
are the finite numbers in ascending order; those above it are not numbers. Arithmetic is exact
on `units`, multiples of the least positive number, and rounds once at the end. -/
namespace TypedCommands

structure Binary64 where
  negative : Bool
  magnitude : Nat
  magnitude_lt : magnitude < 1 <<< 63
  deriving DecidableEq

namespace Binary64

/-- The magnitude of infinity: all eleven bits of the exponent field, and nothing else. -/
def infinite : Nat := 2047 <<< 52

def isFinite (x : Binary64) : Bool := decide (x.magnitude < infinite)
def isInfinite (x : Binary64) : Bool := decide (x.magnitude = infinite)
def isNaN (x : Binary64) : Bool := decide (infinite < x.magnitude)
def isZero (x : Binary64) : Bool := decide (x.magnitude = 0)

def ofBits (b : UInt64) : Binary64 :=
  ⟨decide (1 <<< 63 ≤ b.toNat), b.toNat % 1 <<< 63, Nat.mod_lt _ (by decide)⟩

def toBits (x : Binary64) : UInt64 :=
  UInt64.ofNat ((if x.negative then 1 <<< 63 else 0) + x.magnitude)

/-- A magnitude's value as a multiple of `2 ^ (-1074)`, the least positive number. -/
def units (magnitude : Nat) : Nat :=
  let field := magnitude >>> 52
  let fraction := magnitude % 1 <<< 52
  if field = 0 then fraction else (1 <<< 52 + fraction) <<< (field - 1)

/-- The integer nearest to `num / den`, the even one at a tie. -/
def roundEven (num den : Nat) : Nat :=
  let q := num / den
  let r := num % den
  if 2 * r < den ∨ (2 * r = den ∧ q % 2 = 0) then q else q + 1

/-- The magnitude nearest to `num / den`, the even one at a tie. A magnitude has 53 binary digits
or, near zero, whole units; counting the dropped digits in the exponent field lets a carry out of
the fraction land in the exponent. -/
def nearest (num den : Nat) : Nat :=
  let scaled := num <<< 1074
  let dropped := (scaled / den).log2 - 52
  min (dropped <<< 52 + roundEven scaled (den <<< dropped)) infinite

theorem nearest_le (num den : Nat) : nearest num den ≤ infinite := Nat.min_le_right ..

theorem nearest_lt (num den : Nat) : nearest num den < 1 <<< 63 :=
  Nat.lt_of_le_of_lt (nearest_le num den) (by decide)

/-- The number nearest to `num / den` with the given sign. -/
def ofRatio (negative : Bool) (num den : Nat) : Binary64 :=
  ⟨negative, nearest num den, nearest_lt num den⟩

/-- The power of ten with the given exponent. -/
def powerOfTen (exponent : Nat) : Nat := Nat.pow 10 exponent

/-- From this power of ten on every number but zero lies beyond the finite ones. -/
def endExponent : Nat := 310

/-- Whether a quotient by this power of ten lies below half the least number, told from the length
of the dividend. -/
def isNegligible (digits power : Nat) : Bool := decide (digits.log2 + 1077 < 3 * power)

/-- The magnitude nearest to `digits * 10 ^ exponent`. No power is computed that settles the answer
by its size alone. -/
def nearestDecimal (digits : Nat) : Int → Nat
  | .ofNat e =>
    if digits = 0 then 0
    else if endExponent ≤ e then infinite
    else nearest (digits * powerOfTen e) 1
  | .negSucc e => if isNegligible digits (e + 1) then 0 else nearest digits (powerOfTen (e + 1))

theorem nearestDecimal_lt (digits : Nat) (exponent : Int) :
    nearestDecimal digits exponent < 1 <<< 63 := by
  unfold nearestDecimal
  split
  · split
    · decide
    · split
      · decide
      · exact nearest_lt ..
  · split
    · decide
    · exact nearest_lt ..

/-- The number nearest to `± digits * 10 ^ exponent`; infinite when that is too large. -/
def ofDecimal (negative : Bool) (digits : Nat) (exponent : Int) : Binary64 :=
  ⟨negative, nearestDecimal digits exponent, nearestDecimal_lt digits exponent⟩

/-- What multiplying zero by infinity gives. -/
def invalid : Binary64 := ⟨true, infinite + 1 <<< 51, by decide⟩

/-- A not-a-number passes through arithmetic with its leading fraction bit set. -/
def quiet (x : Binary64) : Binary64 :=
  ⟨x.negative, (x.magnitude ||| 1 <<< 51) % 1 <<< 63, Nat.mod_lt _ (by decide)⟩

/-- The product: the first operand that is not a number if there is one, else the number nearest
to the exact product, under the product of the signs. -/
def mul (x y : Binary64) : Binary64 :=
  let negative := x.negative != y.negative
  if x.isNaN then x.quiet
  else if y.isNaN then y.quiet
  else if x.isInfinite || y.isInfinite then
    if x.isZero || y.isZero then invalid else ⟨negative, infinite, by decide⟩
  else ofRatio negative (units x.magnitude * units y.magnitude) (1 <<< 2148)

instance : Mul Binary64 := ⟨mul⟩

/-- Numeric equality: zeros are equal whatever their signs, and nothing equals a not-a-number. -/
def sameNumber (x y : Binary64) : Bool :=
  !x.isNaN && !y.isNaN && ((x.isZero && y.isZero) || decide (x = y))

example : (ofRatio false 1 3).toBits = 0x3FD5555555555555 := by decide +kernel
example : (ofDecimal false 1 (-1)).toBits = 0x3FB999999999999A := by decide +kernel
example : (ofDecimal true 5 (-324)).toBits = 0x8000000000000001 := by decide +kernel
example : (ofDecimal false 17976931348623159 292).isInfinite = true := by decide +kernel
example : (ofBits 0x3FF8000000000000 * ofBits 0xC000000000000000).toBits = 0xC008000000000000 := by
  decide +kernel

end Binary64
end TypedCommands
