/-!
# Double-precision numbers

A number is held as the 64 bits of its interchange format, so that the sign of a zero and the
payload of a non-number survive storage. Comparison, remainder and conversion are exact integer
arithmetic on the decoded parts; the four basic operations are the machine's.

* `Binary64.significand`, `Binary64.scale` — a finite number is `± significand · 2 ^ (scale - 1074)`.
* `Binary64.ofRatio` — the number nearest to a quotient of natural numbers, ties to even.
* `Binary64.compare?` — the order of numbers; nothing compares with a non-number.
-/

namespace PathLedger

/-- A double-precision number, held as its bits. Equality is equality of bits. -/
structure Binary64 where
  bits : UInt64
deriving DecidableEq, Repr, Hashable

namespace Binary64

/-- The sign bit. -/
def isNegative (x : Binary64) : Bool := x.bits >>> 63 == 1

/-- The bits without the sign. -/
def magnitudeBits (x : Binary64) : Nat := (x.bits &&& 0x7fffffffffffffff).toNat

def exponentField (x : Binary64) : Nat := x.magnitudeBits / Nat.pow 2 52

def fractionField (x : Binary64) : Nat := x.magnitudeBits % Nat.pow 2 52

/-- Neither infinite nor a non-number. -/
def isFinite (x : Binary64) : Bool := x.exponentField != 2047

/-- Not a number. -/
def isNaN (x : Binary64) : Bool := x.exponentField == 2047 && x.fractionField != 0

/-- Zero of either sign. -/
def isZero (x : Binary64) : Bool := x.magnitudeBits == 0

/-- The integer significand of a finite number. -/
def significand (x : Binary64) : Nat :=
  if x.exponentField = 0 then x.fractionField else x.fractionField + Nat.pow 2 52

/-- The power of two that multiplies the significand, counted from the smallest positive number. -/
def scale (x : Binary64) : Nat := x.exponentField - 1

/-- The absolute value of a finite number, in units of the smallest positive number. -/
def units (x : Binary64) : Nat := x.significand * Nat.pow 2 x.scale

/-- The number of units in one. -/
def unitsPerOne : Nat := Nat.pow 2 1074

/-- The number with the given sign and magnitude bits. -/
def assemble (negative : Bool) (magnitude : Nat) : Binary64 :=
  ⟨UInt64.ofNat (if negative then magnitude + Nat.pow 2 63 else magnitude)⟩

def zero : Binary64 := assemble false 0

def one : Binary64 := assemble false (1023 * Nat.pow 2 52)

def infinity : Binary64 := assemble false (2047 * Nat.pow 2 52)

/-- The quiet non-number. -/
def nan : Binary64 := assemble false (2047 * Nat.pow 2 52 + Nat.pow 2 51)

/-- The integer nearest to a quotient; a half goes to the even neighbour. -/
def roundQuotient (num den : Nat) : Nat :=
  let q := num / den
  let r := num % den
  if 2 * r < den then q
  else if 2 * r > den then q + 1
  else if q % 2 = 0 then q else q + 1

/-- The number nearest to `num / den` with the given sign; beyond the largest number, infinity.
A significand that rounds up to the next power of two carries into the exponent by itself,
because the magnitude bits are consecutive. -/
def ofRatio (negative : Bool) (num den : Nat) : Binary64 :=
  let n := num * unitsPerOne
  let shift := (n / den).log2 - 52
  let magnitude := shift * Nat.pow 2 52 + roundQuotient n (den * Nat.pow 2 shift)
  assemble negative (min magnitude (2047 * Nat.pow 2 52))

/-- The number nearest to an integer. -/
def ofInt (n : Int) : Binary64 := ofRatio (n < 0) n.natAbs 1

def neg (x : Binary64) : Binary64 := ⟨x.bits ^^^ 0x8000000000000000⟩

/-- The machine's reading of the bits. -/
def toFloat (x : Binary64) : Float := Float.ofBits x.bits

/-- The bits of a machine number. -/
def ofFloat (x : Float) : Binary64 := ⟨x.toBits⟩

def add (x y : Binary64) : Binary64 := ofFloat (x.toFloat + y.toFloat)

def sub (x y : Binary64) : Binary64 := ofFloat (x.toFloat - y.toFloat)

def mul (x y : Binary64) : Binary64 := ofFloat (x.toFloat * y.toFloat)

def div (x y : Binary64) : Binary64 := ofFloat (x.toFloat / y.toFloat)

/-- The remainder of division rounded toward zero. It is exact and has the sign of the dividend. -/
def rem (x y : Binary64) : Binary64 :=
  if !x.isFinite || y.isNaN || y.isZero then nan
  else if !y.isFinite then x
  else ofRatio x.isNegative (x.units % y.units) unitsPerOne

/-- The place of a number in the order; both zeros share one place. -/
def orderKey (x : Binary64) : Int :=
  if x.isNegative then -(x.magnitudeBits : Int) else x.magnitudeBits

/-- The order of two numbers, when neither is a non-number. -/
def compare? (x y : Binary64) : Option Ordering :=
  if x.isNaN || y.isNaN then none else some (compare x.orderKey y.orderKey)

/-- Numeric equality: the zeros are equal, and a non-number equals nothing. -/
def sameNumber (x y : Binary64) : Bool := x.compare? y == some .eq

/-- The integer that a finite number without fraction is. -/
def toInt? (x : Binary64) : Option Int :=
  if x.isFinite && x.units % unitsPerOne == 0 then
    let n : Int := x.units / unitsPerOne
    some (if x.isNegative then -n else n)
  else none

end Binary64

end PathLedger
