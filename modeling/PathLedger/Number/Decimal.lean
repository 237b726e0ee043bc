import PathLedger.Number.Binary64
import PathLedger.Text.Blank

/-!
# Decimal texts of numbers

* `Decimal` — a sign, an integer of digits and a power of ten.
* `Decimal.toBinary64` — the double nearest to it.
* `Decimal.scan` — the longest decimal at the front of a text: digits with an optional point and an
  optional exponent, without a sign.
* `Decimal.read?` — the number of a whole text: an optional sign, then a decimal with at least one
  digit around its point.
-/

namespace PathLedger

/-- The decimal number `± digits · 10 ^ exponent`. -/
structure Decimal where
  negative : Bool
  digits : Nat
  exponent : Int
deriving DecidableEq, Repr

namespace Decimal

open Text

/-- The double nearest to a decimal. Exponents far outside the range of doubles are cut off before
the power is formed. -/
def toBinary64 (d : Decimal) : Binary64 :=
  if d.digits = 0 then .assemble d.negative 0
  else
    let size : Int := (d.digits.log2 : Int) / 3 + 1
    if d.exponent > 400 then .assemble d.negative (2047 * Nat.pow 2 52)
    else if d.exponent + size < -400 then .assemble d.negative 0
    else if 0 ≤ d.exponent then .ofRatio d.negative (d.digits * Nat.pow 10 d.exponent.toNat) 1
    else .ofRatio d.negative d.digits (Nat.pow 10 (-d.exponent).toNat)

/-- The pieces of a decimal text: integer digits, fraction digits when there is a point, and the
exponent's sign and digits when there is one. -/
structure Pieces where
  whole : List Char
  fraction : Option (List Char)
  exponent : Option (Bool × List Char)
deriving Repr

/-- The decimal that the pieces spell. -/
def Pieces.toDecimal (negative : Bool) (p : Pieces) : Decimal :=
  let fraction := p.fraction.getD []
  let exponent : Int :=
    match p.exponent with
    | none => 0
    | some (true, ds) => -(digitsValue ds : Int)
    | some (false, ds) => digitsValue ds
  ⟨negative, digitsValue (p.whole ++ fraction), exponent - fraction.length⟩

/-- An optional sign: whether it is a minus, and the text behind it. -/
def scanSign : List Char → Bool × List Char
  | '-' :: r => (true, r)
  | '+' :: r => (false, r)
  | r => (false, r)

/-- The pieces at the front of a text and what follows them. An exponent letter counts only with
digits behind it; without, it stays in the rest. -/
def scan (s : List Char) : Pieces × List Char :=
  let whole := s.takeWhile isDigit
  let r := s.dropWhile isDigit
  let (fraction, r) :=
    match r with
    | '.' :: t => (some (t.takeWhile isDigit), t.dropWhile isDigit)
    | r => (none, r)
  match r with
  | c :: t =>
    if c = 'e' || c = 'E' then
      let (negative, u) := scanSign t
      if (u.takeWhile isDigit).isEmpty then (⟨whole, fraction, none⟩, r)
      else (⟨whole, fraction, some (negative, u.takeWhile isDigit)⟩, u.dropWhile isDigit)
    else (⟨whole, fraction, none⟩, r)
  | [] => (⟨whole, fraction, none⟩, [])

/-- The number of a whole decimal text. -/
def read? (s : List Char) : Option Binary64 :=
  let (negative, r) := scanSign s
  let (p, rest) := scan r
  if rest.isEmpty && !(p.whole.isEmpty && (p.fraction.getD []).isEmpty) then
    some (p.toDecimal negative).toBinary64
  else none

end Decimal

end PathLedger
