import PathLedger.Json.Reader
import PathLedger.Number.Decimal

/-!
# Numbers in documents

`Json.numeral` reads a number behind its sign: no leading zeros, digits behind a point and digits in an
exponent. Whole numbers beyond 64 bits, and the negative zero, become doubles. A number beyond the largest
double is refused at its end, and already in its exponent when that is beyond `maxExponent`.
-/

namespace PathLedger.Json

/-- The digits of a number: those before the point, and those behind it when there is one. -/
structure Numeral where
  negative : Bool
  whole : Bytes
  fraction : Option Bytes
deriving Repr

namespace Numeral

/-- All digits as one whole number. -/
def significand (n : Numeral) : Nat := Ascii.digitsValue (n.whole ++ n.fraction.getD [])

/-- The double nearest to a number with an exponent. -/
def toReal (n : Numeral) (exponent : Int) (rest : Bytes) : Except ParseError (Json × Bytes) :=
  let x := (Decimal.mk n.negative n.significand (exponent - (n.fraction.getD []).length)).toBinary64
  if x.isFinite then .ok (.real x, rest) else refuseBehind .numberOutOfRange rest

/-- The number without an exponent: whole in 64 bits, or a double. -/
def toJson (n : Numeral) (rest : Bytes) : Except ParseError (Json × Bytes) :=
  let x := n.significand
  match n.fraction with
  | some _ => n.toReal 0 rest
  | none =>
    if n.negative then
      if x = 0 || x > Nat.pow 2 63 then n.toReal 0 rest else .ok (.int (-x), rest)
    else if x < Nat.pow 2 64 then .ok (.int x, rest)
    else n.toReal 0 rest

end Numeral

def maxExponent : Nat := Nat.pow 2 31 - 1

/-- The digits of an exponent, `n` being the value of those before: the value of all and what follows them.
Where they pass the largest exponent, only what follows the digit that passed it. -/
def exponentFrom (n : Nat) : Bytes → Except Bytes (Nat × Bytes)
  | [] => .ok (n, [])
  | b :: r =>
    if !Ascii.isDigit b then .ok (n, b :: r)
    else if maxExponent < n * 10 + Ascii.digitValue b then .error r
    else exponentFrom (n * 10 + Ascii.digitValue b) r

/-- An optional sign: whether it is a minus, and what follows it. -/
def exponentSign : Bytes → Bool × Bytes
  | Ascii.minus :: r => (true, r)
  | Ascii.plus :: r => (false, r)
  | r => (false, r)

/-- The exponent behind its letter, and the number with it. An exponent beyond all bounds leaves zero when
it is negative or the digits are all zero. -/
def numeralExponent (n : Numeral) (s : Bytes) : Except ParseError (Json × Bytes) :=
  let (negative, r) := exponentSign s
  match r with
  | [] => refuseBehind .endInValue []
  | b :: t =>
    if !Ascii.isDigit b then refuseBehind .invalidNumber t
    else
      match exponentFrom 0 r with
      | .ok (e, rest) => n.toReal (if negative then -(e : Int) else e) rest
      | .error rest =>
        if negative || n.significand = 0 then
          .ok (.real (.assemble n.negative 0), rest.dropWhile Ascii.isDigit)
        else refuseBehind .numberOutOfRange rest

/-- What may follow the digits of a number. -/
def numeralTail (n : Numeral) : Bytes → Except ParseError (Json × Bytes)
  | Ascii.lowerE :: r => numeralExponent n r
  | Ascii.upperE :: r => numeralExponent n r
  | s => n.toJson s

/-- What may follow the digits before a point. -/
def numeralFraction (negative : Bool) (whole : Bytes) : Bytes → Except ParseError (Json × Bytes)
  | Ascii.point :: r =>
    match r with
    | [] => refuseAt .endInValue []
    | b :: t =>
      if !Ascii.isDigit b then refuseAt .invalidNumber (b :: t)
      else numeralTail ⟨negative, whole, some (r.takeWhile Ascii.isDigit)⟩ (r.dropWhile Ascii.isDigit)
  | s => numeralTail ⟨negative, whole, none⟩ s

/-- A number behind its sign. -/
def numeral (negative : Bool) : Reader Json
  | [] => refuseBehind .endInValue []
  | Ascii.zero :: r =>
    match r with
    | [] => numeralFraction negative [Ascii.zero] []
    | b :: t =>
      if Ascii.isDigit b then refuseAt .invalidNumber (b :: t)
      else numeralFraction negative [Ascii.zero] (b :: t)
  | b :: r =>
    if !Ascii.isDigit b then refuseBehind .invalidNumber r
    else
      numeralFraction negative ((b :: r).takeWhile Ascii.isDigit) ((b :: r).dropWhile Ascii.isDigit)

end PathLedger.Json
