import PathLedger.Bytes.Basic

/-!
# Hexadecimal text

Two digits a byte, high digit first. Digests are written this way in lower case; reading takes
either case.
-/

namespace PathLedger.Bytes.Hex

/-- The digit of a number below sixteen. -/
def digit (n : Nat) : Char :=
  if n < 10 then Char.ofNat (n + '0'.toNat) else Char.ofNat (n - 10 + 'a'.toNat)

/-- The digits of a row of bytes. -/
def encode (b : Bytes) : String :=
  String.ofList (b.flatMap fun x => [digit (x.toNat / 16), digit (x.toNat % 16)])

/-- The value of a digit. -/
def value? (c : Char) : Option Nat :=
  if '0' ≤ c && c ≤ '9' then some (c.toNat - '0'.toNat)
  else if 'a' ≤ c && c ≤ 'f' then some (c.toNat - 'a'.toNat + 10)
  else if 'A' ≤ c && c ≤ 'F' then some (c.toNat - 'A'.toNat + 10)
  else none

/-- The bytes of a row of digits; `acc` holds the bytes so far, last first. -/
def decodeFrom (acc : Bytes) : List Char → Option Bytes
  | [] => some acc.reverse
  | [_] => none
  | a :: b :: r =>
    match value? a, value? b with
    | some x, some y => decodeFrom (UInt8.ofNat (x * 16 + y) :: acc) r
    | _, _ => none

def decode? (s : String) : Option Bytes := decodeFrom [] s.toList

end PathLedger.Bytes.Hex
