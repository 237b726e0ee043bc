import PathLedger.Bytes.Basic

/-!
# Base 64

Three bytes become four characters of the standard alphabet; a shorter end is padded with equality
signs. Reading is strict: whole groups of four, padding only at the end and only as much as needed,
and no stray bits in the last character.
-/

namespace PathLedger.Bytes.Base64

/-- The character of a number below sixty-four. -/
def digit (n : Nat) : Char :=
  if n < 26 then Char.ofNat (n + 'A'.toNat)
  else if n < 52 then Char.ofNat (n - 26 + 'a'.toNat)
  else if n < 62 then Char.ofNat (n - 52 + '0'.toNat)
  else if n = 62 then '+'
  else '/'

/-- The number of a character. -/
def value? (c : Char) : Option Nat :=
  if 'A' ≤ c && c ≤ 'Z' then some (c.toNat - 'A'.toNat)
  else if 'a' ≤ c && c ≤ 'z' then some (c.toNat - 'a'.toNat + 26)
  else if '0' ≤ c && c ≤ '9' then some (c.toNat - '0'.toNat + 52)
  else if c = '+' then some 62
  else if c = '/' then some 63
  else none

/-- The characters of a row of bytes. -/
def encodeChars : Bytes → List Char
  | [] => []
  | [a] => [digit (a.toNat / 4), digit (a.toNat % 4 * 16), '=', '=']
  | [a, b] =>
    [digit (a.toNat / 4), digit (a.toNat % 4 * 16 + b.toNat / 16), digit (b.toNat % 16 * 4), '=']
  | a :: b :: c :: r =>
    digit (a.toNat / 4) :: digit (a.toNat % 4 * 16 + b.toNat / 16) ::
      digit (b.toNat % 16 * 4 + c.toNat / 64) :: digit (c.toNat % 64) :: encodeChars r

def encode (b : Bytes) : String := String.ofList (encodeChars b)

def decodeChars : List Char → Option Bytes
  | [] => some []
  | [c₁, c₂, '=', '='] => do
    let a ← value? c₁
    let b ← value? c₂
    if b % 16 = 0 then pure [UInt8.ofNat (a * 4 + b / 16)] else none
  | [c₁, c₂, c₃, '='] => do
    let a ← value? c₁
    let b ← value? c₂
    let c ← value? c₃
    if c % 4 = 0 then
      pure [UInt8.ofNat (a * 4 + b / 16), UInt8.ofNat (b % 16 * 16 + c / 4)]
    else none
  | c₁ :: c₂ :: c₃ :: c₄ :: r => do
    let a ← value? c₁
    let b ← value? c₂
    let c ← value? c₃
    let d ← value? c₄
    let rest ← decodeChars r
    pure (UInt8.ofNat (a * 4 + b / 16) :: UInt8.ofNat (b % 16 * 16 + c / 4) ::
      UInt8.ofNat (c % 4 * 64 + d) :: rest)
  | _ => none

def decode? (s : String) : Option Bytes := decodeChars s.toList

end PathLedger.Bytes.Base64
