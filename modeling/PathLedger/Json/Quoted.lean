import PathLedger.Bytes.Hex
import PathLedger.Json.Reader

/-!
# Texts in documents

* `Json.hexUnit?` — four hexadecimal digits.
* `Json.quotedBody` — a text behind its opening mark. Escapes and control characters are refused where they
  stand. That its bytes are well-formed UTF-8 is asked at the closing mark, and what is refused then is the
  first byte that belongs to no character.
-/

namespace PathLedger.Json

/-- The value of four hexadecimal digits. -/
def hexUnit? (a b c d : UInt8) : Option Nat := do
  let a ← Bytes.Hex.value? (Char.ofUInt8 a)
  let b ← Bytes.Hex.value? (Char.ofUInt8 b)
  let c ← Bytes.Hex.value? (Char.ofUInt8 c)
  let d ← Bytes.Hex.value? (Char.ofUInt8 d)
  pure (((a * 16 + b) * 16 + c) * 16 + d)

/-- The byte that a one-letter escape stands for. -/
def simpleEscape? : UInt8 → Option UInt8
  | Ascii.quote => some Ascii.quote
  | Ascii.backslash => some Ascii.backslash
  | Ascii.slash => some Ascii.slash
  | Ascii.lowerB => some 0x08
  | Ascii.lowerF => some 0x0c
  | Ascii.lowerN => some Ascii.newline
  | Ascii.lowerR => some Ascii.carriageReturn
  | Ascii.lowerT => some Ascii.tab
  | _ => none

/-- The bytes read so far, last first, with a character behind them. -/
def withChar (acc : Bytes) (n : Nat) : Bytes := (String.utf8EncodeChar (Char.ofNat n)).reverse ++ acc

/-- The rest of a text that starts with `start` behind its opening mark; `acc` holds its bytes so far, last
first. -/
def quotedFrom (start acc : Bytes) : Reader String
  | [] => refuseBehind .endInString []
  | Ascii.quote :: r =>
    match Bytes.toText? acc.reverse with
    | some text => .ok (text, r)
    | none => refuseBehind .strayByte (Bytes.behindStray start)
  | Ascii.backslash :: Ascii.lowerU :: a :: b :: c :: d :: r =>
    match hexUnit? a b c d with
    | none => refuseBehind .invalidEscape r
    | some n =>
      if 0xdc00 ≤ n && n ≤ 0xdfff then refuseBehind .loneSurrogate r
      else if 0xd800 ≤ n && n ≤ 0xdbff then
        match r with
        | Ascii.backslash :: Ascii.lowerU :: a' :: b' :: c' :: d' :: r' =>
          match hexUnit? a' b' c' d' with
          | none => refuseBehind .invalidEscape r'
          | some m =>
            if 0xdc00 ≤ m && m ≤ 0xdfff then
              quotedFrom start (withChar acc (0x10000 + (n - 0xd800) * 0x400 + (m - 0xdc00))) r'
            else refuseBehind .loneSurrogate r'
        | Ascii.backslash :: Ascii.lowerU :: _ => refuseBehind .endInString []
        | Ascii.backslash :: _ :: t => refuseBehind .endOfHexEscape t
        | Ascii.backslash :: [] => refuseBehind .endInString []
        | _ :: t => refuseBehind .endOfHexEscape t
        | [] => refuseBehind .endInString []
      else quotedFrom start (withChar acc n) r
  | Ascii.backslash :: Ascii.lowerU :: _ => refuseBehind .endInString []
  | Ascii.backslash :: e :: r =>
    match simpleEscape? e with
    | some b => quotedFrom start (b :: acc) r
    | none => refuseBehind .invalidEscape r
  | Ascii.backslash :: [] => refuseBehind .endInString []
  | b :: r =>
    if b < 0x20 then refuseBehind .controlCharacter r else quotedFrom start (b :: acc) r

/-- The rest of a text behind its opening mark. -/
def quotedBody : Reader String := fun s => quotedFrom s [] s

end PathLedger.Json
