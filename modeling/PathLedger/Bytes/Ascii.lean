import PathLedger.Bytes.Basic

/-!
# Bytes of the plain letters and marks

Formats that are read byte by byte name the marks they are made of; each stands for itself in UTF-8, and no
other character has such a byte in it.

* The marks are patterns, so that a reader can be written by cases.
* `Ascii.isDigit`, `Ascii.digitsValue` — decimal digits and the number that a row of them denotes.
* `Bytes.behindStray` — what follows the first byte that belongs to no character.
-/

namespace PathLedger

namespace Ascii

@[match_pattern] abbrev tab : UInt8 := 0x09
@[match_pattern] abbrev newline : UInt8 := 0x0a
@[match_pattern] abbrev carriageReturn : UInt8 := 0x0d
@[match_pattern] abbrev space : UInt8 := 0x20
@[match_pattern] abbrev quote : UInt8 := 0x22
@[match_pattern] abbrev plus : UInt8 := 0x2b
@[match_pattern] abbrev comma : UInt8 := 0x2c
@[match_pattern] abbrev minus : UInt8 := 0x2d
@[match_pattern] abbrev point : UInt8 := 0x2e
@[match_pattern] abbrev slash : UInt8 := 0x2f
@[match_pattern] abbrev zero : UInt8 := 0x30
@[match_pattern] abbrev colon : UInt8 := 0x3a
@[match_pattern] abbrev upperE : UInt8 := 0x45
@[match_pattern] abbrev openBracket : UInt8 := 0x5b
@[match_pattern] abbrev backslash : UInt8 := 0x5c
@[match_pattern] abbrev closeBracket : UInt8 := 0x5d
@[match_pattern] abbrev lowerB : UInt8 := 0x62
@[match_pattern] abbrev lowerE : UInt8 := 0x65
@[match_pattern] abbrev lowerF : UInt8 := 0x66
@[match_pattern] abbrev lowerN : UInt8 := 0x6e
@[match_pattern] abbrev lowerR : UInt8 := 0x72
@[match_pattern] abbrev lowerT : UInt8 := 0x74
@[match_pattern] abbrev lowerU : UInt8 := 0x75
@[match_pattern] abbrev openBrace : UInt8 := 0x7b
@[match_pattern] abbrev closeBrace : UInt8 := 0x7d

def isDigit (b : UInt8) : Bool := 0x30 ≤ b && b ≤ 0x39

def digitValue (b : UInt8) : Nat := b.toNat - 0x30

/-- The number that a row of decimal digits denotes. -/
def digitsValue (ds : Bytes) : Nat := ds.foldl (fun n b => n * 10 + digitValue b) 0

end Ascii

namespace Bytes

/-- The character whose UTF-8 bytes stand at the front of a row. -/
def frontChar? (b : Bytes) : Option Char := ByteArray.utf8DecodeChar? ⟨(b.take 4).toArray⟩ 0

/-- What follows the first byte that belongs to no character; nothing when all of them do. -/
def behindStray : Bytes → Bytes
  | [] => []
  | b :: r =>
    match frontChar? (b :: r) with
    | some c => behindStray (r.drop (c.utf8Size - 1))
    | none => r
termination_by b => b.length
decreasing_by
  simp only [List.length_drop, List.length_cons]
  omega

end Bytes

end PathLedger
