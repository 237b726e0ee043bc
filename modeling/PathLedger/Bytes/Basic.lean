/-!
# Rows of bytes

* `Bytes.ofText`, `Bytes.toText?` — texts as their UTF-8 bytes and back.
* `Bytes.ofNat`, `Bytes.toNat` — whole numbers in a fixed number of bytes, lowest first.
* `Bytes.pieces` — a row cut into pieces of a size; only the last may be shorter.
-/

namespace PathLedger

abbrev Bytes := List UInt8

namespace Bytes

/-- The UTF-8 bytes of a text. -/
def ofText (s : String) : Bytes := s.toUTF8.data.toList

/-- The text that a row of bytes encodes, when it is well-formed UTF-8. -/
def toText? (b : Bytes) : Option String := String.fromUTF8? ⟨b.toArray⟩

/-- The `n` lowest bytes of a number, lowest first. -/
def ofNat : Nat → Nat → Bytes
  | 0, _ => []
  | n + 1, x => UInt8.ofNat x :: ofNat n (x / 256)

/-- The number whose bytes are given, lowest first. -/
def toNat : Bytes → Nat
  | [] => 0
  | b :: r => b.toNat + 256 * toNat r

/-- The pieces of size `n`; `bound` is at least the number of bytes. -/
def piecesWithin (n : Nat) : Nat → Bytes → List Bytes
  | 0, _ => []
  | bound + 1, b => if b.isEmpty then [] else b.take n :: piecesWithin n bound (b.drop n)

/-- The row cut into pieces of size `n`. -/
def pieces (n : Nat) (b : Bytes) : List Bytes := piecesWithin n b.length b

/-- The row filled up with zeros to a multiple of `n` bytes. -/
def padTo (n : Nat) (b : Bytes) : Bytes := b ++ List.replicate ((n - b.length % n) % n) 0

/-- A 32-bit word from its bytes, lowest first. -/
def word (b : Bytes) : UInt32 := UInt32.ofNat (toNat (b.take 4))

def words (b : Bytes) : List UInt32 := (pieces 4 b).map word

/-- The bytes of words, lowest first. -/
def ofWords (ws : List UInt32) : Bytes := ws.flatMap fun w => ofNat 4 w.toNat

end Bytes

end PathLedger
