import PathLedger.Bytes.Basic
import PathLedger.Number.Binary64

/-!
# The binary form of simple data

Whole numbers are written seven bits a byte, lowest first, the top bit meaning that more follow.
Texts and lists start with their length; doubles take eight bytes, lowest first.

* `Wire.Decoder` — a reader of the front of a row of bytes.
* `Wire.varint`, `Wire.decodeVarint` — whole numbers. Longer forms than needed are accepted up to the size
  of the number's type.
* `Wire.Fault` — what can be wrong with the bytes.
-/

namespace PathLedger.Wire

/-- What can be wrong with a row of bytes. -/
inductive Fault where
  | endOfBuffer
  | badVarint
  | badBool
  | badText
  | badOption
  | unknownVariant
deriving DecidableEq, Repr

def Fault.message : Fault → String
  | .endOfBuffer => "Hit the end of buffer, expected more data"
  | .badVarint =>
    "Found a varint that didn't terminate. Is the usize too big for this platform?"
  | .badBool => "Found a bool that wasn't 0 or 1"
  | .badText => "Tried to parse invalid utf-8"
  | .badOption => "Found an Option discriminant that wasn't 0 or 1"
  | .unknownVariant => "Serde Deserialization Error"

/-- A reader of the front of a row of bytes. -/
abbrev Decoder (α : Type) := Bytes → Except Fault (α × Bytes)

/-- The size of a whole number's type: how many bytes it may take and what the last of them may be. -/
structure Width where
  groups : Nat
  lastByte : Nat
deriving DecidableEq, Repr

def Width.w64 : Width := ⟨10, 1⟩

def Width.w32 : Width := ⟨5, 15⟩

/-- A number in at most `groups` bytes. -/
def varintWithin : Nat → Nat → Bytes
  | 0, _ => []
  | groups + 1, n =>
    if n < 128 then [UInt8.ofNat n]
    else UInt8.ofNat (n % 128 + 128) :: varintWithin groups (n / 128)

/-- A number of at most 64 bits. -/
def varint (n : Nat) : Bytes := varintWithin Width.w64.groups n

/-- A number in at most `groups` bytes, the last of which is bounded. -/
def decodeVarintWithin (lastByte : Nat) : Nat → Decoder Nat
  | 0, _ => .error .badVarint
  | _ + 1, [] => .error .endOfBuffer
  | groups + 1, b :: r =>
    if b.toNat < 128 then
      if groups = 0 && lastByte < b.toNat then .error .badVarint else .ok (b.toNat, r)
    else
      match decodeVarintWithin lastByte groups r with
      | .ok (n, rest) => .ok (b.toNat % 128 + 128 * n, rest)
      | .error f => .error f

/-- A number of the given width. -/
def decodeVarint (w : Width) : Decoder Nat := decodeVarintWithin w.lastByte w.groups

def decodeByte : Decoder UInt8
  | [] => .error .endOfBuffer
  | b :: r => .ok (b, r)

def decodeBytes (n : Nat) : Decoder Bytes := fun b =>
  if (b.take n).length = n then .ok (b.take n, b.drop n) else .error .endOfBuffer

def encodeBool (b : Bool) : Bytes := [if b then 1 else 0]

/-- A truth value is zero or one. -/
def decodeBool : Decoder Bool := fun b => do
  let (x, r) ← decodeByte b
  if x = 0 then pure (false, r) else if x = 1 then pure (true, r) else throw .badBool

/-- A text: the number of its bytes, then the bytes. -/
def encodeText (s : String) : Bytes := varint s.utf8ByteSize ++ Bytes.ofText s

/-- A text must be well-formed UTF-8. -/
def decodeText : Decoder String := fun b => do
  let (n, r) ← decodeVarint .w64 b
  let (bytes, r) ← decodeBytes n r
  match Bytes.toText? bytes with
  | some s => pure (s, r)
  | none => throw .badText

/-- The eight bytes of a double. -/
def encodeNumber (x : Binary64) : Bytes := Bytes.ofNat 8 x.bits.toNat

/-- A double takes any eight bytes. -/
def decodeNumber : Decoder Binary64 := fun b => do
  let (bytes, r) ← decodeBytes 8 b
  pure (⟨UInt64.ofNat (Bytes.toNat bytes)⟩, r)

/-- A thing that may be missing. -/
def encodeOption (f : α → Bytes) : Option α → Bytes
  | none => [0]
  | some a => 1 :: f a

/-- A missing thing is a zero, a present one a one in front of it. -/
def decodeOption (d : Decoder α) : Decoder (Option α) := fun b => do
  let (x, r) ← decodeByte b
  if x = 0 then pure (none, r)
  else if x = 1 then
    let (a, r) ← d r
    pure (some a, r)
  else throw .badOption

/-- As many things as told, one after another. -/
def decodeTimes (d : Decoder α) : Nat → Decoder (List α)
  | 0, b => .ok ([], b)
  | n + 1, b => do
    let (a, r) ← d b
    let (as, r) ← decodeTimes d n r
    pure (a :: as, r)

/-- A list: its length, then its items. -/
def encodeList (f : α → Bytes) (l : List α) : Bytes := varint l.length ++ l.flatMap f

/-- The length told first decides how many items are read. -/
def decodeList (d : Decoder α) : Decoder (List α) := fun b => do
  let (n, r) ← decodeVarint .w64 b
  decodeTimes d n r

def encodePair (f : α → Bytes) (g : β → Bytes) (p : α × β) : Bytes := f p.1 ++ g p.2

/-- Both parts, one after the other. -/
def decodePair (d : Decoder α) (e : Decoder β) : Decoder (α × β) := fun b => do
  let (a, r) ← d b
  let (c, r) ← e r
  pure ((a, c), r)

end PathLedger.Wire
