import PathLedger.Bytes.Basic

/-!
# The Poly1305 authenticator

`Poly1305.tag` evaluates the message as a polynomial at a secret point modulo `2 ^ 130 - 5` and adds a
secret pad. The key is used for one message.
-/

namespace PathLedger.Poly1305

def prime : Nat := Nat.pow 2 130 - 5

/-- The point of evaluation: some bits of the first half of the key are cleared. -/
def point (key : Bytes) : Nat := Bytes.toNat (key.take 16) &&& 0x0ffffffc0ffffffc0ffffffc0fffffff

/-- One piece of at most sixteen bytes, with a one put behind it. -/
def coefficient (piece : Bytes) : Nat := Bytes.toNat (piece ++ [1])

/-- The sixteen-byte tag of a message under a key of 32 bytes. -/
def tag (key message : Bytes) : Bytes :=
  let r := point key
  let sum := (Bytes.pieces 16 message).foldl (fun acc p => (acc + coefficient p) * r % prime) 0
  Bytes.ofNat 16 (sum + Bytes.toNat ((key.drop 16).take 16))

end PathLedger.Poly1305
