import PathLedger.Bytes.Base64
import PathLedger.Cipher.Sealed
import PathLedger.Digest.Blake3
import PathLedger.Fault
import PathLedger.Path.Basic
import PathLedger.Wire.Value

/-!
# Sealed values

A value is sealed under a secret at a path. The key depends on both, so that the same value sealed
at two paths looks unrelated; the nonce is a digest of the plaintext under the key, so that sealing
is deterministic and two plaintexts never share a nonce by chance.

* `Blob.encrypt`, `Blob.decrypt?` — seal and open a value.
* `Blob.tryEncrypt` — seal a value, or refuse one whose plaintext is too long.
* `Blob.isBlob` — whether a value has the shape of a sealed one.
-/

namespace PathLedger.Blob

def nonceLength : Nat := 12

def keyContext : String := "memex 2024-05 scope cipher v1"

/-- The key for a secret at a path. -/
def keyFor (secret : String) (path : Path) : Bytes :=
  Blake3.deriveKey keyContext (Bytes.ofText secret ++ 0 :: Bytes.ofText path.key)

/-- The nonce of a plaintext under a key. -/
def nonceFor (key plaintext : Bytes) : Bytes := (Blake3.keyedHash key plaintext).take nonceLength

/-- The bytes of a sealed value: nonce, ciphertext, tag. -/
def sealBytes (secret : String) (path : Path) (plaintext : Bytes) : Bytes :=
  let key := keyFor secret path
  let nonce := nonceFor key plaintext
  nonce ++ Sealed.encrypt key nonce plaintext

/-- A value sealed under a secret at a path. -/
def encrypt (value : Value) (secret : String) (path : Path) : Value :=
  .ciphertext (Bytes.Base64.encode (sealBytes secret path (Wire.encodeValue value)))

/-- A value sealed under a secret at a path. It is refused when the stream does not reach to the end of its plaintext. -/
def tryEncrypt (value : Value) (secret : String) (path : Path) : Except Fault Value :=
  if Sealed.Reaches (Wire.encodeValue value) then .ok (encrypt value secret path)
  else .error (.serialization "Encryption failed: aead::Error")

/-- The bytes of a sealed value, when they are long enough to be one. -/
def bytes? : Value → Option Bytes
  | .ciphertext text =>
    (Bytes.Base64.decode? text).filter fun b => nonceLength + Sealed.tagLength ≤ b.length
  | _ => none

/-- Whether a value has the shape of a sealed one. -/
def isBlob (v : Value) : Bool := (bytes? v).isSome

/-- The value sealed under a secret at a path. Nothing, when the blob is malformed or was sealed
otherwise. -/
def decrypt? (blob : Value) (secret : String) (path : Path) : Option Value := do
  let b ← bytes? blob
  let plaintext ← Sealed.decrypt? (keyFor secret path) (b.take nonceLength) (b.drop nonceLength)
  match Wire.decodeValue plaintext with
  | .ok (v, _) => some v
  | .error _ => none

end PathLedger.Blob
