import PathLedger.Cipher.ChaCha20
import PathLedger.Cipher.Poly1305

/-!
# Authenticated encryption

ChaCha20 with Poly1305 and no associated data: the ciphertext is followed by a tag of sixteen bytes.

* `Sealed.Reaches` — a plaintext that is short enough to be encrypted.
* `Sealed.encrypt` — encrypt and tag.
* `Sealed.decrypt?` — check the tag and decrypt; a wrong tag gives nothing.
* `Sealed.decrypt?_encrypt` — what was sealed opens again under the same key and nonce.
-/

namespace PathLedger.Sealed

def tagLength : Nat := 16

/-- The blocks behind the first that the stream's counter of 32 bits numbers. -/
def blockLimit : Nat := Nat.pow 2 32 - 1

/-- Whether the stream reaches to the end of a plaintext. -/
def Reaches (plaintext : Bytes) : Prop := plaintext.length / 64 < blockLimit

instance (plaintext : Bytes) : Decidable (Reaches plaintext) := Nat.decLt _ _

/-- The tag of a ciphertext: the authenticator's key is the start of the stream, and the lengths of the
associated data and of the ciphertext close the message. -/
def tagOf (key nonce ciphertext : Bytes) : Bytes :=
  Poly1305.tag ((ChaCha20.block key nonce 0).take 32)
    (Bytes.padTo 16 ciphertext ++ Bytes.ofNat 8 0 ++ Bytes.ofNat 8 ciphertext.length)

/-- The ciphertext and the tag of a plaintext. -/
def encrypt (key nonce plaintext : Bytes) : Bytes :=
  let ciphertext := ChaCha20.apply key nonce 1 plaintext
  ciphertext ++ tagOf key nonce ciphertext

/-- The plaintext of a sealed row of bytes, when its tag is right. -/
def decrypt? (key nonce sealedBytes : Bytes) : Option Bytes :=
  let ciphertext := sealedBytes.take (sealedBytes.length - tagLength)
  let tag := sealedBytes.drop (sealedBytes.length - tagLength)
  if tagLength ≤ sealedBytes.length && tag = tagOf key nonce ciphertext then
    some (ChaCha20.apply key nonce 1 ciphertext)
  else none

theorem length_ofNat (n x : Nat) : (Bytes.ofNat n x).length = n := by
  induction n generalizing x with
  | zero => rfl
  | succ n ih => simp [Bytes.ofNat, ih]

theorem length_tagOf (key nonce ciphertext : Bytes) : (tagOf key nonce ciphertext).length = 16 := by
  simp only [tagOf, Poly1305.tag, length_ofNat]

theorem length_encrypt (key nonce plaintext : Bytes) :
    (encrypt key nonce plaintext).length = plaintext.length + 16 := by
  simp [encrypt, ChaCha20.length_apply, length_tagOf]

/-- What was sealed opens again. -/
theorem decrypt?_encrypt (key nonce plaintext : Bytes) :
    decrypt? key nonce (encrypt key nonce plaintext) = some plaintext := by
  have htake : (encrypt key nonce plaintext).take plaintext.length =
      ChaCha20.apply key nonce 1 plaintext := by
    rw [encrypt, List.take_left' (ChaCha20.length_apply ..)]
  have hdrop : (encrypt key nonce plaintext).drop plaintext.length =
      tagOf key nonce (ChaCha20.apply key nonce 1 plaintext) := by
    rw [encrypt, List.drop_left' (ChaCha20.length_apply ..)]
  simp [decrypt?, htake, hdrop, length_encrypt, tagLength, ChaCha20.apply_apply]

end PathLedger.Sealed
