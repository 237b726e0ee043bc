import PathLedger.Cipher.Blob
import PathLedger.Proofs.Wire.Decoded

/-!
# What was sealed opens to what it was

* `Bytes.Base64.decode?_encode` — every row of bytes is read back from its text.
* `length_digestText` — digests of texts have 64 digits.
* `Blob.decrypt?_encrypt` — **a sealed value opens under its secret at its path**, when its fields are in
  order and it fits.
* `Blob.tryEncrypt_opens` — **a value that the stream reaches is sealed, and opens to what it was**.
* `Blob.decrypt?_ordered`, `Blob.decrypt?_fits` — **whatever opens has its fields in order and fits**.
-/

namespace PathLedger

namespace Bytes.Base64

theorem value?_digit {n : Nat} (h : n < 64) : value? (digit n) = some n :=
  (by decide : ∀ n < 64, value? (digit n) = some n) n h

theorem digit_ne_padding {n : Nat} (h : n < 64) : digit n ≠ '=' :=
  (by decide : ∀ n < 64, digit n ≠ '=') n h

/-- A group whose last character is no padding is a whole one. -/
theorem decodeChars_group {a b c d : Char} (hd : d ≠ '=') (rest : List Char) :
    decodeChars (a :: b :: c :: d :: rest) = (do
      let a ← value? a
      let b ← value? b
      let c ← value? c
      let d ← value? d
      let rest ← decodeChars rest
      pure (UInt8.ofNat (a * 4 + b / 16) :: UInt8.ofNat (b % 16 * 16 + c / 4) ::
        UInt8.ofNat (c % 4 * 64 + d) :: rest)) := by
  rw [decodeChars]
  · intro _ h
    exact (hd h).elim
  · intro h
    exact (hd h).elim

theorem decodeChars_encodeChars (b : Bytes) : decodeChars (encodeChars b) = some b := by
  induction b using encodeChars.induct with
  | case1 => rfl
  | case2 a =>
    have ha := a.toNat_lt
    have h₁ := @value?_digit (a.toNat / 4) (by omega)
    have h₂ := @value?_digit (a.toNat % 4 * 16) (by omega)
    have hzero : a.toNat % 4 * 16 % 16 = 0 := by omega
    have hbyte : a.toNat / 4 * 4 + a.toNat % 4 * 16 / 16 = a.toNat := by omega
    rw [encodeChars, decodeChars]
    simp only [h₁, h₂, Option.bind_eq_bind, Option.bind_some, hzero, if_true, hbyte, UInt8.ofNat_toNat]
    rfl
  | case3 a b =>
    have ha := a.toNat_lt
    have hb := b.toNat_lt
    have h₁ := @value?_digit (a.toNat / 4) (by omega)
    have h₂ := @value?_digit (a.toNat % 4 * 16 + b.toNat / 16) (by omega)
    have h₃ := @value?_digit (b.toNat % 16 * 4) (by omega)
    have hne := @digit_ne_padding (b.toNat % 16 * 4) (by omega)
    have hzero : b.toNat % 16 * 4 % 4 = 0 := by omega
    have hfirst : a.toNat / 4 * 4 + (a.toNat % 4 * 16 + b.toNat / 16) / 16 = a.toNat := by omega
    have hsecond : (a.toNat % 4 * 16 + b.toNat / 16) % 16 * 16 + b.toNat % 16 * 4 / 4 = b.toNat := by omega
    rw [encodeChars, decodeChars]
    · simp only [h₁, h₂, h₃, Option.bind_eq_bind, Option.bind_some, hzero, if_true, hfirst, hsecond,
        UInt8.ofNat_toNat]
      rfl
    · exact hne
  | case4 a b c rest ih =>
    have ha := a.toNat_lt
    have hb := b.toNat_lt
    have hc := c.toNat_lt
    have h₁ := @value?_digit (a.toNat / 4) (by omega)
    have h₂ := @value?_digit (a.toNat % 4 * 16 + b.toNat / 16) (by omega)
    have h₃ := @value?_digit (b.toNat % 16 * 4 + c.toNat / 64) (by omega)
    have h₄ := @value?_digit (c.toNat % 64) (by omega)
    have hne := @digit_ne_padding (c.toNat % 64) (by omega)
    have hfirst : a.toNat / 4 * 4 + (a.toNat % 4 * 16 + b.toNat / 16) / 16 = a.toNat := by omega
    have hsecond : (a.toNat % 4 * 16 + b.toNat / 16) % 16 * 16 + (b.toNat % 16 * 4 + c.toNat / 64) / 4 =
      b.toNat := by omega
    have hthird : (b.toNat % 16 * 4 + c.toNat / 64) % 4 * 64 + c.toNat % 64 = c.toNat := by omega
    rw [encodeChars, decodeChars_group hne]
    simp only [h₁, h₂, h₃, h₄, ih, Option.bind_eq_bind, Option.bind_some, hfirst, hsecond, hthird,
      UInt8.ofNat_toNat]
    rfl

/-- Every row of bytes is read back from its text. -/
theorem decode?_encode (b : Bytes) : decode? (encode b) = some b := by
  rw [decode?, encode, String.toList_ofList, decodeChars_encodeChars]

end Bytes.Base64

/-! ## Digests -/

theorem Blake3.Chaining.length_toBytes (c : Chaining) : c.toBytes.length = 32 := by
  have hwords (ws : List UInt32) : (Bytes.ofWords ws).length = 4 * ws.length := by
    induction ws with
    | nil => rfl
    | cons w rest ih =>
      rw [Bytes.ofWords, List.flatMap_cons, List.length_append, Sealed.length_ofNat, List.length_cons]
      rw [Bytes.ofWords] at ih
      omega
  rw [toBytes, hwords]
  rfl

theorem length_digestText (s : String) : (digestText s).length = 64 := by
  have hdigits (b : Bytes) : (Bytes.Hex.encode b).length = 2 * b.length := by
    rw [Bytes.Hex.encode, String.length_ofList]
    induction b with
    | nil => rfl
    | cons x rest ih =>
      rw [List.flatMap_cons, List.length_append, ih, List.length_cons, List.length_cons, List.length_cons,
        List.length_nil]
      omega
  rw [digestText, hdigits, Blake3.hash, Blake3.Chaining.length_toBytes]

/-! ## Sealed values -/

namespace Blob

theorem length_nonceFor (key plaintext : Bytes) : (nonceFor key plaintext).length = nonceLength := by
  rw [nonceFor, List.length_take, Blake3.keyedHash, Blake3.Chaining.length_toBytes]
  rfl

/-- What was sealed has the shape of a sealed value. -/
theorem bytes?_encrypt (v : Value) (secret : String) (path : Path) :
    bytes? (encrypt v secret path) = some (sealBytes secret path (Wire.encodeValue v)) := by
  have hlong : nonceLength + Sealed.tagLength ≤ (sealBytes secret path (Wire.encodeValue v)).length := by
    rw [sealBytes, List.length_append, length_nonceFor, Sealed.length_encrypt, Sealed.tagLength]
    omega
  simp [bytes?, encrypt, Bytes.Base64.decode?_encode, hlong]

theorem isBlob_encrypt (v : Value) (secret : String) (path : Path) : isBlob (encrypt v secret path) := by
  rw [isBlob, bytes?_encrypt]
  rfl

theorem decrypt?_encrypt {v : Value} (hordered : v.Ordered) (hfits : v.Fits) (secret : String) (path : Path) :
    decrypt? (encrypt v secret path) secret path = some v := by
  have hnonce := length_nonceFor (keyFor secret path) (Wire.encodeValue v)
  have hread := Wire.decodeValue_of_fits hordered hfits []
  rw [List.append_nil] at hread
  rw [decrypt?, bytes?_encrypt]
  simp only [bind, Option.bind]
  rw [sealBytes, List.take_left' hnonce, List.drop_left' hnonce, Sealed.decrypt?_encrypt]
  simp only [hread]

/-- **A value that the stream reaches is sealed, and opens to what it was** under its secret at its path. -/
theorem tryEncrypt_opens {v : Value} (hordered : v.Ordered) (hreach : Sealed.Reaches (Wire.encodeValue v))
    (secret : String) (path : Path) :
    ∃ text, tryEncrypt v secret path = .ok (.ciphertext text) ∧ isBlob (.ciphertext text) ∧
      decrypt? (.ciphertext text) secret path = some v := by
  have hfits : v.Fits := Wire.fits_of_length v (by
    have hlimit : Sealed.blockLimit = 4294967295 := rfl
    rw [Sealed.Reaches, hlimit] at hreach
    omega)
  refine ⟨_, if_pos hreach, ?_, decrypt?_encrypt hordered hfits secret path⟩
  rw [isBlob, ← encrypt, bytes?_encrypt]
  rfl

/-- A value with a negative zero, a number that is none, each kind of marker, and an object without fields. -/
def parcel : Value :=
  .object [("", .list [.null, .bool true, .number ⟨0x8000000000000000⟩, .number ⟨0x7ff8000000000001⟩]),
    ("a", .object [("ö", .pointer "x.y"), ("€", .identity "ann")]),
    ("b", .list [.ciphertext "AAAA", .text "\x00\n", .object []])]

/-- A parcel sealed under no secret at the root opens again. -/
theorem tryEncrypt_opens_parcel :
    parcel.Ordered ∧ Sealed.Reaches (Wire.encodeValue parcel) ∧
    ∃ text, tryEncrypt parcel "" ⟨[]⟩ = .ok (.ciphertext text) ∧ isBlob (.ciphertext text) ∧
      decrypt? (.ciphertext text) "" ⟨[]⟩ = some parcel := by
  have hordered : parcel.Ordered := by
    simp only [parcel, Value.Ordered, Value.ItemsOrdered, Value.FieldsOrdered]
    decide
  have hreach : Sealed.Reaches (Wire.encodeValue parcel) := by decide +kernel
  exact ⟨hordered, hreach, tryEncrypt_opens hordered hreach "" ⟨[]⟩⟩

/-- What opens was read from some bytes. -/
theorem exists_decodeValue_of_decrypt? {blob v : Value} {secret : String} {path : Path}
    (h : decrypt? blob secret path = some v) : ∃ b r, Wire.decodeValue b = .ok (v, r) := by
  rw [decrypt?] at h
  obtain ⟨b, -, h⟩ := Option.bind_eq_some_iff.mp h
  obtain ⟨plaintext, -, h⟩ := Option.bind_eq_some_iff.mp h
  split at h
  · rename_i rest hv
    obtain rfl := Option.some.inj h
    exact ⟨plaintext, rest, hv⟩
  · cases h

/-- **Whatever opens has its fields in order.** -/
theorem decrypt?_ordered {blob v : Value} {secret : String} {path : Path}
    (h : decrypt? blob secret path = some v) : v.Ordered := by
  obtain ⟨b, r, hread⟩ := exists_decodeValue_of_decrypt? h
  exact Wire.decodeValue_ordered hread

/-- **Whatever opens fits.** -/
theorem decrypt?_fits {blob v : Value} {secret : String} {path : Path}
    (h : decrypt? blob secret path = some v) : v.Fits := by
  obtain ⟨b, r, hread⟩ := exists_decodeValue_of_decrypt? h
  exact Wire.decodeValue_fits hread

end Blob

end PathLedger
