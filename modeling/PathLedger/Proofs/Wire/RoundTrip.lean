import Mathlib.Algebra.Ring.Nat
import PathLedger.Cipher.Sealed
import PathLedger.Proofs.Value.Fits
import PathLedger.Wire.Value

/-!
# What was written is read back

The binary form of values against its reader. A length is written as a number of 64 bits, so the facts
about texts, lists and values ask this of every length inside, or bound the bytes as a whole.

* `Bytes.toText?_ofText`, `Bytes.toNat_ofNat` — texts and numbers of a fixed size.
* `Wire.decodeVarint_varint` — numbers of 64 bits, whatever follows them.
* `Wire.decodeValueWithin_encodeValue` — **a value that fits and whose fields are in order is read back**,
  whatever follows it, when the bound of the nesting is at least the number of its bytes.
-/

namespace PathLedger

/-! ## Texts and numbers -/

namespace Bytes

theorem length_ofText (s : String) : (ofText s).length = s.utf8ByteSize := by
  rw [ofText, Array.length_toList]
  rfl

theorem toText?_ofText (s : String) : toText? (ofText s) = some s := by
  have hbytes : (⟨(ofText s).toArray⟩ : ByteArray) = s.toByteArray := by
    rw [ofText, Array.toArray_toList, String.toUTF8_eq_toByteArray]
  rw [toText?, hbytes, String.fromUTF8?, dif_pos (by simpa using s.isValidUTF8)]
  exact congrArg some (String.toByteArray_inj.mp rfl)

theorem toNat_ofNat {n x : Nat} (h : x < 256 ^ n) : toNat (ofNat n x) = x := by
  induction n generalizing x with
  | zero =>
    rw [Nat.pow_zero] at h
    simp only [ofNat, toNat]
    omega
  | succ n ih =>
    have hdiv : x / 256 < 256 ^ n := by
      rw [Nat.div_lt_iff_lt_mul (by decide), ← Nat.pow_succ]
      exact h
    rw [ofNat, toNat, ih hdiv, UInt8.toNat_ofNat']
    omega

end Bytes

namespace Wire

theorem decodeVarintWithin_varintWithin (lastByte groups : Nat) {n : Nat} (rest : Bytes)
    (h : n < (lastByte + 1) * 128 ^ groups) (hlast : lastByte < 128) :
    decodeVarintWithin lastByte (groups + 1) (varintWithin (groups + 1) n ++ rest) = .ok (n, rest) := by
  induction groups generalizing n with
  | zero =>
    have hn : n < 128 := by omega
    have hbyte : (UInt8.ofNat n).toNat = n := by
      rw [UInt8.toNat_ofNat']
      omega
    simp only [varintWithin, if_pos hn, List.cons_append, List.nil_append, decodeVarintWithin, hbyte]
    rw [if_neg]
    simp only [decide_true, Bool.true_and, decide_eq_true_eq]
    omega
  | succ groups ih =>
    rw [varintWithin]
    split
    · rename_i hn
      have hbyte : (UInt8.ofNat n).toNat = n := by
        rw [UInt8.toNat_ofNat']
        omega
      simp only [List.cons_append, List.nil_append, decodeVarintWithin, hbyte, if_pos hn]
      rw [if_neg (by simp)]
    · have hbyte : (UInt8.ofNat (n % 128 + 128)).toNat = n % 128 + 128 := by
        rw [UInt8.toNat_ofNat']
        omega
      have hdiv : n / 128 < (lastByte + 1) * 128 ^ groups := by
        rw [Nat.div_lt_iff_lt_mul (by decide), Nat.mul_assoc, ← Nat.pow_succ]
        exact h
      rw [List.cons_append, decodeVarintWithin, hbyte, if_neg (by omega), ih hdiv]
      have hsum : (n % 128 + 128) % 128 + 128 * (n / 128) = n := by omega
      simp only [hsum]

/-- A number of 64 bits. -/
theorem decodeVarint_varint {n : Nat} (h : n < 2 ^ 64) (rest : Bytes) :
    decodeVarint .w64 (varint n ++ rest) = .ok (n, rest) :=
  decodeVarintWithin_varintWithin 1 9 rest h (by decide)

theorem decodeVarint_byte {k : UInt8} (h : k.toNat < 128) (rest : Bytes) :
    decodeVarint .w32 (k :: rest) = .ok (k.toNat, rest) := by
  rw [decodeVarint, Width.w32, decodeVarintWithin, if_pos h]
  rfl

theorem decodeBytes_append {n : Nat} {b : Bytes} (h : b.length = n) (rest : Bytes) :
    decodeBytes n (b ++ rest) = .ok (b, rest) := by
  rw [decodeBytes, List.take_left' h, List.drop_left' h, if_pos h]

theorem decodeText_of_fits {s : String} (h : Value.TextFits s) (rest : Bytes) :
    decodeText (encodeText s ++ rest) = .ok (s, rest) := by
  have hbytes := decodeBytes_append (Bytes.length_ofText s) rest
  rw [decodeText, encodeText, List.append_assoc, decodeVarint_varint h]
  simp only [bind, Except.bind, hbytes, Bytes.toText?_ofText, pure, Except.pure]

theorem textFits_of_length {s : String} (h : (encodeText s).length < 2 ^ 64) : Value.TextFits s := by
  rw [encodeText, List.length_append, Bytes.length_ofText] at h
  exact Nat.lt_of_le_of_lt (Nat.le_add_left _ _) h

theorem decodeText_encodeText {s : String} (h : (encodeText s).length < 2 ^ 64) (rest : Bytes) :
    decodeText (encodeText s ++ rest) = .ok (s, rest) := decodeText_of_fits (textFits_of_length h) rest

theorem decodeNumber_encodeNumber (x : Binary64) (rest : Bytes) :
    decodeNumber (encodeNumber x ++ rest) = .ok (x, rest) := by
  have hbound : x.bits.toNat < 256 ^ 8 := x.bits.toNat_lt
  rw [decodeNumber, encodeNumber, decodeBytes_append (Sealed.length_ofNat 8 _)]
  simp only [bind, Except.bind, pure, Except.pure, Bytes.toNat_ofNat hbound, UInt64.ofNat_toNat]

/-! ## Values -/

theorem one_le_length_encodeValue (v : Value) : 1 ≤ (encodeValue v).length := by
  cases v <;> simp [encodeValue]

theorem length_le_encodeItems (items : List Value) : items.length ≤ (encodeItems items).length := by
  induction items with
  | nil => exact Nat.le_refl _
  | cons v rest ih =>
    have := one_le_length_encodeValue v
    rw [encodeItems, List.length_append, List.length_cons]
    omega

theorem length_le_encodeFields (fields : List (String × Value)) :
    fields.length ≤ (encodeFields fields).length := by
  induction fields with
  | nil => exact Nat.le_refl _
  | cons e rest ih =>
    have := one_le_length_encodeValue e.2
    rw [encodeFields, List.length_append, List.length_append, List.length_cons]
    omega

theorem decodeValueWithin_cons (depth : Nat) {kind : UInt8} (h : kind.toNat < 128) (rest : Bytes) :
    decodeValueWithin (depth + 1) (kind :: rest) =
      decodeContent (decodeValueWithin depth) kind.toNat rest := by
  rw [decodeValueWithin, decodeVarint_byte h]
  rfl

mutual

/-- **A value that fits and whose fields are in order is read back**, whatever follows it. -/
theorem decodeValueWithin_encodeValue : ∀ (v : Value) (depth : Nat) (rest : Bytes), v.Ordered → v.Fits →
    (encodeValue v).length ≤ depth → decodeValueWithin depth (encodeValue v ++ rest) = .ok (v, rest)
  | v, 0, _, _, _, hdepth => by
    have := one_le_length_encodeValue v
    omega
  | .null, depth + 1, rest, _, _, _ => by
    rw [encodeValue, List.cons_append, decodeValueWithin_cons depth (by decide)]
    rfl
  | .bool b, depth + 1, rest, _, _, _ => by
    rw [encodeValue, List.cons_append, decodeValueWithin_cons depth (by decide)]
    cases b <;> rfl
  | .number x, depth + 1, rest, _, _, _ => by
    have hnumber := decodeNumber_encodeNumber x rest
    rw [encodeValue, List.cons_append, decodeValueWithin_cons depth (by decide)]
    simp [decodeContent, hnumber, Except.map]
  | .text s, depth + 1, rest, _, hfits, _ => by
    have htext := decodeText_of_fits (show Value.TextFits s by rwa [Value.Fits] at hfits) rest
    rw [encodeValue, List.cons_append, decodeValueWithin_cons depth (by decide)]
    simp [decodeContent, htext, Except.map]
  | .pointer s, depth + 1, rest, _, hfits, _ => by
    have htext := decodeText_of_fits (show Value.TextFits s by rwa [Value.Fits] at hfits) rest
    rw [encodeValue, List.cons_append, decodeValueWithin_cons depth (by decide)]
    simp [decodeContent, htext, Except.map]
  | .identity s, depth + 1, rest, _, hfits, _ => by
    have htext := decodeText_of_fits (show Value.TextFits s by rwa [Value.Fits] at hfits) rest
    rw [encodeValue, List.cons_append, decodeValueWithin_cons depth (by decide)]
    simp [decodeContent, htext, Except.map]
  | .ciphertext s, depth + 1, rest, _, hfits, _ => by
    have htext := decodeText_of_fits (show Value.TextFits s by rwa [Value.Fits] at hfits) rest
    rw [encodeValue, List.cons_append, decodeValueWithin_cons depth (by decide)]
    simp [decodeContent, htext, Except.map]
  | .list items, depth + 1, rest, hordered, hfits, hdepth => by
    simp only [encodeValue, List.length_cons, List.length_append] at hdepth
    rw [Value.Ordered] at hordered
    rw [Value.Fits] at hfits
    have hitems := decodeTimes_encodeItems items depth rest hordered hfits.2 (by omega)
    have hlist : decodeList (decodeValueWithin depth)
        (varint items.length ++ (encodeItems items ++ rest)) = .ok (items, rest) := by
      rw [decodeList, decodeVarint_varint hfits.1]
      exact hitems
    rw [encodeValue, List.cons_append, decodeValueWithin_cons depth (by decide)]
    simp [decodeContent, hlist, Except.map]
  | .object fields, depth + 1, rest, hordered, hfits, hdepth => by
    simp only [encodeValue, List.length_cons, List.length_append] at hdepth
    rw [Value.Ordered] at hordered
    rw [Value.Fits] at hfits
    have hfields := decodeTimes_encodeFields fields depth rest hordered.2 hfits.2 (by omega)
    have hlist : decodeList (decodePair decodeText (decodeValueWithin depth))
        (varint fields.length ++ (encodeFields fields ++ rest)) = .ok (fields, rest) := by
      rw [decodeList, decodeVarint_varint hfits.1]
      exact hfields
    rw [encodeValue, List.cons_append, decodeValueWithin_cons depth (by decide)]
    simp [decodeContent, hlist, Except.map, Entries.ofList_ordered hordered.1]

/-- Items are read back one after another. -/
theorem decodeTimes_encodeItems : ∀ (items : List Value) (depth : Nat) (rest : Bytes),
    Value.ItemsOrdered items → Value.ItemsFit items → (encodeItems items).length ≤ depth →
    decodeTimes (decodeValueWithin depth) items.length (encodeItems items ++ rest) = .ok (items, rest)
  | [], _, _, _, _, _ => rfl
  | v :: items, depth, rest, hordered, hfits, hdepth => by
    simp only [encodeItems, List.length_append] at hdepth
    rw [Value.ItemsOrdered] at hordered
    rw [Value.ItemsFit] at hfits
    have hfirst := decodeValueWithin_encodeValue v depth (encodeItems items ++ rest) hordered.1 hfits.1 (by omega)
    have hothers := decodeTimes_encodeItems items depth rest hordered.2 hfits.2 (by omega)
    rw [List.length_cons, decodeTimes, encodeItems, List.append_assoc, hfirst]
    simp only [bind, Except.bind, hothers]
    rfl

/-- Fields are read back one after another. -/
theorem decodeTimes_encodeFields : ∀ (fields : List (String × Value)) (depth : Nat) (rest : Bytes),
    Value.FieldsOrdered fields → Value.FieldsFit fields → (encodeFields fields).length ≤ depth →
    decodeTimes (decodePair decodeText (decodeValueWithin depth)) fields.length
      (encodeFields fields ++ rest) = .ok (fields, rest)
  | [], _, _, _, _, _ => rfl
  | (k, v) :: fields, depth, rest, hordered, hfits, hdepth => by
    simp only [encodeFields, List.length_append] at hdepth
    rw [Value.FieldsOrdered] at hordered
    rw [Value.FieldsFit] at hfits
    have hkey := decodeText_of_fits hfits.1 (encodeValue v ++ (encodeFields fields ++ rest))
    have hfirst := decodeValueWithin_encodeValue v depth (encodeFields fields ++ rest) hordered.1 hfits.2.1
      (by omega)
    have hothers := decodeTimes_encodeFields fields depth rest hordered.2 hfits.2.2 (by omega)
    rw [List.length_cons, decodeTimes, encodeFields, List.append_assoc, List.append_assoc, decodePair, hkey]
    simp only [bind, Except.bind, hfirst, hothers, pure, Except.pure]

end

theorem decodeValue_of_fits {v : Value} (hordered : v.Ordered) (hfits : v.Fits) (rest : Bytes) :
    decodeValue (encodeValue v ++ rest) = .ok (v, rest) :=
  decodeValueWithin_encodeValue v _ rest hordered hfits (by
    rw [List.length_append]
    omega)

mutual

/-- A value fits when its bytes as a whole can be counted in 64 bits. -/
theorem fits_of_length : ∀ v : Value, (encodeValue v).length < 2 ^ 64 → v.Fits
  | .null, _ => by simp [Value.Fits]
  | .bool b, _ => by simp [Value.Fits]
  | .number x, _ => by simp [Value.Fits]
  | .text s, h => by
    rw [encodeValue, List.length_cons] at h
    rw [Value.Fits]
    exact textFits_of_length (Nat.lt_of_succ_lt h)
  | .pointer s, h => by
    rw [encodeValue, List.length_cons] at h
    rw [Value.Fits]
    exact textFits_of_length (Nat.lt_of_succ_lt h)
  | .identity s, h => by
    rw [encodeValue, List.length_cons] at h
    rw [Value.Fits]
    exact textFits_of_length (Nat.lt_of_succ_lt h)
  | .ciphertext s, h => by
    rw [encodeValue, List.length_cons] at h
    rw [Value.Fits]
    exact textFits_of_length (Nat.lt_of_succ_lt h)
  | .list items, h => by
    have hcount := length_le_encodeItems items
    rw [encodeValue, List.length_cons, List.length_append] at h
    rw [Value.Fits]
    exact ⟨by omega, itemsFit_of_length items (by omega)⟩
  | .object fields, h => by
    have hcount := length_le_encodeFields fields
    rw [encodeValue, List.length_cons, List.length_append] at h
    rw [Value.Fits]
    exact ⟨by omega, fieldsFit_of_length fields (by omega)⟩

theorem itemsFit_of_length : ∀ items : List Value, (encodeItems items).length < 2 ^ 64 → Value.ItemsFit items
  | [], _ => by simp [Value.ItemsFit]
  | v :: items, h => by
    rw [encodeItems, List.length_append] at h
    rw [Value.ItemsFit]
    exact ⟨fits_of_length v (by omega), itemsFit_of_length items (by omega)⟩

theorem fieldsFit_of_length : ∀ fields : List (String × Value), (encodeFields fields).length < 2 ^ 64 →
    Value.FieldsFit fields
  | [], _ => by simp [Value.FieldsFit]
  | (k, v) :: fields, h => by
    rw [encodeFields, List.length_append, List.length_append] at h
    rw [Value.FieldsFit]
    exact ⟨textFits_of_length (by omega), fits_of_length v (by omega), fieldsFit_of_length fields (by omega)⟩

end

theorem decodeValue_append {v : Value} (hordered : v.Ordered) (hsize : (encodeValue v).length < 2 ^ 64)
    (rest : Bytes) : decodeValue (encodeValue v ++ rest) = .ok (v, rest) :=
  decodeValue_of_fits hordered (fits_of_length v hsize) rest

theorem decodeValue_encodeValue {v : Value} (hordered : v.Ordered)
    (hsize : (encodeValue v).length < 2 ^ 64) :
    decodeValue (encodeValue v) = .ok (v, []) := by
  have := decodeValue_append hordered hsize []
  rwa [List.append_nil] at this

end Wire

end PathLedger
