import PathLedger.Json.Printer

/-!
# Quoted texts are read in one way

What stands in front of an escaped text tells its first character, so that two quoted texts that start alike are one
text, whatever stands behind their closing marks. Hexadecimal digits read back, too: they are part of some escapes,
and the texts of digests are made of them.

* `Bytes.Hex.decode?_encode` — hexadecimal text reads back.
* `Json.unescape` — the character at the front of an escaped text; `Json.unescape_escapeChar` says that it is the one
  that was escaped.
* `Json.quoted_inj` — **a quoted text is read in one way**.
-/

namespace PathLedger

namespace Bytes.Hex

theorem value?_digit {n : Nat} (h : n < 16) : value? (digit n) = some n := by
  have hall : ∀ n : Fin 16, value? (digit n) = some n.val := by decide
  exact hall ⟨n, h⟩

/-- The digits of a row of bytes are read into the row, behind the bytes read so far. -/
theorem decodeFrom_encode (acc b : Bytes) :
    decodeFrom acc (b.flatMap fun x => [digit (x.toNat / 16), digit (x.toNat % 16)]) = some (acc.reverse ++ b) := by
  induction b generalizing acc with
  | nil => simp [decodeFrom]
  | cons x r ih =>
    have hlt := x.toNat_lt
    have hsum : UInt8.ofNat (x.toNat / 16 * 16 + x.toNat % 16) = x := by
      rw [Nat.div_add_mod', UInt8.ofNat_toNat]
    simp only [List.flatMap_cons, List.cons_append, List.nil_append, decodeFrom,
      value?_digit (show x.toNat / 16 < 16 by omega), value?_digit (Nat.mod_lt _ (by decide : 0 < 16)), hsum, ih]
    simp

/-- Hexadecimal text reads back. -/
theorem decode?_encode (b : Bytes) : decode? (encode b) = some b := by
  rw [decode?, encode, String.toList_ofList, decodeFrom_encode]
  rfl

end Bytes.Hex

namespace Json

/-- The character at the front of an escaped text, and what follows. -/
def unescape : List Char → Option (Char × List Char)
  | '\\' :: 'u' :: _ :: _ :: a :: b :: r =>
    match Bytes.Hex.value? a, Bytes.Hex.value? b with
    | some x, some y => some (Char.ofNat (x * 16 + y), r)
    | _, _ => none
  | '\\' :: 'n' :: r => some ('\n', r)
  | '\\' :: 'r' :: r => some ('\r', r)
  | '\\' :: 't' :: r => some ('\t', r)
  | '\\' :: 'b' :: r => some (Char.ofNat 8, r)
  | '\\' :: 'f' :: r => some (Char.ofNat 12, r)
  | '\\' :: c :: r => some (c, r)
  | c :: r => some (c, r)
  | [] => none

theorem unescape_cons {c : Char} (h : c ≠ '\\') (r : List Char) : unescape (c :: r) = some (c, r) := by
  unfold unescape
  split <;> simp_all

/-- An escaped character is read back. -/
theorem unescape_escapeChar (c : Char) (r : List Char) : unescape (escapeChar c ++ r) = some (c, r) := by
  unfold escapeChar
  split
  · subst_vars
    rfl
  split
  · subst_vars
    rfl
  split
  · exact unescape_cons ‹_› r
  split
  · subst_vars
    rfl
  split
  · subst_vars
    rfl
  split
  · subst_vars
    rfl
  split
  · rename_i h
    rw [← Char.ofNat_toNat c, h]
    rfl
  split
  · rename_i h
    rw [← Char.ofNat_toNat c, h]
    rfl
  · have hx := Bytes.Hex.value?_digit (show c.toNat / 16 < 16 by omega)
    have hy := Bytes.Hex.value?_digit (show c.toNat % 16 < 16 by omega)
    show unescape ('\\' :: 'u' :: '0' :: '0' :: _ :: _ :: r) = _
    unfold unescape
    simp only [hx, hy, Nat.div_add_mod', Char.ofNat_toNat]

/-- The first character of an escaped one is not the closing mark. -/
theorem escapeChar_append_ne (c : Char) (r s : List Char) : escapeChar c ++ r ≠ '"' :: s := by
  intro h
  have hread := congrArg unescape h
  rw [unescape_escapeChar, unescape_cons (by decide)] at hread
  simp only [Option.some.injEq, Prod.mk.injEq] at hread
  obtain ⟨rfl, -⟩ := hread
  exact absurd (List.cons.inj h).1 (by decide)

/-- **A quoted text is read in one way**, whatever stands behind its closing mark. -/
theorem quoted_inj {s t u v : List Char}
    (h : s.flatMap escapeChar ++ '"' :: u = t.flatMap escapeChar ++ '"' :: v) : s = t ∧ u = v := by
  induction s generalizing t with
  | nil =>
    cases t with
    | nil => exact ⟨rfl, List.tail_eq_of_cons_eq h⟩
    | cons d t =>
      rw [List.flatMap_cons, List.append_assoc] at h
      exact absurd h.symm (escapeChar_append_ne _ _ _)
  | cons c s ih =>
    rw [List.flatMap_cons, List.append_assoc] at h
    cases t with
    | nil => exact absurd h (escapeChar_append_ne _ _ _)
    | cons d t =>
      rw [List.flatMap_cons, List.append_assoc] at h
      have hread := congrArg unescape h
      rw [unescape_escapeChar, unescape_escapeChar] at hread
      simp only [Option.some.injEq, Prod.mk.injEq] at hread
      obtain ⟨rfl, hrest⟩ := hread
      obtain ⟨rfl, rfl⟩ := ih hrest
      exact ⟨rfl, rfl⟩

end Json

end PathLedger
