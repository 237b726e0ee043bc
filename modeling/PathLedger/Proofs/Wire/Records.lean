import PathLedger.Proofs.Wire.RoundTrip
import PathLedger.Wire.Record

/-!
# Records are read back

The parts of a record are read back one after another, whatever follows them.

* `Record.Storable` — a record whose values have their fields in order, and whose bytes can be counted.
* `Wire.decodeRecord_encodeRecord` — **a record is read back** with all its parts.
-/

namespace PathLedger

/-- A record whose values have their fields in order, and whose bytes are counted by a number of 64 bits. -/
structure Record.Storable (r : Record) : Prop where
  expression : r.expression.Ordered
  value : r.value.Ordered
  size : (Wire.encodeRecord r).length < 2 ^ 64

namespace Wire

theorem decodeKind_encodeKind (k : Operator.Kind) (rest : Bytes) :
    decodeKind (encodeKind k ++ rest) = .ok (k, rest) := by
  cases k <;> rfl

theorem decodeOption_encodeOption {α : Type} {f : α → Bytes} {d : Decoder α}
    (h : ∀ a rest, d (f a ++ rest) = .ok (a, rest)) (o : Option α) (rest : Bytes) :
    decodeOption d (encodeOption f o ++ rest) = .ok (o, rest) := by
  cases o with
  | none => rfl
  | some a =>
    have hone : decodeOption d (1 :: (f a ++ rest)) = (d (f a ++ rest)).map fun p => (some p.1, p.2) := by
      cases hd : d (f a ++ rest) <;>
        simp [decodeOption, decodeByte, bind, Except.bind, hd, Except.map, pure, Except.pure]
    rw [encodeOption, List.cons_append, hone, h]
    rfl

/-- **A record is read back** with all its parts, whatever follows it. -/
theorem decodeRecord_encodeRecord {r : Record} (h : r.Storable) (rest : Bytes) :
    decodeRecord (encodeRecord r ++ rest) = .ok (r, rest) := by
  have hsize := h.size
  simp only [encodeRecord, List.length_append] at hsize
  have hpath := @decodeText_encodeText r.path (by omega)
  have hsecret := @decodeText_encodeText r.effectiveSecret (by omega)
  have hhash := @decodeText_encodeText r.hash (by omega)
  have hprev := @decodeText_encodeText r.prevHash (by omega)
  have hexpression := decodeValue_append h.expression (by omega)
  have hvalue := decodeValue_append h.value (by omega)
  have htime := decodeVarint_varint (n := r.timestamp.toNat) r.timestamp.toNat_lt
  have hoperator := decodeOption_encodeOption decodeKind_encodeKind r.operator
  unfold decodeRecord encodeRecord
  simp only [List.append_assoc, hpath, hoperator, hexpression, hvalue, hsecret, hhash, hprev, htime, bind, Except.bind,
    pure, Except.pure, UInt64.ofNat_toNat]

end Wire

end PathLedger
