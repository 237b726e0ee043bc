import PathLedger.Proofs.Entries
import PathLedger.Proofs.Wire.Front
import PathLedger.Proofs.Wire.Records
import PathLedger.Snapshot.Binary

/-!
# Snapshots are read back from their bytes

Each part of a snapshot is read back whatever follows it, so what is left over is what was put behind the last part. A
front that is too short cannot be read: otherwise the whole would be read with something left over.

* `Wire.decodeList_encodeList`, `Snapshot.decodeTable_encodeTable` — lists and tables.
* `Snapshot.decode_encode` — **the parts of a snapshot are read back**, and the rest is left over.
* `Snapshot.decode_front`, `Snapshot.ofBytes_front` — a front is not read.
* `Snapshot.bytes_read_back` — **the bytes of a snapshot are read back**, also with bytes behind them, and none of their
  proper fronts is.
-/

namespace PathLedger

/-! ## Lists and tables -/

namespace Wire

theorem one_le_length_varint (n : Nat) : 1 ≤ (varint n).length := by
  rw [varint, Width.w64, varintWithin]
  split
  · exact Nat.le_refl _
  · rw [List.length_cons]
    omega

theorem one_le_length_encodeText (s : String) : 1 ≤ (encodeText s).length := by
  have := one_le_length_varint s.utf8ByteSize
  rw [encodeText, List.length_append]
  omega

section Lists

variable {α : Type} {f : α → Bytes}

theorem length_le_flatMap {l : List α} {a : α} (h : a ∈ l) : (f a).length ≤ (l.flatMap f).length := by
  obtain ⟨front, back, rfl⟩ := List.append_of_mem h
  rw [List.flatMap_append, List.flatMap_cons, List.length_append, List.length_append]
  omega

/-- Things that take a byte each are no more than their bytes. -/
theorem length_le_length_flatMap {l : List α} (h : ∀ a ∈ l, 1 ≤ (f a).length) : l.length ≤ (l.flatMap f).length := by
  induction l with
  | nil => exact Nat.le_refl _
  | cons a rest ih =>
    have := h a List.mem_cons_self
    have := ih fun b hb => h b (List.mem_cons_of_mem a hb)
    rw [List.length_cons, List.flatMap_cons, List.length_append]
    omega

theorem decodeTimes_flatMap {d : Decoder α} {l : List α} (h : ∀ a ∈ l, ∀ rest, d (f a ++ rest) = .ok (a, rest))
    (rest : Bytes) : decodeTimes d l.length (l.flatMap f ++ rest) = .ok (l, rest) := by
  induction l with
  | nil => rfl
  | cons a others ih =>
    have hothers := ih fun b hb => h b (List.mem_cons_of_mem a hb)
    rw [List.length_cons, decodeTimes, List.flatMap_cons, List.append_assoc, h a List.mem_cons_self]
    simp only [bind, Except.bind, hothers]
    rfl

/-- **A list is read back** when its items are, whatever follows it. -/
theorem decodeList_encodeList {d : Decoder α} {l : List α} (h : ∀ a ∈ l, ∀ rest, d (f a ++ rest) = .ok (a, rest))
    (hone : ∀ a ∈ l, 1 ≤ (f a).length) (hsize : (encodeList f l).length < 2 ^ 64) (rest : Bytes) :
    decodeList d (encodeList f l ++ rest) = .ok (l, rest) := by
  have hcount := length_le_length_flatMap hone
  rw [encodeList, List.length_append] at hsize
  rw [decodeList, encodeList, List.append_assoc, decodeVarint_varint (by omega)]
  exact decodeTimes_flatMap h rest

end Lists

theorem one_le_length_encodeRecord (r : Record) : 1 ≤ (encodeRecord r).length := by
  have := one_le_length_encodeText r.path
  simp only [encodeRecord, List.length_append]
  omega

end Wire

namespace Snapshot

open Wire

/-- **A table is read back** when its contents are, whatever follows it. -/
theorem decodeTable_encodeTable {α : Type} {f : α → Bytes} {d : Decoder α} {t : Dict String α}
    (h : ∀ e ∈ t.entries, ∀ rest, (f e.2).length < 2 ^ 64 → d (f e.2 ++ rest) = .ok (e.2, rest))
    (hsize : (encodeTable f t).length < 2 ^ 64) (rest : Bytes) :
    decodeTable d (encodeTable f t ++ rest) = .ok (t, rest) := by
  have hentries : decodeList (decodePair decodeText d) (encodeTable f t ++ rest) = .ok (t.entries, rest) := by
    refine decodeList_encodeList (fun e he rest => ?_) (fun e _ => ?_) hsize rest
    · have hentry : (encodePair encodeText f e).length ≤ _ := length_le_flatMap he
      rw [encodeTable, encodeList, List.length_append] at hsize
      rw [encodePair, List.length_append] at hentry
      rw [decodePair, encodePair, List.append_assoc, decodeText_encodeText (by omega)]
      simp only [bind, Except.bind, h e he rest (by omega)]
      rfl
    · have := one_le_length_encodeText e.1
      rw [encodePair, List.length_append]
      omega
  rw [decodeTable, hentries]
  exact congrArg (fun d => Except.ok (d, rest)) (Dict.ofList_entries t)

/-! ## The parts of a snapshot -/

/-- **The parts of a snapshot are read back**, whatever follows them. -/
theorem decode_encode {s : Snapshot} (h : s.Ordered) (hsize : s.encode.length < 2 ^ 64) (rest : Bytes) :
    decode (s.encode ++ rest) = .ok (s, rest) := by
  simp only [encode, List.length_append] at hsize
  have hledger := decodeList_encodeList (d := decodeRecord) (f := encodeRecord) (l := s.ledger)
    (fun r hr => by
      have hrecord : (encodeRecord r).length ≤ _ := length_le_flatMap hr
      rw [encodeList, List.length_append] at hsize
      exact decodeRecord_encodeRecord ⟨(h.records r hr).1, (h.records r hr).2, by omega⟩)
    (fun r _ => one_le_length_encodeRecord r) (by omega)
  have htexts (t : Dict String String) (ht : (encodeTable encodeText t).length < 2 ^ 64) (rest : Bytes) :
      decodeTable decodeText (encodeTable encodeText t ++ rest) = .ok (t, rest) :=
    decodeTable_encodeTable (fun _ _ rest hsize => decodeText_encodeText hsize rest) ht rest
  have hsecrets := htexts s.secrets (by omega)
  have hnoises := htexts s.noises (by omega)
  have hbranches := decodeTable_encodeTable (t := s.branches)
    (fun e he rest hsize => decodeValue_append (h.branches e he) hsize rest) (by omega)
  have hoperators := decodeTable_encodeTable (t := s.operators)
    (fun e _ rest _ => decodeKind_encodeKind e.2 rest) (by omega)
  unfold decode encode
  simp only [List.append_assoc, hledger, hsecrets, hnoises, hbranches, hoperators, bind, Except.bind, pure, Except.pure]

theorem decodeTable_extends {α : Type} {d : Decoder α} (more : Bytes)
    (h : ∀ b, Extends more (d b) (d (b ++ more))) (b : Bytes) :
    Extends more (decodeTable d b) (decodeTable d (b ++ more)) :=
  .bind (decodeList_extends more (decodePair_extends more (decodeText_extends more) h) b) fun _ r => .ok _ r

theorem decode_extends (more b : Bytes) : Extends more (decode b) (decode (b ++ more)) :=
  .bind (decodeList_extends more (decodeRecord_extends more) b) fun _ r =>
    .bind (decodeTable_extends more (decodeText_extends more) r) fun _ r =>
    .bind (decodeTable_extends more (decodeText_extends more) r) fun _ r =>
    .bind (decodeTable_extends more (decodeValue_extends more) r) fun _ r =>
    .bind (decodeTable_extends more (decodeKind_extends more) r) fun _ r => .ok _ r

/-- **A front of the parts of a snapshot is not read**, wherever it ends. -/
theorem decode_front {s : Snapshot} (h : s.Ordered) (hsize : s.encode.length < 2 ^ 64) {front more : Bytes}
    (hparts : front ++ more = s.encode) (hmore : more ≠ []) : ∃ f, decode front = .error f := by
  cases hread : decode front with
  | error f => exact ⟨f, rfl⟩
  | ok p =>
    -- The whole would be read with what is missing left over.
    have hwhole := decode_extends more front p.1 p.2 hread
    have hall := decode_encode h hsize []
    rw [List.append_nil, ← hparts, hwhole] at hall
    obtain ⟨-, hrest⟩ := Prod.mk.inj (Except.ok.inj hall)
    exact absurd (List.append_eq_nil_iff.mp hrest).2 hmore

/-! ## Header and parts -/

/-- Behind the header of the current version the parts decide. -/
theorem ofBytes_current {parts : Bytes} (hsize : (Header.current.toBytes ++ parts).length ≤ maxSize) :
    ofBytes (Header.current.toBytes ++ parts) =
      ((decode parts).mapError fun f =>
        .deserialization ("Failed to decode snapshot: " ++ f.message)).map Prod.fst := by
  have hlength : ¬(Header.current.toBytes ++ parts).length < Header.length := by
    rw [List.length_append]
    exact Nat.not_lt.mpr (Nat.le_add_right _ _)
  have hheader : (Header.ofBytes (Header.current.toBytes ++ parts)).bind Header.validate = .ok () := rfl
  have hparts : (Header.current.toBytes ++ parts).drop Header.length = parts := rfl
  rw [ofBytes, if_neg hlength, if_neg (Nat.not_lt.mpr hsize), hheader, hparts]
  cases decode parts <;> rfl

theorem length_encode_lt {s : Snapshot} (hsize : s.toBytes.length ≤ maxSize) : s.encode.length < 2 ^ 64 := by
  rw [toBytes, List.length_append] at hsize
  exact Nat.lt_of_le_of_lt (Nat.le_trans (Nat.le_add_left _ _) hsize) (by decide)

/-- What stands behind the bytes of a snapshot is passed over. -/
theorem ofBytes_append {s : Snapshot} (hordered : s.Ordered) {more : Bytes}
    (hsize : (s.toBytes ++ more).length ≤ maxSize) : ofBytes (s.toBytes ++ more) = .ok s := by
  have hencoded : s.encode.length < 2 ^ 64 := by
    refine length_encode_lt (Nat.le_trans ?_ hsize)
    rw [List.length_append]
    exact Nat.le_add_right _ _
  rw [toBytes, List.append_assoc] at hsize ⊢
  rw [ofBytes_current hsize, decode_encode hordered hencoded]
  rfl

/-- A front of the bytes of a snapshot is refused, whether the cut goes through the header or through the parts. -/
theorem ofBytes_front {s : Snapshot} (hordered : s.Ordered) (hsize : s.toBytes.length ≤ maxSize) {front more : Bytes}
    (hfront : front ++ more = s.toBytes) (hmore : more ≠ []) :
    ∃ message, ofBytes front = .error (.deserialization message) := by
  by_cases hshort : front.length < Header.length
  · rw [ofBytes, if_pos hshort]
    exact ⟨_, rfl⟩
  · obtain ⟨parts, rfl⟩ : Header.current.toBytes <+: front :=
      List.prefix_of_prefix_length_le ⟨s.encode, rfl⟩ ⟨more, hfront⟩ (Nat.not_lt.mp hshort)
    have hlength : (Header.current.toBytes ++ parts).length ≤ maxSize := by
      rw [← hfront, List.length_append] at hsize
      omega
    rw [toBytes, List.append_assoc] at hfront
    obtain ⟨f, hread⟩ := decode_front hordered (length_encode_lt hsize) (List.append_cancel_left hfront) hmore
    rw [ofBytes_current hlength, hread]
    exact ⟨_, rfl⟩

/-- **The bytes of a snapshot are read back**: with every number bit for bit, with any bytes behind them as far as the
size allows, and not when any of them are missing at the end. -/
theorem bytes_read_back {s : Snapshot} (hordered : s.Ordered) (hsize : s.toBytes.length ≤ maxSize) :
    ofBytes s.toBytes = .ok s ∧
      (∀ more, (s.toBytes ++ more).length ≤ maxSize → ofBytes (s.toBytes ++ more) = .ok s) ∧
      ∀ front, front <+: s.toBytes → front ≠ s.toBytes →
        ∃ message, ofBytes front = .error (.deserialization message) := by
  refine ⟨?_, fun more hmore => ofBytes_append hordered hmore, ?_⟩
  · have hnothing : (s.toBytes ++ []).length ≤ maxSize := by rwa [List.append_nil]
    have hall := ofBytes_append hordered hnothing
    rwa [List.append_nil] at hall
  · rintro front ⟨more, hfront⟩ hne
    refine ofBytes_front hordered hsize hfront ?_
    rintro rfl
    exact hne (by rw [← hfront, List.append_nil])

/-- A snapshot with a record and a branch of nested data, in which a non-number and a negative zero stand. -/
def nested : Snapshot :=
  ⟨[⟨"a.b", some .pointer, .text "c", .object [("x", .number ⟨0x7ff8000000000001⟩), ("y", .list [.null, .text "é"])],
    "", "h", "", 1000⟩], .empty, .empty, Dict.empty.insert "s" (.object [("z", .number ⟨0x8000000000000000⟩)]),
    Dict.empty.insert "%" .remove⟩

/-- The non-number and the negative zero are read back, and every cut is noticed. -/
theorem bytes_read_back_nested :
    nested.Ordered ∧ nested.toBytes.length ≤ maxSize ∧ ofBytes nested.toBytes = .ok nested ∧
      (∀ more, (nested.toBytes ++ more).length ≤ maxSize → ofBytes (nested.toBytes ++ more) = .ok nested) ∧
      ∀ front, front <+: nested.toBytes → front ≠ nested.toBytes →
        ∃ message, ofBytes front = .error (.deserialization message) := by
  have hordered : nested.Ordered := by
    constructor
    · intro r hr
      rw [List.mem_singleton.mp hr]
      simp [Value.Ordered, Value.FieldsOrdered, Value.ItemsOrdered, Entries.Ordered]
      decide
    · intro e he
      rw [List.mem_singleton.mp he]
      simp [Value.Ordered, Value.FieldsOrdered, Entries.Ordered]
  have hsize : nested.toBytes.length ≤ maxSize := by decide +kernel
  exact ⟨hordered, hsize, bytes_read_back hordered hsize⟩

end Snapshot

end PathLedger
