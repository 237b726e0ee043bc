import PathLedger.Proofs.Wire.RoundTrip

/-!
# What reading gives

Any bytes may be read as a value, not only those that one was written to. Whatever they are, a value that is read from
them is one that can be written and read back.

* `Wire.bind_ok` — a reader that succeeds after another.
* `Wire.Content` — what the content of a value may be, by how it was read.
* `Wire.decodeValueWithin_all` — **what every content has when its parts have it** is had by whatever is read.
* `Wire.decodeValue_ordered`, `Wire.decodeValue_fits` — **whatever is read has its fields in order and fits**.
-/

namespace PathLedger

/-- A text takes the bytes that it was read from. -/
theorem Bytes.utf8ByteSize_of_toText? {b : Bytes} {s : String} (h : toText? b = some s) :
    s.utf8ByteSize = b.length := by
  rw [toText?, String.fromUTF8?] at h
  split at h
  · obtain rfl := Option.some.inj h
    rfl
  · cases h

namespace Wire

/-! ## Readers one after another -/

section Steps

variable {α β : Type} {b r : Bytes}

theorem bind_ok {γ : Type} {x : Except Fault (α × Bytes)} {next : α × Bytes → Except Fault γ} {c : γ}
    (h : x >>= next = .ok c) : ∃ a r, x = .ok (a, r) ∧ next (a, r) = .ok c := by
  cases x with
  | error f => cases h
  | ok p => exact ⟨p.1, p.2, rfl, h⟩

theorem map_ok {f : α → β} {x : Except Fault (α × Bytes)} {c : β}
    (h : x.map (fun p => (f p.1, p.2)) = .ok (c, r)) : ∃ a, x = .ok (a, r) ∧ f a = c := by
  cases x with
  | error e => cases h
  | ok p =>
    obtain ⟨rfl, rfl⟩ := Prod.mk.inj (Except.ok.inj h)
    exact ⟨p.1, rfl, rfl⟩

theorem decodePair_ok {d : Decoder α} {e : Decoder β} {p : α × β} (h : decodePair d e b = .ok (p, r)) :
    ∃ r', d b = .ok (p.1, r') ∧ e r' = .ok (p.2, r) := by
  obtain ⟨a, r', hfirst, h⟩ := bind_ok h
  obtain ⟨c, r'', hsecond, h⟩ := bind_ok h
  obtain ⟨rfl, rfl⟩ := Prod.mk.inj (Except.ok.inj h)
  exact ⟨r', hfirst, hsecond⟩

/-- Things that were read one after another are as many as told. -/
theorem decodeTimes_ok {d : Decoder α} {n : Nat} {l : List α} (h : decodeTimes d n b = .ok (l, r)) :
    l.length = n ∧ ∀ a ∈ l, ∃ b r, d b = .ok (a, r) := by
  induction n generalizing b l with
  | zero =>
    obtain ⟨rfl, -⟩ := Prod.mk.inj (Except.ok.inj h)
    simp
  | succ n ih =>
    obtain ⟨a, r', hfirst, h⟩ := bind_ok h
    obtain ⟨rest, r'', hrest, h⟩ := bind_ok h
    obtain ⟨rfl, rfl⟩ := Prod.mk.inj (Except.ok.inj h)
    obtain ⟨hlength, hall⟩ := ih hrest
    exact ⟨congrArg Nat.succ hlength, List.forall_mem_cons.mpr ⟨⟨b, r', hfirst⟩, hall⟩⟩

end Steps

/-! ## Numbers, texts and lists -/

theorem decodeVarintWithin_lt {lastByte groups n : Nat} {b r : Bytes}
    (h : decodeVarintWithin lastByte (groups + 1) b = .ok (n, r)) : n < (lastByte + 1) * 128 ^ groups := by
  induction groups generalizing n b r with
  | zero =>
    cases b with
    | nil => cases h
    | cons x rest =>
      rw [decodeVarintWithin] at h
      split at h
      · split at h
        · cases h
        · rename_i hlast
          obtain ⟨rfl, -⟩ := Prod.mk.inj (Except.ok.inj h)
          simp only [decide_true, Bool.true_and, decide_eq_true_eq] at hlast
          omega
      · cases h
  | succ groups ih =>
    have hpos : 0 < (lastByte + 1) * 128 ^ groups := Nat.mul_pos (Nat.succ_pos _) (Nat.pow_pos (by decide))
    have hpow : (lastByte + 1) * 128 ^ (groups + 1) = 128 * ((lastByte + 1) * 128 ^ groups) := by
      rw [Nat.pow_succ, ← Nat.mul_assoc, Nat.mul_comm]
    cases b with
    | nil => cases h
    | cons x rest =>
      rw [decodeVarintWithin] at h
      split at h
      · split at h
        · cases h
        · obtain ⟨rfl, -⟩ := Prod.mk.inj (Except.ok.inj h)
          omega
      · split at h
        · rename_i m _ hrest
          obtain ⟨rfl, -⟩ := Prod.mk.inj (Except.ok.inj h)
          have := ih hrest
          omega
        · cases h

theorem decodeVarint_lt {n : Nat} {b r : Bytes} (h : decodeVarint .w64 b = .ok (n, r)) : n < 2 ^ 64 :=
  @decodeVarintWithin_lt 1 9 n b r h

theorem length_decodeBytes {n : Nat} {b bytes r : Bytes} (h : decodeBytes n b = .ok (bytes, r)) :
    bytes.length = n := by
  rw [decodeBytes] at h
  split at h
  · rename_i hlength
    obtain ⟨rfl, -⟩ := Prod.mk.inj (Except.ok.inj h)
    exact hlength
  · cases h

theorem decodeText_fits {s : String} {b r : Bytes} (h : decodeText b = .ok (s, r)) : Value.TextFits s := by
  obtain ⟨n, r', hn, h⟩ := bind_ok h
  obtain ⟨bytes, r'', hbytes, h⟩ := bind_ok h
  dsimp only at h
  split at h
  · rename_i hs
    obtain ⟨rfl, -⟩ := Prod.mk.inj (Except.ok.inj h)
    rw [Value.TextFits, Bytes.utf8ByteSize_of_toText? hs, length_decodeBytes hbytes]
    exact decodeVarint_lt hn
  · cases h

theorem decodeList_ok {α : Type} {d : Decoder α} {b r : Bytes} {l : List α} (h : decodeList d b = .ok (l, r)) :
    l.length < 2 ^ 64 ∧ ∀ a ∈ l, ∃ b r, d b = .ok (a, r) := by
  obtain ⟨n, r', hn, h⟩ := bind_ok h
  obtain ⟨rfl, hall⟩ := decodeTimes_ok h
  exact ⟨decodeVarint_lt hn, hall⟩

/-! ## Contents -/

/-- What the content of a value may be, by how it was read. -/
inductive Content (nested : Decoder Value) (b r : Bytes) : Value → Prop where
  | null : Content nested b r .null
  | bool (x : Bool) : Content nested b r (.bool x)
  | number (x : Binary64) : Content nested b r (.number x)
  | text {s : String} (h : decodeText b = .ok (s, r)) : Content nested b r (.text s)
  | list {items : List Value} (h : decodeList nested b = .ok (items, r)) : Content nested b r (.list items)
  | object {fields : List (String × Value)} (h : decodeList (decodePair decodeText nested) b = .ok (fields, r)) :
    Content nested b r (.object (Entries.ofList fields))
  | pointer {s : String} (h : decodeText b = .ok (s, r)) : Content nested b r (.pointer s)
  | identity {s : String} (h : decodeText b = .ok (s, r)) : Content nested b r (.identity s)
  | ciphertext {s : String} (h : decodeText b = .ok (s, r)) : Content nested b r (.ciphertext s)

section Contents

variable {nested : Decoder Value} {b r : Bytes} {v : Value}

theorem content_of_decodeContent {kind : Nat} (h : decodeContent nested kind b = .ok (v, r)) :
    Content nested b r v := by
  unfold decodeContent at h
  split at h
  · obtain ⟨rfl, -⟩ := Prod.mk.inj (Except.ok.inj h)
    exact .null
  split at h
  · obtain ⟨x, -, rfl⟩ := map_ok h
    exact .bool x
  split at h
  · obtain ⟨x, -, rfl⟩ := map_ok h
    exact .number x
  split at h
  · obtain ⟨s, hs, rfl⟩ := map_ok h
    exact .text hs
  split at h
  · obtain ⟨items, hitems, rfl⟩ := map_ok h
    exact .list hitems
  split at h
  · obtain ⟨fields, hfields, rfl⟩ := map_ok (f := fun l => Value.object (Entries.ofList l)) h
    exact .object hfields
  split at h
  · obtain ⟨s, hs, rfl⟩ := map_ok h
    exact .pointer hs
  split at h
  · obtain ⟨s, hs, rfl⟩ := map_ok h
    exact .identity hs
  split at h
  · obtain ⟨s, hs, rfl⟩ := map_ok h
    exact .ciphertext hs
  · cases h

/-- **What every content has when its parts have it** is had by whatever is read. -/
theorem decodeValueWithin_all {P : Value → Prop}
    (hcontent : ∀ nested b r v, (∀ b v r, nested b = .ok (v, r) → P v) → Content nested b r v → P v)
    {depth : Nat} (h : decodeValueWithin depth b = .ok (v, r)) : P v := by
  induction depth generalizing b r v with
  | zero => cases h
  | succ depth ih =>
    obtain ⟨kind, r', -, h⟩ := bind_ok h
    exact hcontent _ _ _ _ (fun _ _ _ hv => ih hv) (content_of_decodeContent h)

theorem Content.ordered (hnested : ∀ b v r, nested b = .ok (v, r) → v.Ordered) (h : Content nested b r v) :
    v.Ordered := by
  cases h with
  | list hitems =>
    rw [Value.Ordered, Value.itemsOrdered_iff]
    intro v hv
    obtain ⟨b, r, hread⟩ := (decodeList_ok hitems).2 v hv
    exact hnested b v r hread
  | @object fields hfields =>
    rw [Value.Ordered, Value.fieldsOrdered_iff]
    refine ⟨Entries.ordered_ofList fields, fun e he => ?_⟩
    obtain ⟨b, r, hread⟩ := (decodeList_ok hfields).2 e (Entries.mem_ofList he)
    obtain ⟨r', -, hvalue⟩ := decodePair_ok hread
    exact hnested r' e.2 r hvalue
  | _ => simp [Value.Ordered]

theorem Content.fits (hnested : ∀ b v r, nested b = .ok (v, r) → v.Fits) (h : Content nested b r v) : v.Fits := by
  cases h with
  | text hs => rw [Value.Fits]; exact decodeText_fits hs
  | pointer hs => rw [Value.Fits]; exact decodeText_fits hs
  | identity hs => rw [Value.Fits]; exact decodeText_fits hs
  | ciphertext hs => rw [Value.Fits]; exact decodeText_fits hs
  | list hitems =>
    obtain ⟨hlength, hall⟩ := decodeList_ok hitems
    rw [Value.Fits, Value.itemsFit_iff]
    refine ⟨hlength, fun v hv => ?_⟩
    obtain ⟨b, r, hread⟩ := hall v hv
    exact hnested b v r hread
  | @object fields hfields =>
    obtain ⟨hlength, hall⟩ := decodeList_ok hfields
    rw [Value.fits_object, Value.fieldsFit_iff]
    refine ⟨Nat.lt_of_le_of_lt (Entries.length_ofList_le fields) hlength, fun e he => ?_⟩
    obtain ⟨b, r, hread⟩ := hall e (Entries.mem_ofList he)
    obtain ⟨r', hname, hvalue⟩ := decodePair_ok hread
    exact ⟨decodeText_fits hname, hnested r' e.2 r hvalue⟩
  | _ => simp [Value.Fits]

/-- **Whatever is read has its fields in order.** -/
theorem decodeValue_ordered (h : decodeValue b = .ok (v, r)) : v.Ordered :=
  decodeValueWithin_all (fun _ _ _ _ => Content.ordered) h

/-- **Whatever is read fits.** -/
theorem decodeValue_fits (h : decodeValue b = .ok (v, r)) : v.Fits :=
  decodeValueWithin_all (fun _ _ _ _ => Content.fits) h

end Contents

end Wire

end PathLedger
