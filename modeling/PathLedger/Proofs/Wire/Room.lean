import PathLedger.Proofs.Value.Nested
import PathLedger.Proofs.Wire.RoundTrip

/-!
# How much room values take

The bytes of an object grow with its fields, and by a little more when the number of its fields takes
another byte. The room of a value counts every such number in full, so that it only depends on what is
inside.

* `Wire.room` — the most bytes that a value takes.
* `Wire.length_encodeValue_le` — a value takes no more bytes than its room.
* `Wire.roomFields_insertAt_le` — **putting a value at a row of names adds at most the room of the value
  and the names**.
* `Wire.roomFields_removeAt?_le` — taking a value away adds nothing.
-/

namespace PathLedger.Wire

mutual

/-- The most bytes that a value takes: one for its kind, and ten for the number of its items or fields. -/
def room : Value → Nat
  | .list items => 11 + roomItems items
  | .object fields => 11 + roomFields fields
  | v => (encodeValue v).length

/-- The room of items. -/
def roomItems : List Value → Nat
  | [] => 0
  | v :: rest => room v + roomItems rest

/-- The room of fields. -/
def roomFields : List (String × Value) → Nat
  | [] => 0
  | (k, v) :: rest => (encodeText k).length + room v + roomFields rest

end

theorem room_object (fields : List (String × Value)) : room (.object fields) = 11 + roomFields fields := by
  rw [room]

theorem length_varintWithin_le (groups n : Nat) : (varintWithin groups n).length ≤ groups := by
  induction groups generalizing n with
  | zero => exact Nat.le_refl _
  | succ groups ih =>
    rw [varintWithin]
    split
    · rw [List.length_singleton]
      omega
    · rw [List.length_cons]
      exact Nat.succ_le_succ (ih _)

theorem length_varint_le (n : Nat) : (varint n).length ≤ 10 := length_varintWithin_le 10 n

mutual

/-- A value takes no more bytes than its room. -/
theorem length_encodeValue_le : ∀ v : Value, (encodeValue v).length ≤ room v
  | .null => by simp [room]
  | .bool b => by simp [room]
  | .number x => by simp [room]
  | .text s => by simp [room]
  | .pointer t => by simp [room]
  | .identity n => by simp [room]
  | .ciphertext b => by simp [room]
  | .list items => by
    have := length_varint_le items.length
    have := length_encodeItems_le items
    rw [room, encodeValue, List.length_cons, List.length_append]
    omega
  | .object fields => by
    have := length_varint_le fields.length
    have := length_encodeFields_le fields
    rw [room, encodeValue, List.length_cons, List.length_append]
    omega

theorem length_encodeItems_le : ∀ items : List Value, (encodeItems items).length ≤ roomItems items
  | [] => Nat.le_refl _
  | v :: rest => by
    have := length_encodeValue_le v
    have := length_encodeItems_le rest
    rw [roomItems, encodeItems, List.length_append]
    omega

theorem length_encodeFields_le : ∀ fields : List (String × Value),
    (encodeFields fields).length ≤ roomFields fields
  | [] => Nat.le_refl _
  | (k, v) :: rest => by
    have := length_encodeValue_le v
    have := length_encodeFields_le rest
    rw [roomFields, encodeFields, List.length_append, List.length_append]
    omega

end

/-! ## Fields that change -/

theorem roomFields_put_le (name : String) (v : Value) (fields : List (String × Value)) :
    roomFields (Entries.put name v fields) ≤ roomFields fields + ((encodeText name).length + room v) := by
  induction fields with
  | nil => simp [Entries.put, roomFields]
  | cons e rest ih =>
    obtain ⟨k, u⟩ := e
    simp only [Entries.put]
    split
    · simp only [roomFields]
      omega
    · simp only [roomFields]
      omega
    · simp only [roomFields]
      omega

/-- A value put in the place of another takes its room. -/
theorem roomFields_put_of_get? {name : String} {old : Value} {fields : List (String × Value)}
    (hordered : Entries.Ordered fields) (hold : Entries.get? name fields = some old) (v : Value) :
    roomFields (Entries.put name v fields) + room old = roomFields fields + room v := by
  induction fields with
  | nil => cases hold
  | cons e rest ih =>
    obtain ⟨k, u⟩ := e
    rw [Entries.get?] at hold
    simp only [Entries.put]
    split
    · -- A name before the first is not found behind it either.
      rename_i hlt
      rw [hlt, if_neg (by decide)] at hold
      have hbehind := List.rel_of_pairwise_cons hordered (Entries.mem_of_get? hold)
      have := Std.TransCmp.lt_trans hlt hbehind
      simp at this
    · rename_i heq
      obtain rfl : name = k := Std.LawfulEqCmp.eq_of_compare heq
      rw [if_pos heq] at hold
      obtain rfl := Option.some.inj hold
      simp only [roomFields]
      omega
    · rename_i hgt
      rw [hgt, if_neg (by decide)] at hold
      have := ih (List.Pairwise.of_cons hordered) hold
      simp only [roomFields]
      omega

theorem roomFields_erase_le (name : String) (fields : List (String × Value)) :
    roomFields (Entries.erase name fields) ≤ roomFields fields := by
  induction fields with
  | nil => exact Nat.le_refl _
  | cons e rest ih =>
    obtain ⟨k, u⟩ := e
    rw [Entries.erase] at ih ⊢
    rw [List.filter_cons]
    split
    · simp only [roomFields]
      omega
    · simp only [roomFields]
      omega

theorem roomFields_fieldsOf_le (v : Value) : roomFields v.fieldsOf ≤ room v := by
  cases v with
  | object fields =>
    rw [room_object]
    exact Nat.le_add_left _ _
  | _ => exact Nat.zero_le _

theorem roomFields_insertAt_cons_nil (name next : String) (more : List String) (v : Value) :
    roomFields (Value.insertAt (name :: next :: more) v []) =
      (encodeText name).length + (11 + roomFields (Value.insertAt (next :: more) v [])) := by
  rw [Value.insertAt_cons]
  simp only [Value.innerFields, Entries.put, Entries.get?, Option.map_none, Option.getD_none,
    roomFields, room_object]
  omega

/-- **Putting a value at a row of names** adds at most what it takes where there is nothing else. -/
theorem roomFields_insertAt_le (names : List String) (v : Value) {fields : List (String × Value)}
    (h : (Value.object fields).Ordered) :
    roomFields (Value.insertAt names v fields) ≤
      roomFields fields + roomFields (Value.insertAt names v []) := by
  induction names generalizing fields with
  | nil => exact Nat.le_add_right _ _
  | cons name rest ih =>
    obtain ⟨hfields, hcontents⟩ := Value.ordered_object.mp h
    cases rest with
    | nil =>
      have := roomFields_put_le name v fields
      have halone : roomFields (Value.insertAt [name] v []) = (encodeText name).length + room v := by
        simp only [Value.insertAt, Entries.put, roomFields]
        omega
      rw [halone]
      exact this
    | cons next more =>
      have hbelow := ih (Value.ordered_innerFields h name)
      rw [Value.insertAt_cons, roomFields_insertAt_cons_nil]
      cases hold : Entries.get? name fields with
      | none =>
        have hinner : Value.innerFields name fields = [] := by
          rw [Value.innerFields, hold]
          rfl
        have := roomFields_put_le name
          (.object (Value.insertAt (next :: more) v (Value.innerFields name fields))) fields
        rw [room_object, hinner] at this
        rw [hinner]
        exact this
      | some old =>
        have hinner : Value.innerFields name fields = old.fieldsOf := by
          rw [Value.innerFields, hold]
          rfl
        have hput := roomFields_put_of_get? hfields hold
          (.object (Value.insertAt (next :: more) v (Value.innerFields name fields)))
        have := roomFields_fieldsOf_le old
        rw [room_object] at hput
        rw [hinner] at hput hbelow ⊢
        omega

/-- What is taken away leaves no more room taken. -/
theorem roomFields_removeAt?_le {names : List String} {fields fields' : List (String × Value)}
    (h : (Value.object fields).Ordered) (hremove : Value.removeAt? names fields = some fields') :
    roomFields fields' ≤ roomFields fields := by
  induction names generalizing fields fields' with
  | nil => cases hremove
  | cons name rest ih =>
    obtain ⟨hfields, hcontents⟩ := Value.ordered_object.mp h
    cases rest with
    | nil =>
      rw [Value.removeAt?_single_eq_some hremove]
      exact roomFields_erase_le name fields
    | cons next more =>
      obtain ⟨inner, inner', hinner, hbelow, rfl⟩ := Value.removeAt?_cons_eq_some hremove
      have := ih (hcontents.of_get? hinner) hbelow
      have hput := roomFields_put_of_get? hfields hinner (.object inner')
      rw [room_object, room_object] at hput
      omega

/-- Fewer names take less room. -/
theorem roomFields_insertAt_drop_le (n : Nat) (names : List String) (v : Value) :
    roomFields (Value.insertAt (names.drop n) v []) ≤ roomFields (Value.insertAt names v []) := by
  induction n generalizing names with
  | zero => exact Nat.le_refl _
  | succ n ih =>
    cases names with
    | nil => exact Nat.le_refl _
    | cons name rest =>
      refine Nat.le_trans (ih rest) ?_
      cases rest with
      | nil => exact Nat.zero_le _
      | cons next more =>
        rw [roomFields_insertAt_cons_nil]
        omega

end PathLedger.Wire
