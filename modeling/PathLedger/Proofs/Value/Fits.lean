import Mathlib.Algebra.Ring.Nat
import PathLedger.Proofs.Value.Nested

/-!
# Values whose sizes are numbers of 64 bits

The binary form writes the length of every text, list and object as a number of 64 bits. A value fits when each of
these lengths is one, however many bytes it takes as a whole.

* `Value.Fits` — every length inside the value is a number of 64 bits.
* `Value.Fits.removeAt?` — **what is left when a value is taken away fits**.
-/

namespace PathLedger.Value

/-- The length of a text is a number of 64 bits. -/
def TextFits (s : String) : Prop := s.utf8ByteSize < 2 ^ 64

mutual

/-- Every length inside the value is a number of 64 bits. -/
def Fits : Value → Prop
  | .text s => TextFits s
  | .list items => items.length < 2 ^ 64 ∧ ItemsFit items
  | .object fields => fields.length < 2 ^ 64 ∧ FieldsFit fields
  | .pointer target => TextFits target
  | .identity name => TextFits name
  | .ciphertext blob => TextFits blob
  | _ => True

def ItemsFit : List Value → Prop
  | [] => True
  | v :: rest => Fits v ∧ ItemsFit rest

def FieldsFit : List (String × Value) → Prop
  | [] => True
  | (k, v) :: rest => TextFits k ∧ Fits v ∧ FieldsFit rest

end

theorem fits_object {fields : List (String × Value)} :
    (Value.object fields).Fits ↔ fields.length < 2 ^ 64 ∧ FieldsFit fields := by
  rw [Fits]

theorem fits_object_nil : (Value.object []).Fits := fits_object.mpr ⟨by decide, by rw [FieldsFit]; trivial⟩

theorem fits_fieldsOf {v : Value} (h : v.Fits) : (Value.object v.fieldsOf).Fits := by
  cases v with
  | object fields => exact h
  | _ => exact fits_object_nil

theorem itemsFit_iff {items : List Value} : ItemsFit items ↔ ∀ v ∈ items, v.Fits := by
  induction items with
  | nil => simp [ItemsFit]
  | cons v rest ih => simp [ItemsFit, ih]

theorem fieldsFit_iff {fields : List (String × Value)} :
    FieldsFit fields ↔ ∀ e ∈ fields, TextFits e.1 ∧ e.2.Fits := by
  induction fields with
  | nil => simp [FieldsFit]
  | cons e rest ih => simp [FieldsFit, ih, and_assoc]

/-! ## Values taken away -/

theorem Fits.removeAt? {names : List String} {fields fields' : List (String × Value)}
    (h : (Value.object fields).Fits) (hordered : (Value.object fields).Ordered)
    (hremove : removeAt? names fields = some fields') : (Value.object fields').Fits := by
  induction names generalizing fields fields' with
  | nil => cases hremove
  | cons name rest ih =>
    obtain ⟨hlength, hfields⟩ := fits_object.mp h
    rw [fieldsFit_iff] at hfields
    cases rest with
    | nil =>
      obtain rfl := removeAt?_single_eq_some hremove
      rw [Entries.erase]
      refine fits_object.mpr ⟨Nat.lt_of_le_of_lt (List.length_filter_le _ _) hlength, fieldsFit_iff.mpr fun e he => ?_⟩
      exact hfields e (List.mem_filter.mp he).1
    | cons next more =>
      obtain ⟨inner, inner', hinner, hbelow, rfl⟩ := removeAt?_cons_eq_some hremove
      obtain ⟨hname, hcontent⟩ := hfields _ (Entries.mem_of_get? hinner)
      have hinner' := ih hcontent ((ordered_object.mp hordered).2.of_get? hinner) hbelow
      refine fits_object.mpr ⟨?_, fieldsFit_iff.mpr fun e he => ?_⟩
      · rwa [Entries.length_put_of_get? hinner (ordered_object.mp hordered).1]
      · rcases Entries.mem_put he with rfl | he
        · exact ⟨hname, hinner'⟩
        · exact hfields e he

end PathLedger.Value
