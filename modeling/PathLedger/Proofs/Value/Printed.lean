import PathLedger.Proofs.Json.Compact
import PathLedger.Value.Json

/-!
# Values that print alike

The tagged document of a value shows everything in the value but which of the numbers without a text it holds:
infinities and non-numbers are all written as null.

* `Value.Alike` — values that differ in numbers that print alike at most.
* `Value.printed` — the value with the one non-number in place of every number without a text.
* `Value.alike_of_tagged` — values whose documents are alike are alike.
* `Value.alike_iff` — values are alike exactly when they are equal once printed.
* `Value.alike_iff_compact` — **values are alike exactly when their documents have the same text**.
-/

namespace PathLedger.Value

mutual

/-- Whether two values differ in numbers that print alike at most. -/
def Alike : Value → Value → Prop
  | .null, .null => True
  | .bool a, .bool b => a = b
  | .number x, .number y => Json.numberText x = Json.numberText y
  | .text s, .text t => s = t
  | .list l, .list m => ItemsAlike l m
  | .object l, .object m => FieldsAlike l m
  | .pointer s, .pointer t => s = t
  | .identity s, .identity t => s = t
  | .ciphertext s, .ciphertext t => s = t
  | _, _ => False

def ItemsAlike : List Value → List Value → Prop
  | [], [] => True
  | v :: l, w :: m => Alike v w ∧ ItemsAlike l m
  | _, _ => False

def FieldsAlike : List (String × Value) → List (String × Value) → Prop
  | [], [] => True
  | (k, v) :: l, (n, w) :: m => k = n ∧ Alike v w ∧ FieldsAlike l m
  | _, _ => False

end

mutual

/-- The value with the one non-number in place of every number that has no text. -/
def printed : Value → Value
  | .number x => .number (if x.isFinite then x else .nan)
  | .list items => .list (itemsPrinted items)
  | .object fields => .object (fieldsPrinted fields)
  | v => v

def itemsPrinted : List Value → List Value
  | [] => []
  | v :: r => printed v :: itemsPrinted r

def fieldsPrinted : List (String × Value) → List (String × Value)
  | [] => []
  | (k, v) :: r => (k, printed v) :: fieldsPrinted r

end

theorem numberText_of_alike {x y : Binary64}
    (h : Json.Alike (if x.isFinite then .real x else .null) (if y.isFinite then .real y else .null)) :
    Json.numberText x = Json.numberText y := by
  have hword (x : Binary64) : (if x.isFinite then Json.real x else .null).compact = Json.numberText x := by
    cases hx : x.isFinite <;> simp [Json.compact, Json.numberText, hx]
  have htext : (if x.isFinite then Json.real x else .null).compact =
      (if y.isFinite then Json.real y else .null).compact := by
    cases hx : x.isFinite <;> cases hy : y.isFinite <;> simp_all [Json.Alike]
  rwa [hword, hword] at htext

theorem bool_of_alike {a b : Bool} (h : Json.Alike (.bool a) (.bool b)) : a = b := by
  cases a <;> cases b <;> simp_all [Json.Alike, Json.compact]

mutual

/-- Values whose documents are alike are alike. -/
theorem alike_of_tagged : ∀ v w : Value, Json.Alike v.tagged w.tagged → v.Alike w
  | v, w, h => by
    cases v <;> cases w <;> simp [tagged, Alike] at h ⊢
    · exact bool_of_alike h
    · exact numberText_of_alike h
    · exact h
    · exact itemsAlike_of_tagged _ _ h
    · exact fieldsAlike_of_tagged _ _ h
    · exact h
    · exact h
    · exact h

theorem itemsAlike_of_tagged : ∀ l m : List Value, Json.ItemsAlike (taggedItems l) (taggedItems m) → ItemsAlike l m
  | [], [], _ => trivial
  | [], _ :: _, h => h
  | _ :: _, [], h => h
  | v :: l, w :: m, h => ⟨alike_of_tagged v w h.1, itemsAlike_of_tagged l m h.2⟩

theorem fieldsAlike_of_tagged : ∀ l m : List (String × Value),
    Json.FieldsAlike (taggedFields l) (taggedFields m) → FieldsAlike l m
  | [], [], _ => trivial
  | [], _ :: _, h => h
  | _ :: _, [], h => h
  | (_, v) :: l, (_, w) :: m, h => ⟨h.1, alike_of_tagged v w h.2.1, fieldsAlike_of_tagged l m h.2.2⟩

end

theorem numberText_iff {x y : Binary64} : Json.numberText x = Json.numberText y ↔
    (if x.isFinite then x else .nan) = if y.isFinite then y else .nan := by
  have hnan {x : Binary64} (h : x.isFinite) : x ≠ .nan := by
    rintro rfl
    exact absurd h (by decide)
  rw [Json.numberText_eq_iff]
  cases hx : x.isFinite with
  | true =>
    cases hy : y.isFinite with
    | true => simp
    | false =>
      have : x ≠ y := fun h => by rw [h, hy] at hx; cases hx
      simp [this, hnan hx]
  | false =>
    cases hy : y.isFinite with
    | true =>
      have : x ≠ y := fun h => by rw [h, hy] at hx; cases hx
      simp [this, (hnan hy).symm]
    | false => simp

mutual

/-- Values are alike exactly when they are equal once printed. -/
theorem alike_iff : ∀ v w : Value, v.Alike w ↔ v.printed = w.printed
  | v, w => by
    cases v <;> cases w <;> simp [printed, Alike]
    · exact numberText_iff
    · exact itemsAlike_iff _ _
    · exact fieldsAlike_iff _ _

theorem itemsAlike_iff : ∀ l m : List Value, ItemsAlike l m ↔ itemsPrinted l = itemsPrinted m
  | [], [] => by simp [ItemsAlike]
  | [], _ :: _ => by simp [ItemsAlike, itemsPrinted]
  | _ :: _, [] => by simp [ItemsAlike, itemsPrinted]
  | v :: l, w :: m => by simp [ItemsAlike, itemsPrinted, alike_iff v w, itemsAlike_iff l m]

theorem fieldsAlike_iff : ∀ l m : List (String × Value), FieldsAlike l m ↔ fieldsPrinted l = fieldsPrinted m
  | [], [] => by simp [FieldsAlike]
  | [], _ :: _ => by simp [FieldsAlike, fieldsPrinted]
  | _ :: _, [] => by simp [FieldsAlike, fieldsPrinted]
  | (k, v) :: l, (n, w) :: m => by
    simp [FieldsAlike, fieldsPrinted, alike_iff v w, fieldsAlike_iff l m, and_assoc]

end

mutual

/-- A printed value has the document of the value. -/
theorem tagged_printed : ∀ v : Value, v.printed.tagged = v.tagged
  | .number x => by
    have hnan : Binary64.nan.isFinite = false := by decide
    cases hx : x.isFinite <;> simp [printed, tagged, hx, hnan]
  | .list items => by rw [printed, tagged, tagged, taggedItems_printed items]
  | .object fields => by rw [printed, tagged, tagged, taggedFields_printed fields]
  | .null => rfl
  | .bool _ => rfl
  | .text _ => rfl
  | .pointer _ => rfl
  | .identity _ => rfl
  | .ciphertext _ => rfl

theorem taggedItems_printed : ∀ l : List Value, taggedItems (itemsPrinted l) = taggedItems l
  | [] => rfl
  | v :: l => by rw [itemsPrinted, taggedItems, taggedItems, tagged_printed v, taggedItems_printed l]

theorem taggedFields_printed : ∀ l : List (String × Value), taggedFields (fieldsPrinted l) = taggedFields l
  | [] => rfl
  | (k, v) :: l => by rw [fieldsPrinted, taggedFields, taggedFields, tagged_printed v, taggedFields_printed l]

end

/-- **Values are alike exactly when their documents have the same text.** -/
theorem alike_iff_compact {v w : Value} : v.Alike w ↔ v.tagged.compact = w.tagged.compact := by
  constructor
  · intro h
    rw [← tagged_printed v, ← tagged_printed w, (alike_iff v w).mp h]
  · exact fun h => alike_of_tagged v w (Json.alike_of_compact h)

end PathLedger.Value
