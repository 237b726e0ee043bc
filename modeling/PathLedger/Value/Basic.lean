import PathLedger.Entries
import PathLedger.Number.Binary64

/-!
# Values

What a path can hold: plain data, two structural markers (a pointer to a path, a claimed identity)
and sealed text. Markers and sealed text are cases of their own, so plain data never turns into
them.

* `Value.Ordered` — the fields of every object inside the value are in strictly increasing name order.
  Every operation that makes values keeps it.
* `Value.same` — equality that compares numbers as numbers: the two zeros are equal, a non-number equals
  nothing. Equality of the type itself compares bits.
-/

namespace PathLedger

inductive Value where
  | null
  | bool (b : Bool)
  | number (x : Binary64)
  | text (s : String)
  | list (items : List Value)
  | object (fields : List (String × Value))
  /-- A reference to another path. -/
  | pointer (target : String)
  /-- A claimed user name. -/
  | identity (name : String)
  /-- A sealed value, in base 64. -/
  | ciphertext (blob : String)
deriving Inhabited, Repr

namespace Value

mutual

/-- Equality of values as a test; numbers are compared by their bits. -/
def eqb : Value → Value → Bool
  | .null, .null => true
  | .bool a, .bool b => a == b
  | .number a, .number b => a == b
  | .text a, .text b => a == b
  | .list a, .list b => eqbItems a b
  | .object a, .object b => eqbFields a b
  | .pointer a, .pointer b => a == b
  | .identity a, .identity b => a == b
  | .ciphertext a, .ciphertext b => a == b
  | _, _ => false

def eqbItems : List Value → List Value → Bool
  | [], [] => true
  | a :: r, b :: t => eqb a b && eqbItems r t
  | _, _ => false

def eqbFields : List (String × Value) → List (String × Value) → Bool
  | [], [] => true
  | (k, a) :: r, (l, b) :: t => k == l && eqb a b && eqbFields r t
  | _, _ => false

end

mutual

theorem eqb_iff : ∀ a b : Value, eqb a b = true ↔ a = b
  | a, b => by
    cases a <;> cases b <;> simp [eqb]
    · exact eqbItems_iff _ _
    · exact eqbFields_iff _ _

theorem eqbItems_iff : ∀ a b : List Value, eqbItems a b = true ↔ a = b
  | [], [] => by simp [eqbItems]
  | [], _ :: _ => by simp [eqbItems]
  | _ :: _, [] => by simp [eqbItems]
  | a :: r, b :: t => by simp [eqbItems, eqb_iff a b, eqbItems_iff r t]

theorem eqbFields_iff : ∀ a b : List (String × Value), eqbFields a b = true ↔ a = b
  | [], [] => by simp [eqbFields]
  | [], _ :: _ => by simp [eqbFields]
  | _ :: _, [] => by simp [eqbFields]
  | (k, a) :: r, (l, b) :: t => by
    simp [eqbFields, eqb_iff a b, eqbFields_iff r t, and_assoc]

end

instance : DecidableEq Value := fun a b => decidable_of_iff _ (eqb_iff a b)

mutual

/-- Equality with numbers compared as numbers. -/
def same : Value → Value → Bool
  | .null, .null => true
  | .bool a, .bool b => a == b
  | .number a, .number b => a.sameNumber b
  | .text a, .text b => a == b
  | .list a, .list b => sameItems a b
  | .object a, .object b => sameFields a b
  | .pointer a, .pointer b => a == b
  | .identity a, .identity b => a == b
  | .ciphertext a, .ciphertext b => a == b
  | _, _ => false

def sameItems : List Value → List Value → Bool
  | [], [] => true
  | a :: r, b :: t => same a b && sameItems r t
  | _, _ => false

def sameFields : List (String × Value) → List (String × Value) → Bool
  | [], [] => true
  | (k, a) :: r, (l, b) :: t => k == l && same a b && sameFields r t
  | _, _ => false

end

mutual

/-- Fields are in strictly increasing name order at every depth. -/
def Ordered : Value → Prop
  | .list items => ItemsOrdered items
  | .object fields => Entries.Ordered fields ∧ FieldsOrdered fields
  | _ => True

def ItemsOrdered : List Value → Prop
  | [] => True
  | v :: r => Ordered v ∧ ItemsOrdered r

def FieldsOrdered : List (String × Value) → Prop
  | [] => True
  | (_, v) :: r => Ordered v ∧ FieldsOrdered r

end

def isNull : Value → Bool
  | .null => true
  | _ => false

/-- Pointers and identities are structural: they are never sealed in place. -/
def isMarker : Value → Bool
  | .pointer _ => true
  | .identity _ => true
  | _ => false

def asText? : Value → Option String
  | .text s => some s
  | _ => none

def asPointer? : Value → Option String
  | .pointer t => some t
  | _ => none

def asIdentity? : Value → Option String
  | .identity n => some n
  | _ => none

/-- Null counts as no value. -/
def present (v : Option Value) : Option Value := v.filter fun v => !v.isNull

end Value

end PathLedger
