import PathLedger.Value.Basic
import PathLedger.Number.Decimal

/-!
# Permissive comparison of values

Expressions and filters compare values loosely: decimal texts count as numbers, truth values as
zero and one, and texts among themselves by code points.

* `Value.truthy` — null, false, zero, the non-number and the empty text are false.
* `Value.finiteNumber?` — the finite number that a number or a decimal text is; the blank text is zero.
* `Value.looselyEqual`, `Value.looseOrder?` — equality and order across kinds.
-/

namespace PathLedger.Value

open Text

/-- The number of a decimal text after trimming; the blank text is zero. -/
def textNumber? (s : String) : Option Binary64 :=
  let t := trim s.toList
  if t.isEmpty then some .zero else Decimal.read? t

def truthy : Value → Bool
  | .null => false
  | .bool b => b
  | .number x => !x.isZero && !x.isNaN
  | .text s => !s.isEmpty
  | _ => true

/-- The finite number that a number or a decimal text is. -/
def finiteNumber? (v : Value) : Option Binary64 :=
  let x :=
    match v with
    | .number x => some x
    | .text s => textNumber? s
    | _ => none
  x.filter (·.isFinite)

/-- The number as which a value is compared; a value that has none counts as a non-number. -/
def numericView : Value → Binary64
  | .null => .zero
  | .bool b => if b then .one else .zero
  | .number x => x
  | .text s => (textNumber? s).getD .nan
  | _ => .nan

/-- Loose equality. Null equals only null; a number, a text and a truth value of different kinds are
compared as numbers; everything else must be the same. -/
def looselyEqual (a b : Value) : Bool :=
  match a, b with
  | .number _, .text _ => a.numericView.sameNumber b.numericView
  | .text _, .number _ => a.numericView.sameNumber b.numericView
  | .bool _, .number _ => a.numericView.sameNumber b.numericView
  | .bool _, .text _ => a.numericView.sameNumber b.numericView
  | .number _, .bool _ => a.numericView.sameNumber b.numericView
  | .text _, .bool _ => a.numericView.sameNumber b.numericView
  | a, b => a.same b

/-- Loose order: two texts by code points, anything else as numbers. -/
def looseOrder? (a b : Value) : Option Ordering :=
  match a, b with
  | .text s, .text t => some (compare s t)
  | a, b => a.numericView.compare? b.numericView

end PathLedger.Value
