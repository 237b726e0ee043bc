import PathLedger.Number.Binary64

/-!
# Documents

The interchange documents of the library: nulls, truth values, numbers, strings, arrays and objects.
Whole numbers are kept apart from doubles, because they are written differently. An object lists its
fields in the order in which their names first appeared; a repeated name replaces the content.
-/

namespace PathLedger

inductive Json where
  | null
  | bool (b : Bool)
  | int (n : Int)
  | real (x : Binary64)
  | str (s : String)
  | arr (items : List Json)
  | obj (fields : List (String × Json))
deriving Inhabited

namespace Json

/-- The content of a field, when the document is an object that has it. -/
def field? (name : String) : Json → Option Json
  | .obj fields => fields.lookup name
  | _ => none

/-- The fields with one of them set: in its old place if it was there, else at the end. -/
def setField (name : String) (content : Json) : List (String × Json) → List (String × Json)
  | [] => [(name, content)]
  | (n, c) :: r => if n = name then (n, content) :: r else (n, c) :: setField name content r

def asString? : Json → Option String
  | .str s => some s
  | _ => none

def asInt? : Json → Option Int
  | .int n => some n
  | _ => none

/-- A document for a string that may be missing. -/
def ofOption (f : α → Json) : Option α → Json
  | none => .null
  | some a => f a

/-- A document for a list of strings. -/
def strings (l : List String) : Json := .arr (l.map .str)

end Json

end PathLedger
