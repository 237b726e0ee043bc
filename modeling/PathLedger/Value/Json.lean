import PathLedger.Value.Basic
import PathLedger.Json.Printer

/-!
# Values as documents

Two readings of values as documents.

* `Value.toJson`, `Value.ofJson` — plain documents for display and input. Integral numbers of moderate size
  are written as whole numbers; markers and sealed text are written as objects with one field and are
  never read back.
* `Value.tagged`, `Value.ofTagged?` — the tagged form of records and snapshots, which names the kind of
  every value, so that nothing but the payload of a non-finite number is lost.
* `Value.display` — text as it is, anything else as a plain compact document.
-/

namespace PathLedger.Value

/-- The plain document of a number: whole numbers below nine quadrillion have no fraction. -/
def numberJson (x : Binary64) : Json :=
  match x.toInt? with
  | some n => if n.natAbs < 9000000000000000 then .int n else .real x
  | none => if x.isFinite then .real x else .null

mutual

/-- The plain document of a value. -/
def toJson : Value → Json
  | .null => .null
  | .bool b => .bool b
  | .number x => numberJson x
  | .text s => .str s
  | .list items => .arr (itemsJson items)
  | .object fields => .obj (fieldsJson fields)
  | .pointer t => .obj [("ptr", .str t)]
  | .identity n => .obj [("id", .str n)]
  | .ciphertext b => .obj [("blob", .str b)]

def itemsJson : List Value → List Json
  | [] => []
  | v :: r => toJson v :: itemsJson r

def fieldsJson : List (String × Value) → List (String × Json)
  | [] => []
  | (k, v) :: r => (k, toJson v) :: fieldsJson r

end

mutual

/-- The value of a plain document. Objects become objects, never markers. -/
def ofJson : Json → Value
  | .null => .null
  | .bool b => .bool b
  | .int n => .number (.ofInt n)
  | .real x => .number x
  | .str s => .text s
  | .arr items => .list (ofItems items)
  | .obj fields => .object (ofFields [] fields)

def ofItems : List Json → List Value
  | [] => []
  | j :: r => ofJson j :: ofItems r

/-- The values of plain fields, put in order among the fields read before. -/
def ofFields (acc : List (String × Value)) : List (String × Json) → List (String × Value)
  | [] => acc
  | (k, j) :: r => ofFields (Entries.put k (ofJson j) acc) r

end

mutual

/-- The tagged document of a value. A number that is not finite has no written form. -/
def tagged : Value → Json
  | .null => .str "null"
  | .bool b => .obj [("bool", .bool b)]
  | .number x => .obj [("number", if x.isFinite then .real x else .null)]
  | .text s => .obj [("text", .str s)]
  | .list items => .obj [("list", .arr (taggedItems items))]
  | .object fields => .obj [("object", .obj (taggedFields fields))]
  | .pointer t => .obj [("pointer", .str t)]
  | .identity n => .obj [("identity", .str n)]
  | .ciphertext b => .obj [("ciphertext", .str b)]

def taggedItems : List Value → List Json
  | [] => []
  | v :: r => tagged v :: taggedItems r

def taggedFields : List (String × Value) → List (String × Json)
  | [] => []
  | (k, v) :: r => (k, tagged v) :: taggedFields r

end

mutual

/-- The value of a tagged document; the tag decides what the content must be. -/
def ofTagged? : Json → Option Value
  | .str s => if s = "null" then some .null else none
  | .obj [(tag, .null)] => if tag = "null" then some .null else none
  | .obj [(tag, .bool b)] => if tag = "bool" then some (.bool b) else none
  | .obj [(tag, .int n)] => if tag = "number" then some (.number (.ofInt n)) else none
  | .obj [(tag, .real x)] => if tag = "number" then some (.number x) else none
  | .obj [(tag, .str s)] =>
    if tag = "text" then some (.text s)
    else if tag = "pointer" then some (.pointer s)
    else if tag = "identity" then some (.identity s)
    else if tag = "ciphertext" then some (.ciphertext s)
    else none
  | .obj [(tag, .arr items)] =>
    if tag = "list" then (ofTaggedItems? items).map .list else none
  | .obj [(tag, .obj fields)] =>
    if tag = "object" then (ofTaggedFields? [] fields).map .object else none
  | _ => none

/-- The values of tagged items, when all of them are values. -/
def ofTaggedItems? : List Json → Option (List Value)
  | [] => some []
  | j :: r =>
    match ofTagged? j with
    | none => none
    | some v => (ofTaggedItems? r).map (v :: ·)

/-- The values of tagged fields, put in order among the fields read before. -/
def ofTaggedFields? (acc : List (String × Value)) :
    List (String × Json) → Option (List (String × Value))
  | [] => some acc
  | (k, j) :: r =>
    match ofTagged? j with
    | none => none
    | some v => ofTaggedFields? (Entries.put k v acc) r

end

/-- Text as it is, anything else as a compact plain document. -/
def display : Value → String
  | .text s => s
  | v => v.toJson.compact

end PathLedger.Value
