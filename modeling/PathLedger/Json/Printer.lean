import PathLedger.Bytes.Hex
import PathLedger.Json.Basic
import PathLedger.Number.Layout

/-!
# Written documents

* `Json.compact` — a document without any blanks. This text is also what record hashes are taken of.
* `Json.pretty` — a document with one item a line and two blanks of indentation a level.

Strings escape the quotation mark, the backslash and the control characters below the blank, nothing
else.
-/

namespace PathLedger.Json

/-- A character inside a quoted string. -/
def escapeChar (c : Char) : List Char :=
  if c = '"' then ['\\', '"']
  else if c = '\\' then ['\\', '\\']
  else if 0x20 ≤ c.toNat then [c]
  else if c = '\n' then ['\\', 'n']
  else if c = '\r' then ['\\', 'r']
  else if c = '\t' then ['\\', 't']
  else if c.toNat = 8 then ['\\', 'b']
  else if c.toNat = 12 then ['\\', 'f']
  else ['\\', 'u', '0', '0', Bytes.Hex.digit (c.toNat / 16), Bytes.Hex.digit (c.toNat % 16)]

/-- A string between quotation marks. -/
def quote (s : String) : String := String.ofList ('"' :: s.toList.flatMap escapeChar ++ ['"'])

/-- A double; infinities and non-numbers are written as null. -/
def numberText (x : Binary64) : String := if x.isFinite then FloatLayout.json.write x else "null"

mutual

/-- A document without blanks. -/
def compact : Json → String
  | .null => "null"
  | .bool b => if b then "true" else "false"
  | .int n => toString n
  | .real x => numberText x
  | .str s => quote s
  | .arr items => "[" ++ compactItems items ++ "]"
  | .obj fields => "\x7b" ++ compactFields fields ++ "\x7d"

def compactItems : List Json → String
  | [] => ""
  | [item] => compact item
  | item :: rest => compact item ++ "," ++ compactItems rest

def compactFields : List (String × Json) → String
  | [] => ""
  | [(name, content)] => quote name ++ ":" ++ compact content
  | (name, content) :: rest => quote name ++ ":" ++ compact content ++ "," ++ compactFields rest

end

/-- The start of a line at a level of indentation. -/
def newline (level : Nat) : String := "\n" ++ String.ofList (List.replicate (2 * level) ' ')

mutual

/-- A document that starts at a level of indentation. -/
def prettyAt (level : Nat) : Json → String
  | .arr [] => "[]"
  | .arr (item :: rest) =>
    "[" ++ newline (level + 1) ++ prettyAt (level + 1) item ++ prettyItems (level + 1) rest ++
      newline level ++ "]"
  | .obj [] => "\x7b\x7d"
  | .obj ((name, content) :: rest) =>
    "\x7b" ++ newline (level + 1) ++ quote name ++ ": " ++ prettyAt (level + 1) content ++
      prettyFields (level + 1) rest ++ newline level ++ "\x7d"
  | .null => "null"
  | .bool b => if b then "true" else "false"
  | .int n => toString n
  | .real x => numberText x
  | .str s => quote s

/-- The items behind the first, each on its line. -/
def prettyItems (level : Nat) : List Json → String
  | [] => ""
  | item :: rest => "," ++ newline level ++ prettyAt level item ++ prettyItems level rest

/-- The fields behind the first, each on its line. -/
def prettyFields (level : Nat) : List (String × Json) → String
  | [] => ""
  | (name, content) :: rest =>
    "," ++ newline level ++ quote name ++ ": " ++ prettyAt level content ++ prettyFields level rest

end

/-- A document with one item a line. -/
def pretty (j : Json) : String := prettyAt 0 j

end PathLedger.Json
