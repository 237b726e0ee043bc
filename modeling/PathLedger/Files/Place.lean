import PathLedger.Text.GraphemeBase
import PathLedger.Text.Split

/-!
# Places of files as texts

* `Place.steps` — the steps of a place from the working folder.
* `Place.fileName?`, `Place.folder` — the last name of a place and what stands before it.
* `Place.quoted` — a place in quotation marks, with the characters that are not seen as they are escaped.
-/

namespace PathLedger.Place

open Text

/-- One step of a place. -/
inductive Step where
  | into (name : String)
  | up
deriving DecidableEq, Repr

/-- Whether a place starts at the top of the file system. -/
def isAbsolute (place : String) : Bool := place.toList.head? == some '/'

/-- Whether a place can only be a folder because of how it ends. -/
def mustBeFolder (place : String) : Bool :=
  match place.toList.reverse with
  | '/' :: _ => true
  | '.' :: '/' :: _ => true
  | _ => false

/-- The step of one part of a place; empty parts and single dots take none. -/
def step? (part : List Char) : Option Step :=
  if part.isEmpty || part = ['.'] then none
  else if part = ['.', '.'] then some .up
  else some (.into (String.ofList part))

def steps (place : String) : List Step := (splitAll '/' place.toList).filterMap step?

/-- The last name of a place; none when the place ends with a step up or has no step. -/
def fileName? (place : String) : Option String :=
  match (steps place).getLast? with
  | some (.into name) => some name
  | _ => none

/-- A place, last character first, without separators and lone dots at its end. -/
def dropTrailing : List Char → List Char
  | '/' :: r => dropTrailing r
  | '.' :: '/' :: r => dropTrailing r
  | s => s

/-- What stands before the last name of a place, as written; a single dot when nothing does. -/
def folder (place : String) : String :=
  let behindName := (dropTrailing place.toList.reverse).dropWhile (· != '/')
  let rest := dropTrailing behindName
  if !rest.isEmpty then String.ofList rest.reverse
  else if behindName.isEmpty then "." else "/"

/-- One character between quotation marks. -/
def shown (c : Char) : List Char :=
  match c with
  | '\x00' => ['\\', '0']
  | '\t' => ['\\', 't']
  | '\n' => ['\\', 'n']
  | '\r' => ['\\', 'r']
  | '"' => ['\\', '"']
  | '\\' => ['\\', '\\']
  | _ => if isSeen c then [c] else "\\u\x7b".toList ++ Nat.toDigits 16 c.toNat ++ ['\x7d']

/-- A place in quotation marks. -/
def quoted (place : String) : String :=
  String.ofList ('"' :: place.toList.flatMap shown ++ ['"'])

end PathLedger.Place
