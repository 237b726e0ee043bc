import PathLedger.Text.Split
import PathLedger.Text.Quote

/-!
# Brackets and quotes inside a path text

Two scanners over characters.

* `Path.cut` — a raw path text cut at the dots that stand outside brackets. Inside a bracket a quotation
  mark opens a stretch in which neither dots nor brackets count.
* `Path.groups` — a row of bracket groups `[a][b]…` taken apart, honouring nesting and quotes; anything
  between or behind the groups makes the row malformed.
* `Path.expand` — the plain segments that one raw segment stands for.
-/

namespace PathLedger.Path

open Text

def isQuote (c : Char) : Bool := c = '"' || c = '\''

/-- A character put in front of the first piece. -/
def consHead (c : Char) : List (List Char) → List (List Char)
  | [] => [[c]]
  | piece :: rest => (c :: piece) :: rest

/-- The pieces between the dots that stand outside brackets, untrimmed. `depth` counts the open brackets
and `mark` is the open quotation mark. A closing bracket too many is ignored. -/
def cut (depth : Nat) (mark : Option Char) : List Char → List (List Char)
  | [] => [[]]
  | c :: r =>
    match mark with
    | some q => consHead c (cut depth (if c = q then none else some q) r)
    | none =>
      if isQuote c && depth != 0 then consHead c (cut depth (some c) r)
      else if c = '[' then consHead c (cut (depth + 1) none r)
      else if c = ']' then consHead c (cut (depth - 1) none r)
      else if c = '.' && depth = 0 then [] :: cut 0 none r
      else consHead c (cut depth none r)

/-- The contents of the groups in a row of bracket groups. At depth zero a group has to open or the text
to end; inside, the first piece of the result is the rest of the current group. -/
def groups (depth : Nat) (mark : Option Char) : List Char → Option (List (List Char))
  | [] => if depth = 0 then some [] else none
  | c :: r =>
    if depth = 0 then if c = '[' then groups 1 none r else none
    else
      match mark with
      | some q => (groups depth (if c = q then none else some q) r).map (consHead c)
      | none =>
        if isQuote c then (groups depth (some c) r).map (consHead c)
        else if c = '[' then (groups (depth + 1) none r).map (consHead c)
        else if c = ']' then
          if depth = 1 then (groups 0 none r).map ([] :: ·)
          else (groups (depth - 1) none r).map (consHead c)
        else (groups depth none r).map (consHead c)

/-- The pieces of a list that are not empty. -/
def nonEmpty (pieces : List (List Char)) : List (List Char) := pieces.filter (!·.isEmpty)

/-- The plain segments of one raw segment: its base and the keys of its bracket groups. A malformed row of
groups stays one segment as it is. -/
def expand (segment : List Char) : List (List Char) :=
  let s := trim segment
  let base := s.takeWhile (· != '[')
  let tail := s.dropWhile (· != '[')
  if tail.isEmpty then nonEmpty [s]
  else
    nonEmpty [trim base] ++
      match groups 0 none tail with
      | some contents => nonEmpty (contents.map fun g => unquote (trim g))
      | none => [tail]

end PathLedger.Path
