import PathLedger.Json.Printer

/-!
# Commands

What the command line can ask for, and the two renderings of an answer.
-/

namespace PathLedger

inductive Command where
  /-- Make a new database; an old one is only replaced by force. -/
  | init (force : Bool)
  | write (path value : String) (symbol : Option String)
  | read (path : String)
  | remove (path : String)
  | secret (scope text : String)
  | noise (scope text : String)
  | pointer (path target : String)
  | identity (path username : String)
  | operator (symbol kind : String)
  | derive (path expression : String)
  /-- Read several paths, and record the values when a scope is given. -/
  | collect (paths : List String) (scope : Option String)
  | explain (path : String)
  /-- Show the last records, all of them for zero. -/
  | inspect (last : Option Nat)
  | verify
  | exportTo (place format : String)
  | importFrom (place : String)
  | replayFrom (place : String)
deriving DecidableEq, Repr

namespace Command

/-- An answer, as a document and as text. -/
structure Output where
  json : Json
  text : String

end Command

end PathLedger
