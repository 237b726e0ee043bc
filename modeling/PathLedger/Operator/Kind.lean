import PathLedger.Fault
import PathLedger.Text.Blank

/-!
# Operator kinds

The closed set of things that an operator symbol can do. A plain write has no kind.
-/

namespace PathLedger.Operator

/-- What an operator does. -/
inductive Kind where
  | secret
  | noise
  | pointer
  | identity
  | derive
  | query
  | remove
deriving DecidableEq, Repr, Inhabited

namespace Kind

/-- The kinds in their fixed order. -/
def all : List Kind := [.secret, .noise, .pointer, .identity, .derive, .query, .remove]

def name : Kind → String
  | .secret => "secret"
  | .noise => "noise"
  | .pointer => "pointer"
  | .identity => "identity"
  | .derive => "derive"
  | .query => "query"
  | .remove => "remove"

/-- The kind with exactly this name. -/
def named? (s : String) : Option Kind := all.find? fun k => k.name == s

/-- The kind that a text names, blanks around it ignored; two kinds have a second name. -/
def parse (s : String) : Except Fault Kind :=
  let t := Text.trimmed s
  if t = "eval" then .ok .derive
  else if t = "collect" then .ok .query
  else
    match named? t with
    | some k => .ok k
    | none => .error (.invalidOperator ("unknown operator kind '" ++ t ++ "'"))

theorem named?_name (k : Kind) : named? k.name = some k := by
  cases k <;> decide

end Kind

end PathLedger.Operator
