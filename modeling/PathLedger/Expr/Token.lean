import PathLedger.Value.Basic

/-!
# Tokens of expressions

Expressions combine path references, decimal numbers and a few reserved words with the operators of
arithmetic and logic.

* `Expr.Unary`, `Expr.Binary` — the operators. All binary operators associate to the left; the two unary
  ones stand in front of their operand and bind tightest.
* `Expr.Token` — what the lexer makes. A minus sign is the binary operator until its place in the row of
  tokens shows otherwise.
* `Expr.reservedWord?` — the words that denote constants instead of paths.
-/

namespace PathLedger.Expr

/-- The operators in front of an operand. -/
inductive Unary where
  | neg
  | not
deriving DecidableEq, Repr, Inhabited

/-- The operators between two operands. -/
inductive Binary where
  | mul
  | div
  | rem
  | add
  | sub
  | lt
  | le
  | gt
  | ge
  | eq
  | ne
  | and
  | or
deriving DecidableEq, Repr, Inhabited

/-- How tightly a binary operator binds, from one for the loosest. -/
def Binary.level : Binary → Nat
  | .or => 1
  | .and => 2
  | .eq | .ne => 3
  | .lt | .le | .gt | .ge => 4
  | .add | .sub => 5
  | .mul | .div | .rem => 6

/-- How tightly the unary operators bind. -/
def unaryLevel : Nat := 7

def Binary.symbol : Binary → String
  | .mul => "*"
  | .div => "/"
  | .rem => "%"
  | .add => "+"
  | .sub => "-"
  | .lt => "<"
  | .le => "<="
  | .gt => ">"
  | .ge => ">="
  | .eq => "=="
  | .ne => "!="
  | .and => "&&"
  | .or => "||"

inductive Token where
  | literal (v : Value)
  | identifier (label : String)
  | operator (o : Binary)
  | not
  | opening
  | closing
deriving DecidableEq, Repr, Inhabited

/-- The constant that a reserved word denotes. -/
def reservedWord? (word : String) : Option Value :=
  if word = "true" then some (.bool true)
  else if word = "false" then some (.bool false)
  else if word = "null" || word = "undefined" then some .null
  else if word = "NaN" then some (.number .nan)
  else if word = "Infinity" then some (.number .infinity)
  else none

end PathLedger.Expr
