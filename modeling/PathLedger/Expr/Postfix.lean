import PathLedger.Expr.Token

/-!
# Operator precedence

`Expr.toPostfix` turns a row of tokens into postfix order with one stack of waiting operators, checking at
every token whether it may stand behind the one before. A row that is no expression has no postfix
form.

* `Expr.Step` — one step of the postfix form.
* `Expr.Waiting` — an operator or an open parenthesis on the stack.
-/

namespace PathLedger.Expr

/-- One step of the postfix form. -/
inductive Step where
  | push (v : Value)
  | load (label : String)
  | unary (o : Unary)
  | binary (o : Binary)
deriving DecidableEq, Repr, Inhabited

/-- What waits on the operator stack. -/
inductive Waiting where
  | unary (o : Unary)
  | binary (o : Binary)
  | opening
deriving DecidableEq, Repr, Inhabited

/-- The operators on top of the stack that a binary operator of this level makes run: those that bind at
least as tightly. The first part of the result runs, the second stays. -/
def runTighter (level : Nat) : List Waiting → List Step × List Waiting
  | .unary o :: rest =>
    if level ≤ unaryLevel then
      let (run, stay) := runTighter level rest
      (.unary o :: run, stay)
    else ([], .unary o :: rest)
  | .binary o :: rest =>
    if level ≤ o.level then
      let (run, stay) := runTighter level rest
      (.binary o :: run, stay)
    else ([], .binary o :: rest)
  | stack => ([], stack)

/-- The operators down to the innermost open parenthesis, and the stack below it. -/
def runToOpening : List Waiting → Option (List Step × List Waiting)
  | [] => none
  | .opening :: rest => some ([], rest)
  | .unary o :: rest => (runToOpening rest).map fun p => (.unary o :: p.1, p.2)
  | .binary o :: rest => (runToOpening rest).map fun p => (.binary o :: p.1, p.2)

/-- All waiting operators; an open parenthesis among them is an error. -/
def runAll : List Waiting → Option (List Step)
  | [] => some []
  | .opening :: _ => none
  | .unary o :: rest => (runAll rest).map (.unary o :: ·)
  | .binary o :: rest => (runAll rest).map (.binary o :: ·)

/-- The postfix form of the remaining tokens. `behind` tells whether an operand has just ended. A unary
operator waits at once, because nothing binds more tightly. -/
def convert (behind : Bool) (stack : List Waiting) : List Token → Option (List Step)
  | [] => if behind then runAll stack else none
  | .literal v :: ts =>
    if behind then none else (convert true stack ts).map (.push v :: ·)
  | .identifier l :: ts =>
    if behind then none else (convert true stack ts).map (.load l :: ·)
  | .opening :: ts => if behind then none else convert false (.opening :: stack) ts
  | .closing :: ts =>
    if behind then
      match runToOpening stack with
      | none => none
      | some (run, stay) => (convert true stay ts).map (run ++ ·)
    else none
  | .not :: ts => if behind then none else convert false (.unary .not :: stack) ts
  | .operator o :: ts =>
    if behind then
      let (run, stay) := runTighter o.level stack
      (convert false (.binary o :: stay) ts).map (run ++ ·)
    else if o = .sub then convert false (.unary .neg :: stack) ts
    else none

def toPostfix (tokens : List Token) : Option (List Step) := convert false [] tokens

end PathLedger.Expr
