import PathLedger.Expr.Lexer
import PathLedger.Expr.Postfix
import PathLedger.Resolver
import PathLedger.Value.Compare

/-!
# Evaluation of expressions

An expression is evaluated at a scope against a resolver, which reads paths. Every failure, from a
foreign character to an unresolved identifier or a number that is not finite, gives no value.

* `Expr.applyUnary`, `Expr.applyBinary` — the operators on values. Both sides are always evaluated.
* `Expr.resolveIdentifier` — relative to the scope first, then absolute; `__ptr.` reads through the pointer
  at the scope.
* `Expr.runSteps` — the postfix form on a stack of values.
* `Expr.evaluate` — the finite number or truth value of a text.
-/

namespace PathLedger

namespace Expr

open Text

/-- A unary operator on a value. -/
def applyUnary (o : Unary) (v : Value) : Option Value :=
  match o with
  | .neg => v.finiteNumber?.map fun x => .number x.neg
  | .not => some (.bool !v.truthy)

/-- A finite result of arithmetic. -/
def finiteResult (x : Binary64) : Option Value := if x.isFinite then some (.number x) else none

/-- A binary operator on finite numbers. -/
def applyArithmetic (o : Binary) (x y : Binary64) : Option Value :=
  match o with
  | .lt => some (.bool (x.compare? y == some .lt))
  | .le => some (.bool (x.compare? y == some .lt || x.compare? y == some .eq))
  | .gt => some (.bool (x.compare? y == some .gt))
  | .ge => some (.bool (x.compare? y == some .gt || x.compare? y == some .eq))
  | .add => finiteResult (x.add y)
  | .sub => finiteResult (x.sub y)
  | .mul => finiteResult (x.mul y)
  | .div => finiteResult (x.div y)
  | .rem => finiteResult (x.rem y)
  | _ => none

/-- A binary operator on values. Logic and equality take any values, the others finite numbers. -/
def applyBinary (o : Binary) (a b : Value) : Option Value :=
  match o with
  | .and => some (.bool (a.truthy && b.truthy))
  | .or => some (.bool (a.truthy || b.truthy))
  | .eq => some (.bool (a.looselyEqual b))
  | .ne => some (.bool !(a.looselyEqual b))
  | _ =>
    match a.finiteNumber?, b.finiteNumber? with
    | some x, some y => applyArithmetic o x y
    | _, _ => none

/-- The first segment of identifiers that read through the pointer stored at the scope. -/
def pointerNamespace : List Char := "__ptr.".toList

/-- The part of a label behind the pointer namespace. -/
def pointerLabel? (label : String) : Option String :=
  (behind? pointerNamespace label.toList).map String.ofList

variable {m : Type → Type} [Monad m]

/-- The value of an identifier; null counts as unresolved. -/
def resolveIdentifier (r : Resolver m) (scope : Path) (label : String) : m (Option Value) :=
  match pointerLabel? label with
  | some rest =>
    match (r.indexEntry scope).bind Value.asPointer? with
    | none => pure none
    | some target => do
      return Value.present (← r.readPath ((Path.parse target).join (Path.parse rest)))
  | none => r.readFirst (scope.join (Path.parse label)) (Path.parse label)

/-- One step on a stack of values, the top first. -/
def runStep (r : Resolver m) (scope : Path) (stack : List Value) : Step → OptionT m (List Value)
  | .push v => pure (v :: stack)
  | .load label => do
    let v ← OptionT.mk (resolveIdentifier r scope label)
    pure (v :: stack)
  | .unary o =>
    match stack with
    | a :: rest => OptionT.mk (pure ((applyUnary o a).map (· :: rest)))
    | [] => OptionT.mk (pure none)
  | .binary o =>
    match stack with
    | b :: a :: rest => OptionT.mk (pure ((applyBinary o a b).map (· :: rest)))
    | _ => OptionT.mk (pure none)

def runSteps (r : Resolver m) (scope : Path) (stack : List Value) (steps : List Step) :
    OptionT m (List Value) :=
  steps.foldlM (runStep r scope) stack

/-- What counts as the result of an expression: a finite number or a truth value. -/
def finalValue? : Value → Option Value
  | .number x => if x.isFinite then some (.number x) else none
  | .bool b => some (.bool b)
  | _ => none

/-- The postfix form of a text, when it is an expression in admitted characters. -/
def compile? (text : String) : Option (List Step) :=
  let s := trim text.toList
  if s.isEmpty || !onlyExpressionChars s then none else (tokenize s).bind toPostfix

/-- The value of an expression at a scope. -/
def evaluate (r : Resolver m) (scope : Path) (text : String) : m (Option Value) :=
  match compile? text with
  | none => pure none
  | some steps => do
    match ← (runSteps r scope [] steps).run with
    | some [v] => pure (finalValue? v)
    | _ => pure none

/-- The distinct identifiers of a text in the order in which they first occur. A text that is no row of
tokens has none. -/
def references (text : String) : List String :=
  let labels := ((tokenize (trim text.toList)).getD []).filterMap fun t =>
    match t with
    | .identifier l => some l
    | _ => none
  labels.foldl (fun seen l => if seen.contains l then seen else seen ++ [l]) []

end Expr

end PathLedger
