import PathLedger.Derivation.Graph
import PathLedger.Expr.Evaluate

/-!
# Binding of references

When a derivation is registered, every identifier of its formula is bound to a key, to which the
target then subscribes.
-/

namespace PathLedger.Derivation

variable {m : Type → Type} [Monad m]

/-- The path that a label is bound to: below the scope when that reads as a value; else as an absolute path
when that does, or when the label has a dot; else below the scope. -/
def bindPath (r : Resolver m) (scope : Path) (label : String) : m Path := do
  let absolute := Path.canonical label
  let relative := scope.join absolute
  if (← r.readPath relative).isSome then pure relative
  else if (← r.readPath absolute).isSome || label.toList.contains '.' then pure absolute
  else pure relative

/-- The labels that are bound. Those that read through the pointer at the scope are not, nor those that name
no path. -/
def boundLabels (expression : String) : List String :=
  (Expr.references expression).filter fun label =>
    (Expr.pointerLabel? label).isNone && !(Path.canonical label).isRoot

/-- Of references to one key the first stays. -/
def firstPerKey (refs : List Reference) : List Reference :=
  refs.foldl (fun kept r => if kept.any (·.path == r.path) then kept else kept ++ [r]) []

/-- The references of a formula at a scope. -/
def bindReferences (r : Resolver m) (expression : String) (scope : Path) : m (List Reference) := do
  let refs ← (boundLabels expression).mapM fun label => do
    let p ← bindPath r scope label
    pure (Reference.mk label p.key)
  return firstPerKey refs

/-- What a derivation stores: the value of its formula, or else the formula as text. -/
def valueOrExpression (value : Option Value) (expression : String) : Value :=
  value.getD (.text expression)

end PathLedger.Derivation
