import PathLedger.Path.Basic
import PathLedger.Value.Basic

/-!
# Reading for evaluation

Expressions and filters read paths through a resolver. Reading may have effects, such as never coming to an end, which
evaluation passes on; a resolver over `Id` has none.
-/

namespace PathLedger

/-- What evaluation needs from its host: reading a path the way a public read does, and the entry that the
index holds exactly at a path. -/
structure Resolver (m : Type → Type) where
  readPath : Path → m (Option Value)
  indexEntry : Path → Option Value

namespace Resolver

variable {m : Type → Type} [Monad m]

/-- The first of two paths that reads as a value other than null. -/
def readFirst (r : Resolver m) (first second : Path) : m (Option Value) := do
  match Value.present (← r.readPath first) with
  | some v => pure (some v)
  | none => return Value.present (← r.readPath second)

end Resolver

end PathLedger
