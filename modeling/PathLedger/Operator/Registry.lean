import PathLedger.Dict
import PathLedger.Operator.Kind

/-!
# Operator symbols

A registry binds symbols to operator kinds. The symbol `+` defines others and is never bound itself.

* `Operator.Registry.initial` — the symbols that are bound from the start.
* `Operator.Registry.overlay` — the initial bindings replaced and extended by imported ones.
* `Operator.Registry.define` — one binding made by the user.
-/

namespace PathLedger.Operator

/-- The symbol that defines operators. -/
def definingSymbol : String := "+"

/-- The bindings of symbols to kinds. -/
abbrev Registry := Dict String Kind

namespace Registry

/-- The bindings that exist from the start. -/
def initial : Registry :=
  Dict.ofList [("_", .secret), ("~", .noise), ("__", .pointer), ("->", .pointer), ("@", .identity),
    ("=", .derive), ("?", .query), ("-", .remove)]

def kindOf? (r : Registry) (symbol : String) : Option Kind := r.get? symbol

/-- The initial bindings overlaid with imported ones; the defining symbol and the empty symbol are left
out. -/
def overlay (imported : Dict String Kind) : Registry :=
  imported.entries.foldl
    (fun r e => if e.1 != definingSymbol && !e.1.isEmpty then r.insert e.1 e.2 else r) initial

/-- The registry with a symbol bound to the kind of the given name. A symbol is one path segment
without brackets. -/
def define (r : Registry) (symbol kind : String) : Except Fault (Kind × Registry) :=
  let s := Text.trimmed symbol
  if s.isEmpty then .error (.invalidOperator "empty symbol")
  else if s = definingSymbol then .error (.protectedOperator s)
  else if s.toList.any fun c => c == '.' || c == '[' || c == ']' then
    .error (.invalidOperator ("symbol '" ++ s ++ "' is not a single path segment"))
  else
    match Kind.parse kind with
    | .error f => .error f
    | .ok k => .ok (k, r.insert s k)

end Registry

end PathLedger.Operator
