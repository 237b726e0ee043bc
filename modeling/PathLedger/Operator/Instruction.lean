import PathLedger.Operator.Registry
import PathLedger.Path.Basic
import PathLedger.Username
import PathLedger.Value.Json

/-!
# What a write means

A write names a raw path and a value. When the last segment of the path is a bound operator symbol,
or a symbol is given beside the path, the write is a declaration; otherwise it sets a value.

* `Operator.Instruction` — the possible meanings.
* `Operator.classifyKind` — the meaning of a kind of operator applied to a scope.
* `Operator.classify` — the meaning of a write.

All refusals of a write happen here or when an operator is defined.
-/

namespace PathLedger.Operator

/-- What a write means. -/
inductive Instruction where
  /-- Set a value. -/
  | set (path : Path) (value : Value)
  | declareSecret (scope : Path) (secret : String)
  | declareNoise (scope : Path) (noise : String)
  | point (path : Path) (target : String)
  | identify (path : Path) (username : String)
  /-- Derive a name under a scope. The scope keeps its raw segments, so that selectors in it can
  broadcast. -/
  | derive (scope : Path) (name expression : String)
  /-- Evaluate at the root, without recording anything. -/
  | evaluate (expression : String)
  /-- Read paths and record the values at the scope; at the root they are only returned. -/
  | collect (scope : Path) (paths : List String)
  | remove (target : Path)
  | define (symbol kind : String)
deriving DecidableEq, Repr

/-- The refusal of a declaration called at a path. -/
def refuse (path : Path) (reason : String) : Fault := .invalidDeclaration path.key reason

/-- The text that a declaration needs. -/
def expectText (value : Value) (path : Path) (what : String) : Except Fault String :=
  match value with
  | .text s => .ok s
  | _ => .error (refuse path (what ++ " must be a string"))

/-- The trimmed text of a text, a number or a truth value. -/
def scalarText? : Value → Option String
  | .text s => some (Text.trimmed s)
  | .number x => some (Value.number x).display
  | .bool b => some (Value.bool b).display
  | _ => none

/-- The text of a pointer target: trimmed, and without dots in front. -/
def targetText (raw : String) : String :=
  String.ofList (Text.trim ((Text.trim raw.toList).dropWhile (· == '.')))

/-- The meaning of a derivation. A list names the derived segment and the expression; a text derives the
scope itself. -/
def classifyDerive (scope path : Path) : Value → Except Fault Instruction
  | .list (a :: b :: _) =>
    let name := (scalarText? a).getD ""
    let expression := (scalarText? b).getD ""
    if name.isEmpty || expression.isEmpty then .error (refuse path "expected [name, expression]")
    else .ok (.derive scope name expression)
  | .text s =>
    let expression := Text.trimmed s
    if expression.isEmpty then .error (refuse path "empty expression")
    else
      match scope.last? with
      | none => .ok (.evaluate expression)
      | some name => .ok (.derive scope.parent name expression)
  | _ => .error (refuse path "expected an expression")

/-- The paths that a query names. -/
def queryPaths : Value → List String
  | .list items => (items.filterMap scalarText?).filter (!·.isEmpty)
  | .text s => [Text.trimmed s]
  | _ => []

/-- The meaning of an operator of a kind applied to a raw scope. `path` is the whole call path, which
refusals name. -/
def classifyKind (kind : Kind) (scope path : Path) (value : Value) : Except Fault Instruction :=
  match kind with
  | .secret => do
    let secret ← expectText value path "secret"
    pure (.declareSecret scope.normalize secret)
  | .noise => do
    let noise ← expectText value path "noise"
    pure (.declareNoise scope.normalize noise)
  | .pointer => do
    let raw ← expectText value path "pointer target"
    let target := targetText raw
    if target.isEmpty then throw (refuse path "pointer target is empty")
    else if scope.isRoot then throw (refuse path "a pointer cannot be declared at the root")
    else pure (.point scope.normalize (Path.canonical target).key)
  | .identity => do
    let raw ← expectText value path "identity"
    let username ← Username.normalize raw
    pure (.identify scope.normalize username)
  | .derive => classifyDerive scope path value
  | .query =>
    let paths := queryPaths value
    if paths.all (·.isEmpty) then .error (refuse path "expected a list of paths")
    else .ok (.collect scope.normalize paths)
  | .remove =>
    match value with
    | .null => .ok (.remove scope.normalize)
    | .text relative => .ok (.remove (scope.join (Path.parse relative)).normalize)
    | _ => .error (refuse path "remove takes no value or a relative path")

/-- The call path of a write: a symbol given beside the path counts as its last segment. -/
def callPath (registry : Registry) (path : Path) : Option String → Except Fault Path
  | none => .ok path
  | some hint =>
    let symbol := Text.trimmed hint
    if symbol = definingSymbol || (registry.kindOf? symbol).isSome then .ok (path.child symbol)
    else .error (.invalidOperator ("unknown operator symbol '" ++ symbol ++ "'"))

/-- The meaning of a definition of an operator. -/
def classifyDefinition (path : Path) (value : Value) : Except Fault Instruction :=
  if path.length != 1 then
    .error (.invalidOperator "operators can only be defined at the root")
  else
    match value with
    | .list (a :: b :: _) =>
      let symbol := (scalarText? a).getD ""
      let kind := (scalarText? b).getD ""
      if symbol.isEmpty || kind.isEmpty then .error (.invalidOperator "expected [symbol, kind]")
      else .ok (.define symbol kind)
    | _ => .error (.invalidOperator "expected [symbol, kind]")

/-- The meaning of a write at a raw path. -/
def classify (registry : Registry) (path : Path) (value : Value) (hint : Option String) :
    Except Fault Instruction := do
  let path ← callPath registry path hint
  match path.last? with
  | none => pure (.set path value)
  | some leaf =>
    if leaf = definingSymbol then classifyDefinition path value
    else
      match registry.kindOf? leaf with
      | none => pure (.set path.normalize value)
      | some kind => classifyKind kind path.parent path value

end PathLedger.Operator
