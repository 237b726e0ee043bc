import PathLedger.Operator.Instruction
import PathLedger.Store.Derive

/-!
# Calls

The public operations. A call is refused when its input does not classify, and then it leaves the
store as it was. A call that starts a read or an evaluation without end never returns.

* `Store.write` — a value or a declaration at a raw path.
* `Store.read` — the value at a raw path.
* `Store.remove`, `Store.declareSecret`, `Store.declareNoise`, `Store.definePointer`,
  `Store.declareIdentity`, `Store.defineOperator`, `Store.deriveAt`, `Store.collectAt` — declarations by name.
* `Store.collect`, `Store.collectWith` — several reads at once.
-/

namespace PathLedger.Store

/-- The value at a raw path, if there is one; no result at all when the read never ends. -/
def read (s : Store) (path : String) : Option (Option Value) := s.view.read (Path.parse path)

/-- Several reads handed to a combiner. -/
def collectWith (s : Store) (paths : List String) (combine : List (Option Value) → α) : Option α :=
  (paths.mapM s.read).map combine

/-- Several reads as a list; what is missing reads as null. -/
def collect (s : Store) (paths : List String) : Option Value :=
  s.collectWith paths fun found => .list (found.map fun v => v.getD .null)

/-- The sum of the numbers among several reads, added from the left. -/
def collectSum (s : Store) (paths : List String) : Option Value :=
  s.collectWith paths fun found =>
    .number ((found.filterMap fun v => v.bind Value.finiteNumber?).foldl Binary64.add .zero)

/-- What an instruction does. Only the definition of an operator can be refused. -/
def apply (s : Store) : Operator.Instruction → Outcome Effect
  | .set p v => committed (s.put p v none)
  | .declareSecret scope secret =>
    committed ({ s with scopes := s.scopes.declareSecret scope secret }.declare scope .secret)
  | .declareNoise scope noise =>
    committed ({ s with scopes := s.scopes.declareNoise scope noise }.declare scope .noise)
  | .point p target => committed (s.put p (.pointer target) (some .pointer))
  | .identify p username => committed (s.put p (.identity username) (some .identity))
  | .derive scope name expression =>
    let (s, e) := s.derive scope name expression
    ⟨s, e.map .ok⟩
  | .evaluate expression => ⟨s, (s.valueOf expression .root).map fun v => .ok (.computed v)⟩
  | .collect scope paths =>
    match s.collect paths with
    | none => ⟨s, none⟩
    | some values =>
      if scope.isRoot then ⟨s, some (.ok (.computed values))⟩
      else committed (s.put scope values (some .query))
  | .remove target =>
    let (s, r) := s.removeSubtree target
    committed (s, some r)
  | .define symbol kind =>
    match s.operators.define symbol kind with
    | .ok (_, operators) => ⟨{ s with operators := operators }, some (.ok .nothing)⟩
    | .error f => ⟨s, some (.error f)⟩
where
  /-- A record was added, unless the call never returns. -/
  committed (c : Store × Option Record) : Outcome Effect := ⟨c.1, c.2.map fun r => .ok (.committed r)⟩

/-- What a classified input does; a refused one does nothing. -/
def perform (s : Store) : Except Fault Operator.Instruction → Outcome Effect
  | .ok i => s.apply i
  | .error f => ⟨s, some (.error f)⟩

/-- A write at a raw path. A symbol beside the path counts as its last segment. -/
def write (s : Store) (path : String) (v : Value) (hint : Option String) : Outcome Effect :=
  s.perform (Operator.classify s.operators (Path.parse path) v hint)

/-- An operator of a kind called at a raw path. -/
def callKind (s : Store) (kind : Operator.Kind) (path : String) (v : Value) : Outcome Effect :=
  let scope := Path.parse path
  s.perform (Operator.classifyKind kind scope (scope.child kind.name) v)

/-- The removal of a raw path and everything under it. -/
def remove (s : Store) (path : String) : Outcome Record :=
  let (s, r) := s.removeSubtree (Path.canonical path)
  ⟨s, some (.ok r)⟩

/-- An outcome that only tells whether the call was refused. -/
def Outcome.done (o : Outcome α) : Outcome Unit := ⟨o.store, o.result.map fun r => r.map fun _ => ()⟩

/-- A secret declared at a raw scope. -/
def declareSecret (s : Store) (scope secret : String) : Outcome Unit :=
  (s.callKind .secret scope (.text secret)).done

/-- A noise declared at a raw scope. -/
def declareNoise (s : Store) (scope noise : String) : Outcome Unit :=
  (s.callKind .noise scope (.text noise)).done

/-- A pointer put at a raw path. -/
def definePointer (s : Store) (path target : String) : Outcome Unit :=
  (s.callKind .pointer path (.text target)).done

/-- A user name claimed at a raw path. -/
def declareIdentity (s : Store) (path username : String) : Outcome Unit :=
  (s.callKind .identity path (.text username)).done

/-- A symbol bound to the kind of the given name. No record is added. -/
def defineOperator (s : Store) (symbol kind : String) : Outcome Unit :=
  (s.apply (.define symbol kind)).done

/-- A formula derived at a raw path; at the root it is only evaluated. -/
def deriveAt (s : Store) (path expression : String) : Outcome Effect :=
  s.callKind .derive path (.text expression)

/-- Several reads committed as a list at a raw scope. -/
def collectAt (s : Store) (scope : String) (paths : List String) : Outcome Effect :=
  s.callKind .query scope (.list (paths.map Value.text))

end PathLedger.Store
