import PathLedger.Derivation.Binding
import PathLedger.Derivation.Cascade
import PathLedger.Selector.Broadcast
import PathLedger.Store.Commit

/-!
# Live derivations

A derivation is computed when it is registered and again whenever something that it reads changes. An evaluation
that never ends holds up what was to follow: the store stays as it stands there.

* `Store.recompute`, `Store.recomputeEach` — one target computed anew, and a row of targets.
* `Store.invalidate`, `Store.invalidateScope` — every target downstream of a change computed anew.
* `Store.deriveOne` — one derivation registered and computed.
* `Store.derive` — a derivation made once for every child that its scope selects.
-/

namespace PathLedger.Store

/-- What a formula gives at a scope; none when its evaluation never ends. -/
def valueOf (s : Store) (expression : String) (scope : Path) : Option Value :=
  (Expr.evaluate s.resolver scope expression).map fun v => Derivation.valueOrExpression v expression

/-- The store with the derivation at a target computed anew, if there is one. -/
def recompute (s : Store) (target : String) : Option Store :=
  match s.derivations.get? target with
  | none => some s
  | some d =>
    (s.valueOf d.expression d.scope).map fun v =>
      let s := (s.commitValue (Path.ofKey target) v (some .derive)).1
      { s with
        derivations := s.derivations.touch target s.clock.now
        clock := s.clock.advance }

/-- The store with targets computed anew in turn, and whether it comes to the end of them. -/
def recomputeEach (s : Store) : List String → Store × Bool
  | [] => (s, true)
  | target :: rest =>
    match s.recompute target with
    | some s => s.recomputeEach rest
    | none => (s, false)

/-- The targets that a row of changed keys sets off, in order. -/
def downstream (s : Store) (changed : List String) : List String :=
  s.derivations.cascade (fun t => (s.derivations.get? t).isSome) changed

/-- The store with every target downstream of a path computed anew, each once. -/
def invalidate (s : Store) (p : Path) : Store × Bool :=
  s.recomputeEach (s.downstream (Derivation.Graph.changedAt p))

/-- The store with every target downstream of a scope computed anew, each once. -/
def invalidateScope (s : Store) (scope : Path) : Store × Bool :=
  s.recomputeEach (s.downstream (s.derivations.changedUnder scope))

/-- A record that counts once a row of targets has come to its end. -/
def recorded (r : Record) (pass : Store × Bool) : Store × Option Record :=
  (pass.1, if pass.2 then some r else none)

/-- The store with a value committed and everything downstream computed anew, and the new record. -/
def put (s : Store) (p : Path) (v : Value) (operator : Option Operator.Kind) : Store × Option Record :=
  let (s, r) := s.commitValue p v operator
  recorded r (s.invalidate p)

/-- The store with a marker committed for a declaration and everything downstream of its scope computed
anew, and the new record. -/
def declare (s : Store) (scope : Path) (kind : Operator.Kind) : Store × Option Record :=
  let (s, r) := s.commitMarker scope kind (.text declarationText)
  recorded r (s.invalidateScope scope)

/-- The store with a derivation registered under a scope and computed, and its record. -/
def deriveOne (s : Store) (scope : Path) (name expression : String) : Store × Option Record :=
  let target := scope.join (Path.canonical name)
  match Derivation.bindReferences s.resolver expression scope with
  | none => (s, none)
  | some refs =>
    let s :=
      { s with
        derivations := s.derivations.register target ⟨expression, scope, refs, s.clock.now⟩
        clock := s.clock.advance }
    match s.valueOf expression scope with
    | none => (s, none)
    | some v => s.put target v (some .derive)

/-- The store with derivations registered one after another, and what the last one did; `last` is what the ones before
did. -/
def deriveEach (s : Store) (name : String) (last : Effect) : List (Path × String) → Store × Option Effect
  | [] => (s, some last)
  | (scope, expression) :: rest =>
    match s.deriveOne scope name expression with
    | (s, some r) => s.deriveEach name (.committed r) rest
    | (s, none) => (s, none)

/-- The scopes, each with its formula, that a raw scope selects: a place holder stands for every child, a
filter for the children that pass, and any other scope for itself. -/
def broadcast (s : Store) (scope : Path) (expression : String) : Option (List (Path × String)) :=
  if Selector.containsIterator scope then
    some ((Selector.iteratorIndices s.index scope).map fun child =>
      ((Selector.substituteInPath scope child).normalize, Selector.substituteIn expression child))
  else if Selector.containsFilter scope then
    (Selector.filteredScopes s.resolver s.index scope).map fun scopes => scopes.map fun p => (p.normalize, expression)
  else some [(scope.normalize, expression)]

/-- The store with a derivation made under every scope that a raw scope selects. -/
def derive (s : Store) (scope : Path) (name expression : String) : Store × Option Effect :=
  match s.broadcast scope expression with
  | none => (s, none)
  | some each => s.deriveEach name .nothing each

end PathLedger.Store
