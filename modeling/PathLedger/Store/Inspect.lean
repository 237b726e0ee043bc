import PathLedger.Store.Call

/-!
# Looking into stores

* `Store.inspect` — the last records, the index and the scopes.
* `Store.explain` — a value with the derivation that gave it. What comes out of a hiding scope is masked.
* `Store.summary` — one line of counts.
-/

namespace PathLedger

/-- A store laid open. -/
structure Inspection where
  ledger : List Record
  index : Index
  encryptedScopes : List String
  secretScopes : List String
  noiseScopes : List String
deriving DecidableEq

/-- One input of an explained derivation. -/
structure ExplainedInput where
  label : String
  path : String
  /-- What the input reads as; masked when it is hidden. -/
  value : Option Value
  /-- Whether the input lies in a hiding scope, directly or through pointers. -/
  hidden : Bool
deriving DecidableEq, Repr

/-- The derivation of an explained value. -/
structure ExplainedDerivation where
  expression : String
  inputs : List ExplainedInput
  lastComputedAt : UInt64
deriving DecidableEq, Repr

structure Explanation where
  path : String
  value : Option Value
  derivation : Option ExplainedDerivation
deriving DecidableEq, Repr

/-- The keys that a value depends on. -/
def Explanation.dependsOn (e : Explanation) : List String :=
  ((e.derivation.map ExplainedDerivation.inputs).getD []).map ExplainedInput.path

namespace Store

/-- The last records (all for zero), the index and the scopes. -/
def inspect (s : Store) (last : Nat) : Inspection :=
  ⟨s.ledger.tail last, s.index, s.branches.keys, s.scopes.secrets.keys, s.scopes.noises.keys⟩

/-- What stands for a hidden value. -/
def mask : Value := .text "●●●●"

/-- Whether a path lies in a hiding scope, as it is or once its pointers are followed. -/
def reachesHidden (s : Store) (p : Path) : Bool :=
  (s.scopes.hidingScope? p).isSome || (s.scopes.hidingScope? (s.index.walk maxHops p).path).isSome

/-- One reference explained, if its read comes to an end. -/
def explainInput (s : Store) (r : Reference) : Option ExplainedInput :=
  let p := Path.canonical r.path
  let hidden := s.reachesHidden p
  (if hidden then some (some mask) else s.view.read p).map fun v => ⟨r.label, r.path, v, hidden⟩

/-- A derivation explained, if all of its reads come to an end. -/
def explainDerivation (s : Store) (d : Derivation) : Option ExplainedDerivation :=
  (d.refs.mapM s.explainInput).map fun inputs => ⟨d.expression, inputs, d.lastComputedAt⟩

/-- The value at a raw path, normalized before it is read, with its derivation, if all of its reads come to an end. -/
def explain (s : Store) (path : String) : Option Explanation := do
  let p := Path.canonical path
  let value ← s.view.read p
  let derivation ← (s.derivations.get? p.key).mapM s.explainDerivation
  return ⟨p.key, value, derivation⟩

/-- Every link and every hash of the ledger checked. -/
def verify (s : Store) : Except Fault Unit := s.ledger.verify

/-- One line of counts. -/
def summary (s : Store) : String :=
  let part := fun (name : String) (n : Nat) => name ++ ": " ++ toString n
  "Store \x7b " ++ ", ".intercalate
    [part "thoughts" s.ledger.length, part "index_entries" s.index.size,
      part "secret_scopes" s.scopes.secrets.size, part "noise_scopes" s.scopes.noises.size,
      part "derivations" s.derivations.size] ++ " \x7d"

end Store

end PathLedger
