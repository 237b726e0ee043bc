import PathLedger.Dict
import PathLedger.Path.Basic

/-!
# Derivations and their subscriptions

A derivation binds a formula to a target. The graph keeps one derivation per target, and for every
path that some formula reads the targets that depend on it, in the order of their registration.

* `Derivation.Graph.register` — a derivation put at a target, in place of the one before.
* `Derivation.Graph.unregister` — a target taken out together with its subscriptions.
* `Derivation.Graph.subscribersOf` — the targets that depend on a key.
-/

namespace PathLedger

/-- One reference of a formula: the label as written and the key that it is bound to. -/
structure Reference where
  label : String
  path : String
deriving DecidableEq, Repr, Inhabited

/-- A formula, the scope in which it is evaluated, what it reads and when it was last computed. -/
structure Derivation where
  expression : String
  scope : Path
  refs : List Reference
  lastComputedAt : UInt64
deriving DecidableEq, Repr, Inhabited

namespace Derivation

/-- The derivations by target, and the targets by the key they read. -/
structure Graph where
  derivations : Dict String Derivation
  subscribers : Dict String (List String)
deriving DecidableEq

namespace Graph

def empty : Graph := ⟨.empty, .empty⟩

instance : Inhabited Graph := ⟨empty⟩

def get? (g : Graph) (target : String) : Option Derivation := g.derivations.get? target

/-- The registered targets in key order. -/
def targets (g : Graph) : List String := g.derivations.keys

def size (g : Graph) : Nat := g.derivations.size

def isEmpty (g : Graph) : Bool := g.derivations.isEmpty

/-- The targets that depend on a key, in the order of their registration. -/
def subscribersOf (g : Graph) (key : String) : List String := (g.subscribers.get? key).getD []

/-- The keys at or under a path that some target depends on. -/
def referencesUnder (g : Graph) (p : Path) : List String :=
  g.subscribers.keys.filter fun k => Path.atOrUnder k p.key

/-- The subscriptions with a target put behind the others at a key, unless it is there. -/
def subscribe (target : String) (subs : Dict String (List String)) (key : String) :
    Dict String (List String) :=
  let others := (subs.get? key).getD []
  if others.contains target then subs else subs.insert key (others ++ [target])

/-- The subscriptions without a target at a key; a key without targets goes. -/
def unsubscribe (target : String) (subs : Dict String (List String)) (key : String) :
    Dict String (List String) :=
  match subs.get? key with
  | none => subs
  | some all =>
    let others := all.filter (· != target)
    if others.isEmpty then subs.erase key else subs.insert key others

/-- The graph without the derivation at a target. -/
def unregister (g : Graph) (target : String) : Graph :=
  match g.get? target with
  | none => g
  | some old =>
    ⟨g.derivations.erase target,
      (old.refs.map Reference.path).foldl (unsubscribe target) g.subscribers⟩

/-- The graph with a derivation at a target, in place of the one before. -/
def register (g : Graph) (target : Path) (d : Derivation) : Graph :=
  let g := g.unregister target.key
  ⟨g.derivations.insert target.key d,
    (d.refs.map Reference.path).foldl (subscribe target.key) g.subscribers⟩

/-- The graph without the derivations whose targets are at or under a path. -/
def clearUnder (g : Graph) (p : Path) : Graph :=
  (g.targets.filter fun k => Path.atOrUnder k p.key).foldl unregister g

/-- The graph with a new time of computation at a target. -/
def touch (g : Graph) (target : String) (time : UInt64) : Graph :=
  match g.get? target with
  | none => g
  | some d => { g with derivations := g.derivations.insert target { d with lastComputedAt := time } }

@[simp] theorem subscribers_touch (g : Graph) (target : String) (time : UInt64) :
    (g.touch target time).subscribers = g.subscribers := by
  unfold touch
  split <;> rfl

end Graph

end Derivation

end PathLedger
