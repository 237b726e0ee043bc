import PathLedger.Index.Basic

/-!
# Following pointers

A pointer at a path stands for its target; a pointer at an ancestor stands for the target with the rest of
the path behind it. The deepest pointer counts.

* `Index.redirect?` — one step.
* `Index.walk` — steps until there is no pointer or the budget of steps is used up.
-/

namespace PathLedger

/-- Where a walk ended. -/
structure Walk where
  path : Path
  /-- The entry at the end; none when it is absent or the budget ran out. -/
  raw : Option Value
  /-- The budget ran out before the walk ended. -/
  exhausted : Bool
  /-- What is left of the budget. -/
  left : Nat
deriving DecidableEq, Repr

/-- The number of steps that one read may take. -/
def maxHops : Nat := 8

namespace Index

/-- The target of a pointer stored exactly at a path. -/
def pointerAt? (index : Index) (p : Path) : Option Path :=
  ((index.entry p).bind Value.asPointer?).map Path.canonical

/-- One step: from a pointer at the path itself, or else from the longest proper ancestor that holds one. -/
def redirect? (index : Index) (p : Path) : Option Path :=
  match index.pointerAt? p with
  | some target => some target
  | none =>
    (List.range p.length).reverse.findSome? fun n =>
      (index.pointerAt? (p.take n)).map fun target => target.join (p.drop n)

/-- Steps from a path until no pointer applies, each taking one unit of the budget. -/
def walk (index : Index) : Nat → Path → Walk
  | 0, p =>
    match index.redirect? p with
    | none => ⟨p, index.entry p, false, 0⟩
    | some _ => ⟨p, none, true, 0⟩
  | budget + 1, p =>
    match index.redirect? p with
    | none => ⟨p, index.entry p, false, budget + 1⟩
    | some q => walk index budget q

end Index

end PathLedger
