import PathLedger.Resolver
import PathLedger.Value.Compare
import PathLedger.Text.Split
import PathLedger.Text.Quote

/-!
# Logical filters

A filter compares paths of a child with literals or with other paths, in clauses joined by `&&` and
`||` that bind equally and combine from the left.

* `Selector.Comparison`, `Selector.Clause`, `Selector.Filter` — the parts of a filter.
* `Selector.Clause.parse?` — the shortest left side that is followed by a comparison.
* `Selector.Filter.matchesAt` — whether a child passes.
-/

namespace PathLedger.Selector

open Text

/-- How two values are compared. -/
inductive Comparison where
  | gt
  | lt
  | ge
  | le
  | eq
  | ne
deriving DecidableEq, Repr, Inhabited

/-- The written forms of comparisons, the longer ones first. -/
def Comparison.symbols : List (List Char × Comparison) :=
  [(['>', '='], .ge), (['<', '='], .le), (['=', '='], .eq), (['!', '='], .ne), (['>'], .gt),
    (['<'], .lt)]

def Comparison.holds (c : Comparison) (a b : Value) : Bool :=
  match c with
  | .eq => a.looselyEqual b
  | .ne => !a.looselyEqual b
  | .gt => a.looseOrder? b == some .gt
  | .lt => a.looseOrder? b == some .lt
  | .ge => a.looseOrder? b == some .gt || a.looseOrder? b == some .eq
  | .le => a.looseOrder? b == some .lt || a.looseOrder? b == some .eq

/-- How two clauses are joined. -/
inductive Connective where
  | and
  | or
deriving DecidableEq, Repr, Inhabited

def Connective.join : Connective → Bool → Bool → Bool
  | .and, a, b => a && b
  | .or, a, b => a || b

/-- One comparison. -/
structure Clause where
  left : String
  op : Comparison
  right : String
deriving DecidableEq, Repr, Inhabited

/-- The clause with a given left side whose comparison starts the rest of the text. -/
def Clause.at? (left rest : List Char) : Option Clause :=
  let l := trim left
  let r := trimStart rest
  Comparison.symbols.findSome? fun (symbol, op) =>
    match behind? symbol r with
    | none => none
    | some right =>
      let right := trim right
      if l.isEmpty || right.isEmpty then none else some ⟨String.ofList l, op, String.ofList right⟩

/-- The clause with the shortest left side; `left` holds the characters passed so far, last first. -/
def Clause.search (left : List Char) : List Char → Option Clause
  | [] => none
  | c :: r =>
    match Clause.at? left.reverse (c :: r) with
    | some clause => some clause
    | none => Clause.search (c :: left) r

def Clause.parse? (s : List Char) : Option Clause :=
  match trim s with
  | [] => none
  | c :: r => Clause.search [c] r

/-- A piece of a filter text. -/
inductive Part where
  | text (s : List Char)
  | connective (c : Connective)
deriving DecidableEq, Repr

/-- A text in front of further pieces, unless it is blank. -/
def pushText (reversed : List Char) (parts : List Part) : List Part :=
  let t := trim reversed.reverse
  if t.isEmpty then parts else .text t :: parts

/-- The texts and connectives of a filter; `passed` holds the current text, last character first. -/
def partsFrom (passed : List Char) : List Char → List Part
  | [] => pushText passed []
  | '&' :: '&' :: r => pushText passed (.connective .and :: partsFrom [] r)
  | '|' :: '|' :: r => pushText passed (.connective .or :: partsFrom [] r)
  | c :: r => partsFrom (c :: passed) r

/-- One clause, and further clauses each with its connective in front. -/
structure Filter where
  first : Clause
  others : List (Connective × Clause)
deriving DecidableEq, Repr

/-- Connectives and clauses in turn. -/
def clausesOf : List Part → Option (List (Connective × Clause))
  | [] => some []
  | .connective c :: .text t :: rest =>
    match Clause.parse? t with
    | none => none
    | some clause => (clausesOf rest).map ((c, clause) :: ·)
  | _ => none

def Filter.parse? (s : List Char) : Option Filter :=
  match partsFrom [] (trim s) with
  | .text t :: rest =>
    match Clause.parse? t, clausesOf rest with
    | some first, some others => some ⟨first, others⟩
    | _, _ => none
  | _ => none

/-- The clauses of a filter in order. -/
def Filter.clauses (f : Filter) : List Clause := f.first :: f.others.map Prod.snd

/-- The literal that a right side spells; none when it names a path. -/
def literal? (raw : String) : Option Value :=
  let s := trim raw.toList
  if isQuoted s then some (.text (String.ofList (unquote s)))
  else
    let t := String.ofList s
    if t = "true" then some (.bool true)
    else if t = "false" then some (.bool false)
    else if t = "null" then some .null
    else ((Value.text t).finiteNumber?).map .number

variable {m : Type → Type} [Monad m]

/-- The value that a side of a clause reads, under the child first. -/
def readSide (r : Resolver m) (scope : Path) (raw : String) : m (Option Value) :=
  r.readFirst (scope.join (Path.canonical raw)) (Path.canonical raw)

/-- Whether a comparison holds with a right side; null fails every comparison. -/
def Clause.compareWith (clause : Clause) (left : Value) : Option Value → Bool
  | none => false
  | some right => !right.isNull && clause.op.holds left right

/-- Whether a clause holds at a child. -/
def Clause.holdsAt (clause : Clause) (r : Resolver m) (scope : Path) : m Bool := do
  match ← readSide r scope clause.left with
  | none => pure false
  | some left =>
    match literal? clause.right with
    | some v => pure (clause.compareWith left (some v))
    | none => return clause.compareWith left (← readSide r scope clause.right)

/-- Further clauses joined to a truth value, from the left. -/
def joinClauses (r : Resolver m) (scope : Path) (acc : Bool) :
    List (Connective × Clause) → m Bool
  | [] => pure acc
  | (c, clause) :: rest => do
    let v ← clause.holdsAt r scope
    joinClauses r scope (c.join acc v) rest

/-- Whether a child passes a filter. -/
def Filter.matchesAt (f : Filter) (r : Resolver m) (scope : Path) : m Bool := do
  let v ← f.first.holdsAt r scope
  joinClauses r scope v f.others

end PathLedger.Selector
