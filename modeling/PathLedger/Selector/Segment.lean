import PathLedger.Text.Split
import PathLedger.Text.Quote
import PathLedger.Text.Blank

/-!
# Selectors in brackets

A raw segment `base[selector]` addresses several children of `base` at once.

* `Selector.split?` — base and selector of a segment.
* `Selector.keys?` — the children that a multiple choice `[a, b]` or an inclusive range `a..b` names. A range
  runs in either direction and spans at most ten thousand.
* `Selector.Transform` — a projection `x => expression`.
-/

namespace PathLedger.Selector

open Text

/-- The base and the selector of a segment that ends with the closing bracket; neither is blank. -/
def split? (segment : String) : Option (String × List Char) :=
  let s := trim segment.toList
  match s.dropWhile (· != '[') with
  | _ :: r =>
    let base := trim (s.takeWhile (· != '['))
    let selector := trim r.dropLast
    if r.getLast? = some ']' && !base.isEmpty && !selector.isEmpty then
      some (String.ofList base, selector)
    else none
  | [] => none

/-- The inside of a text in brackets. -/
def inBrackets? : List Char → Option (List Char)
  | '[' :: r => if r.getLast? = some ']' then some r.dropLast else none
  | _ => none

/-- The keys of a list with commas; blank ones are dropped and quotation marks taken off. -/
def keyList (s : List Char) : List String :=
  (((splitAll ',' s).map trim).filter (!·.isEmpty)).map fun k => String.ofList (unquote k)

/-- The largest distance between the ends of a range. -/
def maxSpan : Nat := 10000

/-- The whole number of 64 bits that a text spells: digits behind an optional minus. -/
def integer? (s : List Char) : Option Int :=
  let negative := s.head? = some '-'
  let digits := if negative then s.drop 1 else s
  if digits.isEmpty || !digits.all isDigit then none
  else
    let n : Int := if negative then -(digitsValue digits : Int) else digitsValue digits
    if -(Int.pow 2 63) ≤ n && n < Int.pow 2 63 then some n else none

/-- The numbers from `a` to `b`, both included, in this direction. -/
def span (a b : Int) : List Int :=
  (List.range ((b - a).natAbs + 1)).map fun (i : Nat) => if a ≤ b then a + i else a - i

/-- The keys of a range of integers. -/
def rangeKeys? (s : List Char) : Option (List String) := do
  let (left, right) ← splitOnce ['.', '.'] s
  let a ← integer? (trim left)
  let b ← integer? (trim right)
  if (b - a).natAbs ≤ maxSpan then pure ((span a b).map toString) else none

/-- The keys that a selector names. -/
def keys? (selector : List Char) : Option (List String) :=
  let s := trim selector
  match inBrackets? s with
  | some inner => some (keyList inner)
  | none => rangeKeys? s

/-- A projection: for every child, the expression with the variable standing for the child. -/
structure Transform where
  variableName : String
  expression : String
deriving DecidableEq, Repr

/-- The projection that a selector spells. -/
def Transform.parse? (selector : List Char) : Option Transform :=
  match splitOnce ['=', '>'] (trim selector) with
  | none => none
  | some (left, right) =>
    let name := trim left
    let body := trim right
    if (name.head?.any isWordStart) && name.all isWordChar && !body.isEmpty then
      some ⟨String.ofList name, String.ofList body⟩
    else none

/-- The text without the word `p :: ps` wherever it does not stand behind a word character. `behindWord`
tells whether the character before was one. -/
def dropWord (p : Char) (ps : List Char) (behindWord : Bool) : List Char → List Char
  | [] => []
  | c :: r =>
    match h : behind? (p :: ps) (c :: r) with
    | some rest =>
      have : rest.length < (c :: r).length := by
        have := length_of_behind? h
        simp only [List.length_cons] at this ⊢
        omega
      (if behindWord then p :: ps else []) ++ dropWord p ps false rest
    | none => c :: dropWord p ps (isWordChar c) r
termination_by s => s.length
decreasing_by
  · exact this
  · simp

/-- The expression relative to the child: the variable and its dot are dropped wherever they start a word. -/
def Transform.relativeExpression (t : Transform) : String :=
  match t.variableName.toList ++ ['.'] with
  | p :: ps => String.ofList (dropWord p ps false t.expression.toList)
  | [] => t.expression

end PathLedger.Selector
