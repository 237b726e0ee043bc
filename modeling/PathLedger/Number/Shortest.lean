import PathLedger.Number.Binary64

/-!
# The fewest digits that read back

A finite double is the nearest double to a whole interval of real numbers. `Shortest.digits` finds
the fewest decimal digits of a number inside that interval, and among those of equal length the
nearest to the double.

* `Shortest.Interval` — the interval of a double in exact quarter units; its ends belong to it exactly
  when the significand is even.
* `Shortest.candidate?` — the better of the two neighbours on the grid of `k` digits, if one is inside.
-/

namespace PathLedger.Shortest

/-- The reals that round to a double, in units of a quarter of its last place. -/
structure Interval where
  low : Nat
  value : Nat
  high : Nat
  closed : Bool
deriving Repr

/-- The interval of a finite number. Below a power of two the gap is half as wide. -/
def interval (x : Binary64) : Interval :=
  let m := x.significand
  let narrow := m = Nat.pow 2 52 && x.scale != 0
  ⟨if narrow then 4 * m - 1 else 4 * m - 2, 4 * m, 4 * m + 2, m % 2 == 0⟩

/-- Whether `num / den`, in quarter units, lies in the interval. -/
def Interval.has (i : Interval) (num den : Nat) : Bool :=
  if i.closed then i.low * den ≤ num && num ≤ i.high * den
  else i.low * den < num && num < i.high * den

/-- The number of decimal digits of a natural number; zero has none. -/
def digitCount (n : Nat) : Nat := if n = 0 then 0 else (toString n).length

/-- The power of ten just above a positive number: `10 ^ (e - 1) ≤ x < 10 ^ e`. -/
def magnitude (x : Binary64) : Int :=
  (digitCount (x.units * Nat.pow 10 400 / Binary64.unitsPerOne) : Int) - 400

/-- The two neighbours of the number on the grid of multiples of `10 ^ g`, and of them the one inside
the interval and nearest; an exact tie goes to the even multiple. -/
def candidate? (x : Binary64) (g : Int) : Option Nat :=
  let i := interval x
  -- one quarter unit is `unitNum / unitDen`, one grid step is `stepNum / stepDen`
  let unitNum := Nat.pow 2 x.scale
  let unitDen := 4 * Binary64.unitsPerOne
  let stepNum := Nat.pow 10 g.toNat
  let stepDen := Nat.pow 10 (-g).toNat
  let num := stepNum * unitDen
  let den := stepDen * unitNum
  let below := i.value * den / num
  let above := below + 1
  let belowIn := i.has (below * num) den
  let aboveIn := i.has (above * num) den
  let belowGap := i.value * den - below * num
  let aboveGap := above * num - i.value * den
  if belowIn && aboveIn then
    if belowGap < aboveGap then some below
    else if aboveGap < belowGap then some above
    else if below % 2 = 0 then some below else some above
  else if belowIn then some below
  else if aboveIn then some above
  else none

/-- The fewest digits of a positive finite number and the power of ten that they multiply. A number
just below a power of ten may round up to it; the zero that this leaves at the end is dropped. -/
def digits (x : Binary64) : Nat × Int :=
  let e := magnitude x
  let found := (List.range' 1 17).findSome? fun (k : Nat) =>
    (candidate? x (e - (k : Int))).map fun d => (d, e - (k : Int))
  let (d, g) := found.getD (0, 0)
  if d % 10 = 0 then (d / 10, g + 1) else (d, g)

end PathLedger.Shortest
