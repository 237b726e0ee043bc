import PathLedger.Number.Shortest

/-!
# Written form of doubles

`FloatLayout` lists the decisions of a textual format for doubles, `FloatLayout.write` carries them
out on the fewest digits that read back, and `FloatLayout.json` is the layout of the library's
documents: there is always a fraction or an exponent, and exponents are written from `1e+16` up and
below `1e-5`.
-/

namespace PathLedger

/-- The decisions of a textual format for finite doubles. -/
structure FloatLayout where
  /-- The largest number of digits before the point in positional notation. -/
  maxWhole : Int
  /-- The largest number of zeros just behind the point in positional notation. -/
  maxLeadingZeros : Int
  /-- What follows a whole number. -/
  wholeSuffix : String
  /-- The exponent mark. -/
  exponentMark : String
  /-- The sign of a positive exponent. -/
  plusSign : String
deriving Repr

namespace FloatLayout

/-- Documents have `1.0`, `0.00001`, `1e-6`, `1000000000000000.0` and `1e+16`. -/
def json : FloatLayout := ⟨16, 4, ".0", "e", "+"⟩

/-- An integer exponent with its sign. -/
def exponentText (l : FloatLayout) (e : Int) : String :=
  if e < 0 then "-" ++ toString e.natAbs else l.plusSign ++ toString e.natAbs

/-- The text of the positive number `digits · 10 ^ exponent`. `point` is the number of digits before
the decimal point. -/
def place (l : FloatLayout) (digits : Nat) (exponent : Int) : String :=
  let ds := (toString digits).toList
  let point : Int := ds.length + exponent
  if 0 ≤ exponent && point ≤ l.maxWhole then
    String.ofList (ds ++ List.replicate exponent.toNat '0') ++ l.wholeSuffix
  else if 0 < point && point ≤ l.maxWhole then
    String.ofList (ds.take point.toNat) ++ "." ++ String.ofList (ds.drop point.toNat)
  else if -l.maxLeadingZeros ≤ point && point ≤ 0 then
    "0." ++ String.ofList (List.replicate (-point).toNat '0' ++ ds)
  else
    let fraction := ds.drop 1
    String.ofList (ds.take 1) ++ (if fraction.isEmpty then "" else "." ++ String.ofList fraction) ++
      l.exponentMark ++ l.exponentText (point - 1)

/-- The text of a finite number. -/
def write (l : FloatLayout) (x : Binary64) : String :=
  let sign := if x.isNegative then "-" else ""
  if x.isZero then sign ++ "0" ++ l.wholeSuffix
  else
    let (d, e) := Shortest.digits x
    sign ++ l.place d e

end FloatLayout

end PathLedger
