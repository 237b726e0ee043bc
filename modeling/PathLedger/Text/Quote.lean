/-!
# Quotation marks around a text

* `Text.isQuoted` — the text stands between two equal marks, double or single.
* `Text.unquote` — such a text without its marks; every other text unchanged. One pair goes at most.
-/

namespace PathLedger.Text

/-- The text without a pair of equal quotation marks around it. -/
def unquote (s : List Char) : List Char :=
  match s with
  | q :: r =>
    if (q = '"' || q = '\'') && r.getLast? = some q then r.dropLast else s
  | [] => s

/-- Whether the text stands between two equal quotation marks. -/
def isQuoted (s : List Char) : Bool :=
  match s with
  | q :: r => (q = '"' || q = '\'') && r.getLast? = some q
  | [] => false

end PathLedger.Text
