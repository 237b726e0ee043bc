import PathLedger.Expr.Token
import PathLedger.Number.Decimal
import PathLedger.Path.Brackets

/-!
# From text to tokens

`Expr.tokenize` cuts an expression into tokens; a text with anything else in it has none.

* `Expr.identifierTail` — an identifier goes on with bracket groups and with dotted segments. A bracket
  group holds a quoted text, or anything without a closing bracket.
* `Expr.scanToken?` — the token at the front of a text that does not start with a blank.
* `Expr.onlyExpressionChars` — the characters that an expression to be evaluated may hold.

Blanks between tokens are the five of ASCII that are written most: space, tab, line feed, form feed and
carriage return.
-/

namespace PathLedger.Expr

open Text

/-- The blanks between tokens. -/
def isGap (c : Char) : Bool :=
  c = ' ' || c = '\t' || c = '\n' || c = '\r' || c.toNat = 12

/-- A quoted bracket group behind its bracket: the group up to and with the closing bracket, and the rest. -/
def scanQuotedGroup? : List Char → Option (List Char × List Char)
  | [] => none
  | q :: r =>
    if Path.isQuote q then
      match r.dropWhile (· != q) with
      | _ :: ']' :: rest => some (q :: r.takeWhile (· != q) ++ [q, ']'], rest)
      | _ => none
    else none

/-- A bracket group without regard to quotes: some text and the next closing bracket. -/
def scanPlainGroup? (s : List Char) : Option (List Char × List Char) :=
  let body := s.takeWhile (· != ']')
  match s.dropWhile (· != ']') with
  | _ :: rest => if body.isEmpty then none else some (body ++ [']'], rest)
  | [] => none

/-- A bracket group behind its bracket. -/
def scanGroup? (s : List Char) : Option (List Char × List Char) :=
  match scanQuotedGroup? s with
  | some g => some g
  | none => scanPlainGroup? s

/-- What continues an identifier: bracket groups, and dots with further segments. The first argument
bounds the number of pieces by the length of the text. -/
def identifierTail : Nat → List Char → List Char × List Char
  | 0, s => ([], s)
  | n + 1, s =>
    match s with
    | '[' :: r =>
      match scanGroup? r with
      | some (group, rest) =>
        let (more, rest) := identifierTail n rest
        ('[' :: group ++ more, rest)
      | none => ([], s)
    | '.' :: c :: r =>
      if isWordStart c then
        let (more, rest) := identifierTail n (r.dropWhile isWordChar)
        ('.' :: c :: r.takeWhile isWordChar ++ more, rest)
      else ([], s)
    | s => ([], s)

/-- The identifier or reserved word at the front of a text. -/
def scanWord (s : List Char) : Token × List Char :=
  let (tail, rest) := identifierTail s.length (s.dropWhile isWordChar)
  let label := String.ofList (s.takeWhile isWordChar ++ tail)
  match reservedWord? label with
  | some v => (.literal v, rest)
  | none => (.identifier label, rest)

/-- The number at the front of a text. An exponent letter behind the digits needs digits of its own, and
the number must be finite. -/
def scanNumber? (s : List Char) : Option (Token × List Char) :=
  let (pieces, rest) := Decimal.scan s
  let dangling := pieces.exponent.isNone && rest.head?.any (fun c => c = 'e' || c = 'E')
  let x := (pieces.toDecimal false).toBinary64
  if dangling || !x.isFinite then none else some (.literal (.number x), rest)

/-- The operator of two characters. -/
def pairOperator? (a b : Char) : Option Binary :=
  if a = '>' && b = '=' then some .ge
  else if a = '<' && b = '=' then some .le
  else if a = '=' && b = '=' then some .eq
  else if a = '!' && b = '=' then some .ne
  else if a = '&' && b = '&' then some .and
  else if a = '|' && b = '|' then some .or
  else none

/-- The token of one character. -/
def singleToken? (c : Char) : Option Token :=
  if c = '(' then some .opening
  else if c = ')' then some .closing
  else if c = '+' then some (.operator .add)
  else if c = '-' then some (.operator .sub)
  else if c = '*' then some (.operator .mul)
  else if c = '/' then some (.operator .div)
  else if c = '%' then some (.operator .rem)
  else if c = '<' then some (.operator .lt)
  else if c = '>' then some (.operator .gt)
  else if c = '!' then some .not
  else none

/-- The operator of two characters at the front of a text. -/
def scanPair? : List Char → Option (Token × List Char)
  | a :: b :: r => (pairOperator? a b).map fun o => (.operator o, r)
  | _ => none

/-- The token at the front of a text that does not start with a blank. -/
def scanToken? (s : List Char) : Option (Token × List Char) :=
  match s with
  | [] => none
  | c :: r =>
    match scanPair? s with
    | some found => some found
    | none =>
      match singleToken? c with
      | some t => some (t, r)
      | none =>
        if isDigit c || (c = '.' && (r.head?.any isDigit)) then scanNumber? s
        else if isWordStart c then some (scanWord s)
        else none

/-- The tokens of a text; the first argument bounds their number by the length of the text. -/
def tokenizeWithin : Nat → List Char → Option (List Token)
  | 0, s => if s.all isGap then some [] else none
  | n + 1, s =>
    match s.dropWhile isGap with
    | [] => some []
    | c :: r =>
      match scanToken? (c :: r) with
      | none => none
      | some (t, rest) => (tokenizeWithin n rest).map (t :: ·)

def tokenize (s : List Char) : Option (List Token) := tokenizeWithin s.length s

/-- The characters that an expression to be evaluated may hold. -/
def isExpressionChar (c : Char) : Bool :=
  isWordChar c || isBlank c || ("+-*/%().<>=!&|[]\"'".toList.contains c)

def onlyExpressionChars (s : List Char) : Bool := s.all isExpressionChar

end PathLedger.Expr
