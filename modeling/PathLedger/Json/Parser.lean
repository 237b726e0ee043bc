import PathLedger.Json.Numeral
import PathLedger.Json.Quoted

/-!
# Reading documents

`Json.parse` reads a whole row of bytes as one document. It is strict: no comments, no trailing commas, no
control characters inside texts, no lone surrogates, and at most 127 levels of nesting.

* `Json.node` — a document whose arrays and objects hold what another reader reads.
* `Json.value` — the document at the front of a row of bytes; its first argument is the nesting that is left.
-/

namespace PathLedger.Json

/-- The items of an array behind its bracket. The first argument bounds the number of items by the
length of the document; `acc` holds the items so far, last first. -/
def items (item : Reader Json) : Nat → List Json → Reader Json
  | 0, _, s => refuseAt .endInList s
  | n + 1, acc, s =>
    match skipBlanks s with
    | [] => refuseAt .endInList []
    | Ascii.closeBracket :: r => .ok (.arr acc.reverse, r)
    | b :: r =>
      if acc.isEmpty then do
        let (j, rest) ← item (b :: r)
        items item n (j :: acc) rest
      else if b = Ascii.comma then
        match skipBlanks r with
        | [] => refuseAt .endInValue []
        | Ascii.closeBracket :: t => refuseAt .trailingComma (Ascii.closeBracket :: t)
        | r => do
          let (j, rest) ← item r
          items item n (j :: acc) rest
      else refuseAt .expectedListEnd (b :: r)

/-- One field: a name, a colon and the content. -/
def member (item : Reader Json) : Reader (String × Json)
  | [] => refuseAt .endInValue []
  | Ascii.quote :: r => do
    let (name, rest) ← quotedBody r
    match skipBlanks rest with
    | [] => refuseAt .endInObject []
    | Ascii.colon :: t =>
      let (content, rest) ← item t
      pure ((name, content), rest)
    | t => refuseAt .expectedColon t
  | Ascii.closeBrace :: r => refuseAt .trailingComma (Ascii.closeBrace :: r)
  | s => refuseAt .keyMustBeString s

/-- The fields of an object behind its brace. -/
def members (item : Reader Json) : Nat → Bool → List (String × Json) → Reader Json
  | 0, _, _, s => refuseAt .endInObject s
  | n + 1, first, acc, s =>
    match skipBlanks s with
    | [] => refuseAt .endInObject []
    | Ascii.closeBrace :: r => .ok (.obj acc, r)
    | b :: r =>
      if first then do
        let (f, rest) ← member item (b :: r)
        members item n false (setField f.1 f.2 acc) rest
      else if b = Ascii.comma then do
        let (f, rest) ← member item (skipBlanks r)
        members item n false (setField f.1 f.2 acc) rest
      else refuseAt .expectedObjectEnd (b :: r)

/-- A document whose arrays and objects hold what `nested` reads; without `nested` there are none. -/
def node (nested : Option (Reader Json)) (s : Bytes) : Except ParseError (Json × Bytes) :=
  match skipBlanks s with
  | [] => refuseAt .endInValue []
  | Ascii.lowerN :: r => word .null (Bytes.ofText "ull") r
  | Ascii.lowerT :: r => word (.bool true) (Bytes.ofText "rue") r
  | Ascii.lowerF :: r => word (.bool false) (Bytes.ofText "alse") r
  | Ascii.minus :: r => numeral true r
  | Ascii.quote :: r => (quotedBody r).map fun p => (.str p.1, p.2)
  | Ascii.openBracket :: r =>
    match nested with
    | none => refuseAt .recursionLimit (Ascii.openBracket :: r)
    | some item => items item (r.length + 1) [] r
  | Ascii.openBrace :: r =>
    match nested with
    | none => refuseAt .recursionLimit (Ascii.openBrace :: r)
    | some item => members item (r.length + 1) true [] r
  | b :: r => if Ascii.isDigit b then numeral false (b :: r) else refuseAt .expectedValue (b :: r)

/-- The document at the front of a row of bytes, with at most the given nesting. -/
def value : Nat → Reader Json
  | 0 => node none
  | depth + 1 => node (some (value depth))

def maxDepth : Nat := 127

/-- The document that a whole row of bytes is. -/
def parse (s : Bytes) : Except ParseError Json := do
  let (j, rest) ← value maxDepth s
  match skipBlanks rest with
  | [] => pure j
  | t => refuseAt .trailingCharacters t

/-- The document that a whole string is. -/
def parse? (s : String) : Option Json := (parse (Bytes.ofText s)).toOption

end PathLedger.Json
