import PathLedger.Text.Blank
import PathLedger.Text.Split

/-!
# Lines of keys and scalars in TOML

The part of TOML that settings are written in: one key and one text, truth value or whole number a
line, with comments. Tables, lists, dates and other numbers are refused.

* `Toml.Scalar` — the values.
* `Toml.scalar?` — the value at the front of a text.
* `Toml.parse?` — the keys of a whole text with their values. No key may occur twice.
-/

namespace PathLedger.Toml

open Text

inductive Scalar where
  | text (s : String)
  | truth (b : Bool)
  | integer (n : Int)
deriving DecidableEq, Repr

/-- What may stand between the parts of a line. -/
def isSpace (c : Char) : Bool := c == ' ' || c == '\t'

def skipSpace (s : List Char) : List Char := s.dropWhile isSpace

/-- What may stand in comments and strings: tabs and everything that is no control character. -/
def isPlain (c : Char) : Bool := c == '\t' || (' ' ≤ c && c != '\x7f')

/-- The text behind the end of a line; the end of the text ends a line too. -/
def lineEnd? : List Char → Option (List Char)
  | [] => some []
  | '\n' :: r => some r
  | '\r' :: '\n' :: r => some r
  | _ => none

/-- The text behind a line of which only spaces and a comment are left. -/
def restOfLine? (s : List Char) : Option (List Char) :=
  match skipSpace s with
  | '#' :: r => lineEnd? (r.dropWhile isPlain)
  | r => lineEnd? r

/-- The value of a digit in a base up to sixteen. -/
def digitIn? (base : Nat) (c : Char) : Option Nat :=
  let n :=
    if '0' ≤ c && c ≤ '9' then c.toNat - '0'.toNat
    else if 'a' ≤ c && c ≤ 'f' then c.toNat - 'a'.toNat + 10
    else if 'A' ≤ c && c ≤ 'F' then c.toNat - 'A'.toNat + 10
    else base
  if n < base then some n else none

/-- The number of a row of digits, none of which is foreign to the base. -/
def number? (base : Nat) (s : List Char) : Option Nat :=
  (s.mapM (digitIn? base)).map fun ds => ds.foldl (fun n d => n * base + d) 0

/-- The character of a fixed number of hexadecimal digits, and the rest. -/
def hexChar? (count : Nat) (s : List Char) : Option (Char × List Char) :=
  if (s.take count).length = count then
    match number? 16 (s.take count) with
    | some n => if n.isValidChar then some (Char.ofNat n, s.drop count) else none
    | none => none
  else none

/-- The character that an escape stands for, behind its backslash, and the rest. -/
def escape? : List Char → Option (Char × List Char)
  | 'b' :: r => some ('\x08', r)
  | 't' :: r => some ('\t', r)
  | 'n' :: r => some ('\n', r)
  | 'f' :: r => some ('\x0c', r)
  | 'r' :: r => some ('\r', r)
  | 'e' :: r => some ('\x1b', r)
  | '"' :: r => some ('"', r)
  | '\\' :: r => some ('\\', r)
  | 'x' :: r => hexChar? 2 r
  | 'u' :: r => hexChar? 4 r
  | 'U' :: r => hexChar? 8 r
  | _ => none

/-- A text with a character in front, and the rest. -/
def push (c : Char) : Option (List Char × List Char) → Option (List Char × List Char) :=
  Option.map fun p => (c :: p.1, p.2)

/-- The inside of a string in double quotes, up to its end, and the rest. The first argument bounds the number
of characters. -/
def quoted? : Nat → List Char → Option (List Char × List Char)
  | 0, _ => none
  | _, [] => none
  | _ + 1, '"' :: r => some ([], r)
  | n + 1, '\\' :: r =>
    match escape? r with
    | some (c, r) => push c (quoted? n r)
    | none => none
  | n + 1, c :: r => if isPlain c then push c (quoted? n r) else none

/-- The inside of a string in single quotes, up to its end, and the rest. -/
def literal? : List Char → Option (List Char × List Char)
  | [] => none
  | '\'' :: r => some ([], r)
  | c :: r => if isPlain c then push c (literal? r) else none

/-- Whether a character is a space or ends a line. -/
def isSpaceOrEnd (c : Char) : Bool := isSpace c || c == '\n' || c == '\r'

/-- The text behind a backslash at the end of a line, and behind the blanks that follow it. -/
def joinedLine? (s : List Char) : Option (List Char) :=
  match skipSpace s with
  | '\n' :: r => some (r.dropWhile isSpaceOrEnd)
  | '\r' :: '\n' :: r => some (r.dropWhile isSpaceOrEnd)
  | _ => none

/-- The inside of a string in three double quotes, up to its end, and the rest. Up to two more quotes may
stand before the end. -/
def quotedLines? : Nat → List Char → Option (List Char × List Char)
  | 0, _ => none
  | _, [] => none
  | _ + 1, '"' :: '"' :: '"' :: '"' :: '"' :: r => some (['"', '"'], r)
  | _ + 1, '"' :: '"' :: '"' :: '"' :: r => some (['"'], r)
  | _ + 1, '"' :: '"' :: '"' :: r => some ([], r)
  | n + 1, '\\' :: r =>
    match joinedLine? r with
    | some r => quotedLines? n r
    | none =>
      match escape? r with
      | some (c, r) => push c (quotedLines? n r)
      | none => none
  | n + 1, '\n' :: r => push '\n' (quotedLines? n r)
  | n + 1, '\r' :: '\n' :: r => push '\r' (push '\n' (quotedLines? n r))
  | n + 1, c :: r => if isPlain c then push c (quotedLines? n r) else none

/-- The inside of a string in three single quotes, up to its end, and the rest. -/
def literalLines? : List Char → Option (List Char × List Char)
  | [] => none
  | '\'' :: '\'' :: '\'' :: '\'' :: '\'' :: r => some (['\'', '\''], r)
  | '\'' :: '\'' :: '\'' :: '\'' :: r => some (['\''], r)
  | '\'' :: '\'' :: '\'' :: r => some ([], r)
  | '\n' :: r => push '\n' (literalLines? r)
  | '\r' :: '\n' :: r => push '\r' (push '\n' (literalLines? r))
  | c :: r => if isPlain c then push c (literalLines? r) else none

/-- A text without a line end in front. -/
def dropLineEnd (s : List Char) : List Char :=
  match s with
  | '\n' :: r => r
  | '\r' :: '\n' :: r => r
  | _ => s

/-- The string at the front of a text, and the rest. -/
def string? : List Char → Option (List Char × List Char)
  | '"' :: '"' :: '"' :: r => quotedLines? (r.length + 1) (dropLineEnd r)
  | '\'' :: '\'' :: '\'' :: r => literalLines? (dropLineEnd r)
  | '"' :: r => quoted? (r.length + 1) r
  | '\'' :: r => literal? r
  | _ => none

/-- The number of digits in a base, with underscores between them. -/
def grouped? (base : Nat) (s : List Char) : Option Nat :=
  let groups := splitAll '_' s
  if groups.any List.isEmpty then none else number? base groups.flatten

/-- The number of decimal digits; none but zero itself starts with a zero. -/
def decimal? (s : List Char) : Option Nat :=
  if s.head? = some '0' && s.length != 1 then none else grouped? 10 s

/-- The whole number that a word spells. -/
def integer? : List Char → Option Int
  | '0' :: 'x' :: r => (grouped? 16 r).map Int.ofNat
  | '0' :: 'o' :: r => (grouped? 8 r).map Int.ofNat
  | '0' :: 'b' :: r => (grouped? 2 r).map Int.ofNat
  | '+' :: r => (decimal? r).map Int.ofNat
  | '-' :: r => (decimal? r).map fun n => -(n : Int)
  | r => (decimal? r).map Int.ofNat

/-- The value that a word spells. -/
def word? (s : List Char) : Option Scalar :=
  if s = "true".toList then some (.truth true)
  else if s = "false".toList then some (.truth false)
  else (integer? s).map .integer

/-- The value at the front of a text, and the rest. -/
def scalar? (s : List Char) : Option (Scalar × List Char) :=
  match s with
  | '"' :: _ | '\'' :: _ => (string? s).map fun p => (.text (String.ofList p.1), p.2)
  | _ =>
    let inWord := fun c => !(isSpaceOrEnd c || c == '#')
    (word? (s.takeWhile inWord)).map fun v => (v, s.dropWhile inWord)

/-- Whether a character may stand in a key without quotes. -/
def isBareKey (c : Char) : Bool := isWordChar c || c == '-'

/-- The key at the front of a text, and the rest. -/
def key? (s : List Char) : Option (List Char × List Char) :=
  match s with
  | '"' :: r => quoted? (r.length + 1) r
  | '\'' :: r => literal? r
  | _ =>
    let key := s.takeWhile isBareKey
    if key.isEmpty then none else some (key, s.dropWhile isBareKey)

/-- A key with its value, and the text behind their line. -/
def entry? (s : List Char) : Option ((String × Scalar) × List Char) := do
  let (key, r) ← key? s
  match skipSpace r with
  | '=' :: r =>
    let (value, r) ← scalar? (skipSpace r)
    let r ← restOfLine? r
    pure ((String.ofList key, value), r)
  | _ => none

/-- The entries of the lines of a text; the first argument bounds their number. -/
def entries? : Nat → List Char → Option (List (String × Scalar))
  | 0, _ => none
  | n + 1, s =>
    match skipSpace s with
    | [] => some []
    | s =>
      match restOfLine? s with
      | some r => entries? n r
      | none =>
        match entry? s with
        | some (e, r) => (entries? n r).map (e :: ·)
        | none => none

/-- The keys of a text with their values. A byte order mark in front is skipped. -/
def parse? (s : List Char) : Option (List (String × Scalar)) :=
  let s := if s.head? = some '\ufeff' then s.drop 1 else s
  (entries? (s.length + 1) s).filter fun l => (l.map Prod.fst).Nodup

end PathLedger.Toml
