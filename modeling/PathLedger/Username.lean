import PathLedger.Fault
import PathLedger.Text.Blank

/-!
# User names

`Username.normalize` trims and lowers a name and checks it: three to sixty-three characters from
`a`–`z`, `0`–`9` and the hyphen, a letter or digit at both ends, no two hyphens in a row. The length
is that of the lowered name in bytes, and it is checked first.
-/

namespace PathLedger.Username

open Text

def minLength : Nat := 3

def maxLength : Nat := 63

/-- The lower-case form of a character, for those whose lower-case form is an accepted one: the capital
letters and the Kelvin sign. -/
def lower (c : Char) : Char :=
  if 'A' ≤ c && c ≤ 'Z' then Char.ofNat (c.toNat + 32)
  else if c.toNat = 0x212a then 'k'
  else c

/-- The characters of three bytes whose lower-case form has two. -/
def shrinking : List Nat :=
  [0x1e9e, 0x2126, 0x212b, 0x2c62, 0x2c64, 0x2c6d, 0x2c6e, 0x2c6f, 0x2c70, 0x2c7e, 0x2c7f, 0xa78d,
    0xa7aa, 0xa7ab, 0xa7ac, 0xa7ad, 0xa7ae, 0xa7b0, 0xa7b1, 0xa7b2, 0xa7c5, 0xa7cb, 0xa7dc]

/-- The characters of two bytes whose lower-case form has three. -/
def growing : List Nat := [0x130, 0x23a, 0x23e]

/-- The number of bytes of the lower-case form of a character. -/
def lowerWidth (c : Char) : Nat :=
  if c.toNat = 0x212a then 1
  else if shrinking.contains c.toNat then 2
  else if growing.contains c.toNat then 3
  else c.utf8Size

/-- The characters that a name may hold. -/
def allowed (c : Char) : Bool := ('a' ≤ c && c ≤ 'z') || isDigit c || c == '-'

def hasDoubleHyphen : List Char → Bool
  | '-' :: '-' :: _ => true
  | _ :: r => hasDoubleHyphen r
  | [] => false

/-- Why a trimmed name is refused, if it is. -/
def objection? (name : List Char) : Option String :=
  let width := name.foldl (fun n c => n + lowerWidth c) 0
  let lowered := name.map lower
  if width < minLength || width > maxLength then some "length must be between 3 and 63"
  else if !lowered.all allowed then some "only a-z, 0-9 and '-' are allowed"
  else if lowered.head? = some '-' || lowered.getLast? = some '-' then
    some "must start and end with a letter or digit"
  else if hasDoubleHyphen lowered then some "consecutive hyphens are not allowed"
  else none

/-- The normal form of a name. -/
def normalize (raw : String) : Except Fault String :=
  let name := trim raw.toList
  match objection? name with
  | some reason => .error (.invalidIdentity ("'" ++ raw ++ "': " ++ reason))
  | none => .ok (String.ofList (name.map lower))

end PathLedger.Username
