/-!
# Character classes and trimming

* `Text.isBlank` — the white-space property of the character standard, as a closed table.
* `Text.trim` — a text without its blank ends, on lists of characters; `Text.trimmed` on strings.
* `Text.isWordStart`, `Text.isWordChar`, `Text.isDigit` — the letters, digits and underscores of names and
  numbers; they know no letters beyond the Latin alphabet.
* `Text.digitsValue` — the number that a row of digits denotes.

Every place where the library trims uses this class of blanks; expression tokens alone have a narrower one.
-/

namespace PathLedger.Text

/-- White space: the twenty-five characters that carry the property. -/
def isBlank (c : Char) : Bool :=
  let n := c.toNat
  (0x09 ≤ n && n ≤ 0x0d) || n == 0x20 || n == 0x85 || n == 0xa0 || n == 0x1680 ||
    (0x2000 ≤ n && n ≤ 0x200a) || n == 0x2028 || n == 0x2029 || n == 0x202f || n == 0x205f ||
    n == 0x3000

/-- The text after its leading blanks. -/
def trimStart (s : List Char) : List Char := s.dropWhile isBlank

/-- The text before its trailing blanks. -/
def trimEnd : List Char → List Char
  | [] => []
  | c :: r =>
    match trimEnd r with
    | [] => if isBlank c then [] else [c]
    | t => c :: t

/-- The text without blanks at either end. -/
def trim (s : List Char) : List Char := trimEnd (trimStart s)

/-- A string without blanks at either end. -/
def trimmed (s : String) : String := String.ofList (trim s.toList)

/-- A lower-case or upper-case letter of the Latin alphabet without accents. -/
def isLetter (c : Char) : Bool := ('a' ≤ c && c ≤ 'z') || ('A' ≤ c && c ≤ 'Z')

def isDigit (c : Char) : Bool := '0' ≤ c && c ≤ '9'

/-- A letter, a digit or the underscore: what an identifier may hold after its first character. -/
def isWordChar (c : Char) : Bool := isLetter c || isDigit c || c == '_'

/-- A letter or the underscore: what an identifier may start with. -/
def isWordStart (c : Char) : Bool := isLetter c || c == '_'

def digitValue (c : Char) : Nat := c.toNat - '0'.toNat

/-- The number that a row of decimal digits denotes. -/
def digitsValue (s : List Char) : Nat := s.foldl (fun n c => n * 10 + digitValue c) 0

/-! ### What trimming leaves -/

theorem trimEnd_eq_nil_iff {s : List Char} : trimEnd s = [] ↔ ∀ c ∈ s, isBlank c := by
  induction s with
  | nil => simp [trimEnd]
  | cons c r ih =>
    simp only [trimEnd, List.forall_mem_cons]
    cases h : trimEnd r with
    | nil => simpa using fun _ => ih.1 h
    | cons d t => simp [← ih, h]

/-- Trimming the end keeps a front part of the text. -/
theorem trimEnd_append_blanks (s : List Char) :
    ∃ b, s = trimEnd s ++ b ∧ ∀ c ∈ b, isBlank c := by
  induction s with
  | nil => exact ⟨[], rfl, by simp⟩
  | cons c r ih =>
    obtain ⟨b, hb, hblank⟩ := ih
    cases h : trimEnd r with
    | nil =>
      by_cases hc : isBlank c
      · exact ⟨c :: r, by simp [trimEnd, h, hc], by
          simpa [hc] using trimEnd_eq_nil_iff.1 h⟩
      · exact ⟨r, by simp [trimEnd, h, hc], trimEnd_eq_nil_iff.1 h⟩
    | cons d t =>
      refine ⟨b, ?_, hblank⟩
      rw [h] at hb
      simp only [trimEnd, h]
      rw [List.cons_append, ← hb]

end PathLedger.Text
