import PathLedger.Text.Blank

/-!
# Cutting texts at separators

Lists of characters are cut at a character, at the first occurrence of a pattern, and
rewritten by replacing a pattern.

* `Text.splitAll` — the pieces between the occurrences of a character; there is always one more piece
  than there are separators.
* `Text.splitOnce` — the text before and after the first occurrence of a pattern.
* `Text.replaceAll` — every occurrence of a pattern, found from the left, replaced.
-/

namespace PathLedger.Text

/-- The pieces between the occurrences of `sep`. -/
def splitAll (sep : Char) : List Char → List (List Char)
  | [] => [[]]
  | c :: r =>
    if c = sep then [] :: splitAll sep r
    else
      match splitAll sep r with
      | [] => [[c]]
      | piece :: rest => (c :: piece) :: rest

/-- The pieces with `sep` between them. -/
def joinWith (sep : Char) : List (List Char) → List Char
  | [] => []
  | [piece] => piece
  | piece :: rest => piece ++ sep :: joinWith sep rest

/-- The rest of the text behind `pattern`, when the text starts with it. -/
def behind? : List Char → List Char → Option (List Char)
  | [], s => some s
  | _ :: _, [] => none
  | p :: ps, c :: s => if p = c then behind? ps s else none

/-- The text before and the text after the first occurrence of `pattern`. -/
def splitOnce (pattern : List Char) : List Char → Option (List Char × List Char)
  | [] => if pattern = [] then some ([], []) else none
  | c :: r =>
    match behind? pattern (c :: r) with
    | some after => some ([], after)
    | none => (splitOnce pattern r).map fun p => (c :: p.1, p.2)

/-- Whether `pattern` occurs in the text. -/
def contains (pattern s : List Char) : Bool := (splitOnce pattern s).isSome

theorem length_of_behind? {pattern s r : List Char} (h : behind? pattern s = some r) :
    s.length = pattern.length + r.length := by
  induction pattern generalizing s with
  | nil => simp_all [behind?]
  | cons p ps ih =>
    cases s with
    | nil => simp [behind?] at h
    | cons c s =>
      simp only [behind?] at h
      split at h
      · have := ih h
        simp only [List.length_cons]
        omega
      · cases h

/-- The text with every occurrence of the non-empty pattern `p :: ps` replaced by `new`. -/
def replaceAll (p : Char) (ps new : List Char) : List Char → List Char
  | [] => []
  | c :: r =>
    match h : behind? (p :: ps) (c :: r) with
    | some after =>
      have : after.length < (c :: r).length := by
        have := length_of_behind? h
        simp only [List.length_cons] at this ⊢
        omega
      new ++ replaceAll p ps new after
    | none => c :: replaceAll p ps new r
termination_by s => s.length
decreasing_by
  · exact this
  · simp

theorem splitAll_ne_nil (sep : Char) (s : List Char) : splitAll sep s ≠ [] := by
  cases s with
  | nil => simp [splitAll]
  | cons c r =>
    simp only [splitAll]
    split
    · simp
    · split <;> simp

/-- Cutting at a character and joining with it gives the text back. -/
theorem joinWith_splitAll (sep : Char) (s : List Char) : joinWith sep (splitAll sep s) = s := by
  induction s with
  | nil => rfl
  | cons c r ih =>
    simp only [splitAll]
    cases h : splitAll sep r with
    | nil => exact absurd h (splitAll_ne_nil sep r)
    | cons piece rest =>
      rw [h] at ih
      split
      · next hc => subst hc; simp [joinWith, ih]
      · cases rest with
        | nil => simpa [joinWith] using ih
        | cons a b => simpa [joinWith] using ih

theorem mem_splitAll_not_mem {sep : Char} {s piece : List Char} (h : piece ∈ splitAll sep s) :
    sep ∉ piece := by
  induction s generalizing piece with
  | nil => simp_all [splitAll]
  | cons c r ih =>
    simp only [splitAll] at h
    cases hr : splitAll sep r with
    | nil => exact absurd hr (splitAll_ne_nil sep r)
    | cons first rest =>
      rw [hr] at h ih
      split at h
      · rcases List.mem_cons.1 h with rfl | h
        · simp
        · exact ih h
      · next hc =>
        rcases List.mem_cons.1 h with rfl | h
        · have := ih List.mem_cons_self
          simp [this, Ne.symm hc]
        · exact ih (List.mem_cons_of_mem _ h)

end PathLedger.Text
