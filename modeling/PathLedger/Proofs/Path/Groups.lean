import PathLedger.Proofs.Text.Ends
import PathLedger.Path.Basic

/-!
# Rows of bracket groups

A row of groups is taken apart into the texts between its brackets, and written again from these. A segment that is such
a row names nothing where every group is vacant: blank, or an empty quoted text. So a path whose segments are all
vacant stands for the root, although it is written with segments.

* `Path.bracketed` — the text of a group.
* `Path.groups_text` — **what is taken apart is the row of the groups**.
* `Path.Closed` — contents of a group in which no bracket ends it; `Path.groups_row` takes a row of them apart.
* `Path.Vacant` — rows of vacant groups; `Path.expand_eq_nil_iff` — **these are the segments that name nothing**.
* `Path.normalize_isRoot_iff` — the paths that stand for the root.
-/

namespace PathLedger.Path

open Text

/-! ## Rows -/

/-- The text of a bracket group. -/
def bracketed (content : List Char) : List Char := '[' :: (content ++ [']'])

/-- **What is taken apart is the row of the groups**; inside of brackets, the first piece is the rest of the group. -/
theorem groups_text {depth : Nat} {mark : Option Char} {s : List Char} {contents : List (List Char)}
    (h : groups depth mark s = some contents) :
    (depth = 0 → s = contents.flatMap bracketed) ∧
      (depth ≠ 0 → ∃ first rest, contents = first :: rest ∧ s = first ++ ']' :: rest.flatMap bracketed) := by
  induction s generalizing depth mark contents with
  | nil =>
    rw [groups] at h
    split at h
    · rename_i hdepth
      obtain rfl := Option.some.inj h
      exact ⟨fun _ => rfl, fun hne => absurd hdepth hne⟩
    · cases h
  | cons c r ih =>
    -- A character inside of a group goes to its first piece.
    have hkeep {more : Nat} {mark' : Option Char} (hmore : more ≠ 0)
        (h : (groups more mark' r).map (consHead c) = some contents) :
        ∃ first rest, contents = first :: rest ∧ c :: r = first ++ ']' :: rest.flatMap bracketed := by
      obtain ⟨pieces, hpieces, rfl⟩ := Option.map_eq_some_iff.mp h
      obtain ⟨first, rest, rfl, htext⟩ := (ih hpieces).2 hmore
      exact ⟨c :: first, rest, rfl, by rw [htext, List.cons_append]⟩
    unfold groups at h
    split at h
    · rename_i hdepth
      refine ⟨fun _ => ?_, fun hne => absurd hdepth hne⟩
      split at h
      · rename_i hopen
        obtain ⟨first, rest, rfl, htext⟩ := (ih h).2 Nat.one_ne_zero
        rw [hopen, htext, List.flatMap_cons, bracketed]
        simp
      · cases h
    · rename_i hdepth
      refine ⟨fun hzero => absurd hzero hdepth, fun _ => ?_⟩
      split at h
      · exact hkeep hdepth h
      · split at h
        · exact hkeep hdepth h
        split at h
        · exact hkeep (Nat.succ_ne_zero depth) h
        split at h
        · rename_i hclose
          split at h
          · obtain ⟨pieces, hpieces, rfl⟩ := Option.map_eq_some_iff.mp h
            exact ⟨[], pieces, rfl, by rw [hclose, (ih hpieces).1 rfl]; rfl⟩
          · exact hkeep (by omega) h
        · exact hkeep hdepth h

/-- Characters put in front of the first piece. -/
def prepend (front : List Char) (pieces : List (List Char)) : List (List Char) := front.foldr consHead pieces

theorem prepend_cons (front piece : List Char) (rest : List (List Char)) :
    prepend front (piece :: rest) = (front ++ piece) :: rest := by
  induction front with
  | nil => rfl
  | cons c front ih =>
    show consHead c (prepend front (piece :: rest)) = _
    rw [ih]
    rfl

theorem prepend_append (s t : List Char) (pieces : List (List Char)) :
    prepend (s ++ t) pieces = prepend s (prepend t pieces) := List.foldr_append

/-- A text that is taken as it is inside of a bracket group. -/
def Closed (content : List Char) : Prop :=
  ∀ depth rest, groups (depth + 1) none (content ++ rest) = (groups (depth + 1) none rest).map (prepend content)

theorem closed_nil : Closed [] := by
  intro depth rest
  exact Option.map_id'.symm

theorem Closed.append {s t : List Char} (hs : Closed s) (ht : Closed t) : Closed (s ++ t) := by
  intro depth rest
  rw [List.append_assoc, hs, ht, Option.map_map]
  congr 1
  funext pieces
  exact (prepend_append s t pieces).symm

/-- Characters that are neither brackets nor quotation marks are taken as they are. -/
theorem closed_bare {s : List Char} (h : ∀ c ∈ s, isQuote c = false ∧ c ≠ '[' ∧ c ≠ ']') : Closed s := by
  induction s with
  | nil => exact closed_nil
  | cons c s ih =>
    obtain ⟨⟨hquote, hopen, hclose⟩, hs⟩ := List.forall_mem_cons.mp h
    intro depth rest
    rw [List.cons_append, groups, if_neg (Nat.succ_ne_zero depth)]
    simp only [hquote, hopen, hclose, Bool.false_eq_true, if_false]
    rw [ih hs, Option.map_map]
    rfl

/-- What stands behind an open quotation mark is taken up to the mark. -/
theorem groups_quoted {q : Char} {text : List Char} (htext : q ∉ text) (depth : Nat) (rest : List Char) :
    groups (depth + 1) (some q) (text ++ q :: rest) =
      (groups (depth + 1) none rest).map (prepend (text ++ [q])) := by
  induction text with
  | nil =>
    rw [List.nil_append, groups, if_neg (Nat.succ_ne_zero depth)]
    rw [if_pos rfl]
    rfl
  | cons c text ih =>
    obtain ⟨hne, htext⟩ := List.ne_and_not_mem_of_not_mem_cons htext
    rw [List.cons_append, groups, if_neg (Nat.succ_ne_zero depth)]
    rw [if_neg hne.symm, ih htext, Option.map_map]
    rfl

/-- A quoted text is taken as it is. -/
theorem closed_quoted {q : Char} {text : List Char} (hquote : isQuote q) (htext : q ∉ text) :
    Closed (q :: (text ++ [q])) := by
  intro depth rest
  rw [List.cons_append, List.append_assoc, List.singleton_append, groups, if_neg (Nat.succ_ne_zero depth)]
  rw [if_pos hquote, groups_quoted htext, Option.map_map]
  rfl

/-- **A row of groups is taken apart into their contents.** -/
theorem groups_row {contents : List (List Char)} (h : ∀ content ∈ contents, Closed content) :
    groups 0 none (contents.flatMap bracketed) = some contents := by
  induction contents with
  | nil => rfl
  | cons content rest ih =>
    obtain ⟨hcontent, hrest⟩ := List.forall_mem_cons.mp h
    have htext : (content :: rest).flatMap bracketed = '[' :: (content ++ ']' :: rest.flatMap bracketed) := by
      rw [List.flatMap_cons, bracketed]
      simp
    have hclose : groups 1 none (']' :: rest.flatMap bracketed) = some ([] :: rest) := by
      rw [groups, if_neg Nat.one_ne_zero]
      rw [if_neg (by decide), if_neg (by decide), if_pos rfl, if_pos rfl, ih hrest]
      rfl
    rw [htext, groups, if_pos rfl, if_pos rfl, hcontent 0, hclose, Option.map_some, prepend_cons, List.append_nil]

/-! ## Vacant segments -/

theorem unquote_eq_nil_iff {s : List Char} : unquote s = [] ↔ s = [] ∨ ∃ q, isQuote q ∧ s = [q, q] := by
  constructor
  · intro h
    cases s with
    | nil => exact .inl rfl
    | cons q r =>
      rw [unquote] at h
      split at h
      · rename_i hmarks
        rw [Bool.and_eq_true, decide_eq_true_eq] at hmarks
        obtain ⟨hquote, hlast⟩ := hmarks
        obtain ⟨front, hr⟩ := List.getLast?_eq_some_iff.mp hlast
        rw [hr, List.dropLast_concat] at h
        exact .inr ⟨q, hquote, by rw [hr, h]; rfl⟩
      · cases h
  · rintro (rfl | ⟨q, hquote, rfl⟩)
    · rfl
    · rw [unquote, if_pos]
      · rfl
      · rw [Bool.and_eq_true]
        exact ⟨hquote, decide_eq_true rfl⟩

/-- A group that names nothing: between its brackets there are blanks only, or an empty quoted text. -/
def VacantGroup (content : List Char) : Prop := trim content = [] ∨ ∃ q, isQuote q ∧ trim content = [q, q]

/-- A row of groups that name nothing. -/
def Vacant (segment : List Char) : Prop :=
  ∃ contents : List (List Char), segment = contents.flatMap bracketed ∧ ∀ content ∈ contents, VacantGroup content

/-- No blank is a character that the scanners know. -/
theorem bare_of_isBlank {c : Char} (h : isBlank c) : isQuote c = false ∧ c ≠ '[' ∧ c ≠ ']' ∧ c ≠ '.' := by
  have hne {d : Char} (hd : isBlank d = false) : c ≠ d := by
    rintro rfl
    rw [h] at hd
    cases hd
  refine ⟨?_, hne (by decide), hne (by decide), hne (by decide)⟩
  simp [isQuote, hne (d := '"') (by decide), hne (d := '\'') (by decide)]

theorem closed_blank {s : List Char} (h : ∀ c ∈ s, isBlank c) : Closed s := by
  refine closed_bare fun c hc => ?_
  obtain ⟨hquote, hopen, hclose, -⟩ := bare_of_isBlank (h c hc)
  exact ⟨hquote, hopen, hclose⟩

theorem VacantGroup.closed {content : List Char} (h : VacantGroup content) : Closed content := by
  obtain ⟨front, back, hcontent, hfront, hback⟩ := trim_surrounded content
  have hmiddle : Closed (trim content) := by
    rcases h with hempty | ⟨q, hquote, hmarks⟩
    · rw [hempty]
      exact closed_nil
    · rw [hmarks]
      exact closed_quoted hquote List.not_mem_nil
  rw [hcontent]
  exact ((closed_blank hfront).append hmiddle).append (closed_blank hback)

theorem nonEmpty_eq_nil_iff {pieces : List (List Char)} : nonEmpty pieces = [] ↔ ∀ piece ∈ pieces, piece = [] := by
  simp [nonEmpty]

theorem nonEmpty_singleton {piece : List Char} (h : piece ≠ []) : nonEmpty [piece] = [piece] := by
  simp [nonEmpty, h]

theorem nonEmpty_contents_eq_nil_iff {contents : List (List Char)} :
    nonEmpty (contents.map fun g => unquote (trim g)) = [] ↔ ∀ content ∈ contents, VacantGroup content := by
  rw [nonEmpty_eq_nil_iff, List.forall_mem_map]
  exact forall₂_congr fun content _ => unquote_eq_nil_iff

/-- **A segment names nothing where it is a row of vacant groups**, with blanks around it. -/
theorem expand_eq_nil_iff {segment : List Char} : expand segment = [] ↔ Vacant (trim segment) := by
  unfold expand
  dsimp only
  cases htrim : trim segment with
  | nil => exact ⟨fun _ => ⟨[], rfl, fun _ h => absurd h List.not_mem_nil⟩, fun _ => rfl⟩
  | cons c r =>
    by_cases hopen : c = '['
    · subst hopen
      rw [List.takeWhile_cons_of_neg (by decide), List.dropWhile_cons_of_neg (by decide), List.isEmpty_cons,
        if_neg Bool.false_ne_true]
      constructor
      · intro h
        obtain ⟨-, h⟩ := List.append_eq_nil_iff.mp h
        split at h
        · rename_i contents hcontents
          exact ⟨contents, (groups_text hcontents).1 rfl, nonEmpty_contents_eq_nil_iff.mp h⟩
        · cases h
      · rintro ⟨contents, htext, hvacant⟩
        rw [htext, groups_row fun content h => (hvacant content h).closed]
        exact nonEmpty_contents_eq_nil_iff.mpr hvacant
    · have hblank : isBlank c = false := isBlank_of_mem_head?_trim (by rw [htrim]; rfl)
      constructor
      · -- What stands before the first bracket is kept as the base.
        intro h
        obtain ⟨t, ht⟩ := trim_cons hblank (r.takeWhile (· != '['))
        rw [List.takeWhile_cons_of_pos (by simpa using hopen), ht] at h
        split at h
        · cases h
        · cases h
      · rintro ⟨contents, htext, -⟩
        cases contents with
        | nil => cases htext
        | cons content rest => exact absurd (List.cons.inj htext).1 hopen

/-- **The paths that stand for the root** are those whose segments name nothing. -/
theorem normalize_isRoot_iff {p : Path} : p.normalize.isRoot ↔ ∀ s ∈ p.segments, Vacant (trim s.toList) := by
  rw [isRoot, normalize, List.isEmpty_iff, List.map_eq_nil_iff, List.flatMap_eq_nil_iff]
  exact forall₂_congr fun s _ => expand_eq_nil_iff

end PathLedger.Path
