import Mathlib.Data.List.Basic
import Mathlib.Data.List.Flatten
import PathLedger.Path.Basic
import PathLedger.Text.Quote

/-!
# The parts of a text are rows of its characters

Cutting, trimming and taking off marks leave characters out, but put none in and keep their order. So what is counted in
a text bounds what is counted in its parts, all of them together.

* `Text.trim_sublist`, `Text.unquote_sublist`, `Text.flatten_splitAll_sublist`, `Text.splitOnce_eq_some` — texts.
* `Path.chars` — the characters of a path, segment by segment.
* `Path.flatten_cut_sublist`, `Path.flatten_expand_sublist` — the scanners over brackets.
* `Path.chars_canonical_sublist` — **the path of a text has characters of the text only**.
-/

namespace PathLedger

open List (Sublist)
open scoped List

/-! ## Texts -/

namespace Text

theorem trim_sublist (s : List Char) : trim s <+ s := by
  obtain ⟨blanks, hblanks, -⟩ := trimEnd_append_blanks (trimStart s)
  have hend : trim s <+ trimStart s := by
    conv_rhs => rw [hblanks]
    exact List.sublist_append_left _ _
  exact hend.trans (List.dropWhile_sublist _)

theorem unquote_sublist (s : List Char) : unquote s <+ s := by
  cases s with
  | nil => exact .slnil
  | cons q r =>
    rw [unquote]
    split
    · exact (List.dropLast_sublist r).cons q
    · exact .refl _

theorem behind?_eq_some {pattern s rest : List Char} (h : behind? pattern s = some rest) : s = pattern ++ rest := by
  induction pattern generalizing s with
  | nil => exact Option.some.inj h
  | cons p ps ih =>
    cases s with
    | nil => cases h
    | cons c s =>
      rw [behind?] at h
      split at h
      · rename_i hc
        rw [hc, ih h, List.cons_append]
      · cases h

theorem behind?_append (pattern rest : List Char) : behind? pattern (pattern ++ rest) = some rest := by
  induction pattern with
  | nil => rfl
  | cons p ps ih => rw [List.cons_append, behind?, if_pos rfl, ih]

theorem splitOnce_eq_some {pattern s left right : List Char} (h : splitOnce pattern s = some (left, right)) :
    s = left ++ pattern ++ right := by
  induction s generalizing left with
  | nil =>
    rw [splitOnce] at h
    split at h
    · rename_i hpattern
      obtain ⟨rfl, rfl⟩ := Prod.mk.inj (Option.some.inj h)
      rw [hpattern]
      rfl
    · cases h
  | cons c r ih =>
    rw [splitOnce] at h
    split at h
    · rename_i after hafter
      obtain ⟨rfl, rfl⟩ := Prod.mk.inj (Option.some.inj h)
      exact behind?_eq_some hafter
    · obtain ⟨⟨front, back⟩, hsplit, heq⟩ := Option.map_eq_some_iff.mp h
      obtain ⟨rfl, rfl⟩ := Prod.mk.inj heq
      rw [ih hsplit]
      rfl

/-- A text around the first occurrence of a character. -/
theorem eq_of_dropWhile {s rest : List Char} {c d : Char} (h : s.dropWhile (· != d) = c :: rest) :
    s = s.takeWhile (· != d) ++ d :: rest := by
  have hfirst := List.head?_dropWhile_not (· != d) s
  rw [h] at hfirst
  obtain rfl : c = d := by simpa using hfirst
  rw [← h, List.takeWhile_append_dropWhile]

theorem flatten_splitAll_sublist (sep : Char) (s : List Char) : (splitAll sep s).flatten <+ s := by
  induction s with
  | nil => exact .slnil
  | cons c r ih =>
    rw [splitAll]
    split
    · exact ih.cons c
    · cases hr : splitAll sep r with
      | nil => exact absurd hr (splitAll_ne_nil sep r)
      | cons piece rest =>
        rw [hr] at ih
        exact ih.cons_cons c

/-- Parts that are changed into rows of their characters. -/
theorem flatten_map_sublist {f : List Char → List Char} (h : ∀ s, f s <+ s) (pieces : List (List Char)) :
    (pieces.map f).flatten <+ pieces.flatten := by
  induction pieces with
  | nil => exact .slnil
  | cons piece rest ih => exact (h piece).append ih

end Text

namespace Path

open Text

theorem flatten_nonEmpty_sublist (pieces : List (List Char)) : (nonEmpty pieces).flatten <+ pieces.flatten :=
  List.filter_sublist.flatten

theorem flatten_consHead (c : Char) (pieces : List (List Char)) :
    (consHead c pieces).flatten = c :: pieces.flatten := by
  cases pieces <;> rfl

/-! ## The scanners over brackets -/

theorem flatten_cut_sublist (depth : Nat) (mark : Option Char) (s : List Char) : (cut depth mark s).flatten <+ s := by
  induction s generalizing depth mark with
  | nil => exact .slnil
  | cons c r ih =>
    have hkeep (depth : Nat) (mark : Option Char) : (consHead c (cut depth mark r)).flatten <+ c :: r := by
      rw [flatten_consHead]
      exact (ih depth mark).cons_cons c
    unfold cut
    split
    · exact hkeep _ _
    · split
      · exact hkeep _ _
      split
      · exact hkeep _ _
      split
      · exact hkeep _ _
      split
      · exact (ih 0 none).cons c
      · exact hkeep _ _

theorem flatten_groups_sublist {depth : Nat} {mark : Option Char} {s : List Char} {contents : List (List Char)}
    (h : groups depth mark s = some contents) : contents.flatten <+ s := by
  induction s generalizing depth mark contents with
  | nil =>
    rw [groups] at h
    split at h
    · rw [← Option.some.inj h]
      exact .slnil
    · cases h
  | cons c r ih =>
    have hkeep {depth : Nat} {mark : Option Char} (h : (groups depth mark r).map (consHead c) = some contents) :
        contents.flatten <+ c :: r := by
      obtain ⟨pieces, hpieces, rfl⟩ := Option.map_eq_some_iff.mp h
      rw [flatten_consHead]
      exact (ih hpieces).cons_cons c
    unfold groups at h
    split at h
    · split at h
      · exact (ih h).cons c
      · cases h
    · split at h
      · exact hkeep h
      · split at h
        · exact hkeep h
        split at h
        · exact hkeep h
        split at h
        · split at h
          · obtain ⟨pieces, hpieces, rfl⟩ := Option.map_eq_some_iff.mp h
            exact (ih hpieces).cons c
          · exact hkeep h
        · exact hkeep h

theorem flatten_expand_sublist (segment : List Char) : (expand segment).flatten <+ segment := by
  refine Sublist.trans ?_ (trim_sublist segment)
  unfold expand
  dsimp only
  split
  · exact (flatten_nonEmpty_sublist _).trans (by rw [List.flatten_singleton])
  · have hbase : (nonEmpty [trim ((trim segment).takeWhile (· != '['))]).flatten <+
        (trim segment).takeWhile (· != '[') :=
      (flatten_nonEmpty_sublist _).trans (by rw [List.flatten_singleton]; exact trim_sublist _)
    conv_rhs => rw [← List.takeWhile_append_dropWhile (p := (· != '[')) (l := trim segment)]
    rw [List.flatten_append]
    refine hbase.append ?_
    split
    · rename_i contents hcontents
      exact (flatten_nonEmpty_sublist _).trans
        ((flatten_map_sublist (fun g => (unquote_sublist _).trans (trim_sublist g)) contents).trans
          (flatten_groups_sublist hcontents))
    · rw [List.flatten_singleton]

/-! ## Paths -/

/-- The characters of a path, segment by segment. -/
def chars (p : Path) : List Char := (p.segments.map String.toList).flatten

theorem chars_ofList (pieces : List (List Char)) : chars ⟨pieces.map String.ofList⟩ = pieces.flatten := by
  rw [chars, List.map_map]
  congr 1
  refine (List.map_congr_left fun s _ => ?_).trans (List.map_id _)
  exact String.toList_ofList

theorem chars_parse_sublist (raw : String) : (parse raw).chars <+ raw.toList := by
  rw [parse, chars_ofList]
  exact (flatten_nonEmpty_sublist _).trans
    ((flatten_map_sublist trim_sublist _).trans (flatten_cut_sublist 0 none raw.toList))

theorem chars_normalize_sublist (p : Path) : p.normalize.chars <+ p.chars := by
  rw [normalize, chars_ofList, chars]
  induction p.segments with
  | nil => exact .slnil
  | cons s rest ih =>
    rw [List.flatMap_cons, List.flatten_append, List.map_cons, List.flatten_cons]
    exact (flatten_expand_sublist s.toList).append ih

/-- **The path of a text has characters of the text only.** -/
theorem chars_canonical_sublist (raw : String) : (canonical raw).chars <+ raw.toList :=
  (chars_normalize_sublist _).trans (chars_parse_sublist raw)

theorem chars_join (p q : Path) : (p.join q).chars = p.chars ++ q.chars := by
  rw [chars, join, List.map_append, List.flatten_append]
  rfl

theorem chars_child (p : Path) (segment : String) : (p.child segment).chars = p.chars ++ segment.toList := by
  rw [chars, child, List.map_append, List.flatten_append, List.map_singleton, List.flatten_singleton]
  rfl

/-- The characters of a path are those before a segment, of the segment and behind it. -/
theorem chars_split {p : Path} {n : Nat} {segment : String} (h : p.segments[n]? = some segment) :
    p.chars = (p.take n).chars ++ segment.toList ++ (p.drop (n + 1)).chars := by
  obtain ⟨hn, rfl⟩ := List.getElem?_eq_some_iff.mp h
  rw [chars, chars, chars, take, drop, List.append_assoc, ← List.flatten_cons, ← List.flatten_append, ← List.map_cons,
    ← List.map_append, ← List.drop_eq_getElem_cons hn, List.take_append_drop]

theorem chars_drop_sublist (p : Path) (n : Nat) : (p.drop n).chars <+ p.chars :=
  ((List.drop_sublist n p.segments).map String.toList).flatten

end Path

end PathLedger
