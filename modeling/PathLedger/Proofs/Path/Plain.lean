import Mathlib.Data.List.TakeWhile
import PathLedger.Proofs.Path.Keys
import PathLedger.Proofs.Text.Ends
import PathLedger.Selector.Read

/-!
# Plain paths

The segments of a plain path are made of letters and digits. Such a path is written as its key and
carries no selector.

* `Path.Plain` — every segment is a word of letters and digits.
* `Path.parse_key`, `Path.normalize_plain` — **the key of a plain path is read as that path**.
* `Selector.readTransform_plain`, `Selector.readSelection_plain`, `Selector.readFilter_plain` — no selector
  applies to a plain path.
-/

namespace PathLedger

namespace Text

/-- A letter or a digit. -/
def isPlain (c : Char) : Bool := isLetter c || isDigit c

/-- A word of letters and digits. -/
def isWord (s : String) : Bool := s != "" && s.toList.all isPlain

theorem isWord_iff {s : String} : isWord s ↔ s ≠ "" ∧ ∀ c ∈ s.toList, isPlain c := by
  simp [isWord]

theorem isBlank_of_isPlain {c : Char} (h : isPlain c) : isBlank c = false :=
  isBlank_of_isWordChar (by rw [isWordChar, ← isPlain, h, Bool.true_or])

theorem ne_of_isPlain {c d : Char} (h : isPlain c) (hd : isPlain d = false) : c ≠ d := by
  rintro rfl
  rw [h] at hd
  cases hd

theorem not_mem_of_isPlain {s : List Char} (h : ∀ c ∈ s, isPlain c) {d : Char} (hd : isPlain d = false) :
    d ∉ s := fun hmem => ne_of_isPlain (h d hmem) hd rfl

theorem trim_plain {s : List Char} (h : ∀ c ∈ s, isPlain c) : trim s = s :=
  trim_eq_self fun c hc => isBlank_of_isPlain (h c hc)

end Text

namespace Path

open Text

/-- Every segment is a word of letters and digits. -/
def Plain (p : Path) : Prop := ∀ s ∈ p.segments, s ≠ "" ∧ ∀ c ∈ s.toList, isPlain c

theorem plain_iff {p : Path} : p.segments.all isWord ↔ p.Plain := by
  simp only [List.all_eq_true, isWord_iff, Plain]

instance (p : Path) : Decidable p.Plain := decidable_of_iff _ plain_iff

theorem Plain.clean {p : Path} (h : p.Plain) : p.Clean :=
  fun s hs => ⟨(h s hs).1, not_mem_of_isPlain (h s hs).2 (by decide)⟩

theorem Plain.take {p : Path} (h : p.Plain) (n : Nat) : (p.take n).Plain :=
  fun s hs => h s (List.mem_of_mem_take hs)

theorem Plain.child {p : Path} (h : p.Plain) {s : String} (hs : isWord s) : (p.child s).Plain := by
  intro t ht
  rcases List.mem_append.mp ht with ht | ht
  · exact h t ht
  · obtain rfl := List.mem_singleton.mp ht
    exact isWord_iff.mp hs

theorem Plain.ofKey_key {p : Path} (h : p.Plain) : ofKey p.key = p := Path.ofKey_key h.clean

/-! ## Reading the key -/

/-- Outside of brackets a text is cut at every dot. -/
theorem cut_eq_splitAll {s : List Char} (hopen : '[' ∉ s) (hclose : ']' ∉ s) :
    cut 0 none s = splitAll '.' s := by
  induction s with
  | nil => rfl
  | cons c r ih =>
    obtain ⟨hc, hr⟩ := not_or.mp (mt List.mem_cons.mpr hopen)
    obtain ⟨hc', hr'⟩ := not_or.mp (mt List.mem_cons.mpr hclose)
    simp only [cut, splitAll, ih hr hr', Ne.symm hc, Ne.symm hc', if_false, bne_self_eq_false,
      Bool.and_false, Bool.false_eq_true, decide_true, Bool.and_true, decide_eq_true_eq]
    split
    · rfl
    · cases splitAll '.' r <;> rfl

theorem Plain.mem_key {p : Path} (h : p.Plain) {c : Char} (hc : c ∈ p.key.toList) :
    isPlain c = true ∨ c = '.' := by
  obtain ⟨segments⟩ := p
  induction segments with
  | nil => simp [key, joinSegments] at hc
  | cons s rest ih =>
    have hs := (h s List.mem_cons_self).2
    cases rest with
    | nil => exact .inl (hs c hc)
    | cons t more =>
      have hkey : c ∈ (s ++ "." ++ joinSegments (t :: more)).toList := hc
      simp only [String.toList_append, List.mem_append] at hkey
      rcases hkey with (hkey | hkey) | hkey
      · exact .inl (hs c hkey)
      · exact .inr (by simpa using hkey)
      · exact ih (fun u hu => h u (List.mem_cons_of_mem _ hu)) hkey

theorem Plain.not_mem_key {p : Path} (h : p.Plain) {d : Char} (hd : isPlain d = false) (hdot : d ≠ '.') :
    d ∉ p.key.toList := by
  intro hmem
  rcases h.mem_key hmem with hplain | hdot'
  · rw [hd] at hplain
    cases hplain
  · exact hdot hdot'

/-- **The key of a plain path is read as that path.** -/
theorem parse_key {p : Path} (h : p.Plain) : parse p.key = p := by
  have hcut := cut_eq_splitAll (h.not_mem_key (by decide) (by decide) : '[' ∉ p.key.toList)
    (h.not_mem_key (by decide) (by decide))
  have htrim : (splitAll '.' p.key.toList).map trim = splitAll '.' p.key.toList := by
    refine (List.map_congr_left fun piece hpiece => trim_plain fun c hc => ?_).trans (List.map_id _)
    rcases h.mem_key (mem_of_mem_splitAll hpiece hc) with hplain | rfl
    · exact hplain
    · exact absurd hc (mem_splitAll_not_mem hpiece)
  rw [parse, hcut, htrim]
  exact h.ofKey_key

theorem expand_plain {s : List Char} (hne : s ≠ []) (h : ∀ c ∈ s, isPlain c) : expand s = [s] := by
  have hbracket : s.dropWhile (· != '[') = [] := by
    rw [List.dropWhile_eq_nil_iff]
    intro c hc
    simpa using ne_of_isPlain (h c hc) (by decide)
  rw [expand, trim_plain h, hbracket]
  simp [nonEmpty, hne]

theorem normalize_plain {p : Path} (h : p.Plain) : p.normalize = p := by
  obtain ⟨segments⟩ := p
  rw [normalize]
  congr 1
  induction segments with
  | nil => rfl
  | cons s rest ih =>
    obtain ⟨hne, hs⟩ := h s List.mem_cons_self
    rw [List.flatMap_cons, expand_plain (by simpa using hne) hs, List.map_append,
      ih fun t ht => h t (List.mem_cons_of_mem _ ht)]
    simp

theorem canonical_key {p : Path} (h : p.Plain) : canonical p.key = p := by
  rw [canonical, parse_key h, normalize_plain h]

end Path

/-! ## No selectors -/

namespace Selector

open Text

theorem split?_plain {s : String} (h : ∀ c ∈ s.toList, isPlain c) : split? s = none := by
  have hbracket : s.toList.dropWhile (· != '[') = [] := by
    rw [List.dropWhile_eq_nil_iff]
    intro c hc
    simpa using ne_of_isPlain (h c hc) (by decide)
  rw [split?, trim_plain h, hbracket]

theorem behind?_plain {d : Char} {rest s : List Char} (hd : isPlain d = false) (h : ∀ c ∈ s, isPlain c) :
    behind? (d :: rest) s = none := by
  cases s with
  | nil => rfl
  | cons c r => rw [behind?, if_neg (ne_of_isPlain (h c List.mem_cons_self) hd).symm]

theorem Clause.at?_plain (left : List Char) {s : List Char} (h : ∀ c ∈ s, isPlain c) :
    Clause.at? left s = none := by
  have htrim : ∀ c ∈ trimStart s, isPlain c := fun c hc => h c ((List.dropWhile_sublist _).subset hc)
  have hsymbols : Comparison.symbols.all (fun p => p.1.head?.any fun d => !isPlain d) = true := by decide
  rw [Clause.at?, List.findSome?_eq_none_iff]
  rintro ⟨symbol, op⟩ hp
  have hsymbol := List.all_eq_true.mp hsymbols _ hp
  cases symbol with
  | nil => cases hsymbol
  | cons d rest =>
    have hd : isPlain d = false := by simpa using hsymbol
    simp only [behind?_plain hd htrim]

theorem Clause.search_plain (left : List Char) {s : List Char} (h : ∀ c ∈ s, isPlain c) :
    Clause.search left s = none := by
  induction s generalizing left with
  | nil => rfl
  | cons c r ih =>
    have ih := ih (c :: left) fun d hd => h d (List.mem_cons_of_mem _ hd)
    -- One step of the search by evaluation: its equations take long to make.
    conv => lhs; whnf
    rw [Clause.at?_plain left.reverse h]
    exact ih

theorem Clause.parse?_plain {s : List Char} (h : ∀ c ∈ s, isPlain c) : Clause.parse? s = none := by
  rw [Clause.parse?, trim_plain h]
  cases s with
  | nil => rfl
  | cons c r => exact Clause.search_plain _ fun d hd => h d (List.mem_cons_of_mem _ hd)

theorem partsFrom_plain (passed : List Char) {s : List Char} (h : ∀ c ∈ s, isPlain c) :
    partsFrom passed s = pushText (s.reverse ++ passed) [] := by
  induction s generalizing passed with
  | nil => rfl
  | cons c r ih =>
    have hc := h c List.mem_cons_self
    rw [partsFrom, ih _ fun d hd => h d (List.mem_cons_of_mem _ hd)]
    · simp
    · rintro rest rfl -
      exact absurd hc (by decide)
    · rintro rest rfl -
      exact absurd hc (by decide)

theorem Filter.parse?_plain {s : List Char} (h : ∀ c ∈ s, isPlain c) : Filter.parse? s = none := by
  rw [Filter.parse?, trim_plain h, partsFrom_plain [] h, pushText, List.append_nil, List.reverse_reverse,
    trim_plain h]
  cases s with
  | nil => rfl
  | cons c r => simp only [List.isEmpty_cons, Bool.false_eq_true, if_false, Clause.parse?_plain h]

theorem firstSegment?_eq_none {α : Type} {read : String → Option α} {segments : List String}
    (h : ∀ s ∈ segments, read s = none) : firstSegment? read segments = none := by
  induction segments with
  | nil => rfl
  | cons s rest ih =>
    rw [firstSegment?, h s List.mem_cons_self]
    simp only [ih fun t ht => h t (List.mem_cons_of_mem _ ht), Option.map_none]

theorem firstSegment?_selectorOf? {α : Type} (parse : List Char → Option α) {p : Path} (h : p.Plain) :
    firstSegment? (selectorOf? parse) p.segments = none := by
  refine firstSegment?_eq_none fun s hs => ?_
  rw [selectorOf?, split?_plain (h s hs).2]

section Read

variable {m : Type → Type} [Monad m] (r : Resolver m) (index : Index) {p : Path} (h : p.Plain)

include h

theorem readTransform_plain : readTransform r index p = pure none := by
  rw [readTransform, firstSegment?_selectorOf? _ h]

theorem readSelection_plain : readSelection r index p = pure none := by
  rw [readSelection, firstSegment?_selectorOf? _ h]

theorem readFilter_plain : readFilter r index p = pure none := by
  rw [readFilter, firstSegment?_eq_none fun s hs => Filter.parse?_plain (h s hs).2]

end Read

end Selector

end PathLedger
