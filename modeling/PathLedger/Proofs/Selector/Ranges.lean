import PathLedger.Proofs.Number.Written
import PathLedger.Proofs.Selector.Choices

/-!
# Ranges of keys

A range `a..b` names the whole numbers from one end to the other, by their decimal texts. It is exact for all ends of
64 bits: no distance between them wraps, and one that is too long refuses the range.

* `Selector.Spells`, `Selector.Spaced` — how whole numbers are written, with blanks around them or none.
* `Selector.integer?_spells` — a number of 64 bits is read from whatever spells it.
* `Selector.Running` — the whole numbers from one to another in this direction; `Selector.running_span` counts them.
* `Selector.keys?_range`, `Selector.keys?_listed` — what a range and a list of numbers name.
* `Selector.ChooseAlike` — segments that read the same wherever they stand.
* `Selector.range_exact` — **a range of 64-bit numbers is exact**, and reads as the list of its keys does.
-/

namespace PathLedger

open Text

namespace Text

/-- The text in front of the first occurrence of a pattern, and the text behind it. -/
theorem splitOnce_append {p : Char} {front : List Char} (h : p ∉ front) (ps rest : List Char) :
    splitOnce (p :: ps) (front ++ (p :: ps ++ rest)) = some (front, rest) := by
  induction front with
  | nil =>
    rw [List.nil_append, List.cons_append, splitOnce, ← List.cons_append, behind?_append]
  | cons c r ih =>
    obtain ⟨hc, hr⟩ := not_or.mp (mt List.mem_cons.mpr h)
    rw [List.cons_append, splitOnce, behind?, if_neg hc, ih hr]
    rfl

end Text

namespace Selector

/-! ## Written numbers -/

/-- How a whole number is spelled: digits behind an optional minus. Zeros may stand in front. -/
def Spells (s : List Char) (n : Int) : Prop :=
  ∃ digits : List Char, digits ≠ [] ∧ (∀ c ∈ digits, isDigit c) ∧
    (s = digits ∧ n = digitsValue digits ∨ s = '-' :: digits ∧ n = -(digitsValue digits : Int))

/-- A whole number with blanks around it, or none. -/
def Spaced (s : List Char) (n : Int) : Prop :=
  ∃ front spelled back, s = front ++ spelled ++ back ∧ (∀ c ∈ front, isBlank c) ∧ (∀ c ∈ back, isBlank c) ∧
    Spells spelled n

/-- The characters of written numbers. -/
def isNumeric (c : Char) : Bool := c == '-' || isDigit c

section Written

variable {s : List Char} {n : Int} {c : Char}

theorem isBlank_of_isNumeric (h : isNumeric c) : isBlank c = false := by
  rw [isNumeric, Bool.or_eq_true, beq_iff_eq] at h
  rcases h with rfl | h
  · decide
  · exact isBlank_of_isWordChar (isWordChar_of_isDigit h)

theorem ne_of_isNumeric (h : isNumeric c) {d : Char} (hd : isNumeric d = false) : c ≠ d := by
  rintro rfl
  rw [h] at hd
  cases hd

theorem Spells.numeric (h : Spells s n) : s ≠ [] ∧ ∀ c ∈ s, isNumeric c := by
  obtain ⟨digits, hne, hdigits, ⟨rfl, -⟩ | ⟨rfl, -⟩⟩ := h
  · exact ⟨hne, fun c hc => by simp [isNumeric, hdigits c hc]⟩
  · refine ⟨List.cons_ne_nil _ _, fun c hc => ?_⟩
    rcases List.mem_cons.mp hc with rfl | hc
    · decide
    · simp [isNumeric, hdigits c hc]

/-- A number is spelled by its decimal text. -/
theorem spells_toString (n : Int) : Spells (toString n).toList n := by
  cases n with
  | ofNat n =>
    exact ⟨(toString n).toList, toString_ne_nil n, fun _ => isDigit_of_mem_toString,
      .inl ⟨rfl, by rw [digitsValue_toString]; rfl⟩⟩
  | negSucc n =>
    refine ⟨(toString (n + 1)).toList, toString_ne_nil _, fun _ => isDigit_of_mem_toString,
      .inr ⟨toString_negSucc n, ?_⟩⟩
    rw [digitsValue_toString]
    rfl

theorem Spells.trim (h : Spells s n) : trim s = s :=
  trim_eq_self fun _ hc => isBlank_of_isNumeric (h.numeric.2 _ hc)

/-- Between two numbers nothing is trimmed. -/
theorem Spells.trim_between {t : List Char} {m : Int} (hs : Spells s n) (ht : Spells t m) (middle : List Char) :
    Text.trim (s ++ middle ++ t) = s ++ middle ++ t := by
  obtain ⟨hsne, hsnumeric⟩ := hs.numeric
  obtain ⟨htne, htnumeric⟩ := ht.numeric
  refine trim_of_ends (fun c hc => ?_) fun c hc => ?_
  · rw [List.append_assoc, List.head?_append_of_ne_nil _ hsne] at hc
    exact isBlank_of_isNumeric (hsnumeric c (List.mem_of_mem_head? hc))
  · rw [List.getLast?_append_of_ne_nil _ htne] at hc
    exact isBlank_of_isNumeric (htnumeric c (List.mem_of_getLast? hc))

theorem Spaced.trim (h : Spaced s n) : Spells (trim s) n := by
  obtain ⟨front, spelled, back, rfl, hfront, hback, hspelled⟩ := h
  rwa [trim_append_blanks hfront hback, hspelled.trim]

/-- Around and inside a number there is nothing but blanks, digits and its sign. -/
theorem Spaced.not_mem (h : Spaced s n) {d : Char} (hblank : isBlank d = false) (hnumeric : isNumeric d = false) :
    d ∉ s := by
  obtain ⟨front, spelled, back, rfl, hfront, hback, hspelled⟩ := h
  intro hd
  rcases List.mem_append.mp hd with hd | hd
  · rcases List.mem_append.mp hd with hd | hd
    · simp [hfront d hd] at hblank
    · simp [hspelled.numeric.2 d hd] at hnumeric
  · simp [hback d hd] at hblank

/-- A number of 64 bits is read from whatever spells it. -/
theorem integer?_spells {a : Int64} (h : Spells s a.toInt) : integer? s = some a.toInt := by
  have hlow : -9223372036854775808 ≤ a.toInt := a.le_toInt
  have hhigh : a.toInt < 9223372036854775808 := a.toInt_lt
  obtain ⟨digits, hne, hdigits, ⟨rfl, hvalue⟩ | ⟨rfl, hvalue⟩⟩ := h
  · have hsign : ¬s.head? = some '-' := fun hfirst =>
      absurd (hdigits '-' (List.mem_of_mem_head? hfirst)) (by decide)
    simpa [integer?, hsign, hne, ← hvalue] using ⟨hdigits, hlow, hhigh⟩
  · simpa [integer?, hne, ← hvalue] using ⟨hdigits, hlow, hhigh⟩

end Written

/-! ## Numbers one after another -/

/-- The whole numbers from one to another, both included, in this direction and without repetition. -/
structure Running (a b : Int) (ns : List Int) : Prop where
  mem_iff (n : Int) : n ∈ ns ↔ min a b ≤ n ∧ n ≤ max a b
  upwards (h : a ≤ b) : ns.Pairwise (· < ·)
  downwards (h : b ≤ a) : ns.Pairwise (· > ·)

theorem running_span (a b : Int) : Running a b (span a b) where
  mem_iff n := by
    rw [span, List.mem_map]
    constructor
    · rintro ⟨i, hi, rfl⟩
      rw [List.mem_range] at hi
      split <;> omega
    · rintro ⟨hlow, hhigh⟩
      refine ⟨(n - a).natAbs, List.mem_range.mpr (by omega), ?_⟩
      split <;> omega
  upwards h := by
    refine List.Pairwise.map _ (fun i j hij => ?_) List.pairwise_lt_range
    rw [if_pos h, if_pos h]
    omega
  downwards h := by
    rcases h.eq_or_lt with rfl | h
    · simp [span]
    · refine List.Pairwise.map _ (fun i j hij => ?_) List.pairwise_lt_range
      rw [if_neg (by omega), if_neg (by omega)]
      omega

/-! ## What ranges and lists name -/

section Keys

variable {left right : List Char} {a b : Int64}

theorem rangeKeys?_spaced (hleft : Spaced left a.toInt) (hright : Spaced right b.toInt) :
    rangeKeys? (left ++ ['.', '.'] ++ right) =
      if (b.toInt - a.toInt).natAbs ≤ 10000 then some ((span a.toInt b.toInt).map toString) else none := by
  have hdot : '.' ∉ left := hleft.not_mem (by decide) (by decide)
  rw [rangeKeys?, List.append_assoc, splitOnce_append hdot ['.'] right]
  simp only [Option.bind_eq_bind, Option.bind_some, integer?_spells hleft.trim, integer?_spells hright.trim]
  rfl

/-- **A range of 64-bit numbers** names all of them by their texts, unless they are too many. -/
theorem keys?_range (hleft : Spaced left a.toInt) (hright : Spaced right b.toInt) :
    keys? (left ++ ['.', '.'] ++ right) =
      if (b.toInt - a.toInt).natAbs ≤ 10000 then some ((span a.toInt b.toInt).map toString) else none := by
  obtain ⟨front, s, inner, rfl, hfront, hinner, hs⟩ := hleft
  obtain ⟨inner', t, back, rfl, hinner', hback, ht⟩ := hright
  -- Trimmed, the range goes from the first character of one number to the last of the other.
  have htrim : trim (front ++ s ++ inner ++ ['.', '.'] ++ (inner' ++ t ++ back)) =
      s ++ inner ++ ['.', '.'] ++ (inner' ++ t) := by
    have hmiddle := hs.trim_between ht (inner ++ ['.', '.'] ++ inner')
    have hends := trim_append_blanks hfront hback (s ++ (inner ++ ['.', '.'] ++ inner') ++ t)
    rw [hmiddle] at hends
    simpa only [List.append_assoc] using hends
  have hbracket : inBrackets? (s ++ inner ++ ['.', '.'] ++ (inner' ++ t)) = none := by
    obtain ⟨hne, hnumeric⟩ := hs.numeric
    obtain ⟨c, r, rfl⟩ := List.exists_cons_of_ne_nil hne
    have hc : c ≠ '[' := ne_of_isNumeric (hnumeric c List.mem_cons_self) (by decide)
    simp [inBrackets?, hc]
  have hleft : Spaced (s ++ inner) a.toInt := ⟨[], s, inner, rfl, by simp, hinner, hs⟩
  have hright : Spaced (inner' ++ t) b.toInt := ⟨inner', t, [], by simp, hinner', by simp, ht⟩
  rw [keys?, htrim, hbracket]
  exact rangeKeys?_spaced hleft hright

variable {numbers : List Int} {pieces : List (List Char)}

/-- **A list of numbers** with commas between them, and blanks around them or none, names them by their texts. -/
theorem keys?_listed (hne : numbers ≠ []) (h : pieces.map trim = numbers.map fun n => (toString n).toList) :
    keys? (Path.bracketed (joinWith ',' pieces)) = some (numbers.map toString) := by
  have hpieces : pieces ≠ [] := by
    rintro rfl
    exact hne (List.map_eq_nil_iff.mp h.symm)
  have hcomma : ∀ piece ∈ pieces, ',' ∉ piece := by
    intro piece hpiece
    have hmem := List.mem_map_of_mem (f := trim) hpiece
    rw [h, List.mem_map] at hmem
    obtain ⟨n, -, hn⟩ := hmem
    obtain ⟨front, back, hsplit, hfront, hback⟩ := trim_surrounded piece
    have hspaced : Spaced piece n := ⟨front, trim piece, back, hsplit, hfront, hback, hn ▸ spells_toString n⟩
    exact hspaced.not_mem (by decide) (by decide)
  have hkept : (numbers.map fun n => (toString n).toList).filter (!·.isEmpty) =
      numbers.map fun n => (toString n).toList := by
    refine List.filter_eq_self.mpr fun text htext => ?_
    obtain ⟨n, -, rfl⟩ := List.mem_map.mp htext
    simpa using (spells_toString n).numeric.1
  have hunquoted (n : Int) : String.ofList (unquote (toString n).toList) = toString n := by
    obtain ⟨hsome, hnumeric⟩ := (spells_toString n).numeric
    obtain ⟨c, r, hcons⟩ := List.exists_cons_of_ne_nil hsome
    have hc : isNumeric c := hnumeric c (hcons ▸ List.mem_cons_self)
    rw [hcons, unquote, if_neg, ← hcons, String.ofList_toList]
    simp [ne_of_isNumeric hc (d := '"') (by decide), ne_of_isNumeric hc (d := '\'') (by decide)]
  have hinside : inBrackets? (Path.bracketed (joinWith ',' pieces)) = some (joinWith ',' pieces) := by
    simp [inBrackets?, Path.bracketed]
  rw [keys?, trim_bracketed, hinside]
  dsimp only
  rw [keyList, splitAll_joinWith hpieces hcomma, h, hkept, List.map_map]
  exact congrArg some (List.map_congr_left fun n _ => hunquoted n)

end Keys

/-! ## Segments that choose alike -/

/-- Two segments read the same wherever they stand, behind segments that name no keys and before any. -/
def ChooseAlike (s t : String) : Prop :=
  ∀ (m : Type → Type) [Monad m] (r : Resolver m) (index : Index) (front rest : Path),
    (∀ u ∈ front.segments, selectorOf? keys? u = none) →
      readSelection r index ((front.child s).join rest) = readSelection r index ((front.child t).join rest)

theorem chooseAlike_of_keys {s t : String} {found : String × List String} (hs : selectorOf? keys? s = some found)
    (ht : selectorOf? keys? t = some found) : ChooseAlike s t := by
  intro m _ r index front rest hfront
  have hread {u : String} (hu : selectorOf? keys? u = some found) :
      readSelection r index ((front.child u).join rest) = do
        return some (← gatherObject
          (fun key => readBelow r index ((front.normalize.child found.1).child key) rest) found.2) := by
    have hsegments : ((front.child u).join rest).segments = front.segments ++ u :: rest.segments := by
      simp [Path.child, Path.join]
    rw [readSelection, hsegments, firstSegment?_append hfront hu]
    simp [collectionAt, Path.take, Path.drop, hsegments]
  rw [hread hs, hread ht]

/-! ## Exact ranges -/

section Exact

variable {base : String} {inner : List Char}

theorem keys?_trim (selector : List Char) : keys? (trim selector) = keys? selector := by
  rw [keys?, keys?, trim_trim]

/-- What the brackets behind a name choose is what they have inside. -/
theorem selectorOf?_bracketed (hbase : Names base) (hinner : trim inner ≠ []) :
    selectorOf? keys? (base ++ String.ofList (Path.bracketed inner)) =
      (keys? inner).map fun keys => (String.ofList (trim base.toList), keys) := by
  rw [selectorOf?, split?_bracketed_of_names hbase hinner]
  dsimp only
  rw [keys?_trim]

/-- **A range of 64-bit numbers is exact.** When its ends are at most ten thousand apart it names the texts of all
numbers from the one to the other, in this direction, and behind any name it reads as the list of them with commas
does. When they are farther apart it names nothing. -/
theorem range_exact {left right : List Char} {a b : Int64} (hleft : Spaced left a.toInt)
    (hright : Spaced right b.toInt) :
    ((b.toInt - a.toInt).natAbs ≤ 10000 → ∃ numbers, Running a.toInt b.toInt numbers ∧
      keys? (left ++ ['.', '.'] ++ right) = some (numbers.map toString) ∧
      ∀ base pieces, Names base → pieces.map trim = (numbers.map fun n => (toString n).toList) →
        ChooseAlike (base ++ String.ofList (Path.bracketed (left ++ ['.', '.'] ++ right)))
          (base ++ String.ofList (Path.bracketed (Path.bracketed (joinWith ',' pieces))))) ∧
    (10000 < (b.toInt - a.toInt).natAbs → keys? (left ++ ['.', '.'] ++ right) = none) := by
  have hkeys := keys?_range hleft hright
  constructor
  · intro hnear
    rw [if_pos hnear] at hkeys
    have hrunning := running_span a.toInt b.toInt
    refine ⟨span a.toInt b.toInt, hrunning, hkeys, fun base pieces hbase hpieces => ?_⟩
    have hsome : span a.toInt b.toInt ≠ [] :=
      List.ne_nil_of_mem ((hrunning.mem_iff a.toInt).mpr ⟨min_le_left _ _, le_max_left _ _⟩)
    have hdot : trim (left ++ ['.', '.'] ++ right) ≠ [] := trim_ne_nil (c := '.') (by simp) (by decide)
    have hopen : trim (Path.bracketed (joinWith ',' pieces)) ≠ [] := by
      rw [trim_bracketed]
      exact List.cons_ne_nil _ _
    have hrange := selectorOf?_bracketed hbase hdot
    have hlisted := selectorOf?_bracketed hbase hopen
    rw [hkeys, Option.map_some] at hrange
    rw [keys?_listed hsome hpieces, Option.map_some] at hlisted
    exact chooseAlike_of_keys hrange hlisted
  · intro hfar
    rw [hkeys, if_neg (by omega)]

/-- Downwards from the last number of 64 bits, with blanks, in a collection of accounts; from the first to the last
there are too many. -/
theorem range_exact_ends :
    (∃ numbers, Running 9223372036854775807 9223372036854775798 numbers ∧
      keys? " 9223372036854775807 .. 9223372036854775798".toList = some (numbers.map toString) ∧
      ∀ pieces, pieces.map trim = (numbers.map fun n => (toString n).toList) →
        ChooseAlike "accounts[ 9223372036854775807 .. 9223372036854775798]"
          ("accounts" ++ String.ofList (Path.bracketed (Path.bracketed (joinWith ',' pieces))))) ∧
      keys? "-9223372036854775808..9223372036854775807".toList = none := by
  have htop : Spells "9223372036854775807".toList 9223372036854775807 := spells_toString 9223372036854775807
  have hbelow : Spells "9223372036854775798".toList 9223372036854775798 := spells_toString 9223372036854775798
  have hbottom : Spells "-9223372036854775808".toList (-9223372036854775808) :=
    ⟨"9223372036854775808".toList, by decide, List.all_eq_true.mp (by decide), .inr ⟨by decide, by decide⟩⟩
  have hblank : ∀ c ∈ [' '], isBlank c := List.all_eq_true.mp (by decide)
  have hnone : ∀ c ∈ ([] : List Char), isBlank c := List.forall_mem_nil _
  have hdown : Spaced " 9223372036854775807 ".toList Int64.maxValue.toInt :=
    ⟨[' '], "9223372036854775807".toList, [' '], by decide, hblank, hblank, htop⟩
  have hlower : Spaced " 9223372036854775798".toList (Int64.toInt 9223372036854775798) :=
    ⟨[' '], "9223372036854775798".toList, [], by decide, hblank, hnone, hbelow⟩
  have hfirst : Spaced "-9223372036854775808".toList Int64.minValue.toInt :=
    ⟨[], "-9223372036854775808".toList, [], by decide, hnone, hnone, hbottom⟩
  have hlast : Spaced "9223372036854775807".toList Int64.maxValue.toInt :=
    ⟨[], "9223372036854775807".toList, [], by decide, hnone, hnone, htop⟩
  have hname : Names "accounts" := names_of_isWord (by decide)
  constructor
  · obtain ⟨numbers, hrunning, hkeys, hlisted⟩ := (range_exact hdown hlower).1 (by decide)
    exact ⟨numbers, hrunning, hkeys, fun pieces hpieces => hlisted "accounts" pieces hname hpieces⟩
  · exact (range_exact hfirst hlast).2 (by decide)

end Exact

end Selector

end PathLedger
