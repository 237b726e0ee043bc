import PathLedger.Json.Printer
import PathLedger.Proofs.Number.Shortest
import PathLedger.Proofs.Text.Ends

/-!
# Written numbers read back

A finite number is written in one of four layouts: with a zero behind the point, with digits on both sides of it, as a
row of zeros before the digits, or with an exponent. In each the text spells the fewest digits of the number, zeros
behind them aside, and these lie in the number's interval.

* `Decimal.scan_decimal`, `Decimal.scan_scientific` — the decimal in front of other characters is scanned up to them.
* `Decimal.scan_chars` — the text of clean pieces is scanned into them.
* `FloatLayout.place_spells` — the text of a positive number spells its digits, one lemma for each layout.
* `FloatLayout.read?_write` — **a written number reads back**, bit for bit.
* `Json.numberText_eq_iff` — **numbers that print alike are equal**, unless neither is finite.
-/

namespace PathLedger

open Text

namespace Text

/-! ### Rows of digits -/

theorem digitsValue_eq (s : List Char) : digitsValue s = Nat.ofDigitChars 10 s 0 := by
  unfold digitsValue Nat.ofDigitChars digitValue
  congr 1
  funext n c
  rw [Nat.mul_comm]

theorem digitsValue_append (s t : List Char) :
    digitsValue (s ++ t) = digitsValue s * 10 ^ t.length + digitsValue t := by
  rw [digitsValue_eq, digitsValue_eq, digitsValue_eq, Nat.ofDigitChars_append, Nat.ofDigitChars_eq_ofDigitChars_zero,
    Nat.mul_comm]

theorem digitsValue_toString (n : Nat) : digitsValue (toString n).toList = n := by
  rw [digitsValue_eq, Nat.toString_eq_repr, Nat.toList_repr, Nat.ofDigitChars_ten_toDigits]

theorem digitsValue_replicate (n : Nat) : digitsValue (List.replicate n '0') = 0 := by
  rw [digitsValue_eq, Nat.ofDigitChars_replicate_zero, Nat.mul_zero]

theorem isDigit_of_mem_toString {n : Nat} {c : Char} (h : c ∈ (toString n).toList) : isDigit c := by
  rw [Nat.toString_eq_repr, Nat.toList_repr] at h
  exact Nat.isDigit_of_mem_toDigits (by decide) (by decide) h

theorem toString_ne_nil (n : Nat) : (toString n).toList ≠ [] := by
  rw [Nat.toString_eq_repr, Nat.toList_repr]
  exact Nat.toDigits_ne_nil

/-- A negative number is written as a minus and digits. -/
theorem toString_negSucc (n : Nat) : (toString (Int.negSucc n)).toList = '-' :: (toString (n + 1)).toList := by
  show ("-" ++ toString (n + 1)).toList = _
  rw [String.toList_append]
  rfl

end Text

namespace Decimal

/-! ### Reading the pieces of a decimal -/

variable {ds r : List Char}

/-- A fraction behind its point. -/
def fractionChars : Option (List Char) → List Char
  | none => []
  | some ds => '.' :: ds

/-- An exponent behind its mark and sign. -/
def exponentChars : Option (Bool × List Char) → List Char
  | none => []
  | some (negative, ds) => 'e' :: (if negative then '-' else '+') :: ds

/-- The text of the pieces. -/
def Pieces.chars (p : Pieces) : List Char := p.whole ++ (fractionChars p.fraction ++ exponentChars p.exponent)

/-- Pieces of digits only, with a digit in an exponent. -/
structure Pieces.Clean (p : Pieces) : Prop where
  whole : ∀ c ∈ p.whole, isDigit c
  fraction : ∀ ds ∈ p.fraction, ∀ c ∈ ds, isDigit c
  exponent : ∀ e ∈ p.exponent, (∀ c ∈ e.2, isDigit c) ∧ e.2 ≠ []

theorem Pieces.Clean.point {whole fraction : List Char} (hwhole : ∀ c ∈ whole, isDigit c)
    (hfraction : ∀ c ∈ fraction, isDigit c) : Pieces.Clean ⟨whole, some fraction, none⟩ where
  whole := hwhole
  fraction := by
    intro ds h
    cases h
    exact hfraction
  exponent := by
    intro e h
    cases h

theorem scanSign_exponent (negative : Bool) (ds : List Char) :
    scanSign ((if negative then '-' else '+') :: ds) = (negative, ds) := by
  cases negative <;> rfl

section Front

variable {whole : List Char} {fraction : Option (List Char)}

/-- The front of a decimal is scanned up to a character that does not belong to it. -/
theorem scan_decimal (hwhole : ∀ c ∈ whole, isDigit c) (hfraction : ∀ ds ∈ fraction, ∀ c ∈ ds, isDigit c)
    (hdigit : r.takeWhile isDigit = []) (hmark : ∀ c ∈ r.head?, c ≠ '.' ∧ c ≠ 'e' ∧ c ≠ 'E') :
    scan (whole ++ (fractionChars fraction ++ r)) = (⟨whole, fraction, none⟩, r) := by
  have hrest : (fractionChars fraction ++ r).takeWhile isDigit = [] := by
    cases fraction with
    | none => exact hdigit
    | some ds => rfl
  unfold scan
  simp only [takeWhile_front hwhole hrest, dropWhile_front hwhole hrest]
  cases fraction with
  | none =>
    cases r with
    | nil => rfl
    | cons c t =>
      obtain ⟨hdot, he, hE⟩ := hmark c rfl
      simp [fractionChars, hdot, he, hE]
  | some ds =>
    have hds := hfraction ds rfl
    simp only [fractionChars, List.cons_append, takeWhile_front hds hdigit, dropWhile_front hds hdigit]
    cases r with
    | nil => rfl
    | cons c t =>
      obtain ⟨-, he, hE⟩ := hmark c rfl
      simp [he, hE]

/-- An exponent behind the front of a decimal is scanned with its sign, up to a character that is no digit. -/
theorem scan_scientific (hwhole : ∀ c ∈ whole, isDigit c) (hfraction : ∀ ds ∈ fraction, ∀ c ∈ ds, isDigit c)
    {mark : Char} (hmark : mark = 'e' ∨ mark = 'E') {negative : Bool} {t : List Char}
    (hsign : scanSign t = (negative, ds ++ r)) (hds : ∀ c ∈ ds, isDigit c) (hne : ds ≠ [])
    (hdigit : r.takeWhile isDigit = []) :
    scan (whole ++ (fractionChars fraction ++ mark :: t)) = (⟨whole, fraction, some (negative, ds)⟩, r) := by
  have hletter : (mark :: t).takeWhile isDigit = [] := by
    rcases hmark with rfl | rfl <;> rfl
  have hdot : mark ≠ '.' := by
    rcases hmark with rfl | rfl <;> decide
  have hrest : (fractionChars fraction ++ mark :: t).takeWhile isDigit = [] := by
    cases fraction with
    | none => exact hletter
    | some ds => rfl
  unfold scan
  simp only [takeWhile_front hwhole hrest, dropWhile_front hwhole hrest]
  cases fraction with
  | none =>
    simp [fractionChars, hdot, hmark, hsign, takeWhile_front hds hdigit, dropWhile_front hds hdigit, hne]
  | some fs =>
    have hfs := hfraction fs rfl
    simp only [fractionChars, List.cons_append, takeWhile_front hfs hletter, dropWhile_front hfs hletter]
    simp [hmark, hsign, takeWhile_front hds hdigit, dropWhile_front hds hdigit, hne]

end Front

/-- The text of clean pieces is scanned into them, and nothing is left. -/
theorem scan_chars {p : Pieces} (h : p.Clean) : scan p.chars = (p, []) := by
  obtain ⟨whole, fraction, exponent⟩ := p
  cases exponent with
  | none => exact scan_decimal h.whole h.fraction rfl nofun
  | some e =>
    obtain ⟨hdigits, hne⟩ := h.exponent e rfl
    have hsign : scanSign ((if e.1 then '-' else '+') :: e.2) = (e.1, e.2 ++ []) := by
      rw [scanSign_exponent, List.append_nil]
    exact scan_scientific h.whole h.fraction (.inl rfl) hsign hdigits hne rfl

end Decimal

namespace FloatLayout

open Decimal

/-! ### The layout of documents -/

/-- Whether a text is a decimal, zeros behind its digits aside. -/
def Spells (s : List Char) (digits : Nat) (exponent : Int) : Prop :=
  ∃ (p : Pieces) (k : Nat), p.Clean ∧ p.whole ≠ [] ∧ s = p.chars ∧
    ∀ negative, p.toDecimal negative = ⟨negative, digits * 10 ^ k, exponent - k⟩

theorem isDigit_of_mem_zeros {n : Nat} {c : Char} (h : c ∈ List.replicate n '0') : isDigit c := by
  rw [List.eq_of_mem_replicate h]
  rfl

theorem isDigit_zero : ∀ c ∈ ['0'], isDigit c := fun _ => isDigit_of_mem_zeros (n := 1)

theorem toDecimal_point (negative : Bool) (whole fraction : List Char) :
    Pieces.toDecimal negative ⟨whole, some fraction, none⟩ =
      ⟨negative, digitsValue (whole ++ fraction), -(fraction.length : Int)⟩ := by
  simp only [Pieces.toDecimal, Option.getD_some, Int.zero_sub]

theorem toDecimal_exponent (negative : Bool) (whole : List Char) (fraction : Option (List Char)) (e : Int) :
    Pieces.toDecimal negative ⟨whole, fraction, some (decide (e < 0), (toString e.natAbs).toList)⟩ =
      ⟨negative, digitsValue (whole ++ fraction.getD []), e - (fraction.getD []).length⟩ := by
  simp only [Pieces.toDecimal]
  by_cases he : e < 0
  · rw [decide_eq_true he]
    dsimp only
    rw [digitsValue_toString]
    congr 2
    omega
  · rw [decide_eq_false he]
    dsimp only
    rw [digitsValue_toString]
    congr 2
    omega

variable {ds : List Char}

/-- A whole number: its zeros, and one more behind the point. -/
theorem spells_whole (hds : ∀ c ∈ ds, isDigit c) (hne : ds ≠ []) (n : Nat) :
    Spells (ds ++ List.replicate n '0' ++ ['.', '0']) (digitsValue ds) n := by
  have hwhole : ∀ c ∈ ds ++ List.replicate n '0', isDigit c :=
    List.forall_mem_append.mpr ⟨hds, fun _ => isDigit_of_mem_zeros⟩
  refine ⟨_, n + 1, .point hwhole isDigit_zero, ?_, rfl, fun negative => ?_⟩
  · exact List.append_ne_nil_of_left_ne_nil hne _
  · have hdigits : digitsValue (ds ++ List.replicate n '0' ++ ['0']) = digitsValue ds * 10 ^ (n + 1) := by
      rw [List.append_assoc, ← List.replicate_succ', digitsValue_append, digitsValue_replicate,
        List.length_replicate, Nat.add_zero]
    rw [toDecimal_point, hdigits]
    congr 1
    rw [List.length_singleton]
    omega

/-- Digits on both sides of the point. -/
theorem spells_split (hds : ∀ c ∈ ds, isDigit c) {n : Nat} (hn : 0 < n) (hle : n ≤ ds.length) :
    Spells (ds.take n ++ '.' :: ds.drop n) (digitsValue ds) (n - ds.length) := by
  have hwhole : ∀ c ∈ ds.take n, isDigit c := fun c hc => hds c (List.mem_of_mem_take hc)
  have hfraction : ∀ c ∈ ds.drop n, isDigit c := fun c hc => hds c (List.mem_of_mem_drop hc)
  refine ⟨_, 0, .point hwhole hfraction, ?_, ?_, fun negative => ?_⟩
  · exact List.ne_nil_of_length_pos (by rw [List.length_take]; omega)
  · simp [Pieces.chars, fractionChars, exponentChars]
  · rw [toDecimal_point, List.take_append_drop, List.length_drop, Nat.pow_zero, Nat.mul_one]
    congr 1
    omega

/-- A number below one: zeros between the point and the digits. -/
theorem spells_below (hds : ∀ c ∈ ds, isDigit c) (n : Nat) :
    Spells ('0' :: '.' :: (List.replicate n '0' ++ ds)) (digitsValue ds) (-(n + ds.length : Nat)) := by
  have hfraction : ∀ c ∈ List.replicate n '0' ++ ds, isDigit c :=
    List.forall_mem_append.mpr ⟨fun _ => isDigit_of_mem_zeros, hds⟩
  refine ⟨_, 0, .point isDigit_zero hfraction, ?_, ?_, fun negative => ?_⟩
  · exact List.cons_ne_nil _ _
  · simp [Pieces.chars, fractionChars, exponentChars]
  · have hdigits : digitsValue (['0'] ++ (List.replicate n '0' ++ ds)) = digitsValue ds := by
      rw [← List.append_assoc, ← List.replicate_one, List.replicate_append_replicate, digitsValue_append,
        digitsValue_replicate, Nat.zero_mul, Nat.zero_add]
    rw [toDecimal_point, hdigits, List.length_append, List.length_replicate, Nat.pow_zero, Nat.mul_one]
    congr 1
    omega

/-- One digit before the point, and an exponent. -/
theorem spells_scientific (hds : ∀ c ∈ ds, isDigit c) (hne : ds ≠ []) (point : Int) :
    Spells (ds.take 1 ++ ((if (ds.drop 1).isEmpty then [] else '.' :: ds.drop 1) ++
      'e' :: (json.exponentText (point - 1)).toList)) (digitsValue ds) (point - ds.length) := by
  have hexponent : 'e' :: (json.exponentText (point - 1)).toList =
      exponentChars (some (decide (point - 1 < 0), (toString (point - 1).natAbs).toList)) := by
    unfold exponentText exponentChars
    split
    · simp_all
    · simp_all [json]
  have hcount : (ds.drop 1).length + 1 = ds.length := by
    have := List.length_pos_iff.mpr hne
    rw [List.length_drop]
    omega
  obtain ⟨fraction, hfraction⟩ : ∃ f, f = if (ds.drop 1).isEmpty then none else some (ds.drop 1) := ⟨_, rfl⟩
  have hget : fraction.getD [] = ds.drop 1 := by
    rw [hfraction]
    split
    · rename_i hempty
      rw [List.isEmpty_iff.mp hempty]
      rfl
    · rfl
  refine ⟨⟨ds.take 1, fraction, some (decide (point - 1 < 0), (toString (point - 1).natAbs).toList)⟩, 0,
    ⟨?_, ?_, ?_⟩, ?_, ?_, fun negative => ?_⟩
  · exact fun c hc => hds c (List.mem_of_mem_take hc)
  · intro f hf c hc
    have hf : fraction = some f := hf
    rw [hf, Option.getD_some] at hget
    exact hds c (List.mem_of_mem_drop (hget ▸ hc))
  · intro e he
    cases he
    exact ⟨fun c => isDigit_of_mem_toString, toString_ne_nil _⟩
  · exact List.ne_nil_of_length_pos (by rw [List.length_take]; omega)
  · rw [hexponent, Pieces.chars, hfraction]
    split <;> rfl
  · rw [toDecimal_exponent, hget, List.take_append_drop, Nat.pow_zero, Nat.mul_one]
    congr 1
    omega

/-- The text of a positive number is its decimal. -/
theorem place_spells (d : Nat) (e : Int) : Spells (json.place d e).toList d e := by
  obtain ⟨ds, hds⟩ : ∃ ds, ds = (toString d).toList := ⟨_, rfl⟩
  have hdigits : ∀ c ∈ ds, isDigit c := fun c hc => isDigit_of_mem_toString (hds ▸ hc)
  have hvalue : digitsValue ds = d := hds ▸ digitsValue_toString d
  have hne : ds ≠ [] := hds ▸ toString_ne_nil d
  unfold place
  simp only [← hds]
  split
  · rename_i hwhole
    obtain ⟨hpos, -⟩ := Bool.and_eq_true_iff.mp hwhole
    have h := spells_whole hdigits hne e.toNat
    rw [hvalue, Int.toNat_of_nonneg (of_decide_eq_true hpos)] at h
    simpa [json] using h
  · split
    · rename_i hfrac hpoint
      simp only [Bool.and_eq_true, decide_eq_true_eq] at hpoint hfrac
      obtain ⟨n, hn⟩ := Int.eq_ofNat_of_zero_le (Int.le_of_lt hpoint.1)
      have h := spells_split hdigits (n := n) (by omega) (by simp only [json] at hpoint hfrac; omega)
      rw [hvalue, ← hn, Int.add_comm, Int.add_sub_cancel] at h
      simpa [hn] using h
    · split
      · rename_i hpoint
        simp only [Bool.and_eq_true, decide_eq_true_eq] at hpoint
        have h := spells_below hdigits (-(ds.length + e)).toNat
        have he : -(((-(ds.length + e)).toNat + ds.length : Nat) : Int) = e := by omega
        rw [hvalue, he] at h
        simpa using h
      · have h := spells_scientific hdigits hne (ds.length + e)
        have he : (ds.length : Int) + e - ds.length = e := by omega
        rw [hvalue, he] at h
        have hmark : json.exponentMark.toList = ['e'] := rfl
        have htext : (if (ds.drop 1).isEmpty then "" else "." ++ String.ofList (ds.drop 1)).toList =
            if (ds.drop 1).isEmpty then [] else '.' :: ds.drop 1 := by
          split
          · rfl
          · simp
        rw [String.toList_append, String.toList_append, String.toList_append, String.toList_ofList, htext, hmark,
          List.append_assoc, List.append_assoc]
        exact h

end FloatLayout

namespace Decimal

/-- A signed text reads as the decimal that it spells. -/
theorem read?_chars {p : Pieces} (h : p.Clean) (hne : p.whole ≠ []) (negative : Bool) :
    read? ((if negative then ['-'] else []) ++ p.chars) = some (p.toDecimal negative).toBinary64 := by
  have hsign : scanSign ((if negative then ['-'] else []) ++ p.chars) = (negative, p.chars) := by
    cases negative with
    | true => rfl
    | false =>
      obtain ⟨c, r, hwhole⟩ := List.exists_cons_of_ne_nil hne
      have hc : isDigit c := h.whole c (by rw [hwhole]; exact List.mem_cons_self)
      have hchars : p.chars = c :: (r ++ (fractionChars p.fraction ++ exponentChars p.exponent)) := by
        rw [Pieces.chars, hwhole, List.cons_append]
      simp only [hchars, Bool.false_eq_true, if_false, List.nil_append]
      unfold scanSign
      split
      · rename_i heq
        cases heq
        cases hc
      · rename_i heq
        cases heq
        cases hc
      · rfl
  unfold read?
  rw [hsign]
  dsimp only
  rw [scan_chars h]
  simp [hne]

end Decimal

namespace FloatLayout

open Decimal

/-- **A written number reads back**, bit for bit. -/
theorem read?_write {x : Binary64} (h : x.isFinite) : Decimal.read? (json.write x).toList = some x := by
  have hsign (s : String) : ((if x.isNegative then "-" else "") ++ s).toList =
      (if x.isNegative then ['-'] else []) ++ s.toList := by
    rw [String.toList_append]
    split <;> rfl
  unfold write
  dsimp only
  cases hzero : x.isZero with
  | true =>
    have hmagnitude : x.magnitudeBits = 0 := by simpa [Binary64.isZero] using hzero
    have hclean : Pieces.Clean ⟨['0'], some ['0'], none⟩ := .point isDigit_zero isDigit_zero
    rw [if_pos rfl, String.append_assoc, hsign]
    refine (read?_chars hclean (by decide) x.isNegative).trans (congrArg some ?_)
    have hdecimal : Pieces.toDecimal x.isNegative ⟨['0'], some ['0'], none⟩ = ⟨x.isNegative, 0, -1⟩ := rfl
    rw [hdecimal, toBinary64, if_pos rfl, ← hmagnitude, Binary64.assemble_self]
  | false =>
    obtain ⟨p, k, hclean, hne, htext, hdecimal⟩ := place_spells (Shortest.digits x).1 (Shortest.digits x).2
    have hcovers := Shortest.digits_covers hzero
    rw [if_neg Bool.false_ne_true, hsign, htext, read?_chars hclean hne, hdecimal]
    exact congrArg some (toBinary64_of_covers h hzero rfl (by rwa [Shortest.coversDecimal_shift]))

end FloatLayout

/-- **Numbers that print alike are equal**, unless neither is finite. -/
theorem Json.numberText_eq_iff {x y : Binary64} :
    numberText x = numberText y ↔ x = y ∨ x.isFinite = false ∧ y.isFinite = false := by
  have hnull : Decimal.read? "null".toList = none := by decide
  have hread {x : Binary64} (h : x.isFinite) : Decimal.read? (numberText x).toList = some x := by
    rw [numberText, if_pos h, FloatLayout.read?_write h]
  have hother {x : Binary64} (h : x.isFinite = false) : numberText x = "null" := by
    rw [numberText, if_neg (by rw [h]; exact Bool.false_ne_true)]
  constructor
  · intro htext
    cases hx : x.isFinite with
    | true =>
      cases hy : y.isFinite with
      | true => exact .inl (Option.some.inj ((hread hx).symm.trans (htext ▸ hread hy)))
      | false =>
        have := hread hx
        rw [htext, hother hy, hnull] at this
        cases this
    | false =>
      cases hy : y.isFinite with
      | true =>
        have := hread hy
        rw [← htext, hother hx, hnull] at this
        cases this
      | false => exact .inr ⟨rfl, rfl⟩
  · rintro (rfl | ⟨hx, hy⟩)
    · rfl
    · rw [hother hx, hother hy]

end PathLedger
