import PathLedger.Number.Decimal
import PathLedger.Number.Shortest
import Mathlib.Tactic.Ring

/-!
# Reading a decimal in the interval of a number

Every finite number other than zero has an interval of reals around it, half of its last place wide on either side.
A decimal in that interval reads as the number. All is said by comparing products of natural numbers.

* `Binary64.roundQuotient_eq` — a quotient within a half of an integer rounds to it.
* `Shortest.covers` — a quotient lies in the interval of a number; `Shortest.coversDecimal` says it of a decimal.
* `Shortest.magnitude_of_covers` — such a quotient rounds to the number.
* `Binary64.isFinite_ofInt` — whole numbers of 64 bits are far below the largest number.
* `Decimal.toBinary64_of_covers` — **a decimal in the interval of a number reads as that number**.
-/

namespace PathLedger

namespace Binary64

theorem magnitudeBits_eq (x : Binary64) : x.magnitudeBits = x.bits.toNat % 2 ^ 63 := by
  rw [magnitudeBits, UInt64.toNat_and]
  exact Nat.and_two_pow_sub_one_eq_mod x.bits.toNat 63

theorem isNegative_eq (x : Binary64) : x.isNegative = decide (2 ^ 63 ≤ x.bits.toNat) := by
  have hlt := x.bits.toNat_lt
  have hshift : (x.bits >>> 63).toNat = x.bits.toNat / 2 ^ 63 := by
    rw [UInt64.toNat_shiftRight, Nat.shiftRight_eq_div_pow]
    rfl
  rw [isNegative, Bool.eq_iff_iff, beq_iff_eq, decide_eq_true_iff, ← UInt64.toNat_inj, hshift]
  show x.bits.toNat / 2 ^ 63 = 1 ↔ _
  omega

/-- A number is its sign and its magnitude bits. -/
theorem assemble_self (x : Binary64) : assemble x.isNegative x.magnitudeBits = x := by
  have hlt := x.bits.toNat_lt
  have hbits : (assemble x.isNegative x.magnitudeBits).bits = x.bits := by
    rw [assemble, isNegative_eq, magnitudeBits_eq, ← UInt64.toNat_inj, UInt64.toNat_ofNat']
    simp only [decide_eq_true_eq, Nat.pow_eq]
    split
    · omega
    · omega
  exact congrArg mk hbits

theorem magnitudeBits_assemble (negative : Bool) {m : Nat} (h : m < 2 ^ 63) :
    (assemble negative m).magnitudeBits = m := by
  rw [magnitudeBits_eq, assemble, UInt64.toNat_ofNat']
  simp only [Nat.pow_eq]
  split
  · omega
  · omega

theorem magnitudeBits_split (x : Binary64) :
    x.magnitudeBits = x.exponentField * 2 ^ 52 + x.fractionField := by
  have := Nat.div_add_mod x.magnitudeBits (2 ^ 52)
  rw [exponentField, fractionField]
  simp only [Nat.pow_eq]
  omega

theorem magnitudeBits_eq_scale (x : Binary64) : x.magnitudeBits = x.scale * 2 ^ 52 + x.significand := by
  rw [magnitudeBits_split, scale, significand]
  simp only [Nat.pow_eq]
  split
  · omega
  · omega

theorem fractionField_lt (x : Binary64) : x.fractionField < 2 ^ 52 := Nat.mod_lt _ (by decide)

theorem significand_lt (x : Binary64) : x.significand < 2 ^ 53 := by
  have := x.fractionField_lt
  rw [significand]
  simp only [Nat.pow_eq]
  split <;> omega

/-- Above the smallest scale the significand has its top bit. -/
theorem le_significand {x : Binary64} (h : x.scale ≠ 0) : 2 ^ 52 ≤ x.significand := by
  rw [scale] at h
  rw [significand, if_neg (by omega)]
  simp only [Nat.pow_eq]
  omega

theorem significand_pos {x : Binary64} (h : x.isZero = false) : 0 < x.significand := by
  have hne : x.magnitudeBits ≠ 0 := by simpa [isZero] using h
  by_cases hs : x.scale = 0
  · rw [magnitudeBits_eq_scale, hs] at hne
    omega
  · have := le_significand hs
    omega

theorem exponentField_lt {x : Binary64} (h : x.isFinite) : x.exponentField < 2047 := by
  have hne : x.exponentField ≠ 2047 := by simpa [isFinite] using h
  have := x.magnitudeBits_eq
  have hle : x.exponentField ≤ 2047 := by
    rw [exponentField, magnitudeBits_eq]
    simp only [Nat.pow_eq]
    omega
  omega

theorem roundQuotient_le (num den : Nat) : roundQuotient num den ≤ num / den + 1 := by
  unfold roundQuotient
  dsimp only
  split
  · omega
  · split
    · exact Nat.le_refl _
    · split <;> omega

/-- A quotient within half of an integer rounds to it, and from half away only when the integer is even. -/
theorem roundQuotient_eq {num den q : Nat} (hlow : 2 * q * den ≤ 2 * num + den)
    (hhigh : 2 * num ≤ (2 * q + 1) * den)
    (heven : q % 2 = 0 ∨ 2 * q * den < 2 * num + den ∧ 2 * num < (2 * q + 1) * den) (hden : 0 < den) :
    roundQuotient num den = q := by
  have hsplit := Nat.div_add_mod num den
  have hmod := Nat.mod_lt num hden
  have hfloor : num / den = q ∨ num / den + 1 = q := by
    have hle : num / den ≤ q := by
      by_contra hlt
      have : (q + 1) * den ≤ den * (num / den) := by
        rw [Nat.mul_comm den]
        exact Nat.mul_le_mul_right den (by omega)
      have : (2 * q + 1) * den + den = 2 * ((q + 1) * den) := by ring
      omega
    have hge : q ≤ num / den + 1 := by
      by_contra hlt
      have : (num / den + 2) * den ≤ q * den := Nat.mul_le_mul_right den (by omega)
      have : (num / den + 2) * den = den * (num / den) + 2 * den := by ring
      have : 2 * q * den = 2 * (q * den) := by ring
      omega
    omega
  unfold roundQuotient
  dsimp only
  rcases hfloor with heq | heq
  · have hnum : 2 * num = 2 * q * den + 2 * (num % den) := by
      rw [heq] at hsplit
      have : 2 * q * den = 2 * (den * q) := by ring
      omega
    have hbound : (2 * q + 1) * den = 2 * q * den + den := by ring
    rw [heq]
    split
    · rfl
    · split
      · omega
      · rw [if_pos (by omega)]
  · have hnum : 2 * num + 2 * den = 2 * q * den + 2 * (num % den) := by
      have : 2 * q * den = 2 * (den * (num / den)) + 2 * den := by
        rw [← heq]
        ring
      omega
    split
    · omega
    · split
      · exact heq
      · rw [if_neg (by omega), heq]

end Binary64

namespace Shortest

/-- Whether a quotient, in units of the smallest positive number, lies in the interval of a number. -/
def covers (x : Binary64) (num den : Nat) : Bool := (interval x).has (4 * num) (den * 2 ^ x.scale)

theorem has_iff {i : Interval} {num den : Nat} : i.has num den = true ↔
    i.low * den ≤ num ∧ num ≤ i.high * den ∧
      (i.closed = true ∨ i.low * den < num ∧ num < i.high * den) := by
  cases i with
  | mk low value high closed =>
    cases closed
    · simp [Interval.has]
      omega
    · simp [Interval.has]

variable {x : Binary64} {num den : Nat}

/-- The ends of the interval, a half of the last place away at most; below a power of two a quarter. -/
theorem covers_bounds (hpos : 0 < x.significand) (h : covers x num den) :
    2 * x.significand * (den * 2 ^ x.scale) ≤ 2 * num + den * 2 ^ x.scale ∧
      2 * num ≤ (2 * x.significand + 1) * (den * 2 ^ x.scale) ∧
      (x.significand % 2 = 0 ∨ 2 * x.significand * (den * 2 ^ x.scale) < 2 * num + den * 2 ^ x.scale ∧
        2 * num < (2 * x.significand + 1) * (den * 2 ^ x.scale)) ∧
      (x.significand = 2 ^ 52 → x.scale ≠ 0 → (2 ^ 54 - 1) * (den * 2 ^ x.scale) ≤ 4 * num) := by
  obtain ⟨hlow, hhigh, hclosed⟩ := has_iff.mp h
  generalize den * 2 ^ x.scale = width at *
  simp only [interval, Nat.pow_eq, beq_iff_eq, bne_iff_ne, decide_eq_true_eq, Bool.and_eq_true] at hlow hhigh hclosed
  generalize x.significand = m at *
  have hedge : (4 * m + 2) * width = 2 * ((2 * m + 1) * width) := by ring
  have hlower : 4 * m * width ≤ (4 * m - 2) * width + 2 * width := by
    rw [← Nat.add_mul]
    exact Nat.mul_le_mul_right width (by omega)
  have hnarrow : (4 * m - 1) * width = (4 * m - 2) * width + width := by
    rw [← Nat.succ_mul]
    congr 1
    omega
  have hdouble : 4 * m * width = 2 * (2 * m * width) := by ring
  split at hlow
  · rename_i h
    rw [if_pos h] at hclosed
    refine ⟨by omega, by omega, by omega, fun h _ => ?_⟩
    subst h
    exact hlow
  · rename_i h
    rw [if_neg h] at hclosed
    exact ⟨by omega, by omega, by omega, fun h' hs => absurd ⟨h', hs⟩ h⟩

theorem log2_div_eq {n d k : Nat} (hlow : 2 ^ k * d ≤ n) (hhigh : n < 2 ^ (k + 1) * d) : (n / d).log2 = k := by
  have hd : 0 < d := Nat.pos_of_ne_zero fun h => by
    rw [h] at hhigh
    omega
  have hle : 2 ^ k ≤ n / d := (Nat.le_div_iff_mul_le hd).mpr hlow
  have hlt : n / d < 2 ^ (k + 1) := (Nat.div_lt_iff_lt_mul hd).mpr hhigh
  have hne : n / d ≠ 0 := (Nat.lt_of_lt_of_le (Nat.two_pow_pos k) hle).ne'
  have := (Nat.le_log2 hne).mpr hle
  have := (Nat.log2_lt hne).mpr hlt
  omega

theorem log2_div_lt {n d k : Nat} (hd : 0 < d) (hhigh : n < 2 ^ (k + 1) * d) : (n / d).log2 ≤ k := by
  by_cases hzero : n / d = 0
  · rw [hzero]
    exact Nat.zero_le _
  · have := (Nat.log2_lt hzero).mpr ((Nat.div_lt_iff_lt_mul hd).mpr hhigh)
    omega

/-- **A quotient in the interval of a number rounds to it.** -/
theorem magnitude_of_covers (hpos : 0 < x.significand) (hden : 0 < den) (h : covers x num den) :
    ((num / den).log2 - 52) * 2 ^ 52 +
      Binary64.roundQuotient num (den * 2 ^ ((num / den).log2 - 52)) = x.magnitudeBits := by
  obtain ⟨hlow, hhigh, heven, hnarrow⟩ := covers_bounds hpos h
  have hlt := x.significand_lt
  have hwidth : 0 < den * 2 ^ x.scale := Nat.mul_pos hden (Nat.two_pow_pos _)
  rw [Binary64.magnitudeBits_eq_scale]
  rcases Nat.lt_or_ge num (2 ^ (52 + x.scale) * den) with hbelow | habove
  · cases hscale : x.scale with
    | zero =>
      -- No shift is left below the smallest scale.
      rw [hscale] at hlow hhigh heven hwidth hbelow
      have hlog := log2_div_lt (k := 51) hden hbelow
      have hshift : (num / den).log2 - 52 = 0 := by omega
      rw [hshift, Binary64.roundQuotient_eq hlow hhigh heven hwidth]
    | succ s =>
      -- Just below a power of two the quotient has the scale below, and rounds up to the power.
      have htop := Binary64.le_significand (x := x) (by omega)
      have hunit : den * 2 ^ (s + 1) = 2 * (den * 2 ^ s) := by ring
      have hpower : 2 ^ (52 + (s + 1)) * den = 2 ^ 53 * (den * 2 ^ s) := by ring
      have hfloor : 2 ^ (52 + s) * den = 2 ^ 52 * (den * 2 ^ s) := by ring
      rw [hscale, hunit] at hlow hnarrow hwidth
      rw [hscale, hpower] at hbelow
      generalize hw : den * 2 ^ s = width at *
      have hm : x.significand = 2 ^ 52 := by
        by_contra hne
        have : (2 ^ 52 + 1) * (4 * width) ≤ x.significand * (4 * width) := Nat.mul_le_mul_right _ (by omega)
        have : 2 * x.significand * (2 * width) = x.significand * (4 * width) := by ring
        omega
      have hnarrow := hnarrow hm (by omega)
      have hlog : (num / den).log2 = 52 + s :=
        log2_div_eq (by omega) (by rw [Nat.pow_succ, Nat.mul_right_comm, hfloor]; omega)
      have hshift : (num / den).log2 - 52 = s := by omega
      have hround : Binary64.roundQuotient num width = 2 ^ 53 :=
        Binary64.roundQuotient_eq (by omega) (by omega) (.inl (by decide)) (by omega)
      rw [hshift, hw, hround]
      omega
  · have hlog : (num / den).log2 = 52 + x.scale := by
      refine log2_div_eq habove ?_
      have : (2 * x.significand + 1) * (den * 2 ^ x.scale) ≤ (2 ^ 54 - 1) * (den * 2 ^ x.scale) :=
        Nat.mul_le_mul_right _ (by omega)
      have : 2 ^ (52 + x.scale + 1) * den = 2 ^ 53 * (den * 2 ^ x.scale) := by ring
      omega
    have hshift : (num / den).log2 - 52 = x.scale := by omega
    rw [hshift, Binary64.roundQuotient_eq hlow hhigh heven hwidth]

end Shortest

/-- A quotient in the interval of a number is read as the number. -/
theorem Binary64.ofRatio_of_covers {x : Binary64} (hfinite : x.isFinite) (hzero : x.isZero = false) {num den : Nat}
    (hden : 0 < den) (h : Shortest.covers x (num * unitsPerOne) den) : ofRatio x.isNegative num den = x := by
  have hmagnitude := Shortest.magnitude_of_covers (significand_pos hzero) hden h
  have hlt : x.magnitudeBits < 2047 * 2 ^ 52 := by
    have := x.magnitudeBits_split
    have := x.fractionField_lt
    have := exponentField_lt hfinite
    omega
  unfold ofRatio
  simp only [Nat.pow_eq]
  rw [hmagnitude, Nat.min_eq_left (Nat.le_of_lt hlt), assemble_self]

/-- A whole number of 64 bits is read as a finite number. -/
theorem Binary64.isFinite_ofInt {n : Int} (h : n.natAbs < 2 ^ 64) : (ofInt n).isFinite := by
  have hlog : (n.natAbs * unitsPerOne / 1).log2 ≤ 1137 := by
    unfold unitsPerOne
    generalize hk : 1074 = k
    refine Shortest.log2_div_lt Nat.one_pos ?_
    have hpower : 1137 + 1 = 64 + k := by omega
    rw [Nat.pow_eq, Nat.mul_one, hpower, Nat.pow_add]
    exact (Nat.mul_lt_mul_right (Nat.two_pow_pos k)).mpr h
  rw [ofInt, ofRatio]
  generalize n.natAbs * unitsPerOne = units at hlog ⊢
  rw [Nat.div_one] at hlog ⊢
  simp only [Nat.one_mul, Nat.pow_eq]
  have hround := roundQuotient_le units (2 ^ (units.log2 - 52))
  have hquotient : units / 2 ^ (units.log2 - 52) < 2 ^ 53 := by
    rw [Nat.div_lt_iff_lt_mul (Nat.two_pow_pos _), ← Nat.pow_add]
    exact Nat.lt_of_lt_of_le Nat.lt_log2_self (Nat.pow_le_pow_right (by decide) (by omega))
  generalize roundQuotient units (2 ^ (units.log2 - 52)) = rounded at hround ⊢
  have hmagnitude : (units.log2 - 52) * 2 ^ 52 + rounded < 2047 * 2 ^ 52 := by omega
  rw [isFinite, exponentField, Nat.min_eq_left (Nat.le_of_lt hmagnitude), magnitudeBits_assemble _ (by omega)]
  simp only [Nat.pow_eq, bne_iff_ne]
  omega

namespace Shortest

variable {x : Binary64}

/-- Whether a decimal lies in the interval of a number, signs aside. -/
def coversDecimal (x : Binary64) (digits : Nat) (exponent : Int) : Bool :=
  covers x (digits * 10 ^ exponent.toNat * Binary64.unitsPerOne) (10 ^ (-exponent).toNat)

/-- The cut-off of exponents is above every interval. -/
theorem exponent_le {digits : Nat} {exponent : Int} (hfinite : x.isFinite) (hpos : 0 < x.significand)
    (hdigits : 0 < digits) (h : coversDecimal x digits exponent) : exponent ≤ 400 := by
  obtain ⟨-, hhigh, -, -⟩ := covers_bounds hpos h
  by_contra hlt
  obtain ⟨top, htop⟩ : ∃ n : Nat, n = 2046 := ⟨_, rfl⟩
  obtain ⟨cut, hcut⟩ : ∃ n : Nat, n = 401 := ⟨_, rfl⟩
  have hscale : 2 ^ x.scale ≤ 2 ^ top := Nat.pow_le_pow_right (by decide) (by
    have := Binary64.exponentField_lt hfinite
    rw [Binary64.scale]
    omega)
  have hden : (-exponent).toNat = 0 := by omega
  have hten : 10 ^ cut ≤ 10 ^ exponent.toNat := Nat.pow_le_pow_right (by decide) (by omega)
  have hnum : 10 ^ cut * Binary64.unitsPerOne ≤ digits * 10 ^ exponent.toNat * Binary64.unitsPerOne :=
    Nat.mul_le_mul_right _ (Nat.le_trans hten (Nat.le_mul_of_pos_left _ hdigits))
  have hwidth : (2 * x.significand + 1) * (10 ^ (-exponent).toNat * 2 ^ x.scale) ≤ 2 ^ 54 * 2 ^ top := by
    rw [hden, Nat.pow_zero, Nat.one_mul]
    have := x.significand_lt
    exact Nat.mul_le_mul (by omega) hscale
  have hfar : 2 ^ 54 * 2 ^ top < 10 ^ cut * Binary64.unitsPerOne := by
    rw [htop, hcut]
    decide +kernel
  omega

/-- The cut-off of exponents is below every interval. -/
theorem le_exponent {digits : Nat} {exponent : Int} (hpos : 0 < x.significand)
    (h : coversDecimal x digits exponent) : -400 ≤ exponent + ((digits.log2 : Int) / 3 + 1) := by
  obtain ⟨hlow, -, -, -⟩ := covers_bounds hpos h
  by_contra hlt
  obtain ⟨size, hsize⟩ : ∃ size : Nat, size = digits.log2 / 3 + 1 := ⟨_, rfl⟩
  have hnum : exponent.toNat = 0 := by omega
  have hden : 10 ^ size * 10 ^ 401 ≤ 10 ^ (-exponent).toNat := by
    rw [← Nat.pow_add]
    exact Nat.pow_le_pow_right (by decide) (by omega)
  have hdigits : digits ≤ 10 ^ size := by
    calc digits ≤ 2 ^ (digits.log2 + 1) := Nat.le_of_lt Nat.lt_log2_self
      _ ≤ 2 ^ (3 * size) := Nat.pow_le_pow_right (by decide) (by omega)
      _ = 8 ^ size := by rw [Nat.pow_mul]
      _ ≤ 10 ^ size := Nat.pow_le_pow_left (by decide) size
  have hwidth : 10 ^ (-exponent).toNat ≤ 10 ^ (-exponent).toNat * 2 ^ x.scale :=
    Nat.le_mul_of_pos_right _ (Nat.two_pow_pos _)
  have hdouble : 2 * (10 ^ (-exponent).toNat * 2 ^ x.scale) ≤
      2 * x.significand * (10 ^ (-exponent).toNat * 2 ^ x.scale) := Nat.mul_le_mul_right _ (by omega)
  rw [hnum, Nat.pow_zero, Nat.mul_one] at hlow
  have hlarge : digits * Binary64.unitsPerOne ≤ 10 ^ size * Binary64.unitsPerOne := Nat.mul_le_mul_right _ hdigits
  have hunits : 2 * Binary64.unitsPerOne < 10 ^ 401 := by decide +kernel
  have hfar : 10 ^ size * (2 * Binary64.unitsPerOne) < 10 ^ size * 10 ^ 401 :=
    Nat.mul_lt_mul_of_pos_left hunits (Nat.pow_pos (by decide))
  have : 10 ^ size * (2 * Binary64.unitsPerOne) = 2 * (10 ^ size * Binary64.unitsPerOne) := by ring
  omega

/-- Zero is in no interval. -/
theorem digits_pos {digits : Nat} {exponent : Int} (hpos : 0 < x.significand)
    (h : coversDecimal x digits exponent) : 0 < digits := by
  obtain ⟨hlow, -, heven, -⟩ := covers_bounds hpos h
  have hwidth : 0 < 10 ^ (-exponent).toNat * 2 ^ x.scale :=
    Nat.mul_pos (Nat.pow_pos (by decide)) (Nat.two_pow_pos _)
  by_contra hzero
  obtain rfl : digits = 0 := by omega
  have : 2 * (10 ^ (-exponent).toNat * 2 ^ x.scale) ≤
      2 * x.significand * (10 ^ (-exponent).toNat * 2 ^ x.scale) := Nat.mul_le_mul_right _ (by omega)
  rw [Nat.zero_mul, Nat.zero_mul] at hlow
  omega

end Shortest

/-- **A decimal in the interval of a number reads as that number.** -/
theorem Decimal.toBinary64_of_covers {x : Binary64} (hfinite : x.isFinite) (hzero : x.isZero = false) {c : Decimal}
    (hsign : c.negative = x.isNegative) (h : Shortest.coversDecimal x c.digits c.exponent) : c.toBinary64 = x := by
  have hpos := Binary64.significand_pos hzero
  have hdigits := Shortest.digits_pos hpos h
  have hhigh := Shortest.exponent_le hfinite hpos hdigits h
  have hlow := Shortest.le_exponent hpos h
  unfold Decimal.toBinary64
  dsimp only
  rw [if_neg (by omega), if_neg (by omega), if_neg (by omega), hsign]
  have hden : 0 < 10 ^ (-c.exponent).toNat := Nat.pow_pos (by decide)
  have hround := Binary64.ofRatio_of_covers hfinite hzero hden h
  split
  · have hone : (-c.exponent).toNat = 0 := by omega
    rwa [hone] at hround
  · have hone : c.exponent.toNat = 0 := by omega
    rwa [hone, Nat.pow_zero, Nat.mul_one] at hround

end PathLedger
