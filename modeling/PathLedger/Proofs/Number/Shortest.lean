import PathLedger.Proofs.Number.Rounding
import Mathlib.Tactic.Ring

/-!
# The fewest digits read back

What `Shortest.digits` gives for a finite number other than zero lies in the interval of the number. A grid of
seventeen digits is finer than every interval, so that one of the two neighbours on it is inside; and the zero that is
dropped at the end does not change the decimal.

* `Shortest.coversDecimal_shift` — a decimal with zeros behind its digits lies where the decimal lies.
* `Shortest.candidate?_isSome` — on a grid with gaps narrower than the interval there is a candidate.
* `Shortest.digits_covers` — **the digits lie in the interval of the number**.
-/

namespace PathLedger.Shortest

variable {x : Binary64}

/-- Widening a quotient moves it nowhere. -/
theorem covers_mul {num den k : Nat} (hk : 0 < k) : covers x (num * k) (den * k) = covers x num den := by
  have hnum : 4 * (num * k) = 4 * num * k := by ring
  have hden : den * k * 2 ^ x.scale = den * 2 ^ x.scale * k := by ring
  rw [Bool.eq_iff_iff, covers, covers, has_iff, has_iff, hnum, hden]
  simp only [← Nat.mul_assoc, Nat.mul_le_mul_right_iff hk, Nat.mul_lt_mul_right hk]

/-- Zeros behind the digits, with the power of ten smaller by as many, do not change a decimal. -/
theorem coversDecimal_shift (digits : Nat) (exponent : Int) (k : Nat) :
    coversDecimal x (digits * 10 ^ k) (exponent - k) = coversDecimal x digits exponent := by
  have hten (n : Nat) : 0 < 10 ^ n := Nat.pow_pos (by decide)
  obtain ⟨up, hup⟩ : ∃ n : Nat, (exponent - k).toNat + k = exponent.toNat + n := by
    exact ⟨(exponent - k).toNat + k - exponent.toNat, by omega⟩
  have hdown : (-(exponent - k)).toNat = (-exponent).toNat + up := by omega
  unfold coversDecimal
  have hnum : digits * 10 ^ k * 10 ^ (exponent - k).toNat * Binary64.unitsPerOne =
      digits * 10 ^ exponent.toNat * Binary64.unitsPerOne * 10 ^ up := by
    have : 10 ^ k * 10 ^ (exponent - k).toNat = 10 ^ exponent.toNat * 10 ^ up := by
      rw [← Nat.pow_add, ← Nat.pow_add, Nat.add_comm k, hup]
    calc digits * 10 ^ k * 10 ^ (exponent - k).toNat * Binary64.unitsPerOne =
        digits * (10 ^ k * 10 ^ (exponent - k).toNat) * Binary64.unitsPerOne := by ring
      _ = digits * 10 ^ exponent.toNat * Binary64.unitsPerOne * 10 ^ up := by
        rw [this]
        ring
  rw [hnum, hdown, Nat.pow_add, covers_mul (hten up)]

/-- One step of a grid and one quarter unit of a number, over a common denominator. -/
def stepWidth (g : Int) : Nat := 10 ^ g.toNat * (4 * Binary64.unitsPerOne)

def quarterWidth (x : Binary64) (g : Int) : Nat := 10 ^ (-g).toNat * 2 ^ x.scale

theorem coversDecimal_eq (d : Nat) (g : Int) :
    coversDecimal x d g = (interval x).has (d * stepWidth g) (quarterWidth x g) := by
  have hnum : 4 * (d * 10 ^ g.toNat * Binary64.unitsPerOne) = d * stepWidth g := by
    unfold stepWidth
    ring
  rw [coversDecimal, covers, hnum, quarterWidth]

/-- A candidate lies in the interval. -/
theorem coversDecimal_of_candidate? {g : Int} {d : Nat} (h : candidate? x g = some d) : coversDecimal x d g := by
  rw [coversDecimal_eq]
  unfold candidate? at h
  dsimp only [Nat.pow_eq] at h
  split at h
  · rename_i hboth
    obtain ⟨hbelow, habove⟩ := Bool.and_eq_true_iff.mp hboth
    split at h
    · exact Option.some.inj h ▸ hbelow
    · split at h
      · exact Option.some.inj h ▸ habove
      · split at h
        · exact Option.some.inj h ▸ hbelow
        · exact Option.some.inj h ▸ habove
  · split at h
    · rename_i hbelow
      exact Option.some.inj h ▸ hbelow
    · split at h
      · rename_i habove
        exact Option.some.inj h ▸ habove
      · cases h

/-- Without a candidate neither neighbour is inside. -/
theorem not_has_of_candidate? {g : Int} (h : candidate? x g = none) {below : Nat}
    (hbelow : below = (interval x).value * quarterWidth x g / stepWidth g) :
    (interval x).has (below * stepWidth g) (quarterWidth x g) = false ∧
      (interval x).has ((below + 1) * stepWidth g) (quarterWidth x g) = false := by
  subst hbelow
  unfold candidate? at h
  dsimp only [Nat.pow_eq] at h
  split at h
  · split at h
    · cases h
    · split at h
      · cases h
      · split at h <;> cases h
  · split at h
    · cases h
    · rename_i hbelow
      split at h
      · cases h
      · rename_i habove
        exact ⟨Bool.eq_false_iff.mpr hbelow, Bool.eq_false_iff.mpr habove⟩

theorem low_lt_value (hpos : 0 < x.significand) : (interval x).low < (interval x).value := by
  unfold interval
  dsimp only
  split <;> omega

theorem value_lt_high (x : Binary64) : (interval x).value < (interval x).high := by
  unfold interval
  dsimp only
  omega

/-- On a grid with gaps narrower than the interval one of the neighbours of the number is inside. -/
theorem candidate?_isSome {g : Int} (hpos : 0 < x.significand)
    (hgap : stepWidth g < ((interval x).high - (interval x).low) * quarterWidth x g) : (candidate? x g).isSome := by
  have hstep : 0 < stepWidth g := Nat.mul_pos (Nat.pow_pos (by decide)) (by decide +kernel)
  have hquarter : 0 < quarterWidth x g := Nat.mul_pos (Nat.pow_pos (by decide)) (Nat.two_pow_pos _)
  have hvalue := (Nat.mul_lt_mul_right hquarter).mpr (low_lt_value hpos)
  have hhigh := (Nat.mul_lt_mul_right hquarter).mpr (value_lt_high x)
  obtain ⟨below, hbelow⟩ : ∃ n, n = (interval x).value * quarterWidth x g / stepWidth g := ⟨_, rfl⟩
  have hfloor : below * stepWidth g ≤ (interval x).value * quarterWidth x g := by
    rw [hbelow]
    exact Nat.div_mul_le_self _ _
  have hceiling : (interval x).value * quarterWidth x g < (below + 1) * stepWidth g := by
    rw [hbelow]
    exact (Nat.div_lt_iff_lt_mul hstep).mp (Nat.lt_succ_self _)
  have hone : (interval x).has (below * stepWidth g) (quarterWidth x g) ∨
      (interval x).has ((below + 1) * stepWidth g) (quarterWidth x g) := by
    rw [has_iff, has_iff]
    rw [Nat.sub_mul] at hgap
    rw [Nat.succ_mul] at hceiling ⊢
    omega
  by_contra hnone
  obtain ⟨hout, hout'⟩ := not_has_of_candidate? (Option.not_isSome_iff_eq_none.mp hnone) hbelow
  rw [hout, hout'] at hone
  exact hone.elim Bool.false_ne_true Bool.false_ne_true

theorem digitCount_eq {n : Nat} (h : n ≠ 0) : digitCount n = (Nat.toDigits 10 n).length := by
  rw [digitCount, if_neg h, Nat.toString_eq_repr, ← String.length_toList, Nat.toList_repr]

theorem digitCount_pos {n : Nat} (h : n ≠ 0) : 0 < digitCount n := by
  rw [digitCount_eq h]
  exact List.length_pos_iff.mpr Nat.toDigits_ne_nil

/-- A number is at least the power of ten with one digit less. -/
theorem pow_digitCount_le {n : Nat} (h : n ≠ 0) : 10 ^ (digitCount n - 1) ≤ n := by
  rw [digitCount_eq h]
  obtain hone | hmore := Nat.lt_or_ge 0 ((Nat.toDigits 10 n).length - 1)
  · by_contra hlt
    have := (Nat.length_toDigits_le_iff (by decide) hone).mpr (Nat.lt_of_not_le hlt)
    omega
  · rw [Nat.le_zero.mp hmore]
    exact Nat.one_le_iff_ne_zero.mpr h

/-- The significand, in parts of the interval, has at most sixteen digits. -/
theorem significand_lt_width (hpos : 0 < x.significand) :
    4 * x.significand < ((interval x).high - (interval x).low) * 10 ^ 16 := by
  have := x.significand_lt
  unfold interval
  dsimp only [Nat.pow_eq]
  split
  · rename_i hnarrow
    have hm : x.significand = 2 ^ 52 := by
      simp only [Bool.and_eq_true, decide_eq_true_eq] at hnarrow
      exact hnarrow.1
    omega
  · omega

/-- On the grid with seventeen digits the gaps are narrower than the interval. -/
theorem stepWidth_lt {c top : Nat} {g : Int} (hpos : 0 < x.significand) (hg : g + 16 + top = c)
    (hle : 10 ^ c * Binary64.unitsPerOne ≤ x.units * 10 ^ top) :
    stepWidth g < ((interval x).high - (interval x).low) * quarterWidth x g := by
  have hpow : 10 ^ (-g).toNat * 10 ^ c = 10 ^ g.toNat * (10 ^ 16 * 10 ^ top) := by
    rw [← Nat.pow_add, ← Nat.pow_add, ← Nat.pow_add]
    congr 1
    omega
  have hstep : 10 ^ 16 * stepWidth g ≤ 4 * x.significand * quarterWidth x g := by
    refine Nat.le_of_mul_le_mul_right ?_ (Nat.pow_pos (by decide) : 0 < 10 ^ top)
    calc 10 ^ 16 * stepWidth g * 10 ^ top = 4 * (10 ^ g.toNat * (10 ^ 16 * 10 ^ top) * Binary64.unitsPerOne) := by
          unfold stepWidth
          ring
      _ = 4 * (10 ^ (-g).toNat * (10 ^ c * Binary64.unitsPerOne)) := by rw [← hpow, Nat.mul_assoc]
      _ ≤ 4 * (10 ^ (-g).toNat * (x.units * 10 ^ top)) := Nat.mul_le_mul_left _ (Nat.mul_le_mul_left _ hle)
      _ = 4 * x.significand * quarterWidth x g * 10 ^ top := by
          rw [Binary64.units, quarterWidth, Nat.pow_eq]
          ring
  have hquarter : 0 < quarterWidth x g := Nat.mul_pos (Nat.pow_pos (by decide)) (Nat.two_pow_pos _)
  have hwidth := (Nat.mul_lt_mul_right hquarter).mpr (significand_lt_width hpos)
  have hshift : ((interval x).high - (interval x).low) * 10 ^ 16 * quarterWidth x g =
      10 ^ 16 * (((interval x).high - (interval x).low) * quarterWidth x g) := by ring
  omega

theorem magnitude_eq {top : Nat} (htop : top = 400) :
    magnitude x = (digitCount (x.units * 10 ^ top / Binary64.unitsPerOne) : Int) - 400 := by
  unfold magnitude
  rw [← htop, Nat.pow_eq]

/-- With seventeen digits there is a candidate. -/
theorem candidate?_seventeen (hzero : x.isZero = false) : (candidate? x (magnitude x - 17)).isSome := by
  have hpos := Binary64.significand_pos hzero
  obtain ⟨top, htop⟩ : ∃ n : Nat, n = 400 := ⟨_, rfl⟩
  have hunits : 0 < Binary64.unitsPerOne ∧ Binary64.unitsPerOne ≤ 10 ^ top := by
    rw [htop]
    decide +kernel
  rw [magnitude_eq htop]
  obtain ⟨n, hn⟩ : ∃ n, n = x.units * 10 ^ top / Binary64.unitsPerOne := ⟨_, rfl⟩
  have hone : Binary64.unitsPerOne ≤ x.units * 10 ^ top :=
    Nat.le_trans hunits.2 (Nat.le_mul_of_pos_left _ (Nat.mul_pos hpos (Nat.two_pow_pos _)))
  have hnpos : n ≠ 0 := hn ▸ (Nat.div_pos hone hunits.1).ne'
  have hle : 10 ^ (digitCount n - 1) * Binary64.unitsPerOne ≤ x.units * 10 ^ top :=
    Nat.le_trans (Nat.mul_le_mul_right _ (pow_digitCount_le hnpos)) (hn ▸ Nat.div_mul_le_self _ _)
  have hcount := digitCount_pos hnpos
  rw [← hn]
  exact candidate?_isSome hpos (stepWidth_lt hpos (by omega) hle)

/-- **The fewest digits lie in the interval of the number.** -/
theorem digits_covers (hzero : x.isZero = false) : coversDecimal x (digits x).1 (digits x).2 := by
  obtain ⟨p, hp⟩ : ∃ p, (List.range' 1 17).findSome? (fun (k : Nat) =>
      (candidate? x (magnitude x - (k : Int))).map fun d => (d, magnitude x - (k : Int))) = some p := by
    rw [← Option.isSome_iff_exists, List.findSome?_isSome_iff]
    exact ⟨17, by decide, by rw [Option.isSome_map]; exact candidate?_seventeen hzero⟩
  obtain ⟨k, -, hk⟩ := List.exists_of_findSome?_eq_some hp
  obtain ⟨d, hd, rfl⟩ := Option.map_eq_some_iff.mp hk
  have hcovers := coversDecimal_of_candidate? hd
  unfold digits
  dsimp only
  rw [hp, Option.getD_some]
  dsimp only
  split
  · rename_i hten
    rw [← coversDecimal_shift _ _ 1]
    rwa [Nat.pow_one, Nat.div_mul_cancel (Nat.dvd_of_mod_eq_zero hten), Nat.cast_one, Int.add_sub_cancel]
  · exact hcovers

end PathLedger.Shortest
