import Mathlib.Data.List.Basic
import PathLedger.Proofs.Path.Plain
import PathLedger.Username

/-!
# User names in normal form

* `Username.objection?_lowered` — lowering a name changes nothing about what is objected to.
* `Username.normalize_normalized` — **a normal form is its own normal form**.
* `Username.ne_empty` — a normal form is not empty.
-/

namespace PathLedger.Username

open Text

variable {c : Char} {name : List Char} {raw normal : String}

/-! ## Characters -/

theorem allowed_range (h : allowed c) : 45 ≤ c.toNat ∧ c.toNat ≤ 122 ∧ ¬(65 ≤ c.toNat ∧ c.toNat ≤ 90) := by
  simp only [allowed, isDigit, Bool.or_eq_true, Bool.and_eq_true, decide_eq_true_eq, beq_iff_eq, Char.le_def,
    UInt32.le_iff_toNat_le] at h
  have hbounds : 'a'.val.toNat = 97 ∧ 'z'.val.toNat = 122 ∧ '0'.val.toNat = 48 ∧ '9'.val.toNat = 57 := by decide
  have hchar : c.val.toNat = c.toNat := rfl
  rcases h with (h | h) | rfl
  · omega
  · omega
  · decide

theorem isBlank_of_allowed (h : allowed c) : isBlank c = false := by
  have := allowed_range h
  simp only [isBlank, Bool.or_eq_false_iff, Bool.and_eq_false_iff, decide_eq_false_iff_not, beq_eq_false_iff_ne]
  omega

/-- An accepted character is in lower case. -/
theorem lower_of_allowed (h : allowed c) : lower c = c := by
  obtain ⟨-, hle, hcapital⟩ := allowed_range h
  have hbounds : 'A'.val.toNat = 65 ∧ 'Z'.val.toNat = 90 := by decide
  have hchar : c.val.toNat = c.toNat := rfl
  rw [lower, if_neg, if_neg (by omega)]
  simp only [Bool.and_eq_true, decide_eq_true_eq, Char.le_def, UInt32.le_iff_toNat_le]
  omega

theorem lowerWidth_of_le (h : c.toNat ≤ 127) : lowerWidth c = 1 := by
  have hshrinking : ∀ n ∈ shrinking, 127 < n := by decide
  have hgrowing : ∀ n ∈ growing, 127 < n := by decide
  have hnot {l : List Nat} (hl : ∀ n ∈ l, 127 < n) : ¬l.contains c.toNat = true := by
    intro hmem
    have := hl _ (List.contains_iff_mem.mp hmem)
    omega
  rw [lowerWidth, if_neg (by omega), if_neg (hnot hshrinking), if_neg (hnot hgrowing)]
  exact Char.utf8Size_eq_one_iff.mpr (UInt32.le_iff_toNat_le.mpr h)

/-- A character with an accepted lower-case form is as wide as that form. -/
theorem lowerWidth_lower (h : allowed (lower c)) : lowerWidth (lower c) = lowerWidth c := by
  rw [lowerWidth_of_le (by have := allowed_range h; omega)]
  by_cases hkelvin : c.toNat = 0x212a
  · rw [lowerWidth, if_pos hkelvin]
  · refine (lowerWidth_of_le ?_).symm
    rw [lower, if_neg hkelvin] at h
    split at h
    · rename_i hcapital
      simp only [Bool.and_eq_true, decide_eq_true_eq, Char.le_def, UInt32.le_iff_toNat_le] at hcapital
      have hbound : 'Z'.val.toNat = 90 := by decide
      have hchar : c.val.toNat = c.toNat := rfl
      omega
    · have := allowed_range h
      omega

/-! ## Names -/

theorem objection?_eq_none (h : objection? name = none) : name ≠ [] ∧ ∀ c ∈ name, allowed (lower c) := by
  unfold objection? at h
  dsimp only at h
  split at h
  · cases h
  · rename_i hwidth
    split at h
    · cases h
    · rename_i hallowed
      refine ⟨?_, by simpa using hallowed⟩
      rintro rfl
      exact hwidth (by decide)

/-- Lowering a name changes nothing about what is objected to. -/
theorem objection?_lowered (h : ∀ c ∈ name, allowed (lower c)) : objection? (name.map lower) = objection? name := by
  have hlowered : (name.map lower).map lower = name.map lower := by
    rw [List.map_map]
    exact List.map_congr_left fun c hc => lower_of_allowed (h c hc)
  have hwidth : (name.map lower).foldl (fun n c => n + lowerWidth c) 0 =
      name.foldl (fun n c => n + lowerWidth c) 0 := by
    rw [List.foldl_map]
    exact List.foldl_ext _ _ _ fun n c hc => by rw [lowerWidth_lower (h c hc)]
  unfold objection?
  rw [hwidth, hlowered]

theorem normalize_ok (h : normalize raw = .ok normal) :
    objection? (trim raw.toList) = none ∧ normal = String.ofList ((trim raw.toList).map lower) := by
  unfold normalize at h
  dsimp only at h
  split at h
  · cases h
  · rename_i hnone
    cases h
    exact ⟨hnone, rfl⟩

/-- **A normal form is its own normal form.** -/
theorem normalize_normalized (h : normalize raw = .ok normal) : normalize normal = .ok normal := by
  obtain ⟨hnone, rfl⟩ := normalize_ok h
  obtain ⟨-, hallowed⟩ := objection?_eq_none hnone
  generalize trim raw.toList = name at hnone hallowed
  have htrim : trim (name.map lower) = name.map lower := by
    refine trim_eq_self fun c hc => ?_
    obtain ⟨d, hd, rfl⟩ := List.mem_map.mp hc
    exact isBlank_of_allowed (hallowed d hd)
  have hlowered : (name.map lower).map lower = name.map lower := by
    rw [List.map_map]
    exact List.map_congr_left fun c hc => lower_of_allowed (hallowed c hc)
  unfold normalize
  dsimp only
  rw [String.toList_ofList, htrim, objection?_lowered hallowed, hnone, hlowered]

theorem ne_empty (h : normalize raw = .ok normal) : normal ≠ "" := by
  obtain ⟨hnone, rfl⟩ := normalize_ok h
  rw [Ne, String.ofList_eq_empty_iff, List.map_eq_nil_iff]
  exact (objection?_eq_none hnone).1

end PathLedger.Username
