import PathLedger.Text.Blank

/-!
# The ends of texts

A scanner takes the front of a text up to the first character that is not of its kind. Trimming keeps whatever stands
between the first and the last character that is no blank.

* `Text.takeWhile_front`, `Text.dropWhile_front` — the front of a text, and what is behind it.
* `Text.isBlank_of_isWordChar` — no character of a word is a blank.
* `Text.trim_cons` — trimming keeps what is not blank at the front.
* `Text.trim_of_ends` — **a text without blanks at its ends is kept whole**.
* `Text.trim_surrounded`, `Text.trim_append_blanks` — a text is what trimming leaves, with blanks around it, and more
  blanks make no difference.
-/

namespace PathLedger.Text

variable {c : Char} {s : List Char}

/-! ## Fronts -/

section Front

variable {p : Char → Bool} {front r : List Char}

theorem takeWhile_front (hfront : ∀ c ∈ front, p c) (hr : r.takeWhile p = []) : (front ++ r).takeWhile p = front := by
  rw [List.takeWhile_append_of_pos hfront, hr, List.append_nil]

theorem dropWhile_front (hfront : ∀ c ∈ front, p c) (hr : r.takeWhile p = []) : (front ++ r).dropWhile p = r := by
  have := List.takeWhile_append_dropWhile (p := p) (l := front ++ r)
  rw [takeWhile_front hfront hr] at this
  exact List.append_cancel_left this

/-- The front up to the first occurrence of a character. -/
theorem takeWhile_ne {d : Char} (h : d ∉ front) (r : List Char) :
    (front ++ d :: r).takeWhile (· != d) = front ∧ (front ++ d :: r).dropWhile (· != d) = d :: r := by
  have hfront : ∀ c ∈ front, (c != d) = true := fun c hc => bne_iff_ne.mpr fun heq => h (heq ▸ hc)
  have hr : (d :: r).takeWhile (· != d) = [] := List.takeWhile_cons_of_neg (by simp)
  exact ⟨takeWhile_front hfront hr, dropWhile_front hfront hr⟩

end Front

/-! ## Characters of words -/

theorem isWordChar_range (h : isWordChar c) : 48 ≤ c.toNat ∧ c.toNat ≤ 122 := by
  simp only [isWordChar, isLetter, isDigit, Bool.or_eq_true, Bool.and_eq_true, decide_eq_true_eq, beq_iff_eq,
    Char.le_def, UInt32.le_iff_toNat_le] at h
  have hbounds : 'a'.val.toNat = 97 ∧ 'z'.val.toNat = 122 ∧ 'A'.val.toNat = 65 ∧ 'Z'.val.toNat = 90 ∧
      '0'.val.toNat = 48 ∧ '9'.val.toNat = 57 := by decide
  have hchar : c.val.toNat = c.toNat := rfl
  rcases h with (h | h) | rfl
  · omega
  · omega
  · decide

theorem isBlank_of_isWordChar (h : isWordChar c) : isBlank c = false := by
  have := isWordChar_range h
  simp only [isBlank, Bool.or_eq_false_iff, Bool.and_eq_false_iff, decide_eq_false_iff_not, beq_eq_false_iff_ne]
  omega

theorem isWordChar_of_isWordStart (h : isWordStart c) : isWordChar c := by
  rw [isWordStart, Bool.or_eq_true] at h
  rcases h with hletter | hunderscore
  · rw [isWordChar, hletter, Bool.true_or, Bool.true_or]
  · rw [isWordChar, hunderscore, Bool.or_true]

theorem isWordChar_of_isDigit (h : isDigit c) : isWordChar c := by
  rw [isWordChar, h, Bool.or_true, Bool.true_or]

theorem isDigit_of_isWordStart (h : isWordStart c) : isDigit c = false := by
  simp only [isWordStart, isLetter, isDigit, Bool.or_eq_true, Bool.and_eq_true, Bool.and_eq_false_iff,
    decide_eq_true_eq, decide_eq_false_iff_not, beq_iff_eq, Char.le_def, UInt32.le_iff_toNat_le] at h ⊢
  have hbounds : 'a'.val.toNat = 97 ∧ 'A'.val.toNat = 65 ∧ '9'.val.toNat = 57 ∧ '_'.val.toNat = 95 := by decide
  rcases h with (h | h) | rfl
  · omega
  · omega
  · omega

/-! ## Trimming -/

/-- Trimming keeps what is not blank at the front. -/
theorem trim_cons (h : isBlank c = false) (r : List Char) : ∃ t, trim (c :: r) = c :: t := by
  rw [trim, trimStart, List.dropWhile_cons_of_neg (by simp [h]), trimEnd]
  split
  · rw [h]
    exact ⟨[], rfl⟩
  · exact ⟨_, rfl⟩

/-- A text without a blank at its end loses nothing there. -/
theorem trimEnd_of_last (h : ∀ c ∈ s.getLast?, isBlank c = false) : trimEnd s = s := by
  obtain ⟨blanks, hs, hblanks⟩ := trimEnd_append_blanks s
  rcases List.eq_nil_or_concat blanks with rfl | ⟨front, c, rfl⟩
  · rw [List.append_nil] at hs
    exact hs.symm
  · have hlast : c ∈ s.getLast? := by
      rw [hs]
      simp
    have hblank := hblanks c (by simp)
    rw [h c hlast] at hblank
    cases hblank

/-- **A text without blanks at its ends is kept whole.** -/
theorem trim_of_ends (hfirst : ∀ c ∈ s.head?, isBlank c = false) (hlast : ∀ c ∈ s.getLast?, isBlank c = false) :
    trim s = s := by
  have hstart : trimStart s = s := by
    cases s with
    | nil => rfl
    | cons c r => rw [trimStart, List.dropWhile_cons_of_neg (by simp [hfirst c rfl])]
  rw [trim, hstart, trimEnd_of_last hlast]

/-- A text is what trimming leaves, with blanks around it. -/
theorem trim_surrounded (s : List Char) :
    ∃ front back, s = front ++ trim s ++ back ∧ (∀ c ∈ front, isBlank c) ∧ ∀ c ∈ back, isBlank c := by
  obtain ⟨back, hback, hblank⟩ := trimEnd_append_blanks (trimStart s)
  refine ⟨s.takeWhile isBlank, back, ?_, fun c hc => List.all_eq_true.mp List.all_takeWhile c hc, hblank⟩
  rw [List.append_assoc, trim, ← hback, trimStart, List.takeWhile_append_dropWhile]

/-- Trimming leaves something of a text that has more than blanks. -/
theorem trim_ne_nil (hc : c ∈ s) (h : isBlank c = false) : trim s ≠ [] := by
  intro hnone
  obtain ⟨front, back, hs, hfront, hback⟩ := trim_surrounded s
  rw [hnone, List.append_nil] at hs
  rw [hs] at hc
  have hblank : isBlank c := (List.mem_append.mp hc).elim (hfront c) (hback c)
  rw [h] at hblank
  cases hblank

/-- The leading blanks of a text are its own when it has more than blanks. -/
theorem trimStart_append (hc : c ∈ s) (h : isBlank c = false) (r : List Char) :
    trimStart (s ++ r) = trimStart s ++ r := by
  rw [trimStart, List.dropWhile_append, if_neg]
  · rfl
  · intro hnone
    refine trim_ne_nil hc h ?_
    rw [trim, trimStart, List.isEmpty_iff.mp hnone]
    rfl

/-- Trimming leaves no blank at the front. -/
theorem isBlank_of_mem_head?_trim (h : c ∈ (trim s).head?) : isBlank c = false := by
  cases hstart : trimStart s with
  | nil =>
    rw [trim, hstart] at h
    cases h
  | cons d r =>
    have hd : isBlank d = false := by
      have hfirst := List.head?_dropWhile_not isBlank s
      rw [← trimStart, hstart] at hfirst
      exact Bool.eq_false_iff.mpr (by simpa using hfirst)
    obtain ⟨t, ht⟩ := trim_cons hd r
    rw [trim, trimStart, List.dropWhile_cons_of_neg (by simp [hd])] at ht
    rw [trim, hstart, ht] at h
    obtain rfl := Option.some.inj h
    exact hd

/-- Trimming leaves no blank at the end. -/
theorem isBlank_of_mem_getLast?_trim (h : c ∈ (trim s).getLast?) : isBlank c = false := by
  rw [trim] at h
  generalize trimStart s = t at h
  induction t with
  | nil => cases h
  | cons d r ih =>
    cases hr : trimEnd r with
    | nil =>
      rw [trimEnd, hr] at h
      by_cases hd : isBlank d
      · rw [if_pos hd] at h
        cases h
      · rw [if_neg hd] at h
        obtain rfl := Option.some.inj h
        exact Bool.eq_false_iff.mpr hd
    | cons e t =>
      rw [trimEnd, hr] at h
      rw [hr] at ih
      exact ih (by simpa using h)

/-- Trimming leaves nothing to trim. -/
theorem trim_trim (s : List Char) : trim (trim s) = trim s :=
  trim_of_ends (fun _ => isBlank_of_mem_head?_trim) fun _ => isBlank_of_mem_getLast?_trim

theorem trimEnd_append_blanks_eq {back : List Char} (h : ∀ c ∈ back, isBlank c) (s : List Char) :
    trimEnd (s ++ back) = trimEnd s := by
  induction s with
  | nil => exact trimEnd_eq_nil_iff.mpr h
  | cons c r ih => rw [List.cons_append, trimEnd, ih, trimEnd]

/-- Blanks around a text make no difference to what trimming leaves. -/
theorem trim_append_blanks {front back : List Char} (hfront : ∀ c ∈ front, isBlank c) (hback : ∀ c ∈ back, isBlank c)
    (s : List Char) : trim (front ++ s ++ back) = trim s := by
  have hstart : trimStart (front ++ s ++ back) = trimStart (s ++ back) := by
    rw [trimStart, List.append_assoc, List.dropWhile_append_of_pos hfront]
    rfl
  rw [trim, hstart, trimStart, List.dropWhile_append]
  split
  · rename_i hs
    have hall : s.dropWhile isBlank = [] := List.isEmpty_iff.mp hs
    have hnone : back.dropWhile isBlank = [] := by simpa using dropWhile_front hback (r := []) rfl
    rw [trim, trimStart, hall, hnone]
  · exact trimEnd_append_blanks_eq hback _

theorem trim_trimStart (s : List Char) : trim (trimStart s) = trim s := by
  have hfront : ∀ c ∈ s.takeWhile isBlank, isBlank c := List.all_eq_true.mp List.all_takeWhile
  have hsplit : s.takeWhile isBlank ++ trimStart s ++ [] = s := by
    rw [List.append_nil, trimStart, List.takeWhile_append_dropWhile]
  rw [← trim_append_blanks hfront (List.forall_mem_nil _) (trimStart s), hsplit]

theorem trim_eq_self (h : ∀ c ∈ s, isBlank c = false) : trim s = s :=
  trim_of_ends (fun c hc => h c (List.mem_of_mem_head? hc)) fun c hc => h c (List.mem_of_getLast? hc)

end PathLedger.Text
