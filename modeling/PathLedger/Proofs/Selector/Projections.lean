import Mathlib.Data.Nat.Basic
import PathLedger.Proofs.Text.Ends
import PathLedger.Proofs.Text.Parts
import PathLedger.Selector.Segment

/-!
# The variable of a projection

The expression of a projection is read relative to a child, so the variable and its dot are dropped wherever they
start a word. The scanner goes through the text from the left and remembers one bit of what it has passed. What it
leaves is said here of the whole text, by places.

* `Selector.Opens`, `Selector.Struck` — where a word stands with no character of words before it, and the places inside.
* `Selector.unstruck` — a text without its struck places.
* `Selector.Solitary` — words that never overlap themselves; `Selector.solitary_dotted` says that a variable with its
  dot is one.
* `Selector.Separate` — no occurrence reaches from what is passed into the rest; `Separate.pass` and `Separate.leap` are
  the two steps of the scanner.
* `Selector.dropWord_eq` — **what the scanner leaves of the rest of a text**.
* `Selector.Transform.relativeExpression_unstruck` — **what is left of the expression of a projection**.
-/

namespace PathLedger.Selector

open Text

/-! ## Places of a text -/

/-- A word stands in a text from a place on. -/
def Standing (word s : List Char) (i : Nat) : Prop := word <+: s.drop i

/-- A word stands in a text from a place on, and the character before it, if any, is none of words. -/
def Opens (word s : List Char) (i : Nat) : Prop :=
  Standing word s i ∧ ∀ c ∈ (s.take i).getLast?, isWordChar c = false

/-- A place inside a word that opens. -/
def Struck (word s : List Char) (k : Nat) : Prop := ∃ i ≤ k, k < i + word.length ∧ Opens word s i

instance (word s : List Char) (i : Nat) : Decidable (Standing word s i) :=
  inferInstanceAs (Decidable (word <+: s.drop i))

instance (word s : List Char) (i : Nat) : Decidable (Opens word s i) :=
  @instDecidableAnd _ _ (inferInstanceAs (Decidable (Standing word s i))) (Option.decidableForallMem _)

instance (word s : List Char) (k : Nat) : Decidable (Struck word s k) :=
  inferInstanceAs (Decidable (∃ i ≤ k, k < i + word.length ∧ Opens word s i))

/-- The characters among some with numbered places that are not struck in a text. -/
def unstruckOf (word s : List Char) (numbered : List (Char × Nat)) : List Char :=
  (numbered.filter fun e => ¬Struck word s e.2).map Prod.fst

/-- A text without its struck places. -/
def unstruck (word s : List Char) : List Char := unstruckOf word s s.zipIdx

section Numbered

variable {word s : List Char} {numbered : List (Char × Nat)}

theorem unstruckOf_append (word s : List Char) (a b : List (Char × Nat)) :
    unstruckOf word s (a ++ b) = unstruckOf word s a ++ unstruckOf word s b := by
  simp only [unstruckOf, List.filter_append, List.map_append]

theorem unstruckOf_cons {e : Char × Nat} (h : ¬Struck word s e.2) :
    unstruckOf word s (e :: numbered) = e.1 :: unstruckOf word s numbered := by
  simp [unstruckOf, h]

theorem unstruckOf_of_struck (h : ∀ e ∈ numbered, Struck word s e.2) : unstruckOf word s numbered = [] := by
  simpa [unstruckOf] using fun c k hk => h (c, k) hk

theorem unstruckOf_of_spared (h : ∀ e ∈ numbered, ¬Struck word s e.2) :
    unstruckOf word s numbered = numbered.map Prod.fst := by
  rw [unstruckOf, List.filter_eq_self.mpr]
  simpa using fun c k hk => h (c, k) hk

end Numbered

/-! ## Words that never overlap themselves -/

/-- Two occurrences of a word have no place in common. -/
def Solitary (word : List Char) : Prop :=
  ∀ s i j, Standing word s i → Standing word s j → i < j → i + word.length ≤ j

theorem Standing.getElem? {word s : List Char} {i : Nat} (h : Standing word s i) {k : Nat} (hk : k < word.length) :
    s[i + k]? = some word[k] := by
  have hplace := List.prefix_iff_getElem?.mp h k hk
  rwa [List.getElem?_drop] at hplace

/-- **A variable with its dot never overlaps itself**: the dot stands at its end only. -/
theorem solitary_dotted {name : List Char} (hname : '.' ∉ name) : Solitary (name ++ ['.']) := by
  intro s i j hi hj hlt
  rw [List.length_append, List.length_singleton]
  by_contra hover
  have hdot : s[i + name.length]? = some '.' := by
    rw [hi.getElem? (by simp)]
    simp
  have hinside : i + name.length - j < name.length := by omega
  have hletter := hj.getElem? (k := i + name.length - j) (by simp; omega)
  rw [show j + (i + name.length - j) = i + name.length by omega, hdot, List.getElem_append_left hinside] at hletter
  exact hname (Option.some.inj hletter ▸ List.getElem_mem hinside)

/-! ## Steps of the scanner -/

/-- Whether the last character of a text is one of words. -/
def endsInWord (front : List Char) : Bool := front.getLast?.any isWordChar

/-- No occurrence of a word reaches from the front of a text into its rest. -/
def Separate (word front rest : List Char) : Prop :=
  ∀ i < front.length, Standing word (front ++ rest) i → i + word.length ≤ front.length

section Steps

variable {word front rest : List Char} {c : Char}

theorem standing_length_iff : Standing word (front ++ rest) front.length ↔ word <+: rest := by
  rw [Standing, List.drop_left]

theorem opens_length_iff :
    Opens word (front ++ rest) front.length ↔ word <+: rest ∧ endsInWord front = false := by
  rw [Opens, standing_length_iff, List.take_left, endsInWord]
  cases front.getLast? <;> simp

/-- A character at which the word does not stand is spared, and then it is passed. -/
theorem Separate.pass (h : Separate word front (c :: rest)) (hc : ¬word <+: c :: rest) :
    ¬Struck word (front ++ c :: rest) front.length ∧ Separate word (front ++ [c]) rest := by
  constructor
  · rintro ⟨i, hi, hreach, hopens⟩
    rcases Nat.lt_or_eq_of_le hi with hbefore | rfl
    · have := h i hbefore hopens.1
      omega
    · exact hc (standing_length_iff.mp hopens.1)
  · intro i hi hstands
    rw [List.append_assoc, List.singleton_append] at hstands
    rw [List.length_append, List.length_singleton] at hi ⊢
    rcases Nat.lt_or_eq_of_le (Nat.le_of_lt_succ hi) with hbefore | rfl
    · exact Nat.le_succ_of_le (h i hbefore hstands)
    · exact absurd (standing_length_iff.mp hstands) hc

/-- An occurrence is struck as a whole or spared as a whole, by what stands before it, and then it is passed. -/
theorem Separate.leap (hword : Solitary word) (h : Separate word front (word ++ rest)) :
    (∀ k, front.length ≤ k → k < front.length + word.length →
        (Struck word (front ++ (word ++ rest)) k ↔ endsInWord front = false)) ∧
      Separate word (front ++ word) rest := by
  have hhere : Standing word (front ++ (word ++ rest)) front.length :=
    standing_length_iff.mpr (List.prefix_append word rest)
  constructor
  · intro k hk hreach
    constructor
    · rintro ⟨i, hi, hinside, hopens⟩
      -- The occurrence that strikes the place is the one at the end of the front: an earlier one does not reach over,
      -- and a later one would overlap it.
      rcases Nat.lt_trichotomy i front.length with hbefore | rfl | hbehind
      · have := h i hbefore hopens.1
        omega
      · exact (opens_length_iff.mp hopens).2
      · have := hword _ _ _ hhere hopens.1 hbehind
        omega
    · intro hends
      exact ⟨front.length, hk, hreach, opens_length_iff.mpr ⟨List.prefix_append word rest, hends⟩⟩
  · intro i hi hstands
    rw [List.append_assoc] at hstands
    rw [List.length_append] at hi ⊢
    rcases Nat.lt_trichotomy i front.length with hbefore | rfl | hbehind
    · have := h i hbefore hstands
      omega
    · exact Nat.le_refl _
    · have := hword _ _ _ hhere hstands hbehind
      omega

end Steps

/-! ## What the scanner leaves -/

section Scanner

variable {p : Char} {ps : List Char}

theorem dropWord_append (b : Bool) (rest : List Char) :
    dropWord p ps b (p :: ps ++ rest) = (if b then p :: ps else []) ++ dropWord p ps false rest := by
  rw [List.cons_append, dropWord]
  split
  · rename_i after hafter
    obtain rfl := Option.some.inj ((behind?_append (p :: ps) rest).symm.trans hafter)
    rfl
  · rename_i hnone
    rw [← List.cons_append, behind?_append] at hnone
    cases hnone

theorem dropWord_cons {c : Char} {r : List Char} (h : behind? (p :: ps) (c :: r) = none) (b : Bool) :
    dropWord p ps b (c :: r) = c :: dropWord p ps (isWordChar c) r := by
  rw [dropWord]
  split
  · rename_i after hafter
    rw [h] at hafter
    cases hafter
  · rfl

/-- **What the scanner leaves of the rest of a text** is what is not struck in the whole text. The bit that it carries
tells how the passed front ends: behind an occurrence, which ends in no character of words, it is off. -/
theorem dropWord_eq (hword : Solitary (p :: ps)) (hlast : endsInWord (p :: ps) = false) {front rest : List Char}
    (h : Separate (p :: ps) front rest) :
    dropWord p ps (endsInWord front) rest = unstruckOf (p :: ps) (front ++ rest) (rest.zipIdx front.length) := by
  generalize hb : endsInWord front = b
  induction b, rest using dropWord.induct p ps generalizing front with
  | case1 b => simp [dropWord, unstruckOf]
  | case2 b c r rest hrest _ ih =>
    have hends : endsInWord (front ++ p :: ps) = false := by
      rw [endsInWord, List.getLast?_append_of_ne_nil _ (List.cons_ne_nil p ps)]
      exact hlast
    rw [behind?_eq_some hrest] at h ⊢
    obtain ⟨hstruck, hseparate⟩ := h.leap hword
    have hrest := ih hseparate hends
    rw [List.append_assoc, List.length_append] at hrest
    rw [dropWord_append, hrest, List.zipIdx_append, unstruckOf_append]
    congr 1
    have hplace (e : Char × Nat) (he : e ∈ (p :: ps).zipIdx front.length) :
        Struck (p :: ps) (front ++ (p :: ps ++ rest)) e.2 ↔ b = false := by
      obtain ⟨hlow, hhigh, -⟩ := List.mem_zipIdx he
      rw [hstruck e.2 hlow hhigh, hb]
    cases b with
    | false => exact (unstruckOf_of_struck fun e he => (hplace e he).mpr rfl).symm
    | true =>
      rw [unstruckOf_of_spared fun e he => (hplace e he).not.mpr (by decide), List.zipIdx_map_fst]
      rfl
  | case3 b c r hnone ih =>
    have hc : ¬p :: ps <+: c :: r := by
      rintro ⟨rest, hrest⟩
      rw [← hrest, behind?_append] at hnone
      cases hnone
    obtain ⟨hspared, hseparate⟩ := h.pass hc
    have hends : endsInWord (front ++ [c]) = isWordChar c := by simp [endsInWord]
    have hrest := ih hseparate hends
    rw [List.append_assoc, List.length_append, List.singleton_append] at hrest
    rw [dropWord_cons hnone, hrest, List.zipIdx_cons, unstruckOf_cons hspared]
    rfl

end Scanner

/-! ## Expressions of projections -/

/-- The variable of a projection is a row of characters of words. -/
theorem Transform.variableName_of_parse? {selector : List Char} {t : Transform} (h : parse? selector = some t) :
    ∀ c ∈ t.variableName.toList, isWordChar c := by
  unfold parse? at h
  split at h
  · cases h
  · dsimp only at h
    split at h
    · rename_i hname
      obtain rfl := Option.some.inj h
      simp only [Bool.and_eq_true, List.all_eq_true] at hname
      rw [String.toList_ofList]
      exact hname.1.2
    · cases h

/-- **What is left of the expression of a projection** are the characters outside every occurrence of the variable and
its dot that no character of words stands before, in their order. -/
theorem Transform.relativeExpression_unstruck {selector : List Char} {t : Transform} (h : parse? selector = some t) :
    t.relativeExpression.toList = unstruck (t.variableName.toList ++ ['.']) t.expression.toList := by
  have hname := variableName_of_parse? h
  have hdot : '.' ∉ t.variableName.toList := fun hmem => absurd (hname _ hmem) (by decide)
  have hsolitary := solitary_dotted hdot
  have hlast : endsInWord (t.variableName.toList ++ ['.']) = false := by
    rw [endsInWord, List.getLast?_concat]
    decide
  unfold relativeExpression
  split
  · rename_i p ps hword
    rw [hword] at hsolitary hlast ⊢
    have hfront : Separate (p :: ps) [] t.expression.toList := fun i hi => absurd hi (Nat.not_lt_zero i)
    rw [String.toList_ofList]
    exact dropWord_eq hsolitary hlast hfront
  · rename_i hempty
    simp at hempty

/-- Occurrences next to one another go, also behind the dot of one that stays because it ends a longer name. -/
theorem Transform.relativeExpression_unstruck_chain :
    parse? " x => x.x.a + xx.x.b - y.x.c".toList = some ⟨"x", "x.x.a + xx.x.b - y.x.c"⟩ ∧
      (relativeExpression ⟨"x", "x.x.a + xx.x.b - y.x.c"⟩).toList =
        unstruck "x.".toList "x.x.a + xx.x.b - y.x.c".toList ∧
      unstruck "x.".toList "x.x.a + xx.x.b - y.x.c".toList = "a + xx.b - y.c".toList := by
  have hparse : parse? " x => x.x.a + xx.x.b - y.x.c".toList = some ⟨"x", "x.x.a + xx.x.b - y.x.c"⟩ := by
    decide +kernel
  exact ⟨hparse, relativeExpression_unstruck hparse, by decide +kernel⟩

end PathLedger.Selector
