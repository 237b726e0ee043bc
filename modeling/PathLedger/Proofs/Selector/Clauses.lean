import Mathlib.Data.List.Infix
import PathLedger.Proofs.Selector.Marks
import PathLedger.Proofs.Text.Ends

/-!
# Comparisons are read back

A comparison is read at the first place where one of the six symbols starts, possibly behind blanks, with something
on both sides. The symbols have no blanks, so a comparison that is written with a space on both sides of its symbol is
read back unless a symbol stands earlier, inside its left side. What the right side holds is of no account.

* `Selector.Comparison.symbol`, `Selector.Clause.text` — comparisons as they are written.
* `Selector.Operand` — what can stand on a side.
* `Selector.Uncompared` — texts in which no symbol stands.
* `Selector.Clause.search_append`, `Selector.Clause.left_length_of_search` — the search passes what no symbol starts in,
  and goes no further than a place where one does.
* `Selector.Clause.parse?_text_iff` — **a written comparison is read back exactly when no symbol stands in its left
  side**, the first character apart.
-/

namespace PathLedger.Selector

open Text

/-! ## Written comparisons -/

/-- How a comparison is written. -/
def Comparison.symbol : Comparison → List Char
  | .ge => ['>', '=']
  | .le => ['<', '=']
  | .eq => ['=', '=']
  | .ne => ['!', '=']
  | .gt => ['>']
  | .lt => ['<']

/-- A comparison with single spaces around its symbol. -/
def Clause.text (c : Clause) : List Char := c.left.toList ++ ' ' :: c.op.symbol ++ ' ' :: c.right.toList

/-- What can stand on a side of a comparison: a text with something in it and without blanks at its ends. -/
structure Operand (s : List Char) : Prop where
  ne_nil : s ≠ []
  trimmed : trim s = s

/-- No symbol of a comparison stands in a text. -/
def Uncompared (s : List Char) : Prop := ∀ e ∈ Comparison.symbols, ¬ e.1 <:+: s

instance (s : List Char) : Decidable (Operand s) :=
  decidable_of_iff (s ≠ [] ∧ trim s = s) ⟨fun h => ⟨h.1, h.2⟩, fun h => ⟨h.ne_nil, h.trimmed⟩⟩

instance (s : List Char) : Decidable (Uncompared s) := inferInstanceAs (Decidable (∀ e ∈ Comparison.symbols, _))

namespace Operand

variable {s t : List Char}

theorem of_ends {c d : Char} (hfirst : s.head? = some c) (hc : isBlank c = false) (hlast : s.getLast? = some d)
    (hd : isBlank d = false) : Operand s where
  ne_nil := by
    rintro rfl
    cases hfirst
  trimmed := by
    refine trim_of_ends (fun a ha => ?_) fun a ha => ?_
    · rw [hfirst] at ha
      exact Option.some.inj ha ▸ hc
    · rw [hlast] at ha
      exact Option.some.inj ha ▸ hd

theorem exists_first (h : Operand s) : ∃ c, s.head? = some c ∧ isBlank c = false := by
  obtain ⟨c, r, rfl⟩ := List.exists_cons_of_ne_nil h.ne_nil
  exact ⟨c, rfl, isBlank_of_mem_head?_trim (s := c :: r) (by rw [h.trimmed]; rfl)⟩

theorem exists_last (h : Operand s) : ∃ d, s.getLast? = some d ∧ isBlank d = false := by
  have hlast := List.getLast?_eq_some_getLast h.ne_nil
  exact ⟨_, hlast, isBlank_of_mem_getLast?_trim (s := s) (by rw [h.trimmed]; exact hlast)⟩

/-- What begins and ends as operands do can stand on a side. -/
theorem append (hs : Operand s) (ht : Operand t) (middle : List Char) : Operand (s ++ middle ++ t) := by
  obtain ⟨c, hfirst, hc⟩ := hs.exists_first
  obtain ⟨d, hlast, hd⟩ := ht.exists_last
  refine of_ends (c := c) (d := d) ?_ hc ?_ hd
  · rw [List.append_assoc, List.head?_append, hfirst]
    rfl
  · rw [List.getLast?_append, hlast]
    rfl

/-- Every end of an operand has a character that is no blank, the last one. -/
theorem exists_of_suffix (hs : Operand s) (ht : t <:+ s) (hne : t ≠ []) : ∃ c ∈ t, isBlank c = false := by
  obtain ⟨front, rfl⟩ := ht
  obtain ⟨d, hlast, hd⟩ := hs.exists_last
  rw [List.getLast?_append_of_ne_nil _ hne] at hlast
  exact ⟨d, List.mem_of_getLast? hlast, hd⟩

end Operand

/-! ## Symbols in texts -/

section Marked

variable {p x y : List Char} {d : Char}

/-- A text that starts before a character it does not have ends before it. -/
theorem prefix_of_prefix_append_cons (hd : d ∉ p) (h : p <+: x ++ d :: y) : p <+: x := by
  rcases List.prefix_or_prefix_of_prefix h (List.prefix_append x (d :: y)) with hx | ⟨rest, rfl⟩
  · exact hx
  · cases rest with
    | nil => simp
    | cons e rest =>
      have hsame := (List.prefix_append_right_inj x).mp h
      rw [List.cons_prefix_cons] at hsame
      exact absurd (hsame.1 ▸ List.mem_append_right x List.mem_cons_self) hd

/-- A text stands before or behind a character that it does not have. -/
theorem infix_append_cons_iff (hd : d ∉ p) : p <:+: x ++ d :: y ↔ p <:+: x ∨ p <:+: y := by
  constructor
  · intro h
    induction x with
    | nil =>
      rcases List.infix_cons_iff.mp h with hfront | hbehind
      · exact .inl (prefix_of_prefix_append_cons hd hfront).isInfix
      · exact .inr hbehind
    | cons c x ih =>
      rcases List.infix_cons_iff.mp h with hfront | hbehind
      · exact .inl (prefix_of_prefix_append_cons hd hfront).isInfix
      · exact (ih hbehind).imp_left fun hx => hx.trans (List.suffix_cons c x).isInfix
  · rintro (hx | hy)
    · exact hx.trans (List.prefix_append x _).isInfix
    · exact hy.trans ((List.suffix_cons d y).trans (List.suffix_append x _)).isInfix

end Marked

theorem Comparison.symbol_solid : ∀ e ∈ symbols, e.1 ≠ [] ∧ ∀ c ∈ e.1, isBlank c = false := by
  have hall : symbols.all (fun e => !e.1.isEmpty && e.1.all fun c => !isBlank c) = true := by decide
  intro e he
  simpa using List.all_eq_true.mp hall e he

/-! ## The search -/

namespace Clause

variable {left right front rest passed : List Char} {clause : Clause}

/-- No comparison is found where no symbol starts. -/
theorem at?_eq_none (h : ∀ e ∈ Comparison.symbols, ¬ e.1 <+: trimStart rest) : at? left rest = none := by
  rw [at?, List.findSome?_eq_none_iff]
  rintro ⟨symbol, op⟩ he
  dsimp only
  split
  · rfl
  · rename_i found hfound
    exact absurd ⟨found, (behind?_eq_some hfound).symm⟩ (h _ he)

/-- A comparison is found where a symbol starts, with something before and behind it. -/
theorem at?_isSome {e : List Char × Comparison} (he : e ∈ Comparison.symbols) (hleft : trim left ≠ [])
    (hright : trim right ≠ []) : (at? left (e.1 ++ right)).isSome := by
  obtain ⟨hne, hsolid⟩ := Comparison.symbol_solid e he
  have hstart : trimStart (e.1 ++ right) = e.1 ++ right := by
    obtain ⟨c, r, hc⟩ := List.exists_cons_of_ne_nil hne
    rw [hc, trimStart, List.cons_append, List.dropWhile_cons_of_neg]
    rw [hsolid c (hc ▸ List.mem_cons_self)]
    exact Bool.false_ne_true
  rw [at?, List.findSome?_isSome_iff]
  refine ⟨e, he, ?_⟩
  dsimp only
  rw [hstart, behind?_append]
  simp [hleft, hright]

theorem left_length_of_at? (h : at? left rest = some clause) : clause.left.toList.length ≤ left.length := by
  obtain ⟨⟨symbol, op⟩, -, hfound⟩ := List.exists_of_findSome?_eq_some h
  dsimp only at hfound
  split at hfound
  · cases hfound
  · split at hfound
    · cases hfound
    · obtain rfl := Option.some.inj hfound
      rw [String.toList_ofList]
      exact (trim_sublist left).length_le

/-- At the space before its symbol, a written comparison is found. -/
theorem at?_symbol (op : Comparison) (hleft : Operand left) (hright : Operand right) :
    at? left (' ' :: op.symbol ++ ' ' :: right) = some ⟨String.ofList left, op, String.ofList right⟩ := by
  have hspace : trim (' ' :: right) = right := hright.trimmed
  have hstart : trimStart (' ' :: op.symbol ++ ' ' :: right) = op.symbol ++ ' ' :: right := by
    cases op <;> rfl
  rw [at?, hstart, hleft.trimmed]
  cases op <;>
    simp [Comparison.symbols, Comparison.symbol, behind?, hspace, hleft.ne_nil, hright.ne_nil]

/-- **The search passes a text in which no symbol starts.** -/
theorem search_append (passed : List Char)
    (h : ∀ tail, tail ≠ [] → tail <:+ front → ∀ e ∈ Comparison.symbols, ¬ e.1 <+: trimStart (tail ++ rest)) :
    search passed (front ++ rest) = search (front.reverse ++ passed) rest := by
  induction front generalizing passed with
  | nil => rfl
  | cons c r ih =>
    have hhere : at? passed.reverse (c :: r ++ rest) = none :=
      at?_eq_none (h (c :: r) (List.cons_ne_nil c r) (List.suffix_refl _))
    rw [List.cons_append] at hhere ⊢
    have hlater := ih (c :: passed) fun tail hne ht => h tail hne (ht.trans (List.suffix_cons c r))
    rw [search_cons, hhere, Option.none_or, hlater, List.reverse_cons, List.append_assoc]
    rfl

/-- **The search goes no further than a place where a comparison is found.** -/
theorem left_length_of_search (hfound : (at? (front.reverse ++ passed).reverse rest).isSome)
    (h : search passed (front ++ rest) = some clause) : clause.left.toList.length ≤ passed.length + front.length := by
  induction front generalizing passed with
  | nil =>
    cases rest with
    | nil => cases h
    | cons c r =>
      obtain ⟨found, hhere⟩ := Option.isSome_iff_exists.mp hfound
      rw [List.reverse_nil, List.nil_append] at hhere
      rw [List.nil_append, search_cons, hhere, Option.some_or] at h
      obtain rfl := Option.some.inj h
      simpa using left_length_of_at? hhere
  | cons c r ih =>
    rw [List.cons_append, search_cons, Option.or_eq_some_iff] at h
    rw [List.length_cons]
    rcases h with hhere | ⟨-, hlater⟩
    · have := left_length_of_at? hhere
      rw [List.length_reverse] at this
      omega
    · have hmoved : (at? (r.reverse ++ c :: passed).reverse rest).isSome := by simpa using hfound
      have := ih hmoved hlater
      rw [List.length_cons] at this
      omega

/-- **A comparison is read back from what is written** exactly when no symbol stands in its left side. The first
character of this side makes no difference, since something has to stand before a symbol. -/
theorem parse?_text_iff (hleft : Operand clause.left.toList) (hright : Operand clause.right.toList) :
    parse? clause.text = some clause ↔ Uncompared clause.left.toList.tail := by
  have htext : trim clause.text = clause.text := by
    have h := hleft.append hright (' ' :: clause.op.symbol ++ [' '])
    simpa [text] using h.trimmed
  obtain ⟨c, r, hcr⟩ := List.exists_cons_of_ne_nil hleft.ne_nil
  have hsearch : parse? clause.text = search [c] (r ++ ' ' :: clause.op.symbol ++ ' ' :: clause.right.toList) := by
    rw [parse?, htext, text, hcr]
    rfl
  rw [hcr, List.tail_cons]
  constructor
  · -- A symbol in the left side would have ended the search before the whole side was passed.
    intro h e he hwithin
    obtain ⟨front, behind, hr⟩ := hwithin
    have hpassed : trim (front.reverse ++ [c]).reverse ≠ [] := by
      obtain ⟨d, hd, hsolid⟩ := hleft.exists_first
      rw [hcr] at hd
      obtain rfl := Option.some.inj hd
      exact trim_ne_nil (by simp) hsolid
    have hbehind : trim (behind ++ ' ' :: clause.op.symbol ++ ' ' :: clause.right.toList) ≠ [] := by
      obtain ⟨d, hd, hsolid⟩ := hright.exists_of_suffix (List.suffix_refl _) hright.ne_nil
      exact trim_ne_nil (List.mem_append_right _ (List.mem_cons_of_mem _ hd)) hsolid
    rw [hsearch, ← hr, List.append_assoc, List.append_assoc, List.append_assoc] at h
    have hshort := left_length_of_search (at?_isSome he hpassed (by simpa using hbehind)) h
    have hlength : clause.left.toList.length = front.length + e.1.length + behind.length + 1 := by
      rw [hcr, List.length_cons, ← hr, List.length_append, List.length_append]
    have hsome := List.length_pos_of_ne_nil (Comparison.symbol_solid e he).1
    rw [List.length_singleton] at hshort
    omega
  · intro h
    have hpass : ∀ tail, tail ≠ [] → tail <:+ r → ∀ e ∈ Comparison.symbols,
        ¬ e.1 <+: trimStart (tail ++ ' ' :: (clause.op.symbol ++ ' ' :: clause.right.toList)) := by
      intro tail hne htail e he hprefix
      obtain ⟨d, hd, hsolid⟩ := hleft.exists_of_suffix (hcr ▸ htail.trans (List.suffix_cons c r)) hne
      rw [trimStart_append hd hsolid] at hprefix
      have hspace : ' ' ∉ e.1 := fun hmem => absurd ((Comparison.symbol_solid e he).2 _ hmem) (by decide)
      have hfront := prefix_of_prefix_append_cons hspace hprefix
      exact h e he (hfront.isInfix.trans ((List.dropWhile_suffix isBlank).isInfix.trans htail.isInfix))
    have hhere := at?_symbol clause.op hleft hright
    rw [hsearch, List.append_assoc, List.cons_append, search_append [c] hpass, search_cons]
    rw [List.cons_append, hcr] at hhere
    rw [List.reverse_append, List.reverse_reverse, List.reverse_singleton, List.singleton_append, hhere, Option.some_or,
      ← hcr, String.ofList_toList, String.ofList_toList]

end Clause

end PathLedger.Selector
