import PathLedger.Proofs.Expr.Scanned
import PathLedger.Proofs.Number.Written
import PathLedger.Selector.Read

/-!
# The characters of selectors

Every selector has a bracket, or a comparison, of its own, which none of the paths has that are read on its behalf. So
these paths have fewer of the characters that make selectors than the path that carries the selector.

* `View.isSelectorChar`, `marks`, `View.selectorChars` — these characters, and how many of them a text or a path has.
* `Selector.split?_sublist`, `Selector.keys?_marks`, `Selector.Transform.relativeExpression_sublist` — selectors in
  brackets.
* `Selector.Clause.parse?_marks`, `Selector.Filter.parse?_marks` — the sides of a comparison.
* `Selector.selection_marks`, `Selector.transform_marks`, `Selector.filter_marks` — **what is read for a selector has
  fewer marks than the path**.
-/

namespace PathLedger

open Text
open scoped List

/-- The characters without which no segment is a selector. -/
def View.isSelectorChar (c : Char) : Bool := c == '[' || c == '<' || c == '>' || c == '='

/-- The number of these characters in a path. -/
def View.selectorChars (p : Path) : Nat :=
  ((p.segments.map String.toList).flatten).countP isSelectorChar

/-- How many of the characters that make selectors a text has. -/
def marks (s : List Char) : Nat := s.countP View.isSelectorChar

theorem marks_append (s t : List Char) : marks (s ++ t) = marks s + marks t := List.countP_append

theorem marks_le {s t : List Char} (h : s <+ t) : marks s ≤ marks t := h.countP_le

theorem marks_eq_zero {s : List Char} (h : ∀ c ∈ s, View.isSelectorChar c = false) : marks s = 0 :=
  List.countP_eq_zero.mpr fun c hc => by simp [h c hc]

namespace View

theorem selectorChars_eq (p : Path) : selectorChars p = marks p.chars := rfl

theorem selectorChars_join (p q : Path) : selectorChars (p.join q) = selectorChars p + selectorChars q := by
  rw [selectorChars_eq, Path.chars_join, marks_append]
  rfl

theorem selectorChars_child (p : Path) (segment : String) :
    selectorChars (p.child segment) = selectorChars p + marks segment.toList := by
  rw [selectorChars_eq, Path.chars_child, marks_append]
  rfl

theorem selectorChars_normalize_le (p : Path) : selectorChars p.normalize ≤ selectorChars p :=
  marks_le p.chars_normalize_sublist

theorem selectorChars_drop_le (p : Path) (n : Nat) : selectorChars (p.drop n) ≤ selectorChars p :=
  marks_le (p.chars_drop_sublist n)

theorem selectorChars_parse_le (raw : String) : selectorChars (.parse raw) ≤ marks raw.toList :=
  marks_le (Path.chars_parse_sublist raw)

theorem selectorChars_canonical_le (raw : String) : selectorChars (.canonical raw) ≤ marks raw.toList :=
  marks_le (Path.chars_canonical_sublist raw)

/-- The marks of a path are those before a segment, of the segment and behind it. -/
theorem selectorChars_split {p : Path} {n : Nat} {segment : String} (h : p.segments[n]? = some segment) :
    selectorChars p = selectorChars (p.take n) + marks segment.toList + selectorChars (p.drop (n + 1)) := by
  rw [selectorChars_eq, Path.chars_split h, marks_append, marks_append]
  rfl

end View

namespace Selector

/-! ## Selectors in brackets -/

theorem firstSegment?_eq_some {α : Type} {read : String → Option α} {segments : List String} {n : Nat} {a : α}
    (h : firstSegment? read segments = some (n, a)) : ∃ s, segments[n]? = some s ∧ read s = some a := by
  induction segments generalizing n with
  | nil => cases h
  | cons s rest ih =>
    rw [firstSegment?] at h
    split at h
    · rename_i found hfound
      obtain ⟨rfl, rfl⟩ := Prod.mk.inj (Option.some.inj h)
      exact ⟨s, rfl, hfound⟩
    · obtain ⟨⟨k, b⟩, hk, heq⟩ := Option.map_eq_some_iff.mp h
      obtain ⟨rfl, rfl⟩ := Prod.mk.inj heq
      exact ih hk

theorem split?_sublist {segment base : String} {selector : List Char} (h : split? segment = some (base, selector)) :
    base.toList ++ '[' :: selector <+ segment.toList := by
  unfold split? at h
  dsimp only at h
  split at h
  · rename_i c r hdrop
    split at h
    · obtain ⟨rfl, rfl⟩ := Prod.mk.inj (Option.some.inj h)
      refine List.Sublist.trans ?_ (trim_sublist segment.toList)
      conv_rhs => rw [eq_of_dropWhile hdrop]
      rw [String.toList_ofList]
      exact (trim_sublist _).append (((trim_sublist _).trans (List.dropLast_sublist r)).cons_cons '[')
    · cases h
  · cases h

theorem selectorOf?_eq_some {α : Type} {parse : List Char → Option α} {segment base : String} {a : α}
    (h : selectorOf? parse segment = some (base, a)) :
    ∃ selector, parse selector = some a ∧ marks base.toList + marks selector < marks segment.toList := by
  unfold selectorOf? at h
  split at h
  · cases h
  · rename_i found selector hsplit
    obtain ⟨b, hb, heq⟩ := Option.map_eq_some_iff.mp h
    obtain ⟨rfl, rfl⟩ := Prod.mk.inj heq
    have hmarks := marks_le (split?_sublist hsplit)
    have hopen : marks ('[' :: selector) = 1 + marks selector := marks_append ['['] selector
    rw [marks_append, hopen] at hmarks
    exact ⟨selector, hb, by omega⟩

theorem keyList_sublist {s : List Char} {key : String} (h : key ∈ keyList s) : key.toList <+ s := by
  rw [keyList, List.mem_map] at h
  obtain ⟨piece, hpiece, rfl⟩ := h
  obtain ⟨raw, hraw, rfl⟩ := List.mem_map.mp (List.mem_filter.mp hpiece).1
  rw [String.toList_ofList]
  exact (unquote_sublist _).trans ((trim_sublist raw).trans
    ((List.sublist_flatten_of_mem hraw).trans (flatten_splitAll_sublist ',' s)))

theorem marks_toString_nat (n : Nat) : marks (toString n).toList = 0 := by
  refine marks_eq_zero fun c hc => Bool.eq_false_iff.mpr fun hmark => ?_
  have hdigit := isDigit_of_mem_toString hc
  simp only [View.isSelectorChar, Bool.or_eq_true, beq_iff_eq] at hmark
  rcases hmark with ((rfl | rfl) | rfl) | rfl
  all_goals exact absurd hdigit (by decide)

theorem marks_toString (n : Int) : marks (toString n).toList = 0 := by
  cases n with
  | ofNat n => exact marks_toString_nat n
  | negSucc n =>
    rw [Text.toString_negSucc, ← List.singleton_append, marks_append, marks_toString_nat]
    decide

/-- A key has no more marks than the selector that names it. -/
theorem keys?_marks {selector : List Char} {keys : List String} (h : keys? selector = some keys) {key : String}
    (hkey : key ∈ keys) : marks key.toList ≤ marks selector := by
  unfold keys? at h
  dsimp only at h
  split at h
  · rename_i inner hinner
    obtain rfl := Option.some.inj h
    have hinside : inner <+ trim selector := by
      unfold inBrackets? at hinner
      split at hinner
      · rename_i r hr
        split at hinner
        · obtain rfl := Option.some.inj hinner
          rw [hr]
          exact (List.dropLast_sublist r).cons '['
        · cases hinner
      · cases hinner
    exact marks_le ((keyList_sublist hkey).trans (hinside.trans (trim_sublist selector)))
  · simp only [rangeKeys?, bind, Option.bind_eq_some_iff] at h
    obtain ⟨_, -, a, -, b, -, hspan⟩ := h
    split at hspan
    · obtain rfl := Option.some.inj hspan
      obtain ⟨n, -, rfl⟩ := List.mem_map.mp hkey
      rw [marks_toString]
      exact Nat.zero_le _
    · cases hspan

theorem Transform.parse?_sublist {selector : List Char} {t : Transform} (h : Transform.parse? selector = some t) :
    t.expression.toList <+ selector := by
  unfold Transform.parse? at h
  split at h
  · cases h
  · rename_i left right hsplit
    dsimp only at h
    split at h
    · obtain rfl := Option.some.inj h
      rw [String.toList_ofList]
      refine (trim_sublist right).trans (List.Sublist.trans ?_ (trim_sublist selector))
      rw [splitOnce_eq_some hsplit]
      exact List.sublist_append_right _ _
    · cases h

theorem dropWord_sublist (p : Char) (ps : List Char) (behindWord : Bool) (s : List Char) :
    dropWord p ps behindWord s <+ s := by
  fun_induction dropWord p ps behindWord s with
  | case1 => exact .slnil
  | case2 behindWord c r rest h hlt ih =>
    rw [behind?_eq_some h]
    refine List.Sublist.append ?_ ih
    split
    · exact .refl _
    · exact List.nil_sublist _
  | case3 behindWord c r h ih => exact ih.cons_cons c

theorem Transform.relativeExpression_sublist (t : Transform) : t.relativeExpression.toList <+ t.expression.toList := by
  unfold relativeExpression
  split
  · rw [String.toList_ofList]
    exact dropWord_sublist _ _ _ _
  · exact .refl _

/-! ## Comparisons -/

theorem Clause.at?_marks {left rest : List Char} {clause : Clause} (h : Clause.at? left rest = some clause) :
    marks clause.left.toList + marks clause.right.toList < marks left + marks rest := by
  unfold Clause.at? at h
  obtain ⟨⟨symbol, op⟩, hsymbol, hfound⟩ := List.exists_of_findSome?_eq_some h
  dsimp only at hfound
  split at hfound
  · cases hfound
  · rename_i right hright
    split at hfound
    · cases hfound
    · obtain rfl := Option.some.inj hfound
      -- The comparison itself has a mark.
      have hmark : ∀ e ∈ Comparison.symbols, 1 ≤ marks e.1 := by decide
      have hone : 1 ≤ marks symbol := hmark _ hsymbol
      have hrest : marks (trimStart rest) ≤ marks rest := marks_le (List.dropWhile_sublist _)
      have hleft := marks_le (trim_sublist left)
      have htrim := marks_le (trim_sublist right)
      rw [behind?_eq_some hright, marks_append] at hrest
      simp only [String.toList_ofList]
      omega

/-- One step of the search for the shortest left side. -/
theorem Clause.search_cons (left : List Char) (c : Char) (r : List Char) :
    Clause.search left (c :: r) = (Clause.at? left.reverse (c :: r)).or (Clause.search (c :: left) r) := by
  -- By evaluation: the equations of the search take long to make.
  conv => lhs; whnf
  cases Clause.at? left.reverse (c :: r) <;> rfl

theorem Clause.search_marks {left rest : List Char} {clause : Clause} (h : Clause.search left rest = some clause) :
    marks clause.left.toList + marks clause.right.toList < marks left + marks rest := by
  have hreverse (s : List Char) : marks s.reverse = marks s := List.countP_reverse
  induction rest generalizing left with
  | nil => exact absurd h nofun
  | cons c r ih =>
    rw [search_cons, Option.or_eq_some_iff] at h
    rcases h with hfound | ⟨-, hlater⟩
    · rw [← hreverse left]
      exact Clause.at?_marks hfound
    · have hmoved := ih hlater
      have hleft : marks (c :: left) = marks [c] + marks left := marks_append [c] left
      have hright : marks (c :: r) = marks [c] + marks r := marks_append [c] r
      omega

/-- The sides of a comparison have fewer marks together than its text. -/
theorem Clause.parse?_marks {s : List Char} {clause : Clause} (h : Clause.parse? s = some clause) :
    marks clause.left.toList + marks clause.right.toList < marks s := by
  have htrim := marks_le (trim_sublist s)
  unfold Clause.parse? at h
  split at h
  · cases h
  · rename_i c r hs
    have hsides := Clause.search_marks h
    have hfirst : marks (c :: r) = marks [c] + marks r := marks_append [c] r
    rw [hs] at htrim
    omega

theorem mem_pushText {passed t : List Char} {parts : List Part} (h : .text t ∈ pushText passed parts) :
    t = trim passed.reverse ∨ .text t ∈ parts := by
  unfold pushText at h
  dsimp only at h
  split at h
  · exact .inr h
  · rcases List.mem_cons.mp h with heq | h
    · exact .inl (Part.text.inj heq)
    · exact .inr h

theorem partsFrom_sublist {passed s t : List Char} (h : .text t ∈ partsFrom passed s) : t <+ passed.reverse ++ s := by
  have hpushed {passed rest : List Char} : trim passed.reverse <+ passed.reverse ++ rest :=
    (trim_sublist _).trans (List.sublist_append_left _ _)
  have hskipped {passed rest : List Char} (c d : Char) (ht : t <+ rest) : t <+ passed.reverse ++ c :: d :: rest :=
    ((ht.cons d).cons c).trans (List.sublist_append_right _ _)
  fun_induction partsFrom passed s with
  | case1 passed =>
    rcases mem_pushText h with rfl | h
    · exact hpushed
    · cases h
  | case2 passed r ih =>
    rcases mem_pushText h with rfl | h
    · exact hpushed
    · rcases List.mem_cons.mp h with heq | h
      · cases heq
      · exact hskipped _ _ (ih h)
  | case3 passed r ih =>
    rcases mem_pushText h with rfl | h
    · exact hpushed
    · rcases List.mem_cons.mp h with heq | h
      · cases heq
      · exact hskipped _ _ (ih h)
  | case4 passed c r _ _ ih =>
    have hmoved := ih h
    rwa [List.reverse_cons, List.append_assoc] at hmoved

theorem clausesOf_spec {parts : List Part} {clauses : List (Connective × Clause)} (h : clausesOf parts = some clauses)
    {e : Connective × Clause} (he : e ∈ clauses) : ∃ t, .text t ∈ parts ∧ Clause.parse? t = some e.2 := by
  fun_induction clausesOf parts generalizing clauses with
  | case1 =>
    obtain rfl := Option.some.inj h
    cases he
  | case2 => cases h
  | case3 c t rest clause hclause ih =>
    obtain ⟨others, hothers, rfl⟩ := Option.map_eq_some_iff.mp h
    rcases List.mem_cons.mp he with rfl | he
    · exact ⟨t, by simp, hclause⟩
    · obtain ⟨text, htext, hparse⟩ := ih hothers he
      exact ⟨text, by simp [htext], hparse⟩
  | case4 => cases h

/-- The sides of the comparisons in a filter have fewer marks than its text. -/
theorem Filter.parse?_marks {s : List Char} {f : Filter} (h : Filter.parse? s = some f) {clause : Clause}
    (hclause : clause ∈ f.clauses) : marks clause.left.toList + marks clause.right.toList < marks s := by
  have htext {t : List Char} (ht : .text t ∈ partsFrom [] (trim s)) (hparse : Clause.parse? t = some clause) :
      marks clause.left.toList + marks clause.right.toList < marks s :=
    Nat.lt_of_lt_of_le (Clause.parse?_marks hparse) (marks_le ((partsFrom_sublist ht).trans (trim_sublist s)))
  unfold Filter.parse? at h
  split at h
  · rename_i t rest hparts
    split at h
    · rename_i first others hfirst hothers
      obtain rfl := Option.some.inj h
      rcases List.mem_cons.mp hclause with rfl | hclause
      · exact htext (by rw [hparts]; simp) hfirst
      · obtain ⟨e, he, rfl⟩ := List.mem_map.mp hclause
        obtain ⟨text, hmem, hparse⟩ := clausesOf_spec hothers he
        exact htext (by rw [hparts]; exact List.mem_cons_of_mem _ hmem) hparse
    · cases h
  · cases h

/-! ## What is read for a selector -/

open View

variable {p : Path} {position : Nat}

theorem collectionAt_marks_le (p : Path) (position : Nat) (base : String) :
    selectorChars (collectionAt p position base) ≤ selectorChars (p.take position) + marks base.toList := by
  have := selectorChars_normalize_le (p.take position)
  rw [collectionAt, selectorChars_child]
  omega

/-- **What is read below a chosen key** has fewer marks than the path with the choice. -/
theorem selection_marks {base : String} {keys : List String}
    (h : firstSegment? (selectorOf? keys?) p.segments = some (position, base, keys)) {key : String}
    (hkey : key ∈ keys) :
    selectorChars (((collectionAt p position base).child key).join (p.drop (position + 1))) < selectorChars p := by
  obtain ⟨segment, hsegment, hparsed⟩ := firstSegment?_eq_some h
  obtain ⟨selector, hkeys, hmarks⟩ := selectorOf?_eq_some hparsed
  have hnamed := keys?_marks hkeys hkey
  have hcollection := collectionAt_marks_le p position base
  rw [selectorChars_join, selectorChars_child, selectorChars_split hsegment]
  omega

/-- **What a projection refers to** has fewer marks below a child than the path with the projection. -/
theorem transform_marks {base : String} {t : Transform}
    (h : firstSegment? (selectorOf? Transform.parse?) p.segments = some (position, base, t)) {label : List Char}
    (hlabel : label <+ t.relativeExpression.toList) :
    selectorChars (collectionAt p position base) + marks label < selectorChars p := by
  obtain ⟨segment, hsegment, hparsed⟩ := firstSegment?_eq_some h
  obtain ⟨selector, htransform, hmarks⟩ := selectorOf?_eq_some hparsed
  have hbody := marks_le (hlabel.trans (t.relativeExpression_sublist.trans (Transform.parse?_sublist htransform)))
  have hcollection := collectionAt_marks_le p position base
  rw [selectorChars_split hsegment]
  omega

/-- **What a filter compares, and what is read below a child that passes,** has fewer marks than the path with the
filter. -/
theorem filter_marks {f : Filter}
    (h : firstSegment? (fun s => Filter.parse? s.toList) p.segments = some (position, f)) :
    (∀ clause ∈ f.clauses, selectorChars (p.take position) + marks clause.left.toList < selectorChars p ∧
      selectorChars (p.take position) + marks clause.right.toList < selectorChars p) ∧
      selectorChars (p.take position) + selectorChars (p.drop (position + 1)) < selectorChars p := by
  obtain ⟨segment, hsegment, hparsed⟩ := firstSegment?_eq_some h
  have hsplit := selectorChars_split hsegment
  constructor
  · intro clause hclause
    have := Filter.parse?_marks hparsed hclause
    omega
  · have := Filter.parse?_marks hparsed (List.mem_cons_self : f.first ∈ f.clauses)
    omega

end Selector

end PathLedger
