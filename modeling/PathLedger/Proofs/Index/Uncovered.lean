import PathLedger.Proofs.Index.Fold

/-!
# What declarations hide of an index

Declarations take part in the fold in one way only: they keep some keys out. What is behind them is the
index of the same records without any declaration.

* `Index.uncovered` — that index.
* `Index.get?_materialize` — **a key that is hidden has no entry, and any other the one behind the
  declarations**.
* `Index.filter_mergeSort` — a stable sort commutes with leaving elements out.
* `Index.materialize_append_declaration` — the record of a declaration adds nothing, whenever it was made.
-/

namespace PathLedger

namespace Scopes

theorem hidingScope?_empty (p : Path) : empty.hidingScope? p = none :=
  hidingScope?_eq_none_iff.mpr fun _ _ _ => rfl

end Scopes

namespace Index

/-- The index that records give where nothing is declared. -/
def uncovered (records : List Record) : Index := materialize records .empty

/-! ## Hidden keys -/

/-- One record, with and without declarations. -/
theorem get?_absorb_of_hidden {scopes : Scopes} {covered bare : Index}
    (h : ∀ key, covered.get? key =
      if (scopes.hidingScope? (Path.ofKey key)).isSome then none else bare.get? key) (r : Record)
    (key : String) : (absorb scopes covered r).get? key =
      if (scopes.hidingScope? (Path.ofKey key)).isSome then none else (absorb .empty bare r).get? key := by
  by_cases hsets : setsKey r
  · rw [absorb_setsKey hsets (Scopes.hidingScope?_empty _)]
    cases hclear : scopes.hidingScope? (Path.ofKey r.path) with
    | none =>
      rw [absorb_setsKey hsets hclear, get?_insert_eq, get?_insert_eq, h]
      split
      · rename_i heq
        rw [heq, hclear]
        rfl
      · rfl
    | some scope =>
      rw [absorb_hidden hsets (by rw [hclear]; rfl), get?_insert_eq, h]
      split
      · rfl
      · rename_i hshown
        rw [if_neg]
        rintro rfl
        rw [hclear] at hshown
        exact hshown rfl
  · rw [absorb_of_not_setsKey hsets, absorb_of_not_setsKey hsets]
    split
    · rw [get?_removeUnder, get?_removeUnder, h]
      split <;> simp
    · exact h key

/-- **Declarations only keep keys out.** -/
theorem get?_materialize (records : List Record) (scopes : Scopes) (key : String) :
    (materialize records scopes).get? key =
      if (scopes.hidingScope? (Path.ofKey key)).isSome then none else (uncovered records).get? key := by
  have hfold (rows : List Record) (covered bare : Index)
      (h : ∀ key, covered.get? key =
        if (scopes.hidingScope? (Path.ofKey key)).isSome then none else bare.get? key) :
      (rows.foldl (absorb scopes) covered).get? key =
        if (scopes.hidingScope? (Path.ofKey key)).isSome then none
        else (rows.foldl (absorb .empty) bare).get? key := by
    induction rows generalizing covered bare with
    | nil => exact h key
    | cons r rest ih => exact ih _ _ (get?_absorb_of_hidden h r)
  refine hfold (inOrder records) .empty .empty fun key => ?_
  split <;> rfl

/-! ## Records of declarations -/

/-- A stable sort commutes with leaving elements out. -/
theorem filter_mergeSort {α : Type} {le : α → α → Bool} (trans : ∀ a b c, le a b → le b c → le a c)
    (total : ∀ a b, le a b || le b a) (p : α → Bool) (l : List α) :
    (l.mergeSort le).filter p = (l.filter p).mergeSort le := by
  induction l with
  | nil => simp
  | cons a l ih =>
    obtain ⟨before, behind, hcons, hsplit, hbefore⟩ := List.mergeSort_cons trans total a l
    rw [hsplit, List.filter_append] at ih
    by_cases hp : p a
    · obtain ⟨before', behind', hcons', hsplit', hbefore'⟩ := List.mergeSort_cons trans total a (l.filter p)
      have hsorted := List.pairwise_mergeSort trans total (a :: l)
      have hsorted' := List.pairwise_mergeSort trans total (a :: l.filter p)
      rw [hcons] at hsorted
      rw [hcons'] at hsorted'
      have hbehind : ∀ b ∈ behind, le a b :=
        (List.pairwise_cons.mp (List.pairwise_append.mp hsorted).2.1).1
      have hbehind' : ∀ b ∈ behind', le a b :=
        (List.pairwise_cons.mp (List.pairwise_append.mp hsorted').2.1).1
      -- What stands before `a` is what does not come behind it, in either list.
      have hfront : ∀ front back : List α, (∀ b ∈ front, (!le a b) = true) → (∀ b ∈ back, le a b) →
          (front ++ back).filter (fun b => !le a b) = front := by
        intro front back hfront hback
        rw [List.filter_append, List.filter_eq_self.mpr hfront,
          List.filter_eq_nil_iff.mpr fun b hb => by simp [hback b hb], List.append_nil]
      have hkept (b : α) (rows : List α) (hb : b ∈ rows.filter p) : b ∈ rows := (List.mem_filter.mp hb).1
      have heq : before.filter p = before' := by
        rw [← hfront (before.filter p) (behind.filter p) (fun b hb => hbefore b (hkept b _ hb))
          (fun b hb => hbehind b (hkept b _ hb)), ih, hsplit', hfront before' behind' hbefore' hbehind']
      rw [hsplit', heq] at ih
      rw [hcons, List.filter_append, List.filter_cons_of_pos hp, List.filter_cons_of_pos hp, hcons', heq,
        List.append_cancel_left ih]
    · rw [hcons, List.filter_append, List.filter_cons_of_neg hp, List.filter_cons_of_neg hp, ih]

/-- Whether a record tells of a declaration. -/
def isDeclaration (r : Record) : Bool := r.operator = some .secret || r.operator = some .noise

theorem absorb_declaration {r : Record} (h : isDeclaration r) (scopes : Scopes) (index : Index) :
    absorb scopes index r = index := by
  have hkind : r.operator = some .secret ∨ r.operator = some .noise := by simpa [isDeclaration] using h
  rcases hkind with hkind | hkind <;> rw [absorb, hkind]

/-- The fold passes over the records of declarations. -/
theorem materialize_filter (records : List Record) (scopes : Scopes) :
    materialize (records.filter fun r => !isDeclaration r) scopes = materialize records scopes := by
  have hfold (rows : List Record) (index : Index) :
      (rows.filter fun r => !isDeclaration r).foldl (absorb scopes) index =
        rows.foldl (absorb scopes) index := by
    induction rows generalizing index with
    | nil => rfl
    | cons r rest ih =>
      by_cases hr : isDeclaration r
      · rw [List.filter_cons_of_neg (by simp [hr]), List.foldl_cons, absorb_declaration hr, ih]
      · rw [List.filter_cons_of_pos (by simp [hr]), List.foldl_cons, List.foldl_cons, ih]
  rw [materialize, inOrder, ← filter_mergeSort comesBefore_trans comesBefore_total, hfold]
  rfl

/-- **The record of a declaration adds nothing**, at whatever time it was made. -/
theorem materialize_append_declaration {r : Record} (h : isDeclaration r) (records : List Record)
    (scopes : Scopes) : materialize (records ++ [r]) scopes = materialize records scopes := by
  rw [← materialize_filter, List.filter_append, List.filter_cons_of_neg (by simp [h]), List.filter_nil,
    List.append_nil, materialize_filter]

end Index

end PathLedger
