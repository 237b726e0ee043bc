import PathLedger.Index.Fold
import PathLedger.Proofs.Scope.Hiding

/-!
# The fold of the records

* `Index.inOrder_append` — a record later than all others comes last.
* `Index.materialize_append` — **taking in a latest record is one more step of the fold**.
* `Index.materialize_not_hidden` — **no key of the index spells a hidden path**.
* `Index.materialize_get?_of_mem` — without removals, the key of every record with data that is not hidden
  is there.
-/

namespace PathLedger.Index

/-- In a stable sort an element behind all others stays behind them. -/
theorem mergeSort_append_last {α : Type} {le : α → α → Bool}
    (trans : ∀ a b c, le a b → le b c → le a c) (total : ∀ a b, le a b || le b a) {l : List α} {last : α}
    (h : ∀ a ∈ l, le a last = true ∧ le last a = false) :
    (l ++ [last]).mergeSort le = l.mergeSort le ++ [last] := by
  have hindexed : ((l ++ [last]).zipIdx).mergeSort (List.zipIdxLE le) =
      (l.zipIdx).mergeSort (List.zipIdxLE le) ++ [(last, l.length)] := by
    refine @List.Perm.eq_of_pairwise _ (fun a b => List.zipIdxLE le a b = true) _ _ ?_ ?_ ?_ ?_
    · -- Two places that come before each other are the same place.
      intro a b ha hb hab hba
      have hplace : a.2 = b.2 := by
        simp only [List.zipIdxLE] at hab hba
        grind
      rw [List.mem_mergeSort] at ha
      have hb : b ∈ (l ++ [last]).zipIdx := by
        rw [List.zipIdx_append, List.mem_append]
        rw [List.mem_append, List.mem_mergeSort] at hb
        simpa using hb
      rw [List.mem_zipIdx_iff_getElem?] at ha hb
      rw [hplace, hb] at ha
      exact Prod.ext (Option.some.inj ha).symm hplace
    · exact List.pairwise_mergeSort (List.zipIdxLE_trans trans) (List.zipIdxLE_total total) _
    · refine List.pairwise_append.mpr ⟨?_, List.pairwise_singleton _ _, ?_⟩
      · exact List.pairwise_mergeSort (List.zipIdxLE_trans trans) (List.zipIdxLE_total total) _
      · intro a ha b hb
        obtain rfl := List.mem_singleton.mp hb
        have hmem : a.1 ∈ l := List.fst_mem_of_mem_zipIdx (List.mem_mergeSort.mp ha)
        obtain ⟨hbefore, hafter⟩ := h a.1 hmem
        simp [List.zipIdxLE, hbefore, hafter]
    · refine (List.mergeSort_perm _ _).trans ?_
      rw [List.zipIdx_append, Nat.zero_add]
      exact (List.mergeSort_perm l.zipIdx (List.zipIdxLE le)).symm.append_right [(last, l.length)]
  rw [← List.mergeSort_zipIdx, hindexed, List.map_append, List.mergeSort_zipIdx]
  rfl

theorem comesBefore_iff (a b : Record) : comesBefore a b = true ↔
    a.timestamp < b.timestamp ∨ a.timestamp = b.timestamp ∧ (compare a.hash b.hash).isLE := by
  simp [comesBefore, Ordering.ne_gt_iff_isLE]

theorem comesBefore_trans (a b c : Record) (hab : comesBefore a b) (hbc : comesBefore b c) :
    comesBefore a c := by
  rw [comesBefore_iff] at hab hbc ⊢
  rcases hab with hab | ⟨hab, hhash⟩ <;> rcases hbc with hbc | ⟨hbc, hhash'⟩
  · exact .inl (UInt64.lt_trans hab hbc)
  · exact .inl (hbc ▸ hab)
  · exact .inl (hab ▸ hbc)
  · exact .inr ⟨hab.trans hbc, Std.TransCmp.isLE_trans hhash hhash'⟩

theorem comesBefore_total (a b : Record) : comesBefore a b || comesBefore b a := by
  rw [Bool.or_eq_true, comesBefore_iff, comesBefore_iff]
  rcases Nat.lt_trichotomy a.timestamp.toNat b.timestamp.toNat with h | h | h
  · exact .inl (.inl (UInt64.lt_iff_toNat_lt.mpr h))
  · have h := UInt64.toNat_inj.mp h
    cases hhash : compare a.hash b.hash with
    | lt => exact .inl (.inr ⟨h, rfl⟩)
    | eq => exact .inl (.inr ⟨h, rfl⟩)
    | gt =>
      have := Std.OrientedCmp.lt_of_gt hhash
      exact .inr (.inr ⟨h.symm, by rw [this]; rfl⟩)
  · exact .inr (.inl (UInt64.lt_iff_toNat_lt.mpr h))

/-- A record later than all others comes last. -/
theorem inOrder_append {records : List Record} {r : Record} (h : ∀ a ∈ records, a.timestamp < r.timestamp) :
    inOrder (records ++ [r]) = inOrder records ++ [r] := by
  refine mergeSort_append_last comesBefore_trans comesBefore_total fun a ha => ?_
  have hlt := h a ha
  have hle : ¬r.timestamp < a.timestamp := UInt64.lt_asymm hlt
  have hne : r.timestamp ≠ a.timestamp := (UInt64.ne_of_lt hlt).symm
  simp [comesBefore, hlt, hle, hne]

/-- **Taking in a latest record is one more step of the fold.** -/
theorem materialize_append {records : List Record} {r : Record}
    (h : ∀ a ∈ records, a.timestamp < r.timestamp) (scopes : Scopes) :
    materialize (records ++ [r]) scopes = absorb scopes (materialize records scopes) r := by
  rw [materialize, inOrder_append h, List.foldl_append]
  rfl

/-- Records that lie in the order of time are folded as they lie. -/
theorem inOrder_of_increasing {records : List Record}
    (h : records.Pairwise fun a b => a.timestamp < b.timestamp) : inOrder records = records := by
  refine List.mergeSort_of_pairwise (h.imp fun hlt => ?_)
  exact (comesBefore_iff _ _).mpr (.inl hlt)

theorem materialize_of_increasing {records : List Record}
    (h : records.Pairwise fun a b => a.timestamp < b.timestamp) (scopes : Scopes) :
    materialize records scopes = records.foldl (absorb scopes) .empty := by
  rw [materialize, inOrder_of_increasing h]

theorem materialize_nil (scopes : Scopes) : materialize [] scopes = .empty := by
  rw [materialize, inOrder, List.mergeSort_nil]
  rfl

/-! ## What the fold keeps -/

theorem get?_insert_eq (index : Index) (key other : String) (v : Value) :
    (index.insert key v).get? other = if other = key then some v else index.get? other := by
  by_cases h : other = key
  · rw [h, Dict.get?_insert_self, if_pos rfl]
  · rw [Dict.get?_insert_of_ne index h, if_neg h]

theorem get?_removeUnder (index : Index) (key other : String) :
    (index.removeUnder key).get? other = if Path.atOrUnder other key then none else index.get? other := by
  rw [removeUnder]
  split
  · rename_i h
    rw [Path.atOrUnder, h, Bool.true_or, Bool.true_or, if_pos rfl]
    rfl
  · rw [Dict.get?_filter _ fun k => !Path.atOrUnder k key]
    cases Path.atOrUnder other key <;> rfl

/-- Whether a record sets its key, when that is not hidden. -/
def setsKey (r : Record) : Bool :=
  match r.operator with
  | some .remove => false
  | some .secret => false
  | some .noise => false
  | _ => true

/-- What taking in a record does: a removal, nothing, or its key set. -/
theorem absorb_of_not_setsKey {r : Record} (hsets : ¬setsKey r) (scopes : Scopes) (index : Index) :
    absorb scopes index r = if r.operator = some .remove then index.removeUnder r.path else index := by
  unfold absorb
  unfold setsKey at hsets
  split at hsets <;> rename_i h
  · rw [h]
    rfl
  · rw [h]
    rfl
  · rw [h]
    rfl
  · exact absurd rfl hsets

theorem absorb_of_setsKey {r : Record} (hsets : setsKey r) (scopes : Scopes) (index : Index) :
    absorb scopes index r =
      if (scopes.hidingScope? (Path.ofKey r.path)).isSome then index else index.insert r.path r.value := by
  unfold absorb
  split <;> rename_i h
  · simp [setsKey, h] at hsets
  · simp [setsKey, h] at hsets
  · simp [setsKey, h] at hsets
  · rfl

theorem absorb_setsKey {scopes : Scopes} {r : Record} (hsets : setsKey r)
    (hclear : scopes.hidingScope? (Path.ofKey r.path) = none) (index : Index) :
    absorb scopes index r = index.insert r.path r.value := by
  rw [absorb_of_setsKey hsets, hclear]
  rfl

theorem absorb_hidden {scopes : Scopes} {r : Record} (hsets : setsKey r)
    (hhidden : (scopes.hidingScope? (Path.ofKey r.path)).isSome) (index : Index) :
    absorb scopes index r = index := by
  rw [absorb_of_setsKey hsets, if_pos hhidden]

/-- Which declarations are in force counts only for records that set their key. -/
theorem absorb_congr {scopes scopes' : Scopes} {r : Record}
    (h : setsKey r → scopes'.hidingScope? (Path.ofKey r.path) = scopes.hidingScope? (Path.ofKey r.path))
    (index : Index) : absorb scopes' index r = absorb scopes index r := by
  by_cases hsets : setsKey r
  · rw [absorb_of_setsKey hsets, absorb_of_setsKey hsets, h hsets]
  · rw [absorb_of_not_setsKey hsets, absorb_of_not_setsKey hsets]

/-- **Declarations that hide the same recorded paths** give the same index. -/
theorem materialize_congr {records : List Record} {scopes scopes' : Scopes}
    (h : ∀ r ∈ records, setsKey r →
      scopes'.hidingScope? (Path.ofKey r.path) = scopes.hidingScope? (Path.ofKey r.path)) :
    materialize records scopes' = materialize records scopes := by
  refine List.foldl_ext _ _ _ fun index r hr => ?_
  exact absorb_congr (h r (List.mem_mergeSort.mp hr)) index

/-- What an entry after one more record comes from. -/
theorem get?_absorb {scopes : Scopes} {index : Index} {r : Record} {key : String} {v : Value}
    (h : (absorb scopes index r).get? key = some v) :
    index.get? key = some v ∨
      setsKey r ∧ scopes.hidingScope? (Path.ofKey r.path) = none ∧ r.path = key ∧ r.value = v := by
  by_cases hsets : setsKey r
  · cases hclear : scopes.hidingScope? (Path.ofKey r.path) with
    | none =>
      rw [absorb_setsKey hsets hclear, get?_insert_eq] at h
      split at h
      · rename_i heq
        exact .inr ⟨hsets, rfl, heq.symm, Option.some.inj h⟩
      · exact .inl h
    | some scope =>
      rw [absorb_hidden hsets (by rw [hclear]; rfl)] at h
      exact .inl h
  · rw [absorb_of_not_setsKey hsets] at h
    split at h
    · rw [get?_removeUnder] at h
      split at h
      · cases h
      · exact .inl h
    · exact .inl h

/-- **Every entry was set by a record** whose path is not hidden. -/
theorem exists_of_materialize_get? {records : List Record} {scopes : Scopes} {key : String} {v : Value}
    (h : (materialize records scopes).get? key = some v) :
    ∃ r ∈ records, setsKey r ∧ scopes.hidingScope? (Path.ofKey r.path) = none ∧ r.path = key ∧
      r.value = v := by
  have hfold (rows : List Record) (index : Index)
      (h : (rows.foldl (absorb scopes) index).get? key = some v) :
      index.get? key = some v ∨ ∃ r ∈ rows, setsKey r ∧ scopes.hidingScope? (Path.ofKey r.path) = none ∧
        r.path = key ∧ r.value = v := by
    induction rows generalizing index with
    | nil => exact .inl h
    | cons r rest ih =>
      rcases ih _ h with h | ⟨a, ha, hset⟩
      · rcases get?_absorb h with h | hset
        · exact .inl h
        · exact .inr ⟨r, List.mem_cons_self, hset⟩
      · exact .inr ⟨a, List.mem_cons_of_mem _ ha, hset⟩
  rcases hfold _ _ h with h | ⟨r, hr, hset⟩
  · cases h
  · exact ⟨r, List.mem_mergeSort.mp hr, hset⟩

/-- **No key of the index spells a hidden path.** -/
theorem materialize_not_hidden {records : List Record} {scopes : Scopes} {key : String} {v : Value}
    (h : (materialize records scopes).get? key = some v) : scopes.hidingScope? (Path.ofKey key) = none := by
  obtain ⟨r, -, -, hclear, rfl, -⟩ := exists_of_materialize_get? h
  exact hclear

theorem absorb_get?_isSome {scopes : Scopes} {index : Index} {key : String} {r : Record}
    (hkept : r.operator ≠ some .remove) (h : (index.get? key).isSome) :
    ((absorb scopes index r).get? key).isSome := by
  unfold absorb
  split
  · rename_i hremove
    exact absurd hremove hkept
  · exact h
  · exact h
  · split
    · exact h
    · rw [get?_insert_eq]
      split
      · rfl
      · exact h

/-- Without removals, a key that was set stays. -/
theorem materialize_get?_of_mem {records : List Record} {scopes : Scopes} {r : Record} (hr : r ∈ records)
    (hkept : ∀ a ∈ records, a.operator ≠ some .remove) (hsets : setsKey r)
    (hclear : scopes.hidingScope? (Path.ofKey r.path) = none) :
    ((materialize records scopes).get? r.path).isSome := by
  have hfold (rows : List Record) (index : Index) (hrows : ∀ a ∈ rows, a.operator ≠ some .remove)
      (h : r ∈ rows ∨ (index.get? r.path).isSome) :
      ((rows.foldl (absorb scopes) index).get? r.path).isSome := by
    induction rows generalizing index with
    | nil => simpa using h
    | cons a rest ih =>
      refine ih _ (fun b hb => hrows b (List.mem_cons_of_mem _ hb)) ?_
      rcases h with h | h
      · rcases List.mem_cons.mp h with rfl | h
        · refine .inr ?_
          rw [absorb_setsKey hsets hclear, get?_insert_eq, if_pos rfl]
          rfl
        · exact .inl h
      · exact .inr (absorb_get?_isSome (hrows a List.mem_cons_self) h)
  refine hfold _ _ (fun a ha => hkept a ?_) (.inl ?_)
  · exact List.mem_mergeSort.mp ha
  · exact List.mem_mergeSort.mpr hr

end PathLedger.Index
