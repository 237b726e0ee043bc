import PathLedger.Proofs.Index.Fold
import PathLedger.Proofs.Ledger.Commitment

/-!
# Hashes and times fix the index

The fold of the records looks at their order, and at paths, operators and values. Records of one hash agree on all of
these but the time, and on values as far as numbers are told by their texts. So a ledger with the hashes and the times
of another one reads the same, and a number without a text may stand for another one of that kind.

The time is in no hash: with the times of two writes exchanged a ledger still verifies, and the earlier write is read.

* `Index.materialize_printed` — printing commutes with the fold.
* `Ledger.hashes_fix_index` — **ledgers with the same hashes and times read the same**.
* `Ledger.times_are_not_hashed` — two ledgers with the same hashes that do not.
-/

namespace PathLedger

/-- The record with its values printed. -/
def Record.printed (r : Record) : Record :=
  { r with expression := r.expression.printed, value := r.value.printed }

/-- Records that are alike and of one time are equal once printed. -/
theorem Record.Alike.printed {r r' : Record} (h : r.Alike r') (htime : r.timestamp = r'.timestamp) :
    r.printed = r'.printed := by
  cases r
  cases r'
  obtain ⟨rfl, rfl, hexpression, hvalue, rfl, rfl, rfl⟩ := h
  obtain rfl : _ = _ := htime
  rw [Record.printed, Record.printed]
  simp only [(Value.alike_iff _ _).mp hexpression, (Value.alike_iff _ _).mp hvalue]

theorem Record.map_printed {records records' : List Record} (h : List.Forall₂ Alike records records')
    (htimes : records.map timestamp = records'.map timestamp) : records.map printed = records'.map printed := by
  induction h with
  | nil => rfl
  | cons hr _ ih =>
    simp only [List.map_cons, List.cons.injEq] at htimes ⊢
    exact ⟨hr.printed htimes.1, ih htimes.2⟩

namespace Index

theorem get?_mapValues (index : Index) (f : Value → Value) (key : String) :
    Dict.get? (index.mapValues f) key = (index.get? key).map f := Entries.get?_mapValues f key index.entries

/-- Printing commutes with one step of the fold. -/
theorem absorb_printed (scopes : Scopes) (index : Index) (r : Record) :
    absorb scopes (index.mapValues Value.printed) r.printed = (absorb scopes index r).mapValues Value.printed := by
  refine Dict.ext_of_get? fun key => ?_
  by_cases hsets : setsKey r
  · rw [absorb_of_setsKey hsets, absorb_of_setsKey (show setsKey r.printed from hsets), Record.printed]
    dsimp only
    split
    · rfl
    · rw [get?_insert_eq, get?_mapValues, get?_mapValues, get?_insert_eq]
      split <;> rfl
  · rw [absorb_of_not_setsKey hsets, absorb_of_not_setsKey (show ¬setsKey r.printed from hsets), Record.printed]
    dsimp only
    split
    · rw [get?_removeUnder, get?_mapValues, get?_mapValues, get?_removeUnder]
      split <;> rfl
    · rfl

/-- The order of records looks at none of their values. -/
theorem inOrder_printed (records : List Record) :
    inOrder (records.map Record.printed) = (inOrder records).map Record.printed :=
  (List.map_mergeSort (f := Record.printed) fun _ _ _ _ => rfl).symm

/-- The printed records give the printed index. -/
theorem materialize_printed (records : List Record) (scopes : Scopes) :
    materialize (records.map Record.printed) scopes = (materialize records scopes).mapValues Value.printed := by
  have hfold (l : List Record) (index : Index) :
      (l.map Record.printed).foldl (absorb scopes) (index.mapValues Value.printed) =
        (l.foldl (absorb scopes) index).mapValues Value.printed := by
    induction l generalizing index with
    | nil => rfl
    | cons r rest ih => rw [List.map_cons, List.foldl_cons, List.foldl_cons, absorb_printed, ih]
  rw [materialize, inOrder_printed]
  exact hfold (inOrder records) .empty

/-- Of two records the one of the later time comes last. -/
theorem inOrder_swap {a b : Record} (h : b.timestamp < a.timestamp) : inOrder [a, b] = [b, a] := by
  have hbefore : comesBefore a b = false := by
    have hlt : ¬a.timestamp < b.timestamp := UInt64.lt_asymm h
    have hne : a.timestamp ≠ b.timestamp := (UInt64.ne_of_lt h).symm
    simp [comesBefore, hlt, hne]
  simp [inOrder, List.mergeSort, hbefore]

end Index

namespace Ledger

/-- **Ledgers with the same hashes and times read the same.** Two ledgers that verify and whose records carry the same
hashes and times give the same index once printed, under any declarations: only a number without a text may be another
one of that kind. Or else two different texts among those hashed for them have one digest. -/
theorem hashes_fix_index (l l' : Ledger) (h : l.verify = .ok ()) (h' : l'.verify = .ok ())
    (hhashes : l'.records.map Record.hash = l.records.map Record.hash)
    (htimes : l'.records.map Record.timestamp = l.records.map Record.timestamp) :
    (∀ scopes, (Index.materialize l'.records scopes).mapValues Value.printed =
      (Index.materialize l.records scopes).mapValues Value.printed) ∨ Blake3.Collision (l.hashed ++ l'.hashed) := by
  have hlength : l.records.length = l'.records.length := by simpa using (congrArg List.length hhashes).symm
  have hlast : (l.records.getLast?.map Record.hash).getD "" = (l'.records.getLast?.map Record.hash).getD "" := by
    rw [← List.getLast?_map, ← List.getLast?_map, hhashes]
  refine (alike_of_check hlength h h' hlast).imp (fun hall scopes => ?_) id
  rw [← Index.materialize_printed, ← Index.materialize_printed, Record.map_printed hall.2 htimes.symm]

theorem hashes_fix_index_double :
    (double .nan 7).verify = .ok () ∧ (double .infinity 7).verify = .ok () ∧
      (double .infinity 7).records.map Record.hash = (double .nan 7).records.map Record.hash ∧
      (double .infinity 7).records.map Record.timestamp = (double .nan 7).records.map Record.timestamp ∧
      ((∀ scopes, (Index.materialize (double .infinity 7).records scopes).mapValues Value.printed =
        (Index.materialize (double .nan 7).records scopes).mapValues Value.printed) ∨
        Blake3.Collision ((double .nan 7).hashed ++ (double .infinity 7).hashed)) :=
  ⟨double_verify _ _, double_verify _ _, double_hashes 7 7, rfl,
    hashes_fix_index _ _ (double_verify _ _) (double_verify _ _) (double_hashes 7 7) rfl⟩

/-- Two writes to one path, at given times. -/
def twice (time time' : UInt64) : Ledger :=
  ((empty.append ⟨⟨["a"]⟩, none, .bool false, .bool false⟩ "" time).1.append
    ⟨⟨["a"]⟩, none, .bool true, .bool true⟩ "" time').1

theorem twice_verify (time time' : UInt64) : (twice time time').verify = .ok () :=
  verify_append (verify_append rfl _ _ _) _ _ _

theorem twice_hashes : (twice 2 1).records.map Record.hash = (twice 1 2).records.map Record.hash := rfl

theorem twice_no_collision : ¬Blake3.Collision ((twice 1 2).hashed ++ (twice 2 1).hashed) := by
  have hdigests : ((twice 1 2).hashed.map fun text => Blake3.hash (Bytes.ofText text)).Nodup := by decide +kernel
  exact not_collision hdigests rfl

/-- With the times in the order of the writes the second one counts. -/
theorem twice_read : (Index.materialize (twice 1 2).records .empty).get? "a" = some (.bool true) := by
  rw [Index.materialize_of_increasing (by decide)]
  rfl

/-- With the times exchanged the first one counts. -/
theorem twice_exchanged_read : (Index.materialize (twice 2 1).records .empty).get? "a" = some (.bool false) := by
  obtain ⟨a, b, hrecords, hlt, hfold⟩ : ∃ a b, (twice 2 1).records = [a, b] ∧ b.timestamp < a.timestamp ∧
      ([b, a].foldl (Index.absorb .empty) .empty).get? "a" = some (.bool false) := ⟨_, _, rfl, by decide, rfl⟩
  rw [Index.materialize, hrecords, Index.inOrder_swap hlt, hfold]

theorem single_hashes : (single .infinity 7).records.map Record.hash = (single .nan 7).records.map Record.hash :=
  congrArg (fun text => [digestText text]) (by decide +kernel)

theorem single_no_collision : ¬Blake3.Collision ((single .nan 7).hashed ++ (single .infinity 7).hashed) :=
  not_collision (List.nodup_singleton _) (by decide +kernel)

theorem single_read (x : Binary64) : (Index.materialize (single x 7).records .empty).get? "a" = some (.number x) := by
  obtain ⟨r, hrecords, hpath, hvalue, hoperator⟩ : ∃ r, (single x 7).records = [r] ∧ r.path = "a" ∧
      r.value = .number x ∧ r.operator = none := ⟨_, rfl, rfl, rfl, rfl⟩
  have hsets : Index.setsKey r := by rw [Index.setsKey, hoperator]
  have hclear : Scopes.empty.hidingScope? (Path.ofKey "a") = none := by decide
  rw [hrecords, Index.materialize_of_increasing (List.pairwise_singleton _ _), List.foldl_cons, List.foldl_nil,
    Index.absorb_of_setsKey hsets, hpath, hclear, hvalue, Option.isSome_none, if_neg Bool.false_ne_true,
    Index.get?_insert_eq, if_pos rfl]

/-- **The time is in no hash, and no hash tells numbers without a text apart.** With the times of two writes exchanged a
ledger verifies and its records carry the same hashes, but the write that came first is read. With another number
without a text in it a ledger verifies, with the same hash and time, and that number is read. The texts that are hashed
have different digests. -/
theorem times_are_not_hashed :
    ((twice 1 2).verify = .ok () ∧ (twice 2 1).verify = .ok () ∧ (twice 2 1).length = (twice 1 2).length ∧
      (twice 2 1).records.map Record.hash = (twice 1 2).records.map Record.hash ∧
      Index.materialize (twice 2 1).records .empty ≠ Index.materialize (twice 1 2).records .empty ∧
      ¬Blake3.Collision ((twice 1 2).hashed ++ (twice 2 1).hashed)) ∧
    (single .nan 7).verify = .ok () ∧ (single .infinity 7).verify = .ok () ∧
      (single .infinity 7).length = (single .nan 7).length ∧
      (single .infinity 7).records.map Record.hash = (single .nan 7).records.map Record.hash ∧
      (single .infinity 7).records.map Record.timestamp = (single .nan 7).records.map Record.timestamp ∧
      Index.materialize (single .infinity 7).records .empty ≠ Index.materialize (single .nan 7).records .empty ∧
      ¬Blake3.Collision ((single .nan 7).hashed ++ (single .infinity 7).hashed) := by
  refine ⟨⟨twice_verify _ _, twice_verify _ _, rfl, twice_hashes, fun h => ?_, twice_no_collision⟩,
    single_verify _ _, single_verify _ _, rfl, single_hashes, rfl, fun h => ?_, single_no_collision⟩
  · have hread := twice_exchanged_read
    rw [h, twice_read] at hread
    cases hread
  · have hread := single_read .infinity
    rw [h, single_read] at hread
    exact absurd hread (by decide)

end Ledger

end PathLedger
