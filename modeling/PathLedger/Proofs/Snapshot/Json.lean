import Mathlib.Data.List.Basic
import PathLedger.Proofs.Entries
import PathLedger.Proofs.Value.Tagged
import PathLedger.Snapshot.Json

/-!
# Snapshots are read back from their documents

Reading a document leaves out what it cannot read, one entry at a time, and says nothing. Of the document of a snapshot
nothing is left out; and since all that is read can be written again, reading and writing a document once more changes
nothing.

* `Snapshot.Finite` — all numbers of a snapshot are finite.
* `Record.ofTagged?_tagged`, `Snapshot.tableOf_tableJson` — **records and tables are read back**, entry by entry.
* `Snapshot.ofJson_toJson` — **a snapshot is read back** from its document.
* `Snapshot.ofJson_sound` — what is read has its fields in order and its numbers finite, whatever the document.
* `Snapshot.json_read_back` — both, and that what is read is read back.
-/

namespace PathLedger

/-- All numbers inside the values are finite. -/
structure Snapshot.Finite (s : Snapshot) : Prop where
  records : ∀ r ∈ s.ledger, r.expression.Finite ∧ r.value.Finite
  branches : ∀ e ∈ s.branches.entries, e.2.Finite

theorem Clock.reading?_toNat (t : UInt64) : Clock.reading? (.int t.toNat) = some t := by
  have hlt := t.toNat_lt
  have hbounds : (0 ≤ (t.toNat : Int) && decide ((t.toNat : Int) < Int.pow 2 64)) = true := by
    rw [Bool.and_eq_true, decide_eq_true_iff, decide_eq_true_iff]
    exact ⟨Int.natCast_nonneg _, Int.ofNat_lt.mpr hlt⟩
  rw [Clock.reading?, if_pos hbounds, Int.toNat_natCast, UInt64.ofNat_toNat]

theorem Operator.Kind.ofOptionalJson?_ofOption (k : Option Operator.Kind) :
    ofOptionalJson? (Json.ofOption (fun k => .str k.name) k) = some k := by
  cases k with
  | none => rfl
  | some k => exact congrArg (Option.map some) (named?_name k)

/-- **A record is read back** from its document. -/
theorem Record.ofTagged?_tagged {r : Record} (hordered : r.expression.Ordered ∧ r.value.Ordered)
    (hfinite : r.expression.Finite ∧ r.value.Finite) : ofTagged? r.tagged = some r := by
  have hparts : ofTagged? r.tagged = ofParts? (.str r.path) r.operatorJson r.expression.tagged r.value.tagged
      (.str r.effectiveSecret) (.str r.hash) (.str r.prevHash) (.int r.timestamp.toNat) := rfl
  rw [hparts, ofParts?, operatorJson, Operator.Kind.ofOptionalJson?_ofOption,
    Value.ofTagged?_tagged r.expression hordered.1 hfinite.1, Value.ofTagged?_tagged r.value hordered.2 hfinite.2,
    Clock.reading?_toNat]
  rfl

namespace Snapshot

/-- **A table is read back** when its contents are. -/
theorem tableOf_tableJson {α : Type} {f : α → Json} {read : Json → Option α} {d : Dict String α}
    (h : ∀ e ∈ d.entries, read (f e.2) = some e.2) : tableOf read (some (tableJson f d)) = d := by
  have hentries : (d.entries.map fun e => (e.1, f e.2)).filterMap (fun e => (read e.2).map fun a => (e.1, a)) =
      d.entries := by
    rw [List.filterMap_map]
    refine (List.filterMap_congr fun e he => ?_).trans List.filterMap_some
    rw [Function.comp_apply, h e he]
    rfl
  rw [tableJson, tableOf, hentries, Dict.ofList_entries]

theorem operatorOf?_name (k : Operator.Kind) : operatorOf? (.str k.name) = some k := by
  cases k <;> rfl

/-- **A snapshot is read back** from its document, with every record and every entry. -/
theorem ofJson_toJson {s : Snapshot} (hordered : s.Ordered) (hfinite : s.Finite) : ofJson s.toJson = s := by
  have hledger : recordsOf (some (.arr (s.ledger.map Record.tagged))) = s.ledger := by
    rw [recordsOf, List.filterMap_map]
    refine (List.filterMap_congr fun r hr => ?_).trans List.filterMap_some
    rw [Function.comp_apply, Record.ofTagged?_tagged (hordered.records r hr) (hfinite.records r hr)]
  have hsecrets : tableOf Json.asString? (some (tableJson .str s.secrets)) = s.secrets :=
    tableOf_tableJson fun _ _ => rfl
  have hnoises : tableOf Json.asString? (some (tableJson .str s.noises)) = s.noises :=
    tableOf_tableJson fun _ _ => rfl
  have hbranches : tableOf Value.ofTagged? (some (tableJson Value.tagged s.branches)) = s.branches :=
    tableOf_tableJson fun e he => Value.ofTagged?_tagged e.2 (hordered.branches e he) (hfinite.branches e he)
  have hoperators : tableOf operatorOf? (some (tableJson (fun k => .str k.name) s.operators)) = s.operators :=
    tableOf_tableJson fun e _ => operatorOf?_name e.2
  simp only [ofJson, toJson, Json.field?, List.lookup_cons, String.reduceBEq, hledger, hsecrets, hnoises, hbranches,
    hoperators]

end Snapshot

/-! ## What is read -/

theorem Json.Sized.field? {j content : Json} (hj : j.Sized) {name : String} (h : j.field? name = some content) :
    content.Sized := by
  cases j with
  | obj fields =>
    rw [Sized, fieldsSized_iff] at hj
    obtain ⟨front, back, rfl, -⟩ := List.lookup_eq_some_iff.mp h
    exact hj (name, content) (List.mem_append_right _ List.mem_cons_self)
  | _ => cases h

namespace Record

theorem ofParts?_values {path operator expression value effectiveSecret hash prevHash timestamp : Json} {r : Record}
    (h : ofParts? path operator expression value effectiveSecret hash prevHash timestamp = some r) :
    Value.ofTagged? expression = some r.expression ∧ Value.ofTagged? value = some r.value := by
  simp only [ofParts?, bind, Option.bind_eq_some_iff, pure, Option.some.injEq] at h
  obtain ⟨_, -, _, -, _, hexpression, _, hvalue, _, -, _, -, _, -, _, -, rfl⟩ := h
  exact ⟨hexpression, hvalue⟩

/-- The values of a record come from parts of its document. -/
theorem ofTagged?_values {j : Json} {r : Record} (hj : j.Sized) (h : ofTagged? j = some r) :
    ∃ expression value : Json, expression.Sized ∧ value.Sized ∧ Value.ofTagged? expression = some r.expression ∧
      Value.ofTagged? value = some r.value := by
  unfold ofTagged? at h
  split at h
  · -- A row of the eight parts.
    rw [Json.Sized, Json.itemsSized_iff] at hj
    exact ⟨_, _, hj _ (by simp), hj _ (by simp), ofParts?_values h⟩
  · simp only [bind, Option.bind_eq_some_iff] at h
    obtain ⟨_, -, expression, hexpression, value, hvalue, _, -, _, -, _, -, _, -, hparts⟩ := h
    exact ⟨expression, value, hj.field? hexpression, hj.field? hvalue, ofParts?_values hparts⟩
  · cases h

end Record

namespace Snapshot

theorem mem_tableOf {α : Type} {read : Json → Option α} {j : Json} (hj : j.Sized) {name : String} {e : String × α}
    (he : e ∈ (tableOf read (j.field? name)).entries) : ∃ content : Json, content.Sized ∧ read content = some e.2 := by
  unfold tableOf at he
  split at he
  · rename_i fields hfields
    have hsized := hj.field? hfields
    rw [Json.Sized, Json.fieldsSized_iff] at hsized
    rw [Dict.ofList, Dict.entries_foldl_insert] at he
    obtain ⟨field, hfield, hread⟩ := List.mem_filterMap.mp (Entries.mem_ofList he)
    obtain ⟨a, ha, rfl⟩ := Option.map_eq_some_iff.mp hread
    exact ⟨field.2, hsized field hfield, ha⟩
  · cases he

/-- **What is read can be written again**, whatever the document. -/
theorem ofJson_sound {j : Json} (hj : j.Sized) : (ofJson j).Ordered ∧ (ofJson j).Finite := by
  have hrecord (r : Record) (hr : r ∈ (ofJson j).ledger) :
      (r.expression.Ordered ∧ r.expression.Finite) ∧ r.value.Ordered ∧ r.value.Finite := by
    simp only [ofJson, recordsOf] at hr
    split at hr
    · rename_i items hitems
      have hsized := hj.field? hitems
      rw [Json.Sized, Json.itemsSized_iff] at hsized
      obtain ⟨item, hitem, hread⟩ := List.mem_filterMap.mp hr
      obtain ⟨expression, value, hexpression, hvalue, hreadExpression, hreadValue⟩ :=
        Record.ofTagged?_values (hsized item hitem) hread
      exact ⟨Value.ofTagged?_sound _ _ hexpression hreadExpression, Value.ofTagged?_sound _ _ hvalue hreadValue⟩
    · cases hr
  have hbranch (e : String × Value) (he : e ∈ (ofJson j).branches.entries) : e.2.Ordered ∧ e.2.Finite := by
    obtain ⟨content, hcontent, hread⟩ := mem_tableOf hj he
    exact Value.ofTagged?_sound _ _ hcontent hread
  exact ⟨⟨fun r hr => ⟨(hrecord r hr).1.1, (hrecord r hr).2.1⟩, fun e he => (hbranch e he).1⟩,
    ⟨fun r hr => ⟨(hrecord r hr).1.2, (hrecord r hr).2.2⟩, fun e he => (hbranch e he).2⟩⟩

/-- **Snapshots and documents.** A snapshot with finite numbers is read back from its document as it was; and whatever
document is read, the document of what was read is read as the same again. -/
theorem json_read_back :
    (∀ s : Snapshot, s.Ordered → s.Finite → ofJson s.toJson = s) ∧
      ∀ j : Json, j.Sized → ofJson (ofJson j).toJson = ofJson j :=
  ⟨fun _ hordered hfinite => ofJson_toJson hordered hfinite, fun _ hj =>
    ofJson_toJson (ofJson_sound hj).1 (ofJson_sound hj).2⟩

/-- A document with a record as a row of its parts, a row that is none, and an operator under its second name. -/
def imported : Json :=
  .obj [("ledger", .arr [.arr [.str "a", .null, .obj [("number", .int 3)],
      .obj [("object", .obj [("y", .obj [("list", .arr [])]), ("x", .obj [("number", .real ⟨0x8000000000000000⟩)])])],
      .str "", .str "h", .str "", .int 1000], .str "torn"]),
    ("operators", .obj [("%", .str " eval "), ("&", .int 3)])]

/-- What is read of it, with a noise. -/
def importedBelowNoise : Snapshot := { ofJson imported with noises := Dict.empty.insert "a" "" }

/-- One record and one operator are read, and once read they stay. -/
theorem json_read_back_imported :
    imported.Sized ∧ (ofJson imported).ledger.length = 1 ∧ (ofJson imported).operators.get? "%" = some .derive ∧
      (ofJson imported).operators.get? "&" = none ∧ ofJson (ofJson imported).toJson = ofJson imported ∧
      importedBelowNoise.Ordered ∧ importedBelowNoise.Finite ∧
      ofJson importedBelowNoise.toJson = importedBelowNoise := by
  have hsized : imported.Sized := by
    simp only [imported, Json.Sized, Json.FieldsSized, Json.ItemsSized, and_true, true_and]
    decide
  obtain ⟨⟨hrecords, hbranches⟩, ⟨hnumbers, hsealed⟩⟩ := ofJson_sound hsized
  have hordered : importedBelowNoise.Ordered := ⟨hrecords, hbranches⟩
  have hfinite : importedBelowNoise.Finite := ⟨hnumbers, hsealed⟩
  exact ⟨hsized, by decide +kernel, by decide +kernel, by decide +kernel, json_read_back.2 imported hsized, hordered,
    hfinite, json_read_back.1 _ hordered hfinite⟩

end Snapshot

end PathLedger
