import PathLedger.Proofs.Entries
import PathLedger.Store.Commit
import PathLedger.Value.Json

/-!
# Values inside nested fields

What putting a value at a row of names and taking it away do to a look-up at the same names and at others.

* `Value.lookupAt_insertAt` — what was put is found.
* `Value.lookupAt_insertAt_of_apart`, `Value.lookupAt_removeAt?_of_apart` — **look-ups at names of which
  neither row starts the other are unchanged**.
* `Value.lookupAt_removeAt?` — what was taken away is not found.
* `Value.Ordered.insertAt`, `Value.Ordered.removeAt?` — both keep the fields in order.
* `Value.ofJson_ordered` — values of documents are plain data with their fields in order.
-/

namespace PathLedger

namespace Value

theorem ordered_object {fields : List (String × Value)} :
    (Value.object fields).Ordered ↔ Entries.Ordered fields ∧ FieldsOrdered fields := by
  rw [Ordered]

theorem ordered_object_nil : (Value.object []).Ordered :=
  ordered_object.mpr ⟨Entries.ordered_nil, by rw [FieldsOrdered]; trivial⟩

theorem ordered_fieldsOf {v : Value} (h : v.Ordered) : (Value.object v.fieldsOf).Ordered := by
  cases v with
  | object fields => exact h
  | _ => exact ordered_object_nil

/-- The fields at a name, as they are laid open to go deeper. -/
def innerFields (name : String) (fields : List (String × Value)) : List (String × Value) :=
  ((Entries.get? name fields).map fieldsOf).getD []

theorem ordered_innerFields {fields : List (String × Value)} (h : (Value.object fields).Ordered)
    (name : String) : (Value.object (innerFields name fields)).Ordered := by
  unfold innerFields
  cases hv : Entries.get? name fields with
  | none => exact ordered_object_nil
  | some v => exact ordered_fieldsOf ((ordered_object.mp h).2.of_get? hv)

theorem Ordered.put {fields : List (String × Value)} (h : (Value.object fields).Ordered) (name : String)
    {v : Value} (hv : v.Ordered) : (Value.object (Entries.put name v fields)).Ordered := by
  obtain ⟨hfields, hcontents⟩ := ordered_object.mp h
  exact ordered_object.mpr ⟨hfields.put name v, hcontents.put hv⟩

theorem Ordered.insertAt {v : Value} (hv : v.Ordered) (names : List String) {fields : List (String × Value)}
    (h : (Value.object fields).Ordered) : (Value.object (insertAt names v fields)).Ordered := by
  induction names generalizing fields with
  | nil => exact h
  | cons name rest ih =>
    cases rest with
    | nil => exact h.put name hv
    | cons next more => exact h.put name (ih (ordered_innerFields h name))

/-! ## What was put -/

theorem insertAt_cons (name next : String) (more : List String) (v : Value)
    (fields : List (String × Value)) :
    insertAt (name :: next :: more) v fields =
      Entries.put name (.object (insertAt (next :: more) v (innerFields name fields))) fields := rfl

theorem lookupAt_cons (name : String) (rest : List String) (fields : List (String × Value)) :
    lookupAt (name :: rest) (.object fields) = (Entries.get? name fields).bind (lookupAt rest) := by
  rw [lookupAt]
  cases Entries.get? name fields <;> rfl

/-- What is found at more names is found below what is found at the first of them. -/
theorem lookupAt_append (names more : List String) (v : Value) :
    lookupAt (names ++ more) v = (lookupAt names v).bind (lookupAt more) := by
  induction names generalizing v with
  | nil => rw [List.nil_append, lookupAt, Option.bind_some]
  | cons name rest ih =>
    cases v with
    | object fields =>
      rw [List.cons_append, lookupAt_cons, lookupAt_cons, Option.bind_assoc]
      exact congrArg _ (funext ih)
    | _ => rfl

/-- Below a value, only its fields count. -/
theorem lookupAt_fieldsOf {names : List String} (hne : names ≠ []) (v : Value) :
    lookupAt names (.object v.fieldsOf) = lookupAt names v := by
  obtain ⟨name, rest, rfl⟩ := List.exists_cons_of_ne_nil hne
  cases v <;> rfl

/-- Where there are no fields, nothing is found below. -/
theorem lookupAt_innerFields (name next : String) (more : List String) (fields : List (String × Value)) :
    lookupAt (next :: more) (.object (innerFields name fields)) =
      (Entries.get? name fields).bind (lookupAt (next :: more)) := by
  unfold innerFields
  cases hv : Entries.get? name fields with
  | none => rfl
  | some v => cases v <;> rfl

theorem lookupAt_insertAt {names : List String} (hne : names ≠ []) (v : Value)
    (fields : List (String × Value)) : lookupAt names (.object (insertAt names v fields)) = some v := by
  induction names generalizing fields with
  | nil => exact absurd rfl hne
  | cons name rest ih =>
    rw [lookupAt_cons]
    cases rest with
    | nil => rw [insertAt, Entries.get?_put_self, Option.bind_some, lookupAt]
    | cons next more =>
      rw [insertAt_cons, Entries.get?_put_self, Option.bind_some]
      exact ih (List.cons_ne_nil next more) _

/-- Neither of two rows of names starts the other. -/
def Apart (names other : List String) : Prop := ¬names <+: other ∧ ¬other <+: names

theorem Apart.cases {name : String} {rest other : List String} (h : Apart (name :: rest) other) :
    ∃ first more, other = first :: more ∧ (first ≠ name ∨ first = name ∧ Apart rest more) := by
  cases other with
  | nil => exact absurd List.nil_prefix h.2
  | cons first more =>
    refine ⟨first, more, rfl, ?_⟩
    by_cases heq : first = name
    · refine .inr ⟨heq, fun hstarts => h.1 ?_, fun hstarts => h.2 ?_⟩
      · rw [heq]
        exact List.prefix_cons_inj name |>.mpr hstarts
      · rw [heq]
        exact List.prefix_cons_inj name |>.mpr hstarts
    · exact .inl heq

theorem Apart.ne_nil {names other : List String} (h : Apart names other) : names ≠ [] ∧ other ≠ [] :=
  ⟨fun hnil => h.1 (hnil ▸ List.nil_prefix), fun hnil => h.2 (hnil ▸ List.nil_prefix)⟩

theorem lookupAt_insertAt_of_apart {names other : List String} (h : Apart names other) (v : Value)
    (fields : List (String × Value)) :
    lookupAt other (.object (insertAt names v fields)) = lookupAt other (.object fields) := by
  induction names generalizing other fields with
  | nil => exact absurd rfl h.ne_nil.1
  | cons name rest ih =>
    obtain ⟨first, more, rfl, hfirst⟩ := h.cases
    rw [lookupAt_cons, lookupAt_cons]
    rcases hfirst with hfirst | ⟨rfl, hrest⟩
    · cases rest with
      | nil => rw [insertAt, Entries.get?_put_of_ne hfirst]
      | cons next more' => rw [insertAt_cons, Entries.get?_put_of_ne hfirst]
    · obtain ⟨next, more', rfl⟩ := List.exists_cons_of_ne_nil hrest.ne_nil.1
      obtain ⟨next', more'', rfl⟩ := List.exists_cons_of_ne_nil hrest.ne_nil.2
      rw [insertAt_cons, Entries.get?_put_self, Option.bind_some, ih hrest, lookupAt_innerFields]

/-! ## What was taken away -/

theorem removeAt?_cons (name next : String) (more : List String) (fields : List (String × Value)) :
    removeAt? (name :: next :: more) fields =
      match Entries.get? name fields with
      | some (.object inner) =>
        (removeAt? (next :: more) inner).map fun inner => Entries.put name (.object inner) fields
      | _ => none := rfl

/-- Taking away at more than one name goes through an object at the first. -/
theorem removeAt?_cons_eq_some {name next : String} {more : List String}
    {fields fields' : List (String × Value)}
    (h : removeAt? (name :: next :: more) fields = some fields') :
    ∃ inner inner', Entries.get? name fields = some (.object inner) ∧
      removeAt? (next :: more) inner = some inner' ∧
      fields' = Entries.put name (.object inner') fields := by
  rw [removeAt?_cons] at h
  split at h
  · rename_i inner hinner
    obtain ⟨inner', hremove, rfl⟩ := Option.map_eq_some_iff.mp h
    exact ⟨inner, inner', hinner, hremove, rfl⟩
  · cases h

theorem removeAt?_single_eq_some {name : String} {fields fields' : List (String × Value)}
    (h : removeAt? [name] fields = some fields') : fields' = Entries.erase name fields := by
  rw [removeAt?] at h
  split at h
  · exact (Option.some.inj h).symm
  · cases h

theorem Ordered.removeAt? {names : List String} {fields fields' : List (String × Value)}
    (h : (Value.object fields).Ordered) (hremove : removeAt? names fields = some fields') :
    (Value.object fields').Ordered := by
  induction names generalizing fields fields' with
  | nil => cases hremove
  | cons name rest ih =>
    obtain ⟨hfields, hcontents⟩ := ordered_object.mp h
    cases rest with
    | nil =>
      obtain rfl := removeAt?_single_eq_some hremove
      exact ordered_object.mpr ⟨hfields.erase name, hcontents.erase name⟩
    | cons next more =>
      obtain ⟨inner, inner', hinner, hbelow, rfl⟩ := removeAt?_cons_eq_some hremove
      exact h.put name (ih (hcontents.of_get? hinner) hbelow)

theorem lookupAt_removeAt? {names : List String} {fields fields' : List (String × Value)}
    (h : removeAt? names fields = some fields') : lookupAt names (.object fields') = none := by
  induction names generalizing fields fields' with
  | nil => cases h
  | cons name rest ih =>
    rw [lookupAt_cons]
    cases rest with
    | nil => rw [removeAt?_single_eq_some h, Entries.get?_erase_self, Option.bind_none]
    | cons next more =>
      obtain ⟨inner, inner', -, hremove, rfl⟩ := removeAt?_cons_eq_some h
      rw [Entries.get?_put_self, Option.bind_some]
      exact ih hremove

/-- Where nothing can be taken away, nothing is found. -/
theorem lookupAt_of_removeAt?_eq_none {names : List String} (hne : names ≠ [])
    {fields : List (String × Value)}
    (h : removeAt? names fields = none) : lookupAt names (.object fields) = none := by
  induction names generalizing fields with
  | nil => exact absurd rfl hne
  | cons name rest ih =>
    rw [lookupAt_cons]
    cases rest with
    | nil =>
      rw [removeAt?] at h
      split at h
      · cases h
      · rename_i habsent
        rw [Entries.has, Option.not_isSome_iff_eq_none] at habsent
        rw [habsent, Option.bind_none]
    | cons next more =>
      rw [removeAt?_cons] at h
      split at h
      · rename_i inner hinner
        rw [hinner, Option.bind_some]
        exact ih (List.cons_ne_nil next more) (Option.map_eq_none_iff.mp h)
      · rename_i hother
        cases hv : Entries.get? name fields with
        | none => rfl
        | some v =>
          cases v with
          | object inner => exact absurd hv (hother inner)
          | _ => rfl

theorem lookupAt_removeAt?_of_apart {names other : List String} (h : Apart names other)
    {fields fields' : List (String × Value)} (hremove : removeAt? names fields = some fields') :
    lookupAt other (.object fields') = lookupAt other (.object fields) := by
  induction names generalizing other fields fields' with
  | nil => exact absurd rfl h.ne_nil.1
  | cons name rest ih =>
    obtain ⟨first, more, rfl, hfirst⟩ := h.cases
    rw [lookupAt_cons, lookupAt_cons]
    cases rest with
    | nil =>
      rcases hfirst with hfirst | ⟨-, hrest⟩
      · rw [removeAt?_single_eq_some hremove, Entries.get?_erase_of_ne hfirst]
      · exact absurd rfl hrest.ne_nil.1
    | cons next more' =>
      obtain ⟨inner, inner', hinner, hbelow, rfl⟩ := removeAt?_cons_eq_some hremove
      rcases hfirst with hfirst | ⟨rfl, hrest⟩
      · rw [Entries.get?_put_of_ne hfirst]
      · rw [Entries.get?_put_self, hinner, Option.bind_some, Option.bind_some, ih hrest hbelow]

/-! ## Values of documents -/

/-- Plain data: neither a marker nor sealed. -/
def IsData (v : Value) : Prop := v.isMarker = false ∧ ∀ blob, v ≠ .ciphertext blob

theorem IsData.ne_pointer {v : Value} (h : v.IsData) (target : String) : v ≠ .pointer target := by
  rintro rfl
  cases h.1

theorem ofJson_isData (j : Json) : (ofJson j).IsData := by
  cases j <;> simp [ofJson, IsData, isMarker]

mutual

/-- The fields of a document's value are in order. -/
theorem ofJson_ordered : ∀ j : Json, (ofJson j).Ordered
  | .null => by simp [ofJson, Ordered]
  | .bool b => by simp [ofJson, Ordered]
  | .int n => by simp [ofJson, Ordered]
  | .real x => by simp [ofJson, Ordered]
  | .str s => by simp [ofJson, Ordered]
  | .arr items => by
    rw [ofJson, Ordered]
    exact ofItems_ordered items
  | .obj fields => by
    rw [ofJson]
    exact ofFields_ordered [] fields ordered_object_nil

theorem ofItems_ordered : ∀ items : List Json, ItemsOrdered (ofItems items)
  | [] => by simp [ofItems, ItemsOrdered]
  | j :: rest => by
    rw [ofItems, ItemsOrdered]
    exact ⟨ofJson_ordered j, ofItems_ordered rest⟩

theorem ofFields_ordered (acc : List (String × Value)) : ∀ fields : List (String × Json),
    (Value.object acc).Ordered → (Value.object (ofFields acc fields)).Ordered
  | [], h => by
    rw [ofFields]
    exact h
  | (k, j) :: rest, h => by
    rw [ofFields]
    exact ofFields_ordered _ rest (h.put k (ofJson_ordered j))

end

end Value

end PathLedger
