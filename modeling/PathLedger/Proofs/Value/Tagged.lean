import PathLedger.Proofs.Number.Rounding
import PathLedger.Proofs.Value.Nested

/-!
# Values are read back from their tagged documents

The tag of a document tells the kind of a value, and its content the rest. Only numbers that are not finite have no
written form. What is read has its fields in order, and as its numbers those of the document, which are finite.

* `Value.numbers`, `Value.Finite` — the numbers inside a value, and that all of them are finite.
* `Json.Sized` — the numbers that documents have: whole numbers of 64 bits and finite doubles.
* `Value.ofTagged?_tagged` — **a value is read back** from its tagged document.
* `Value.ofTagged?_cases` — what a tagged document can be.
* `Value.ofTagged?_sound` — **what is read can be written again**.
-/

namespace PathLedger

namespace Value

mutual

/-- The numbers inside a value. -/
def numbers : Value → List Binary64
  | .number x => [x]
  | .list items => itemsNumbers items
  | .object fields => fieldsNumbers fields
  | _ => []

def itemsNumbers : List Value → List Binary64
  | [] => []
  | v :: rest => numbers v ++ itemsNumbers rest

def fieldsNumbers : List (String × Value) → List Binary64
  | [] => []
  | (_, v) :: rest => numbers v ++ fieldsNumbers rest

end

/-- All numbers inside are finite. -/
def Finite (v : Value) : Prop := ∀ x ∈ v.numbers, x.isFinite

theorem finite_list {items : List Value} : (Value.list items).Finite ↔ ∀ v ∈ items, v.Finite := by
  rw [Finite, numbers]
  induction items with
  | nil => simp [itemsNumbers]
  | cons v rest ih => rw [itemsNumbers, List.forall_mem_append, ih, List.forall_mem_cons, Finite]

theorem finite_object {fields : List (String × Value)} : (Value.object fields).Finite ↔ ∀ e ∈ fields, e.2.Finite := by
  rw [Finite, numbers]
  induction fields with
  | nil => simp [fieldsNumbers]
  | cons e rest ih => rw [fieldsNumbers, List.forall_mem_append, ih, List.forall_mem_cons, Finite]

theorem Finite.put {fields : List (String × Value)} (h : (Value.object fields).Finite) (k : String) {v : Value}
    (hv : v.Finite) : (Value.object (Entries.put k v fields)).Finite := by
  rw [finite_object] at h ⊢
  intro e he
  rcases Entries.mem_put he with rfl | he
  · exact hv
  · exact h e he

/-! ## What was written is read back -/

mutual

/-- **A value is read back** from its tagged document. -/
theorem ofTagged?_tagged : ∀ v : Value, v.Ordered → v.Finite → ofTagged? v.tagged = some v
  | .null, _, _ => rfl
  | .bool b, _, _ => rfl
  | .number x, _, hfinite => by
    rw [Finite, numbers] at hfinite
    rw [tagged, if_pos (hfinite x List.mem_cons_self)]
    rfl
  | .text s, _, _ => rfl
  | .pointer t, _, _ => rfl
  | .identity n, _, _ => rfl
  | .ciphertext b, _, _ => rfl
  | .list items, hordered, hfinite => by
    rw [Ordered] at hordered
    have hitems := ofTaggedItems?_taggedItems items hordered (finite_list.mp hfinite)
    rw [tagged, ofTagged?, if_pos rfl, hitems]
    rfl
  | .object fields, hordered, hfinite => by
    obtain ⟨hnames, hcontents⟩ := ordered_object.mp hordered
    have hfields := ofTaggedFields?_taggedFields fields [] hnames hcontents (finite_object.mp hfinite)
    rw [tagged, ofTagged?, if_pos rfl, hfields]
    rfl

theorem ofTaggedItems?_taggedItems : ∀ items : List Value, ItemsOrdered items →
    (∀ v ∈ items, v.Finite) → ofTaggedItems? (taggedItems items) = some items
  | [], _, _ => rfl
  | v :: rest, hordered, hfinite => by
    rw [ItemsOrdered] at hordered
    obtain ⟨hv, hothers⟩ := List.forall_mem_cons.mp hfinite
    rw [taggedItems, ofTaggedItems?, ofTagged?_tagged v hordered.1 hv]
    dsimp only
    rw [ofTaggedItems?_taggedItems rest hordered.2 hothers]
    rfl

/-- Each field comes behind those that were read before. -/
theorem ofTaggedFields?_taggedFields : ∀ fields acc : List (String × Value),
    Entries.Ordered (acc ++ fields) → FieldsOrdered fields → (∀ e ∈ fields, e.2.Finite) →
    ofTaggedFields? acc (taggedFields fields) = some (acc ++ fields)
  | [], acc, _, _, _ => by rw [taggedFields, ofTaggedFields?, List.append_nil]
  | (k, v) :: rest, acc, hnames, hcontents, hfinite => by
    rw [FieldsOrdered] at hcontents
    obtain ⟨hv, hothers⟩ := List.forall_mem_cons.mp hfinite
    have hput : Entries.put k v acc = acc ++ [(k, v)] :=
      Entries.put_eq_append fun e he => (List.pairwise_append.mp hnames).2.2 e he (k, v) List.mem_cons_self
    have hnext : Entries.Ordered ((acc ++ [(k, v)]) ++ rest) := by rwa [List.append_assoc]
    rw [taggedFields, ofTaggedFields?, ofTagged?_tagged v hcontents.1 hv]
    dsimp only
    rw [hput, ofTaggedFields?_taggedFields rest _ hnext hcontents.2 hothers, List.append_assoc]
    rfl

end

end Value

/-! ## What is read can be written again -/

namespace Json

mutual

/-- The numbers that documents have: whole numbers of 64 bits with or without a sign, and finite doubles. -/
def Sized : Json → Prop
  | .int n => -2 ^ 63 ≤ n ∧ n < 2 ^ 64
  | .real x => x.isFinite
  | .arr items => ItemsSized items
  | .obj fields => FieldsSized fields
  | _ => True

def ItemsSized : List Json → Prop
  | [] => True
  | j :: rest => Sized j ∧ ItemsSized rest

def FieldsSized : List (String × Json) → Prop
  | [] => True
  | (_, j) :: rest => Sized j ∧ FieldsSized rest

end

theorem fieldsSized_iff {fields : List (String × Json)} : FieldsSized fields ↔ ∀ e ∈ fields, e.2.Sized := by
  induction fields with
  | nil => simp [FieldsSized]
  | cons e rest ih => simp [FieldsSized, ih]

theorem itemsSized_iff {items : List Json} : ItemsSized items ↔ ∀ j ∈ items, j.Sized := by
  induction items with
  | nil => simp [ItemsSized]
  | cons j rest ih => simp [ItemsSized, ih]

end Json

namespace Value

/-- **What a tagged document can be**: a value without parts, a number, or a list or object of tagged documents. -/
theorem ofTagged?_cases {j : Json} {v : Value} (h : ofTagged? j = some v) :
    (v.Ordered ∧ v.numbers = []) ∨
      (∃ n, j = .obj [("number", .int n)] ∧ v = .number (.ofInt n)) ∨
      (∃ x, j = .obj [("number", .real x)] ∧ v = .number x) ∨
      (∃ items l, j = .obj [("list", .arr items)] ∧ ofTaggedItems? items = some l ∧ v = .list l) ∨
      ∃ fields l, j = .obj [("object", .obj fields)] ∧ ofTaggedFields? [] fields = some l ∧ v = .object l := by
  -- One of the tags for values without parts, or one that is tried after it.
  have hplain {w : Value} {c : Prop} [Decidable c] {other : Option Value}
      (hc : (if c then some w else other) = some v) (hw : w.Ordered ∧ w.numbers = [])
      (hother : other = some v → v.Ordered ∧ v.numbers = []) : v.Ordered ∧ v.numbers = [] := by
    split at hc
    · rwa [← Option.some.inj hc]
    · exact hother hc
  unfold ofTagged? at h
  split at h
  case h_1 s => exact .inl (hplain h (by simp [Ordered, numbers]) nofun)
  case h_2 tag => exact .inl (hplain h (by simp [Ordered, numbers]) nofun)
  case h_3 tag b => exact .inl (hplain h (by simp [Ordered, numbers]) nofun)
  case h_4 tag n =>
    split at h
    · rename_i htag
      exact .inr (.inl ⟨n, by rw [htag], (Option.some.inj h).symm⟩)
    · cases h
  case h_5 tag x =>
    split at h
    · rename_i htag
      exact .inr (.inr (.inl ⟨x, by rw [htag], (Option.some.inj h).symm⟩))
    · cases h
  case h_6 tag s =>
    refine .inl (hplain h ?_ fun h => hplain h ?_ fun h => hplain h ?_ fun h => hplain h ?_ nofun)
    all_goals simp [Ordered, numbers]
  case h_7 tag items =>
    split at h
    · rename_i htag
      obtain ⟨l, hl, rfl⟩ := Option.map_eq_some_iff.mp h
      exact .inr (.inr (.inr (.inl ⟨items, l, by rw [htag], hl, rfl⟩)))
    · cases h
  case h_8 tag fields =>
    split at h
    · rename_i htag
      obtain ⟨l, hl, rfl⟩ := Option.map_eq_some_iff.mp h
      exact .inr (.inr (.inr (.inr ⟨fields, l, by rw [htag], hl, rfl⟩)))
    · cases h
  case h_9 => cases h

mutual

/-- **What is read can be written again**: its fields are in order, and its numbers finite. -/
theorem ofTagged?_sound : ∀ (j : Json) (v : Value), j.Sized → ofTagged? j = some v → v.Ordered ∧ v.Finite
  | j, v, hj, h => by
    obtain ⟨hordered, hnone⟩ | ⟨n, rfl, rfl⟩ | ⟨x, rfl, rfl⟩ | ⟨items, l, hitems, hl, rfl⟩ |
      ⟨fields, l, hfields, hl, rfl⟩ := ofTagged?_cases h
    · exact ⟨hordered, by rw [Finite, hnone]; nofun⟩
    · simp only [Json.Sized, Json.FieldsSized, and_true] at hj
      simp only [Finite, numbers, List.forall_mem_singleton]
      exact ⟨by simp [Ordered], Binary64.isFinite_ofInt (by omega)⟩
    · simp only [Json.Sized, Json.FieldsSized, and_true] at hj
      simp only [Finite, numbers, List.forall_mem_singleton]
      exact ⟨by simp [Ordered], hj⟩
    · simp only [hitems, Json.Sized, Json.FieldsSized, and_true] at hj
      rw [Ordered, finite_list]
      exact ofTaggedItems?_sound items l hj hl
    · simp only [hfields, Json.Sized, Json.FieldsSized, and_true] at hj
      exact ofTaggedFields?_sound fields [] l hj ordered_object_nil (finite_object.mpr nofun) hl

theorem ofTaggedItems?_sound : ∀ (items : List Json) (l : List Value), Json.ItemsSized items →
    ofTaggedItems? items = some l → ItemsOrdered l ∧ ∀ v ∈ l, v.Finite
  | [], l, _, h => by
    obtain rfl := Option.some.inj h
    exact ⟨by simp [ItemsOrdered], nofun⟩
  | j :: rest, l, hitems, h => by
    rw [ofTaggedItems?] at h
    cases hv : ofTagged? j with
    | none => simp [hv] at h
    | some v =>
      simp only [hv] at h
      obtain ⟨others, hothers, rfl⟩ := Option.map_eq_some_iff.mp h
      rw [Json.ItemsSized] at hitems
      obtain ⟨hordered, hfinite⟩ := ofTagged?_sound j v hitems.1 hv
      obtain ⟨hordereds, hfinites⟩ := ofTaggedItems?_sound rest others hitems.2 hothers
      rw [ItemsOrdered, List.forall_mem_cons]
      exact ⟨⟨hordered, hordereds⟩, hfinite, hfinites⟩

theorem ofTaggedFields?_sound : ∀ (fields : List (String × Json)) (acc l : List (String × Value)),
    Json.FieldsSized fields → (Value.object acc).Ordered → (Value.object acc).Finite →
    ofTaggedFields? acc fields = some l → (Value.object l).Ordered ∧ (Value.object l).Finite
  | [], acc, l, _, hordered, hfinite, h => by
    rw [ofTaggedFields?] at h
    rw [← Option.some.inj h]
    exact ⟨hordered, hfinite⟩
  | (k, j) :: rest, acc, l, hfields, hordered, hfinite, h => by
    rw [ofTaggedFields?] at h
    cases hv : ofTagged? j with
    | none => simp [hv] at h
    | some v =>
      simp only [hv] at h
      rw [Json.FieldsSized] at hfields
      obtain ⟨hvordered, hvfinite⟩ := ofTagged?_sound j v hfields.1 hv
      exact ofTaggedFields?_sound rest (Entries.put k v acc) l hfields.2 (hordered.put k hvordered)
        (hfinite.put k hvfinite) h

end

end Value

end PathLedger
