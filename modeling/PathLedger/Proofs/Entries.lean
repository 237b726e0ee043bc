import PathLedger.Dict
import PathLedger.Value.Basic

/-!
# Facts about entry lists and tables

* `Entries.ofList_ordered` — an ordered list is its own table.
* `Entries.ordered_ofList`, `Entries.mem_ofList`, `Entries.length_ofList_le` — what a table made of any list is.
* `Entries.perm_put`, `Entries.perm_of_get?` — an entry and all others.
* `Value.FieldsOrdered.put`, `Value.FieldsOrdered.erase` — the operations on fields keep their contents
  ordered.
* `Dict.ofList_entries` — a table is the table of its entries.
* `Dict.get?_insert_self`, `Dict.get?_insert_of_ne`, `Dict.get?_filter` — look-ups in changed tables.
-/

namespace PathLedger

namespace Entries

variable {κ α : Type} [Ord κ]

theorem get?_mapValues {β : Type} (f : α → β) (k : κ) (l : Entries κ α) :
    get? k (mapValues f l) = (get? k l).map f := by
  induction l with
  | nil => rfl
  | cons e rest ih =>
    rw [mapValues, List.map_cons, get?, get?]
    split
    · rfl
    · exact ih

section Order

variable [Std.TransOrd κ]

/-- What is put at a key comes in the place of what was there. -/
theorem perm_put {l : Entries κ α} (h : l.Ordered) (k : κ) (a : α) : (put k a l).Perm ((k, a) :: erase k l) := by
  induction l with
  | nil => exact .refl _
  | cons e rest ih =>
    obtain ⟨hfirst, hrest⟩ := List.pairwise_cons.mp h
    have herase (hbelow : ∀ d ∈ rest, compare k d.1 = .lt) : erase k rest = rest :=
      List.filter_eq_self.mpr fun d hd => by rw [hbelow d hd]; rfl
    unfold put
    split
    · rename_i hlt
      have hother : erase k (e :: rest) = e :: erase k rest := List.filter_cons_of_pos (by rw [hlt]; rfl)
      rw [hother, herase fun d hd => Std.TransCmp.lt_trans hlt (hfirst d hd)]
    · rename_i heq
      have hsame : erase k (e :: rest) = erase k rest := List.filter_cons_of_neg (by rw [heq]; decide)
      rw [hsame, herase fun d hd => Std.TransCmp.lt_of_eq_of_lt heq (hfirst d hd)]
    · rename_i hgt
      have hother : erase k (e :: rest) = e :: erase k rest := List.filter_cons_of_pos (by rw [hgt]; rfl)
      rw [hother]
      exact ((ih hrest).cons e).trans (.swap ..)

/-- A key behind all others goes to the end. -/
theorem put_eq_append {k : κ} {a : α} {l : Entries κ α} (h : ∀ e ∈ l, compare e.1 k = .lt) :
    put k a l = l ++ [(k, a)] := by
  induction l with
  | nil => rfl
  | cons e rest ih =>
    have hgt : compare k e.1 = .gt := Std.OrientedCmp.gt_of_lt (h e List.mem_cons_self)
    have ih := ih fun e he => h e (List.mem_cons_of_mem _ he)
    simp only [put, hgt, ih, List.cons_append]

theorem foldl_put_append {acc l : Entries κ α} (h : (acc ++ l).Ordered) :
    l.foldl (fun acc e => put e.1 e.2 acc) acc = acc ++ l := by
  induction l generalizing acc with
  | nil => rw [List.foldl_nil, List.append_nil]
  | cons e rest ih =>
    have hlast : ∀ d ∈ acc, compare d.1 e.1 = .lt := fun d hd =>
      (List.pairwise_append.mp h).2.2 d hd e List.mem_cons_self
    have hsplit : acc ++ e :: rest = (acc ++ [e]) ++ rest := by simp
    rw [List.foldl_cons, put_eq_append hlast, hsplit]
    exact ih (hsplit ▸ h)

/-- An ordered list is its own table. -/
theorem ofList_ordered {l : Entries κ α} (h : l.Ordered) : ofList l = l := foldl_put_append h

theorem ordered_foldl_put {acc : Entries κ α} (h : acc.Ordered) (l : List (κ × α)) :
    Ordered (l.foldl (fun acc e => put e.1 e.2 acc) acc) := by
  induction l generalizing acc with
  | nil => exact h
  | cons e rest ih => exact ih (h.put e.1 e.2)

theorem ordered_ofList (l : List (κ × α)) : (ofList l).Ordered := ordered_foldl_put ordered_nil l

end Order

theorem mem_foldl_put {acc : Entries κ α} {l : List (κ × α)} {e : κ × α}
    (h : e ∈ l.foldl (fun acc e => put e.1 e.2 acc) acc) : e ∈ acc ∨ e ∈ l := by
  induction l generalizing acc with
  | nil => exact .inl h
  | cons d rest ih =>
    rcases ih h with h | h
    · rcases mem_put h with rfl | h
      · exact .inr List.mem_cons_self
      · exact .inl h
    · exact .inr (List.mem_cons_of_mem _ h)

theorem length_put_le (k : κ) (a : α) (l : Entries κ α) : (put k a l).length ≤ l.length + 1 := by
  induction l with
  | nil => exact Nat.le_refl _
  | cons e rest ih =>
    unfold put
    split
    · exact Nat.le_refl _
    · exact Nat.le_succ _
    · exact Nat.succ_le_succ ih

theorem length_foldl_put_le (acc : Entries κ α) (l : List (κ × α)) :
    (l.foldl (fun acc e => put e.1 e.2 acc) acc).length ≤ acc.length + l.length := by
  induction l generalizing acc with
  | nil => exact Nat.le_refl _
  | cons e rest ih =>
    have hfirst := length_put_le e.1 e.2 acc
    have hrest := ih (put e.1 e.2 acc)
    rw [List.foldl_cons, List.length_cons]
    omega

/-- Of two entries at one key the later stays, so a table is no longer than its list. -/
theorem length_ofList_le (l : List (κ × α)) : (ofList l).length ≤ l.length := by
  have := length_foldl_put_le [] l
  rwa [List.length_nil, Nat.zero_add] at this

theorem mem_ofList {l : List (κ × α)} {e : κ × α} (h : e ∈ ofList l) : e ∈ l := by
  rcases mem_foldl_put h with h | h
  · cases h
  · exact h

end Entries

section Tables

variable {κ α : Type} [Ord κ]

theorem Dict.ext_of_entries {d e : Dict κ α} (h : d.entries = e.entries) : d = e := by
  cases d
  cases e
  cases h
  rfl

theorem Dict.entries_foldl_insert [Std.TransOrd κ] (l : List (κ × α)) (d : Dict κ α) :
    (l.foldl (fun d e => d.insert e.1 e.2) d).entries =
      l.foldl (fun acc e => Entries.put e.1 e.2 acc) d.entries := by
  induction l generalizing d with
  | nil => rfl
  | cons e rest ih => exact ih _

/-- A table is the table of its entries. -/
theorem Dict.ofList_entries [Std.TransOrd κ] (d : Dict κ α) : ofList d.entries = d :=
  ext_of_entries ((entries_foldl_insert d.entries .empty).trans (Entries.ofList_ordered d.ordered))

end Tables

section Lookup

variable {κ α : Type} [Ord κ] [Std.LawfulEqOrd κ]

theorem Entries.mem_of_get? {k : κ} {a : α} {l : Entries κ α} (h : get? k l = some a) : (k, a) ∈ l := by
  induction l with
  | nil => cases h
  | cons e rest ih =>
    rw [get?] at h
    split at h
    · rename_i heq
      obtain rfl : k = e.1 := Std.LawfulEqCmp.eq_of_compare heq
      obtain rfl := Option.some.inj h
      exact List.mem_cons_self
    · exact List.mem_cons_of_mem _ (ih h)

theorem Entries.isSome_get?_foldl_put {k : κ} {acc : Entries κ α} {l : List (κ × α)}
    (h : (get? k acc).isSome ∨ ∃ a, (k, a) ∈ l) : (get? k (l.foldl (fun acc e => put e.1 e.2 acc) acc)).isSome := by
  induction l generalizing acc with
  | nil => exact h.resolve_right (by simp)
  | cons e rest ih =>
    refine ih ?_
    rw [get?_put]
    rcases h with hacc | ⟨a, hmem⟩
    · left
      split
      · rfl
      · exact hacc
    · rcases List.mem_cons.mp hmem with rfl | hmem
      · left
        rw [if_pos Std.ReflCmp.compare_self]
        rfl
      · exact .inr ⟨a, hmem⟩

/-- A table made of a list holds something under every key of the list. -/
theorem Entries.get?_ofList_isSome {k : κ} {a : α} {l : List (κ × α)} (h : (k, a) ∈ l) : (get? k (ofList l)).isSome :=
  isSome_get?_foldl_put (.inr ⟨a, h⟩)

theorem Entries.get?_filter (p : κ → Bool) (k : κ) (l : Entries κ α) :
    get? k (l.filter fun e => p e.1) = if p k then get? k l else none := by
  induction l with
  | nil => simp [get?]
  | cons e rest ih =>
    by_cases hk : compare k e.1 = .eq
    · obtain rfl : k = e.1 := Std.LawfulEqCmp.eq_of_compare hk
      by_cases hp : p e.1 <;> simp [hp, get?, ih]
    · by_cases hp : p e.1 <;> simp [hp, get?, ih, hk]

theorem Entries.get?_put_self (k : κ) (a : α) (l : Entries κ α) : get? k (put k a l) = some a := by
  rw [get?_put, if_pos Std.ReflCmp.compare_self]

theorem Entries.get?_put_of_ne {k other : κ} (h : other ≠ k) (a : α) (l : Entries κ α) :
    get? other (put k a l) = get? other l := by
  rw [get?_put, if_neg (mt Std.LawfulEqCmp.eq_of_compare h)]

/-- What is kept of a list does not change with a key that is not kept. -/
theorem Entries.filter_put {p : κ → Bool} {k : κ} (hk : p k = false) (a : α) (l : Entries κ α) :
    ((put k a l).filter fun e => p e.1) = l.filter fun e => p e.1 := by
  induction l with
  | nil => simp [put, hk]
  | cons e rest ih =>
    unfold put
    split
    · simp [hk]
    · rename_i heq
      obtain rfl := Std.LawfulEqCmp.eq_of_compare heq
      simp [hk]
    · rw [List.filter_cons, List.filter_cons, ih]

/-- A key that is there is put in its place. -/
theorem Entries.length_put_of_get? [Std.TransOrd κ] {k : κ} {a old : α} {l : Entries κ α} (h : get? k l = some old)
    (hordered : l.Ordered) : (put k a l).length = l.length := by
  induction l with
  | nil => cases h
  | cons e rest ih =>
    obtain ⟨hfirst, hrest⟩ := List.pairwise_cons.mp hordered
    rw [get?] at h
    unfold put
    split at h
    · rename_i heq
      rw [heq]
      rfl
    · -- What is found behind the first entry comes after it in order.
      have hgt : compare k e.1 = .gt := Std.OrientedCmp.gt_of_lt (hfirst _ (mem_of_get? h))
      rw [hgt]
      exact congrArg Nat.succ (ih h hrest)

theorem Entries.get?_erase_self (k : κ) (l : Entries κ α) : get? k (erase k l) = none := by
  rw [get?_erase, if_pos Std.ReflCmp.compare_self]

theorem Entries.get?_erase_of_ne {k other : κ} (h : other ≠ k) (l : Entries κ α) :
    get? other (erase k l) = get? other l := by
  rw [get?_erase, if_neg (mt Std.LawfulEqCmp.eq_of_compare h)]

theorem Dict.get?_insert_self [Std.TransOrd κ] (d : Dict κ α) (k : κ) (a : α) :
    (d.insert k a).get? k = some a := Entries.get?_put_self k a d.entries

theorem Dict.get?_insert_of_ne [Std.TransOrd κ] (d : Dict κ α) {k other : κ} (h : other ≠ k) (a : α) :
    (d.insert k a).get? other = d.get? other := Entries.get?_put_of_ne h a d.entries

/-- A table without some of its keys. -/
theorem Dict.get?_filter (d : Dict κ α) (p : κ → Bool) (k : κ) :
    (d.filter fun k _ => p k).get? k = if p k then d.get? k else none :=
  Entries.get?_filter p k d.entries

theorem Entries.mem_keys_iff {k : κ} {l : Entries κ α} : k ∈ keys l ↔ (get? k l).isSome := by
  induction l with
  | nil => simp [keys, get?]
  | cons e rest ih =>
    rw [keys, List.map_cons, List.mem_cons, get?]
    rw [keys] at ih
    split
    · rename_i heq
      simp [Std.LawfulEqCmp.eq_of_compare heq]
    · rename_i hne
      have : k ≠ e.1 := by
        rintro rfl
        exact hne Std.ReflCmp.compare_self
      simp [this, ih]

/-- A table made of a list has the keys of the list. -/
theorem Entries.mem_keys_ofList {k : κ} {l : List (κ × α)} : k ∈ keys (ofList l) ↔ k ∈ l.map Prod.fst := by
  constructor
  · intro h
    obtain ⟨e, he, rfl⟩ := List.mem_map.mp h
    exact List.mem_map_of_mem (mem_ofList he)
  · intro h
    obtain ⟨e, he, rfl⟩ := List.mem_map.mp h
    exact mem_keys_iff.mpr (get?_ofList_isSome he)

theorem Entries.erase_of_get?_eq_none {k : κ} {l : Entries κ α} (h : get? k l = none) : erase k l = l := by
  refine List.filter_eq_self.mpr fun e he => bne_iff_ne.mpr fun heq => ?_
  have hkey : e.1 ∈ keys l := List.mem_map_of_mem he
  rw [mem_keys_iff, ← Std.LawfulEqCmp.eq_of_compare heq, h] at hkey
  cases hkey

/-- What is found at a key stands beside all others. -/
theorem Entries.perm_of_get? [Std.TransOrd κ] {k : κ} {a : α} {l : Entries κ α} (h : l.Ordered)
    (hget : get? k l = some a) : l.Perm ((k, a) :: erase k l) := by
  have hput : put k a l = l := by
    refine ext_of_get? (h.put k a) h fun k' => ?_
    rw [get?_put]
    split
    · rename_i heq
      rw [Std.LawfulEqCmp.eq_of_compare heq, hget]
    · rfl
  have hperm := perm_put h k a
  rwa [hput] at hperm

theorem Dict.mem_keys_iff {d : Dict κ α} {k : κ} : k ∈ d.keys ↔ (d.get? k).isSome := Entries.mem_keys_iff

theorem Dict.nodup_keys (d : Dict κ α) : d.keys.Nodup := by
  rw [keys, Entries.keys, List.nodup_iff_pairwise_ne, List.pairwise_map]
  refine d.ordered.imp fun {a b} hlt heq => ?_
  rw [heq] at hlt
  simp at hlt

end Lookup

/-! ## Contents of fields -/

theorem Value.fieldsOrdered_iff {fields : List (String × Value)} :
    FieldsOrdered fields ↔ ∀ e ∈ fields, e.2.Ordered := by
  induction fields with
  | nil => simp [FieldsOrdered]
  | cons e rest ih => simp [FieldsOrdered, ih]

theorem Value.itemsOrdered_iff {items : List Value} : ItemsOrdered items ↔ ∀ v ∈ items, v.Ordered := by
  induction items with
  | nil => simp [ItemsOrdered]
  | cons v rest ih => simp [ItemsOrdered, ih]

theorem Value.FieldsOrdered.put {fields : List (String × Value)} (h : FieldsOrdered fields) {k : String}
    {v : Value} (hv : v.Ordered) : FieldsOrdered (Entries.put k v fields) := by
  rw [fieldsOrdered_iff] at h ⊢
  intro e he
  rcases Entries.mem_put he with rfl | he
  · exact hv
  · exact h e he

theorem Value.FieldsOrdered.erase {fields : List (String × Value)} (h : FieldsOrdered fields) (k : String) :
    FieldsOrdered (Entries.erase k fields) := by
  rw [fieldsOrdered_iff] at h ⊢
  intro e he
  exact h e ((List.mem_filter.mp he).1)

theorem Value.FieldsOrdered.of_get? {fields : List (String × Value)} (h : FieldsOrdered fields) {k : String}
    {v : Value} (hv : Entries.get? k fields = some v) : v.Ordered :=
  fieldsOrdered_iff.mp h _ (Entries.mem_of_get? hv)

end PathLedger
