import PathLedger.Proofs.Value.Nested

/-!
# The leaves of nested objects

What nested objects hold that is no object itself are their leaves, each behind a row of names. A leaf that is put at a
row of names which neither starts nor goes on at another leaf's row comes to the others and changes none of them.

* `Value.leaves`, `Value.flatten` — the leaves, by rows of names, and by keys.
* `Value.Branching` — values in whose nested objects no name occurs twice.
* `Value.leavesOf_insertAt` — **one more leaf**.
* `Value.leavesOf_foldl_insertAt` — **a row of leaves put one after another**.
-/

open scoped List

namespace PathLedger

namespace Value

/-- A leaf of a field, with the name of the field in front. -/
def lead (name : String) (leaf : List String × Value) : List String × Value := (name :: leaf.1, leaf.2)

mutual

/-- The leaves of a value, each with the row of names that leads to it. -/
def leaves : Value → List (List String × Value)
  | .object fields => leavesOf fields
  | v => [([], v)]

def leavesOf : List (String × Value) → List (List String × Value)
  | [] => []
  | (name, v) :: rest => (leaves v).map (lead name) ++ leavesOf rest

end

/-- The leaves of a value by their keys. -/
def flatten (v : Value) : List (String × Value) := v.leaves.map fun leaf => (Path.key ⟨leaf.1⟩, leaf.2)

/-- A value that is no object. -/
def IsLeaf (v : Value) : Prop := ∀ fields, v ≠ .object fields

variable {v : Value} {fields : List (String × Value)} {names : List String}

theorem IsLeaf.leaves_eq (h : v.IsLeaf) : leaves v = [([], v)] := by
  rw [leaves]
  exact h

theorem leavesOf_eq_flatMap (fields : List (String × Value)) :
    leavesOf fields = fields.flatMap fun e => (leaves e.2).map (lead e.1) := by
  induction fields with
  | nil => rw [leavesOf, List.flatMap_nil]
  | cons e rest ih => rw [leavesOf, ih, List.flatMap_cons]

theorem leavesOf_cons (e : String × Value) (rest : List (String × Value)) :
    leavesOf (e :: rest) = (leaves e.2).map (lead e.1) ++ leavesOf rest := by rw [leavesOf]

theorem leavesOf_perm {fields' : List (String × Value)} (h : fields.Perm fields') :
    (leavesOf fields).Perm (leavesOf fields') := by
  rw [leavesOf_eq_flatMap, leavesOf_eq_flatMap]
  exact h.flatMap_right _

/-- In the nested objects of a value, down to its leaves, names are in order. -/
inductive Branching : Value → Prop
  | leaf {v : Value} (h : v.IsLeaf) : Branching v
  | object {fields : List (String × Value)} (h : Entries.Ordered fields) (hfields : ∀ e ∈ fields, Branching e.2) :
    Branching (.object fields)

theorem branching_object_nil : Branching (.object []) :=
  .object Entries.ordered_nil fun _ h => absurd h List.not_mem_nil

theorem Branching.ordered (h : Branching (.object fields)) : Entries.Ordered fields := by
  cases h with
  | leaf h => exact absurd rfl (h fields)
  | object h => exact h

theorem Branching.of_mem (h : Branching (.object fields)) {e : String × Value} (he : e ∈ fields) : Branching e.2 := by
  cases h with
  | leaf h => exact absurd rfl (h fields)
  | object _ hfields => exact hfields e he

theorem Branching.innerFields (h : Branching (.object fields)) (name : String) :
    Branching (.object (innerFields name fields)) := by
  unfold Value.innerFields
  cases hget : Entries.get? name fields with
  | none => exact branching_object_nil
  | some u =>
    have hu := h.of_mem (Entries.mem_of_get? hget)
    cases u with
    | object inner => exact hu
    | _ => exact branching_object_nil

theorem Branching.put (h : Branching (.object fields)) (name : String) (hv : Branching v) :
    Branching (.object (Entries.put name v fields)) := by
  refine .object (h.ordered.put name v) fun e he => ?_
  rcases Entries.mem_put he with rfl | he
  · exact hv
  · exact h.of_mem he

theorem Branching.insertAt (h : Branching (.object fields)) (names : List String) (hv : Branching v) :
    Branching (.object (insertAt names v fields)) := by
  induction names generalizing fields with
  | nil => exact h
  | cons name rest ih =>
    cases rest with
    | nil => exact h.put name hv
    | cons next more => exact h.put name (ih (h.innerFields name))

/-! ## One more leaf -/

/-- The leaves behind a name stand beside all others. -/
theorem leavesOf_put (h : Branching (.object fields)) (name : String) (v : Value) :
    (leavesOf (Entries.put name v fields)).Perm ((leaves v).map (lead name) ++ leavesOf (Entries.erase name fields)) := by
  have hperm := leavesOf_perm (Entries.perm_put h.ordered name v)
  rwa [leavesOf_cons] at hperm

theorem leavesOf_of_get? (h : Branching (.object fields)) {name : String} (hget : Entries.get? name fields = some v) :
    (leavesOf fields).Perm ((leaves v).map (lead name) ++ leavesOf (Entries.erase name fields)) := by
  have hperm := leavesOf_perm (Entries.perm_of_get? h.ordered hget)
  rwa [leavesOf_cons] at hperm

/-- Where no leaf stands in the way, the leaves behind a name are those of the object there. -/
theorem leavesOf_innerFields (h : Branching (.object fields)) {name : String}
    (hclear : ∀ w, ([name], w) ∉ leavesOf fields) :
    (leavesOf fields).Perm
      ((leavesOf (innerFields name fields)).map (lead name) ++ leavesOf (Entries.erase name fields)) := by
  unfold innerFields
  cases hget : Entries.get? name fields with
  | none =>
    rw [Entries.erase_of_get?_eq_none hget, Option.map_none, Option.getD_none, leavesOf, List.map_nil, List.nil_append]
  | some u =>
    have hperm := leavesOf_of_get? h hget
    by_cases hleaf : u.IsLeaf
    · rw [hleaf.leaves_eq] at hperm
      exact absurd (hperm.mem_iff.mpr List.mem_cons_self) (hclear u)
    · obtain ⟨inner, rfl⟩ : ∃ inner, u = .object inner := by simpa [IsLeaf] using hleaf
      rwa [leaves] at hperm

/-- **One more leaf** comes to the others, where its names and theirs are apart. -/
theorem leavesOf_insertAt (hne : names ≠ []) (hv : v.IsLeaf) (h : Branching (.object fields))
    (hapart : ∀ leaf ∈ leavesOf fields, Apart names leaf.1) :
    (leavesOf (insertAt names v fields)).Perm ((names, v) :: leavesOf fields) := by
  induction names generalizing fields with
  | nil => exact absurd rfl hne
  | cons name rest ih =>
    have hclear (w : Value) (hrest : rest ≠ []) : ([name], w) ∉ leavesOf fields := fun hmem =>
      (hapart _ hmem).2 ⟨rest, rfl⟩
    cases rest with
    | nil =>
      -- What was at the name had no leaves, since they would go on at its row.
      have hbeside : (leavesOf fields).Perm (leavesOf (Entries.erase name fields)) := by
        cases hget : Entries.get? name fields with
        | none => rw [Entries.erase_of_get?_eq_none hget]
        | some u =>
          have hperm := leavesOf_of_get? h hget
          have hnone : leaves u = [] := by
            refine List.eq_nil_iff_forall_not_mem.mpr fun leaf hleaf => ?_
            have hmem := hperm.mem_iff.mpr (List.mem_append_left _ (List.mem_map_of_mem hleaf))
            exact (hapart _ hmem).1 ⟨leaf.1, rfl⟩
          rwa [hnone] at hperm
      have hperm := leavesOf_put h name v
      rw [hv.leaves_eq] at hperm
      exact hperm.trans (hbeside.symm.cons _)
    | cons next more =>
      have hinner := leavesOf_innerFields h fun w => hclear w (List.cons_ne_nil next more)
      have hapart' : ∀ leaf ∈ leavesOf (innerFields name fields), Apart (next :: more) leaf.1 := by
        intro leaf hleaf
        have hmem := hinner.mem_iff.mpr (List.mem_append_left _ (List.mem_map_of_mem hleaf))
        obtain ⟨hfront, hback⟩ := hapart _ hmem
        exact ⟨fun hstarts => hfront ((List.prefix_cons_inj name).mpr hstarts),
          fun hstarts => hback ((List.prefix_cons_inj name).mpr hstarts)⟩
      have hdeeper := ih (List.cons_ne_nil next more) (h.innerFields name) hapart'
      rw [insertAt_cons]
      calc leavesOf (Entries.put name (.object (insertAt (next :: more) v (innerFields name fields))) fields)
        _ ~ (leavesOf (insertAt (next :: more) v (innerFields name fields))).map (lead name) ++
              leavesOf (Entries.erase name fields) := by
            have hperm := leavesOf_put h name (.object (insertAt (next :: more) v (innerFields name fields)))
            rwa [leaves] at hperm
        _ ~ ((next :: more, v) :: leavesOf (innerFields name fields)).map (lead name) ++
              leavesOf (Entries.erase name fields) := (hdeeper.map _).append_right _
        _ ~ (name :: next :: more, v) :: leavesOf fields := (hinner.symm.cons _)

/-- **Leaves that are put one after another** are all there, each once, where their rows of names are apart. -/
theorem leavesOf_foldl_insertAt {rows : List (List String × Value)} (hnames : ∀ row ∈ rows, row.1 ≠ [])
    (hleaf : ∀ row ∈ rows, row.2.IsLeaf) (hrows : rows.Pairwise fun a b => Apart a.1 b.1)
    (h : Branching (.object fields)) (hfresh : ∀ row ∈ rows, ∀ leaf ∈ leavesOf fields, Apart row.1 leaf.1) :
    (leavesOf (rows.foldl (fun fields row => insertAt row.1 row.2 fields) fields)).Perm (rows ++ leavesOf fields) := by
  induction rows generalizing fields with
  | nil => exact .refl _
  | cons row rest ih =>
    obtain ⟨hne, hnames⟩ := List.forall_mem_cons.mp hnames
    obtain ⟨hv, hleaf⟩ := List.forall_mem_cons.mp hleaf
    obtain ⟨hrow, hrows⟩ := List.pairwise_cons.mp hrows
    obtain ⟨hfirst, hfresh⟩ := List.forall_mem_cons.mp hfresh
    have hone := leavesOf_insertAt hne hv h hfirst
    have hnext : ∀ row' ∈ rest, ∀ leaf ∈ leavesOf (insertAt row.1 row.2 fields), Apart row'.1 leaf.1 := by
      intro row' hmem leaf hleaf
      rcases List.mem_cons.mp (hone.mem_iff.mp hleaf) with rfl | hleaf
      · exact (hrow row' hmem).symm
      · exact hfresh row' hmem leaf hleaf
    exact ((ih hnames hleaf hrows (h.insertAt row.1 (.leaf hv)) hnext).trans (hone.append_left rest)).trans
      List.perm_middle

end Value

end PathLedger
