import PathLedger.Proofs.Index.Below
import PathLedger.Proofs.Value.Leaves

/-!
# The view of a subtree

Where no entry stands exactly at a path, the view of the path is an object nested like the keys below it. In an index of
leaves, whose keys none lies below another, the leaves of that object are the entries below the path, with the path
taken off their keys.

* `Index.Leafy` — indexes of leaves.
* `Index.rows` — what is put into the view, one entry after another.
* `Index.get?_under_eq_some_iff` — what an index of leaves holds below a path.
* `Index.leavesOf_nested` — **the leaves of the view are the entries below**.
* `Index.subtree_lossless` — **the view of a subtree loses nothing**, and lists its children in order.
-/

namespace PathLedger.Index

open PathLedger.Path

/-- An index of leaves: its keys are those of clean paths, no key lies below another, the root's apart, and no value is
an object. -/
structure Leafy (index : Index) : Prop where
  clean : ∀ k ∈ index.keys, ∃ q : Path, q.Clean ∧ q.key = k
  apart : ∀ k ∈ index.keys, ∀ top ∈ index.keys, top ≠ "" → atOrUnder k top → k = top
  leaf : ∀ k v, index.get? k = some v → v.IsLeaf

/-- What is put into the view of a path: the entries below it, with the names behind the path. -/
def rows (index : Index) (p : Path) : List (List String × Value) :=
  (index.descendants p).map fun e => (((ofKey e.1).drop p.length).segments, e.2)

theorem nested_eq (index : Index) (p : Path) :
    index.nested p = (index.rows p).foldl (fun fields row => Value.insertAt row.1 row.2 fields) [] := by
  rw [rows, List.foldl_map]
  rfl

theorem Leafy.spelled {index : Index} (h : index.Leafy) : ∀ k ∈ index.keys, Spelled k := by
  intro k hk
  obtain ⟨q, hq, rfl⟩ := h.clean k hk
  exact hq.spelled

theorem mem_keys_of_get? {index : Index} {k : String} {v : Value} (h : index.get? k = some v) : k ∈ index.keys :=
  Dict.mem_keys_iff.mpr (by rw [h]; rfl)

/-- Behind a path, its key is cut into the names of what lies below. -/
theorem ofKey_key_join {p q : Path} (hp : p.Clean) (hq : q.Clean) :
    (ofKey (p.join q).key).drop p.length = q ∧ (ofKey (p.join q).key).segments[p.length]? = q.segments.head? := by
  rw [ofKey_key (hp.join hq)]
  constructor
  · rw [drop, join, length, List.drop_left]
  · rw [join, length, List.getElem?_append_right (Nat.le_refl _), Nat.sub_self, List.head?_eq_getElem?]

section View

variable {index : Index} {p : Path} (h : index.Leafy) (hp : p.Clean) (hnone : index.entry p = none)

include h hp hnone

/-- **What an index of leaves holds below a path** is at the keys of the paths there. -/
theorem get?_under_eq_some_iff {k : String} {v : Value} :
    index.get? (p.under k) = some v ↔
      ∃ q : Path, q.Clean ∧ q.isRoot = false ∧ q.key = k ∧ index.get? (p.join q).key = some v := by
  constructor
  · intro hget
    have hother : p.under k ≠ p.key := by
      intro heq
      rw [heq, ← entry, hnone] at hget
      cases hget
    obtain ⟨q, hq, hroot, rfl⟩ := exists_key_of_under hp (h.spelled _ (mem_keys_of_get? hget)) hother
    exact ⟨q, hq, hroot, rfl, by rw [key_join hroot, hget]⟩
  · rintro ⟨q, -, hroot, rfl, hget⟩
    rw [← key_join hroot, hget]

theorem mem_descendants_iff_get? {e : String × Value} :
    e ∈ index.descendants p ↔
      ∃ q : Path, q.Clean ∧ q.isRoot = false ∧ (p.join q).key = e.1 ∧ index.get? (p.join q).key = some e.2 := by
  rw [mem_descendants_iff h.spelled hp hnone]
  constructor
  · rintro ⟨he, q, hq, hroot, hkey⟩
    exact ⟨q, hq, hroot, hkey.symm, hkey ▸ Dict.get?_eq_some_iff_mem.mpr he⟩
  · rintro ⟨q, hq, hroot, hkey, hget⟩
    exact ⟨Dict.get?_eq_some_iff_mem.mp (hkey ▸ hget), q, hq, hroot, hkey.symm⟩

theorem mem_rows_iff {row : List String × Value} :
    row ∈ index.rows p ↔
      ∃ q : Path, q.Clean ∧ q.isRoot = false ∧ q.segments = row.1 ∧ index.get? (p.join q).key = some row.2 := by
  rw [rows, List.mem_map]
  constructor
  · rintro ⟨e, he, rfl⟩
    obtain ⟨q, hq, hroot, hkey, hget⟩ := (mem_descendants_iff_get? h hp hnone).mp he
    exact ⟨q, hq, hroot, by rw [← hkey, (ofKey_key_join hp hq).1], hget⟩
  · rintro ⟨q, hq, hroot, hnames, hget⟩
    refine ⟨((p.join q).key, row.2), (mem_descendants_iff_get? h hp hnone).mpr ⟨q, hq, hroot, rfl, hget⟩, ?_⟩
    rw [(ofKey_key_join hp hq).1, hnames]

/-- The names of two entries below a path are apart, since neither key lies below the other. -/
theorem rows_apart : (index.rows p).Pairwise fun a b => Value.Apart a.1 b.1 := by
  have hdistinct : (index.descendants p).Pairwise fun a b => a.1 ≠ b.1 := by
    rw [descendants_eq_filter]
    refine List.Pairwise.sublist List.filter_sublist (index.ordered.imp fun {a b} hlt heq => ?_)
    rw [heq] at hlt
    simp at hlt
  refine List.pairwise_map.mpr (hdistinct.imp_of_mem fun {a b} ha hb hne => ?_)
  have hbelow {a b : String × Value} (ha : a ∈ index.descendants p) (hb : b ∈ index.descendants p) (hne : a.1 ≠ b.1) :
      ¬((ofKey a.1).drop p.length).segments <+: ((ofKey b.1).drop p.length).segments := by
    obtain ⟨q, hq, hroot, hkey, hget⟩ := (mem_descendants_iff_get? h hp hnone).mp ha
    obtain ⟨q', hq', -, hkey', hget'⟩ := (mem_descendants_iff_get? h hp hnone).mp hb
    rw [← hkey, ← hkey', (ofKey_key_join hp hq).1, (ofKey_key_join hp hq').1]
    intro hstarts
    have hunder : atOrUnder (p.join q').key (p.join q).key :=
      atOrUnder_of_prefix (isRoot_join hroot) ((List.prefix_append_right_inj _).mpr hstarts)
    have hsame := h.apart _ (mem_keys_of_get? hget') _ (mem_keys_of_get? hget)
      ((hp.join hq).key_ne_empty (isRoot_join hroot)) hunder
    exact hne (by rw [← hkey, ← hkey', hsame])
  exact ⟨hbelow ha hb hne, hbelow hb ha hne.symm⟩

/-- **The leaves of the view are the entries below the path**, each once. -/
theorem leavesOf_nested : (Value.leavesOf (index.nested p)).Perm (index.rows p) := by
  have hnames : ∀ row ∈ index.rows p, row.1 ≠ [] := by
    intro row hrow
    obtain ⟨q, -, hroot, hnames, -⟩ := (mem_rows_iff h hp hnone).mp hrow
    rw [← hnames]
    simpa [isRoot] using hroot
  have hleaf : ∀ row ∈ index.rows p, row.2.IsLeaf := by
    intro row hrow
    obtain ⟨q, -, -, -, hget⟩ := (mem_rows_iff h hp hnone).mp hrow
    exact h.leaf _ _ hget
  have hperm := Value.leavesOf_foldl_insertAt hnames hleaf (rows_apart h hp hnone) Value.branching_object_nil
    fun _ _ leaf hleaf => absurd (Value.leavesOf.eq_1 ▸ hleaf) List.not_mem_nil
  rwa [Value.leavesOf, List.append_nil, ← nested_eq] at hperm

theorem flatten_nested :
    (Value.object (index.nested p)).flatten.Perm ((index.rows p).map fun row => (key ⟨row.1⟩, row.2)) := by
  rw [Value.flatten, Value.leaves]
  exact (leavesOf_nested h hp hnone).map _

/-- What the flattened view holds at a key is what the index holds at the key below the path. -/
theorem mem_flatten_nested {k : String} {v : Value} :
    (k, v) ∈ (Value.object (index.nested p)).flatten ↔ index.get? (p.under k) = some v := by
  rw [(flatten_nested h hp hnone).mem_iff, get?_under_eq_some_iff h hp hnone, List.mem_map]
  constructor
  · rintro ⟨row, hrow, heq⟩
    obtain ⟨rfl, rfl⟩ := Prod.mk.inj heq
    obtain ⟨q, hq, hroot, hnames, hget⟩ := (mem_rows_iff h hp hnone).mp hrow
    exact ⟨q, hq, hroot, by rw [← hnames], hget⟩
  · rintro ⟨q, hq, hroot, rfl, hget⟩
    exact ⟨(q.segments, v), (mem_rows_iff h hp hnone).mpr ⟨q, hq, hroot, rfl, hget⟩, rfl⟩

theorem nodup_flatten_nested : ((Value.object (index.nested p)).flatten.map Prod.fst).Nodup := by
  refine ((flatten_nested h hp hnone).map Prod.fst).nodup_iff.mpr ?_
  rw [List.map_map, List.nodup_iff_pairwise_ne, List.pairwise_map]
  refine (rows_apart h hp hnone).imp_of_mem fun {a b} ha hb hapart heq => ?_
  obtain ⟨q, hq, -, hnames, -⟩ := (mem_rows_iff h hp hnone).mp ha
  obtain ⟨q', hq', -, hnames', -⟩ := (mem_rows_iff h hp hnone).mp hb
  rw [Function.comp_apply, Function.comp_apply, ← hnames, ← hnames'] at heq
  rw [← hnames, ← hnames', key_inj hq hq' heq] at hapart
  exact hapart.1 (List.prefix_refl _)

/-- Nothing lies below a path exactly where the index holds nothing at a key below. -/
theorem descendants_eq_nil_iff : index.descendants p = [] ↔ ∀ k, index.get? (p.under k) = none := by
  constructor
  · intro hnil k
    refine Option.eq_none_iff_forall_ne_some.mpr fun v hget => ?_
    obtain ⟨q, hq, hroot, -, hget⟩ := (get?_under_eq_some_iff h hp hnone).mp hget
    have hmem : ((p.join q).key, v) ∈ index.descendants p :=
      (mem_descendants_iff_get? h hp hnone).mpr ⟨q, hq, hroot, rfl, hget⟩
    rw [hnil] at hmem
    cases hmem
  · intro hall
    refine List.eq_nil_iff_forall_not_mem.mpr fun e he => ?_
    obtain ⟨q, -, hroot, -, hget⟩ := (mem_descendants_iff_get? h hp hnone).mp he
    rw [key_join hroot, hall] at hget
    cases hget

theorem mem_childrenOf_iff {name : String} :
    name ∈ index.childrenOf p ↔ ∃ k, (index.get? (p.under k)).isSome ∧ (ofKey k).segments.head? = some name := by
  have hnames (names : List String) :
      name ∈ Entries.keys (Entries.ofList (names.map fun n => (n, ()))) ↔ name ∈ names := by
    rw [Entries.mem_keys_ofList, List.map_map]
    exact (List.map_id names).symm ▸ Iff.rfl
  rw [childrenOf, hnames, List.mem_filterMap]
  constructor
  · rintro ⟨e, he, hname⟩
    obtain ⟨q, hq, hroot, hkey, hget⟩ := (mem_descendants_iff_get? h hp hnone).mp he
    rw [← hkey, (ofKey_key_join hp hq).2] at hname
    refine ⟨q.key, ?_, by rw [ofKey_key hq, hname]⟩
    rw [(get?_under_eq_some_iff h hp hnone).mpr ⟨q, hq, hroot, rfl, hget⟩]
    rfl
  · rintro ⟨k, hsome, hname⟩
    obtain ⟨v, hget⟩ := Option.isSome_iff_exists.mp hsome
    obtain ⟨q, hq, hroot, rfl, hjoin⟩ := (get?_under_eq_some_iff h hp hnone).mp hget
    refine ⟨((p.join q).key, v), (mem_descendants_iff_get? h hp hnone).mpr ⟨q, hq, hroot, rfl, hjoin⟩, ?_⟩
    rw [(ofKey_key_join hp hq).2, ← hname, ofKey_key hq]

end View

/-- Children are listed in order, each once. -/
theorem childrenOf_sorted (index : Index) (p : Path) : (index.childrenOf p).Pairwise (· < ·) :=
  List.pairwise_map.mpr
    (List.Pairwise.imp (fun hlt => compareOfLessAndEq_eq_lt.mp hlt) (Entries.ordered_ofList (_ : List (String × Unit))))

/-- The view of a path without an entry of its own. -/
theorem subtree_eq {index : Index} {p : Path} (hnone : index.entry p = none) :
    index.subtree p = if (index.descendants p).isEmpty then none else some (.object (index.nested p)) := by
  rw [subtree, hnone, ite_self]

/-- **The view of a subtree loses nothing.** In an index of leaves, at a path without an entry of its own, the view is
missing exactly where the index holds nothing below; else it is an object whose leaves are the entries below, with the
path taken off their keys, each once. The children are the first names of those keys, in order and each once. -/
theorem subtree_lossless {index : Index} (h : index.Leafy) {p : Path} (hp : p.Clean) (hnone : index.entry p = none) :
    (index.subtree p = none ↔ ∀ k, index.get? (p.under k) = none) ∧
      (∀ v, index.subtree p = some v →
        (∃ fields, v = .object fields) ∧ (v.flatten.map Prod.fst).Nodup ∧
          ∀ k w, (k, w) ∈ v.flatten ↔ index.get? (p.under k) = some w) ∧
      (index.childrenOf p).Pairwise (· < ·) ∧
      ∀ name, name ∈ index.childrenOf p ↔
        ∃ k, (index.get? (p.under k)).isSome ∧ (ofKey k).segments.head? = some name := by
  refine ⟨?_, fun v hv => ?_, childrenOf_sorted index p, fun name => mem_childrenOf_iff h hp hnone⟩
  · rw [← descendants_eq_nil_iff h hp hnone, subtree_eq hnone, ← List.isEmpty_iff]
    simp
  · rw [subtree_eq hnone] at hv
    split at hv
    · cases hv
    · obtain rfl := Option.some.inj hv
      exact ⟨⟨_, rfl⟩, nodup_flatten_nested h hp hnone, fun k w => mem_flatten_nested h hp hnone⟩

/-- Entries around and below a path: keys with a blank come before those with a dot. -/
def shelf : Index :=
  .ofList [("a.b", .null), ("a b.x", .bool true), ("a.c.d", .bool false), ("a.c.e", .list []), ("ab", .null)]

theorem shelf_leafy : shelf.Leafy := by
  have hspelled : ∀ k ∈ shelf.keys, Spelled k := by decide +kernel
  have hentries : shelf.entries =
      [("a b.x", .bool true), ("a.b", .null), ("a.c.d", .bool false), ("a.c.e", .list []), ("ab", .null)] := by
    decide +kernel
  refine ⟨fun k hk => ⟨ofKey k, ofKey_clean k, hspelled k hk⟩, by decide +kernel, fun k v hget fields hv => ?_⟩
  have hmem := Dict.get?_eq_some_iff_mem.mp hget
  rw [hentries, hv] at hmem
  simp at hmem

/-- The view of a path between such entries. -/
theorem subtree_lossless_shelf :
    (shelf.Leafy ∧ Clean ⟨["a"]⟩ ∧ shelf.entry ⟨["a"]⟩ = none) ∧
      shelf.subtree ⟨["a"]⟩ = some (.object [("b", .null), ("c", .object [("d", .bool false), ("e", .list [])])]) ∧
      shelf.childrenOf ⟨["a"]⟩ = ["b", "c"] ∧
      ∀ k w, (k, w) ∈ (Value.object [("b", .null), ("c", .object [("d", .bool false), ("e", .list [])])]).flatten ↔
        shelf.get? (under ⟨["a"]⟩ k) = some w := by
  have hclean : Clean ⟨["a"]⟩ := by simp [Clean]
  have hnone : shelf.entry ⟨["a"]⟩ = none := by decide +kernel
  have hview : shelf.subtree ⟨["a"]⟩ =
      some (.object [("b", .null), ("c", .object [("d", .bool false), ("e", .list [])])]) := by decide +kernel
  exact ⟨⟨shelf_leafy, hclean, hnone⟩, hview, by decide +kernel,
    ((subtree_lossless shelf_leafy hclean hnone).2.1 _ hview).2.2⟩

end PathLedger.Index
