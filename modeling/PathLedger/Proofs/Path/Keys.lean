import PathLedger.Path.Basic

/-!
# Paths and their keys

A key is a path with its segments run together, and cutting it at the dots gives back a path whose segments
are neither empty nor dotted. Only for such paths nothing is lost on the way.

* `Path.Clean` — no segment is empty or holds a dot.
* `Path.Named` — no segment is empty; `Path.named_normalize` says so of every path that is expanded.
* `Path.ofKey_key` — **a clean path is read back from its key**.
* `Path.Spelled` — a key that says the same as the path cut from it.
* `Path.ofKey_under` — a key below another spells a path below the other's path.
* `Path.atOrUnder_key_iff` — for clean paths, lying at or below one another is the same for keys and segments.
-/

namespace PathLedger

namespace Text

theorem splitAll_append_cons (sep : Char) (s t : List Char) :
    splitAll sep (s ++ sep :: t) = splitAll sep s ++ splitAll sep t := by
  induction s with
  | nil => simp [splitAll]
  | cons c r ih =>
    obtain ⟨piece, rest, hr⟩ := List.exists_cons_of_ne_nil (splitAll_ne_nil sep r)
    rw [hr] at ih
    rw [List.cons_append, splitAll, ih, splitAll, hr]
    split <;> rfl

theorem splitAll_of_not_mem {sep : Char} {s : List Char} (h : sep ∉ s) : splitAll sep s = [s] := by
  induction s with
  | nil => rfl
  | cons c r ih =>
    obtain ⟨hc, hr⟩ := not_or.mp (mt List.mem_cons.mpr h)
    rw [splitAll, ih hr, if_neg (Ne.symm hc)]

/-- Pieces that hold no separator are read back from where they were joined. -/
theorem splitAll_joinWith {sep : Char} {pieces : List (List Char)} (hne : pieces ≠ [])
    (h : ∀ piece ∈ pieces, sep ∉ piece) : splitAll sep (joinWith sep pieces) = pieces := by
  induction pieces with
  | nil => exact absurd rfl hne
  | cons piece rest ih =>
    obtain ⟨hpiece, hrest⟩ := List.forall_mem_cons.mp h
    cases rest with
    | nil => exact splitAll_of_not_mem hpiece
    | cons next more =>
      show splitAll sep (piece ++ sep :: joinWith sep (next :: more)) = _
      rw [splitAll_append_cons, splitAll_of_not_mem hpiece, ih (List.cons_ne_nil next more) hrest]
      rfl

theorem mem_of_mem_splitAll {sep : Char} {s piece : List Char} (h : piece ∈ splitAll sep s) {c : Char}
    (hc : c ∈ piece) : c ∈ s := by
  induction s generalizing piece with
  | nil =>
    obtain rfl := List.mem_singleton.mp h
    exact hc
  | cons d r ih =>
    obtain ⟨first, rest, hr⟩ := List.exists_cons_of_ne_nil (splitAll_ne_nil sep r)
    rw [hr] at ih
    rw [splitAll, hr] at h
    split at h
    · rcases List.mem_cons.mp h with rfl | h
      · cases hc
      · exact List.mem_cons_of_mem _ (ih h hc)
    · rcases List.mem_cons.mp h with rfl | h
      · rcases List.mem_cons.mp hc with rfl | hc
        · exact List.mem_cons_self
        · exact List.mem_cons_of_mem _ (ih List.mem_cons_self hc)
      · exact List.mem_cons_of_mem _ (ih (List.mem_cons_of_mem _ h) hc)

end Text

namespace Path

open Text

/-- No segment is empty or holds a dot. -/
def Clean (p : Path) : Prop := ∀ s ∈ p.segments, s ≠ "" ∧ '.' ∉ s.toList

instance (p : Path) : Decidable p.Clean :=
  inferInstanceAs (Decidable (∀ s ∈ p.segments, s ≠ "" ∧ '.' ∉ s.toList))

/-- No segment is empty. -/
def Named (p : Path) : Prop := ∀ s ∈ p.segments, s ≠ ""

theorem Clean.named {p : Path} (h : p.Clean) : p.Named := fun s hs => (h s hs).1

theorem Named.take {p : Path} (h : p.Named) (n : Nat) : (p.take n).Named :=
  fun s hs => h s (List.mem_of_mem_take hs)

theorem Named.join {p q : Path} (hp : p.Named) (hq : q.Named) : (p.join q).Named :=
  fun s hs => (List.mem_append.mp hs).elim (hp s) (hq s)

theorem Clean.take {p : Path} (h : p.Clean) (n : Nat) : (p.take n).Clean :=
  fun s hs => h s (List.mem_of_mem_take hs)

theorem take_length (p : Path) : p.take p.length = p := by
  rw [take, length, List.take_length]

theorem length_take {p : Path} {n : Nat} (h : n ≤ p.length) : (p.take n).length = n := by
  rw [length, take, List.length_take]
  exact Nat.min_eq_left h

theorem drop_ne_nil {p : Path} {n : Nat} (h : n < p.length) : (p.drop n).segments ≠ [] := by
  rw [drop, ne_eq, List.drop_eq_nil_iff]
  exact Nat.not_le.mpr h

theorem isRoot_drop {p : Path} {n : Nat} (h : p.length ≤ n) : (p.drop n).isRoot := by
  rw [isRoot, drop, List.isEmpty_iff]
  exact List.drop_eq_nil_of_le h

theorem length_pos {p : Path} (h : p.isRoot = false) : 1 ≤ p.length :=
  List.length_pos_iff.mpr (by simpa [isRoot] using h)

theorem length_child (p : Path) (name : String) : (p.child name).length = p.length + 1 := by
  rw [length, child, List.length_append]
  rfl

theorem isRoot_child (p : Path) (name : String) : (p.child name).isRoot = false := by
  simp [isRoot, child]

theorem take_child (p : Path) (name : String) : (p.child name).take p.length = p := by
  rw [take, child, length, List.take_left']
  rfl

theorem take_child_of_le {p : Path} {n : Nat} (h : n ≤ p.length) (name : String) :
    (p.child name).take n = p.take n := by
  rw [take, child, List.take_append_of_le_length h]
  rfl

theorem drop_child (p : Path) (name : String) : ((p.child name).drop p.length).segments = [name] := by
  rw [drop, child, length, List.drop_left']
  rfl

theorem nonEmpty_append (a b : List (List Char)) : nonEmpty (a ++ b) = nonEmpty a ++ nonEmpty b :=
  List.filter_append ..

theorem ofKey_clean (key : String) : (ofKey key).Clean := by
  intro s hs
  obtain ⟨piece, hpiece, rfl⟩ := List.mem_map.mp hs
  obtain ⟨hmem, hne⟩ := List.mem_filter.mp hpiece
  constructor
  · intro hempty
    rw [String.ofList_eq_empty_iff] at hempty
    simp [hempty] at hne
  · rw [String.toList_ofList]
    exact mem_splitAll_not_mem hmem

/-! ## Keys -/

/-- A key is the key of its path in front and the rest behind a dot. -/
theorem joinSegments_append {a b : List String} (ha : a ≠ []) (hb : b ≠ []) :
    joinSegments (a ++ b) = joinSegments a ++ "." ++ joinSegments b := by
  induction a with
  | nil => exact absurd rfl ha
  | cons s rest ih =>
    cases rest with
    | nil =>
      obtain ⟨t, more, rfl⟩ := List.exists_cons_of_ne_nil hb
      rfl
    | cons u more =>
      show s ++ "." ++ joinSegments (u :: more ++ b) = s ++ "." ++ joinSegments (u :: more) ++ "." ++ _
      rw [ih (List.cons_ne_nil u more)]
      simp only [String.append_assoc]

/-- A key that goes on behind a dot spells the paths of both parts one after the other. -/
theorem ofKey_append (key rest : String) : ofKey (key ++ "." ++ rest) = (ofKey key).join (ofKey rest) := by
  have hchars : (key ++ "." ++ rest).toList = key.toList ++ '.' :: rest.toList := by
    simp [String.toList_append]
  rw [ofKey, hchars, splitAll_append_cons, nonEmpty_append, List.map_append]
  rfl

theorem ofKey_segment {s : String} (hne : s ≠ "") (hdot : '.' ∉ s.toList) : ofKey s = ⟨[s]⟩ := by
  have hchars : s.toList ≠ [] := by simpa using hne
  rw [ofKey, splitAll_of_not_mem hdot, nonEmpty]
  simp [hchars]

/-- **A clean path is read back from its key.** -/
theorem ofKey_key {p : Path} (h : p.Clean) : ofKey p.key = p := by
  obtain ⟨segments⟩ := p
  induction segments with
  | nil => rfl
  | cons s rest ih =>
    obtain ⟨hne, hdot⟩ := h s List.mem_cons_self
    cases rest with
    | nil => exact ofKey_segment hne hdot
    | cons t more =>
      have ih := ih fun u hu => h u (List.mem_cons_of_mem _ hu)
      show ofKey (s ++ "." ++ joinSegments (t :: more)) = _
      rw [ofKey_append, ofKey_segment hne hdot]
      show Path.join ⟨[s]⟩ (ofKey (Path.key ⟨t :: more⟩)) = _
      rw [ih]
      rfl

theorem key_inj {p q : Path} (hp : p.Clean) (hq : q.Clean) (h : p.key = q.key) : p = q := by
  rw [← ofKey_key hp, h, ofKey_key hq]

/-! ## Spelled keys -/

/-- A key that says the same as the segments cut from it. -/
def Spelled (key : String) : Prop := (ofKey key).key = key

instance (key : String) : Decidable (Spelled key) := inferInstanceAs (Decidable (_ = _))

theorem Spelled.isRoot {key : String} (h : Spelled key) (hne : key ≠ "") : (ofKey key).isRoot = false := by
  cases hroot : (ofKey key).isRoot with
  | false => rfl
  | true =>
    have hempty : (ofKey key).segments = [] := by simpa [Path.isRoot] using hroot
    have : (ofKey key).key = "" := by rw [Path.key, hempty]; rfl
    exact absurd (h.symm.trans this) hne

/-- The segments cut from a key that is none of them lead nowhere on their way to a spelled key. -/
theorem spelled_of_take {key : String} {n : Nat} (h : ((ofKey key).take n).key = key) : Spelled key := by
  have htake : ofKey key = (ofKey key).take n := by
    have := ofKey_key ((ofKey_clean key).take n)
    rwa [h] at this
  rw [Spelled, htake]
  exact h

theorem Clean.spelled {p : Path} (h : p.Clean) : Spelled p.key := by
  rw [Spelled, ofKey_key h]

/-! ## Keys that are not empty -/

/-- Every segment of a text names something. -/
theorem named_normalize (p : Path) : p.normalize.Named := by
  intro s hs
  obtain ⟨piece, hpiece, rfl⟩ := List.mem_map.mp hs
  obtain ⟨segment, -, hpiece⟩ := List.mem_flatMap.mp hpiece
  have hnonempty (l : List (List Char)) (h : piece ∈ nonEmpty l) : piece ≠ [] := by
    rintro rfl
    simp [nonEmpty] at h
  have hne : piece ≠ [] := by
    unfold expand at hpiece
    dsimp only at hpiece
    split at hpiece
    · exact hnonempty _ hpiece
    · rename_i htail
      rcases List.mem_append.mp hpiece with hpiece | hpiece
      · exact hnonempty _ hpiece
      · split at hpiece
        · exact hnonempty _ hpiece
        · obtain rfl := List.mem_singleton.mp hpiece
          simpa using htail
  intro hempty
  exact hne (String.ofList_eq_empty_iff.mp hempty)

theorem canonical_segments {raw : String} : ∀ s ∈ (canonical raw).segments, s ≠ "" := named_normalize _

theorem joinSegments_ne_empty {segments : List String} {s : String} (hs : s ∈ segments) (hne : s ≠ "") :
    joinSegments segments ≠ "" := by
  match segments with
  | [t] =>
    obtain rfl := List.mem_singleton.mp hs
    exact hne
  | t :: u :: more =>
    intro hkey
    have : t ++ "." ++ joinSegments (u :: more) = "" := hkey
    simp at this

theorem key_ne_empty {p : Path} (h : p.Named) (hp : p.isRoot = false) : p.key ≠ "" := by
  obtain ⟨s, hs⟩ := List.exists_mem_of_ne_nil p.segments (by simpa [isRoot] using hp)
  exact joinSegments_ne_empty hs (h s hs)

/-! ## Below one another -/

/-- A key below another spells a path below the other's path. -/
theorem ofKey_under {key top : String} (hne : top ≠ "") (h : atOrUnder key top) :
    (ofKey top).segments <+: (ofKey key).segments := by
  simp only [atOrUnder, Bool.or_eq_true, decide_eq_true_eq, List.isPrefixOf_iff_prefix] at h
  rcases h with (h | h) | h
  · exact absurd (String.isEmpty_iff.mp h) hne
  · subst h
    exact List.prefix_refl _
  · obtain ⟨rest, hrest⟩ := h
    have hkey : key = top ++ "." ++ String.ofList rest := by
      rw [← String.toList_inj, String.toList_append, String.toList_ofList, hrest]
    rw [hkey, ofKey_append]
    exact List.prefix_append _ _

theorem atOrUnder_of_prefix {p q : Path} (hp : p.isRoot = false) (h : p.segments <+: q.segments) :
    atOrUnder q.key p.key := by
  obtain ⟨rest, hrest⟩ := h
  simp only [atOrUnder, Bool.or_eq_true, decide_eq_true_eq, List.isPrefixOf_iff_prefix]
  cases rest with
  | nil =>
    rw [List.append_nil] at hrest
    exact .inl (.inr (by rw [key, key, hrest]))
  | cons t more =>
    have hne : p.segments ≠ [] := by simpa [isRoot] using hp
    refine .inr ⟨(joinSegments (t :: more)).toList, ?_⟩
    rw [key, key, ← hrest, joinSegments_append hne (List.cons_ne_nil t more)]
    simp only [String.toList_append]

/-- For clean paths, lying below one another is the same for keys and segments. -/
theorem atOrUnder_key {p q : Path} (hp : p.Clean) (hq : q.Clean) (hroot : p.isRoot = false) :
    atOrUnder q.key p.key = true ↔ p.segments <+: q.segments := by
  constructor
  · intro h
    have := ofKey_under (key_ne_empty hp.named hroot) h
    rwa [ofKey_key hp, ofKey_key hq] at this
  · exact atOrUnder_of_prefix hroot

theorem atOrUnder_of_isRoot {p : Path} (h : p.isRoot) (key : String) : atOrUnder key p.key := by
  have hnil : p.segments = [] := by simpa [isRoot] using h
  rw [Path.key, hnil]
  rfl

/-- For clean paths, the root among them, lying at or below one another is the same for keys and segments. -/
theorem atOrUnder_key_iff {p q : Path} (hp : p.Clean) (hq : q.Clean) :
    atOrUnder q.key p.key = true ↔ p.segments <+: q.segments := by
  cases hroot : p.isRoot with
  | true =>
    have hnil : p.segments = [] := by simpa [isRoot] using hroot
    refine iff_of_true (atOrUnder_of_isRoot hroot q.key) ?_
    rw [hnil]
    exact List.nil_prefix
  | false => exact atOrUnder_key hp hq hroot

end Path

end PathLedger
