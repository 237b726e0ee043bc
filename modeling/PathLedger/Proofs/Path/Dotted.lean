import PathLedger.Proofs.Path.Keys

/-!
# Names with dots, and their keys

A key runs the segments of a path together with dots between them. A name in quotation marks and brackets may hold dots
of its own, and so may a bracket that is not closed. The key does not tell these dots from those between the segments.

* `Path.pieces` — the segments cut at the dots that they hold.
* `Path.ofKey_key_iff` — a path is read back from its key where it is clean.
* `Path.key_eq_iff` — **two paths share a key exactly when their pieces are the same**.
* `Path.key_tells_path` — the paths of texts that are told by their keys.
* `Path.dotted_names_share` — two texts that name different paths and share a key.
-/

namespace PathLedger.Path

open Text

/-- The segments of a path, cut at the dots that they hold. -/
def pieces (p : Path) : List String := p.segments.flatMap fun s => (splitAll '.' s.toList).map String.ofList

/-- A key cut at its dots gives the pieces of its segments. -/
theorem splitAll_joinSegments {segments : List String} (hne : segments ≠ []) :
    splitAll '.' (joinSegments segments).toList = segments.flatMap fun s => splitAll '.' s.toList := by
  induction segments with
  | nil => exact absurd rfl hne
  | cons s rest ih =>
    cases rest with
    | nil => rw [List.flatMap_singleton, joinSegments]
    | cons t more =>
      have htext : (joinSegments (s :: t :: more)).toList = s.toList ++ '.' :: (joinSegments (t :: more)).toList := by
        show (s ++ "." ++ joinSegments (t :: more)).toList = _
        rw [String.toList_append, String.toList_append, List.append_assoc]
        rfl
      rw [List.flatMap_cons, htext, splitAll_append_cons, ih (List.cons_ne_nil t more)]

theorem splitAll_key {p : Path} (h : p.isRoot = false) : (splitAll '.' p.key.toList).map String.ofList = p.pieces := by
  rw [key, splitAll_joinSegments (by simpa [isRoot] using h), List.map_flatMap, pieces]

theorem pieces_eq_nil_iff {p : Path} : p.pieces = [] ↔ p.isRoot := by
  rw [pieces, List.flatMap_eq_nil_iff, isRoot, List.isEmpty_iff]
  constructor
  · intro h
    refine List.eq_nil_iff_forall_not_mem.mpr fun s hs => splitAll_ne_nil '.' s.toList ?_
    exact List.map_eq_nil_iff.mp (h s hs)
  · rintro h s hs
    rw [h] at hs
    cases hs

/-- The pieces with dots between them are the key again. -/
theorem key_eq_joinWith (p : Path) : p.key = String.ofList (joinWith '.' (p.pieces.map String.toList)) := by
  cases hroot : p.isRoot with
  | true =>
    have hsegments : p.segments = [] := List.isEmpty_iff.mp hroot
    rw [pieces_eq_nil_iff.mpr hroot, key, hsegments]
    rfl
  | false =>
    have hpieces : p.pieces.map String.toList = splitAll '.' p.key.toList := by
      rw [← splitAll_key hroot, List.map_map]
      refine (List.map_congr_left fun s _ => ?_).trans (List.map_id _)
      exact String.toList_ofList
    rw [hpieces, joinWith_splitAll, String.ofList_toList]

/-- **Two paths share a key exactly when their pieces are the same**, where no segment is empty. -/
theorem key_eq_iff {p q : Path} (hp : ∀ s ∈ p.segments, s ≠ "") (hq : ∀ s ∈ q.segments, s ≠ "") :
    p.key = q.key ↔ p.pieces = q.pieces := by
  constructor
  · intro h
    -- The empty key is the root's alone.
    have hroot : p.isRoot = q.isRoot := by
      have hempty {p q : Path} (h : p.key = q.key) (hq : ∀ s ∈ q.segments, s ≠ "") (hroot : p.isRoot) : q.isRoot := by
        cases hne : q.isRoot with
        | true => rfl
        | false => exact absurd (by rw [← h, key, List.isEmpty_iff.mp hroot]; rfl) (key_ne_empty hq hne)
      exact Bool.eq_iff_iff.mpr ⟨hempty h hq, hempty h.symm hp⟩
    cases hp' : p.isRoot with
    | true => rw [pieces_eq_nil_iff.mpr hp', pieces_eq_nil_iff.mpr (hroot ▸ hp')]
    | false => rw [← splitAll_key hp', h, splitAll_key (hroot ▸ hp')]
  · intro h
    rw [key_eq_joinWith, h, ← key_eq_joinWith]

/-- A path is read back from its key exactly where it is clean. -/
theorem ofKey_key_iff {p : Path} : ofKey p.key = p ↔ p.Clean :=
  ⟨fun h => h ▸ ofKey_clean p.key, ofKey_key⟩

theorem canonical_clean_iff {raw : String} :
    (canonical raw).Clean ↔ ∀ s ∈ (canonical raw).segments, '.' ∉ s.toList :=
  ⟨fun h s hs => (h s hs).2, fun h s hs => ⟨canonical_segments s hs, h s hs⟩⟩

/-- **A key tells the path of a text exactly where no name of the path holds a dot**, and two texts share a key exactly
when their paths, cut at the dots in their names, have the same pieces. So paths without dotted names are told apart. -/
theorem key_tells_path (x y : String) :
    (ofKey (canonical x).key = canonical x ↔ ∀ s ∈ (canonical x).segments, '.' ∉ s.toList) ∧
      ((canonical x).key = (canonical y).key ↔ (canonical x).pieces = (canonical y).pieces) ∧
      ((∀ s ∈ (canonical x).segments ++ (canonical y).segments, '.' ∉ s.toList) →
        (canonical x).key = (canonical y).key → canonical x = canonical y) := by
  refine ⟨ofKey_key_iff.trans canonical_clean_iff, key_eq_iff canonical_segments canonical_segments, fun h => ?_⟩
  have hx : (canonical x).Clean := canonical_clean_iff.mpr fun s hs => h s (List.mem_append_left _ hs)
  have hy : (canonical y).Clean := canonical_clean_iff.mpr fun s hs => h s (List.mem_append_right _ hs)
  exact key_inj hx hy

/-- Two spellings of a path without dotted names, and a name with a dot. -/
theorem key_tells_path_latte :
    (∀ s ∈ (canonical "menu['latte'].price").segments ++ (canonical " menu.latte.[price]").segments, '.' ∉ s.toList) ∧
      (canonical "menu['latte'].price").key = (canonical " menu.latte.[price]").key ∧
      canonical "menu['latte'].price" = canonical " menu.latte.[price]" ∧
      ¬ofKey (canonical "menu['latte.price']").key = canonical "menu['latte.price']" := by
  have hnames : ∀ s ∈ (canonical "menu['latte'].price").segments ++ (canonical " menu.latte.[price]").segments,
      '.' ∉ s.toList := by decide +kernel
  have hkey : (canonical "menu['latte'].price").key = (canonical " menu.latte.[price]").key := by decide +kernel
  have hdotted : ¬∀ s ∈ (canonical "menu['latte.price']").segments, '.' ∉ s.toList := by decide +kernel
  exact ⟨hnames, hkey, (key_tells_path _ _).2.2 hnames hkey, mt (key_tells_path _ "").1.mp hdotted⟩

/-- **Different paths share a key.** A name in quotation marks that holds a dot stands for another path than the two
names do, and a bracket that stays open is one segment that is cut when its key is read. -/
theorem dotted_names_share :
    canonical "a[\"b.c\"]" ≠ canonical "a.b.c" ∧ (canonical "a[\"b.c\"]").key = (canonical "a.b.c").key ∧
      ofKey (canonical "a[\"b.c\"]").key ≠ canonical "a[\"b.c\"]" ∧ ofKey (canonical "[b.c").key ≠ canonical "[b.c" := by
  decide +kernel

end PathLedger.Path
