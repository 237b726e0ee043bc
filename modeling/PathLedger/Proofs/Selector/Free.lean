import PathLedger.Proofs.Store.Reading

/-!
# Reading paths without selectors

A read looks for selectors in the raw segments of its path and for filters in the normalized ones. A path in
which it finds none is normalized and read, through a branch or through the index and its pointers.

* `Selector.Free` — raw paths in which a read finds no selector.
* `Selector.Direct` — the paths among them that a read takes as they are.
* `Index.Pointerless` — indexes without pointers, in which no path is redirected.
* `View.read_free` — **a path without selectors is normalized and read**.
* `View.read_direct` — **a direct path reads as what the walk from it ends at**.
-/

namespace PathLedger

namespace Selector

/-- A raw path in which a read finds no selector. -/
structure Free (p : Path) : Prop where
  transform : firstSegment? (selectorOf? Transform.parse?) p.segments = none
  selection : firstSegment? (selectorOf? keys?) p.segments = none
  filter : firstSegment? (fun s => Filter.parse? s.toList) p.normalize.segments = none

/-- A path that a read takes as it is. -/
structure Direct (p : Path) : Prop where
  free : Free p
  normal : p.normalize = p

variable {p : Path}

theorem free_iff : Free p ↔ firstSegment? (selectorOf? Transform.parse?) p.segments = none ∧
    firstSegment? (selectorOf? keys?) p.segments = none ∧
    firstSegment? (fun s => Filter.parse? s.toList) p.normalize.segments = none :=
  ⟨fun h => ⟨h.transform, h.selection, h.filter⟩, fun h => ⟨h.1, h.2.1, h.2.2⟩⟩

instance (p : Path) : Decidable (Free p) := decidable_of_iff _ free_iff.symm

theorem direct_iff : Direct p ↔ Free p ∧ p.normalize = p := ⟨fun h => ⟨h.1, h.2⟩, fun h => ⟨h.1, h.2⟩⟩

instance (p : Path) : Decidable (Direct p) := decidable_of_iff _ direct_iff.symm

/-- Letters and digits spell no selector. -/
theorem direct_of_plain (h : p.Plain) : Direct p := by
  have hnormal := Path.normalize_plain h
  refine ⟨⟨firstSegment?_selectorOf? _ h, firstSegment?_selectorOf? _ h, ?_⟩, hnormal⟩
  rw [hnormal]
  exact firstSegment?_eq_none fun s hs => Filter.parse?_plain (h s hs).2

end Selector

namespace Index

/-- No entry is a pointer. -/
def Pointerless (index : Index) : Prop := ∀ key target, index.get? key ≠ some (.pointer target)

theorem pointerless_empty : Pointerless .empty := by
  intro key target h
  cases h

theorem Pointerless.insert {index : Index} (h : Pointerless index) {v : Value}
    (hv : ∀ target, v ≠ .pointer target) (key : String) : Pointerless (index.insert key v) := by
  intro other target
  rw [get?_insert_eq]
  split
  · simpa using hv target
  · exact h other target

theorem Pointerless.redirect? {index : Index} (h : Pointerless index) (p : Path) :
    index.redirect? p = none :=
  redirect?_eq_none fun n _ => pointerAt?_eq_none.mpr fun target => h (p.take n).key target

end Index

namespace View

variable (view : View) {p : Path}

theorem readStep_free (h : Selector.Free p) (next : Next Option) (budget : Nat) :
    view.readStep next p budget = view.readPlain next p.normalize budget := by
  rw [readStep, Selector.readTransform, h.transform, Selector.readSelection, h.selection,
    Selector.readFilter, h.filter]
  rfl

theorem reading_free (h : Selector.Free p) (budget : Nat) :
    view.reading p budget = view.readPlain view.reading p.normalize budget := by
  rw [reading, view.readStep_free h]

/-- Where no pointer is stored exactly at a path, a read walks. -/
theorem readIndexed_walks (h : ∀ target, view.index.entry p ≠ some (.pointer target)) (next : Next Option)
    (budget : Nat) :
    view.readIndexed next p budget =
      if (view.index.walk budget p).exhausted then some none
      else
        match (view.index.walk budget p).raw with
        | some v => some (view.plain? (view.index.walk budget p).path v)
        | none =>
          if (view.index.walk budget p).path = p then some none
          else next (view.index.walk budget p).path (view.index.walk budget p).left := by
  unfold readIndexed
  split
  · rename_i target htarget
    exact absurd htarget (h target)
  · rfl

/-- A path in clear that no pointer redirects reads as its opened entry. -/
theorem reading_clear (h : Selector.Free p) (hclear : view.scopes.hidingScope? p.normalize = none)
    (hstays : view.index.redirect? p.normalize = none) (budget : Nat) :
    view.reading p budget = some ((view.index.entry p.normalize).bind (view.plain? p.normalize)) := by
  rw [reading_free view h, readPlain, hclear]
  dsimp only
  rw [readIndexed_walks view (Index.entry_ne_pointer hstays), Index.walk_of_redirect?_eq_none hstays]
  cases view.index.entry p.normalize <;> simp

/-- A hidden path reads as its entry in the branch, unless that is a pointer. -/
theorem reading_hidden (h : Selector.Free p) {scope : Path}
    (hscope : view.scopes.hidingScope? p.normalize = some scope)
    (hdata : ∀ target, view.branchEntry? scope p.normalize ≠ some (.pointer target)) (budget : Nat) :
    view.reading p budget = some (view.branchEntry? scope p.normalize) := by
  rw [reading_free view h, readPlain, hscope]
  dsimp only
  unfold readHidden
  split
  · rename_i target hpointer
    exact absurd hpointer (hdata target)
  · rfl

/-- A path in clear that no pointer redirects reads as its opened entry. -/
theorem read_clear (h : Selector.Free p) (hclear : view.scopes.hidingScope? p.normalize = none)
    (hstays : view.index.redirect? p.normalize = none) :
    view.read p = some ((view.index.entry p.normalize).bind (view.plain? p.normalize)) :=
  view.reading_clear h hclear hstays maxHops

/-- **A path without selectors is normalized and read.** -/
theorem read_free (h : Selector.Free p) : view.read p = view.readPlain view.reading p.normalize maxHops :=
  view.reading_free h maxHops

/-- What the index shows for a path: a pointer exactly there, or else what the walk from it ends at. -/
def shown (view : View) (p : Path) : Option Value :=
  match view.index.entry p with
  | some (.pointer target) => some (.pointer target)
  | _ => (view.index.walk maxHops p).raw.bind (view.plain? (view.index.walk maxHops p).path)

/-- What is shown comes from the index and the declarations. -/
theorem shown_congr {other : View} (hindex : other.index = view.index) (hscopes : other.scopes = view.scopes)
    (p : Path) : other.shown p = view.shown p := by
  have hplain (q : Path) : other.plain? q = view.plain? q := plain?_congr (by rw [hscopes])
  unfold shown
  rw [hindex, hplain]

/-- Where no pointer is stored exactly at a path, what is shown is what the walk from it ends at. -/
theorem shown_walks (h : ∀ target, view.index.entry p ≠ some (.pointer target)) :
    view.shown p = (view.index.walk maxHops p).raw.bind (view.plain? (view.index.walk maxHops p).path) := by
  unfold shown
  split
  · rename_i target htarget
    exact absurd htarget (h target)
  · rfl

/-- A read from where a walk ended without an entry finds nothing. -/
theorem readIndexed_of_walk {q : Path} (hstays : view.index.redirect? q = none)
    (hentry : view.index.entry q = none) (next : Next Option) (budget : Nat) :
    view.readIndexed next q budget = some none := by
  have hwalks : ∀ target, view.index.entry q ≠ some (.pointer target) := by
    intro target
    simp [hentry]
  rw [readIndexed_walks view hwalks, Index.walk_of_redirect?_eq_none hstays, hentry]
  simp

/-- **A direct path reads as what the walk from it ends at**, when nothing is hidden at either end. -/
theorem read_direct (h : Selector.Direct p) (hend : Selector.Direct (view.index.walk maxHops p).path)
    (hclear : view.scopes.hidingScope? p = none)
    (hclear' : view.scopes.hidingScope? (view.index.walk maxHops p).path = none) :
    view.read p = some (view.shown p) := by
  rw [view.read_free h.free, h.normal, readPlain, hclear]
  dsimp only
  by_cases hpointer : ∃ target, view.index.entry p = some (.pointer target)
  · obtain ⟨target, htarget⟩ := hpointer
    simp [readIndexed, shown, htarget]
  · have hwalks : ∀ target, view.index.entry p ≠ some (.pointer target) := not_exists.mp hpointer
    rw [readIndexed_walks view hwalks, shown_walks view hwalks]
    obtain ⟨-, -, -, -, ⟨hends, hsettled, hraw⟩ | ⟨hout, -, hraw, -⟩⟩ := view.index.walk_cases maxHops p
    · have hstays := Index.redirect?_eq_none_iff.mpr hsettled
      generalize view.index.walk maxHops p = w at *
      rw [hends, if_neg Bool.false_ne_true]
      cases hfound : w.raw with
      | some v => rfl
      | none =>
        -- The walk led away to no entry, so the read starts anew where it ended.
        have hentry : view.index.entry w.path = none := hraw.symm.trans hfound
        have hagain : view.reading w.path w.left = some none := by
          rw [reading_free view hend.free, hend.normal, readPlain, hclear']
          exact readIndexed_of_walk view hstays hentry _ _
        dsimp only
        rw [hagain, ite_self]
        rfl
    · simp [hout, hraw]

end View

end PathLedger
