import PathLedger.Proofs.Selector.Free
import PathLedger.Proofs.Store.PlainRuns

/-!
# Where pointers lead

A read hops: through the pointers of the index, and behind a pointer that it finds in a branch. Each hop takes one
unit of a budget. A read arrives when it comes to a value, or to nothing, before the budget runs out.

* `Index.walk_plain` — among plain pointers a walk from a plain path stays plain.
* `View.Arrives` — a read that comes to its result within a budget of hops.
* `View.PlainPointers` — the pointers that reads of plain paths come to lead to plain paths.
* `View.Arrives.reading_eq` — **a read that arrives gives that result**.
* `View.Arrives.succ` — **a larger budget changes nothing**.
-/

namespace PathLedger

namespace Path

theorem take_join (p q : Path) : (p.join q).take p.length = p := by
  rw [take, join, length, List.take_left]

theorem drop_join (p q : Path) : (p.join q).drop p.length = q := by
  rw [drop, join, length, List.drop_left]

theorem length_lt_join (p : Path) {q : Path} (h : q.isRoot = false) : p.length < (p.join q).length := by
  have := length_pos h
  rw [length] at this
  rw [join, length, length, List.length_append]
  omega

end Path

/-! ## Walks -/

namespace Index

variable {index : Index} {p : Path}

/-- Plain pointers redirect plain paths to plain paths. -/
theorem redirect?_plain (hpointers : ∀ p q, index.pointerAt? p = some q → q.Plain) (hp : p.Plain) {q : Path}
    (h : index.redirect? p = some q) : q.Plain := by
  unfold redirect? at h
  split at h
  · rename_i target htarget
    obtain rfl := Option.some.inj h
    exact hpointers p target htarget
  · obtain ⟨n, -, hn⟩ := List.exists_of_findSome?_eq_some h
    obtain ⟨target, htarget, rfl⟩ := Option.map_eq_some_iff.mp hn
    exact (hpointers _ _ htarget).join fun s hs => hp s (List.mem_of_mem_drop hs)

theorem walk_plain (hpointers : ∀ p q, index.pointerAt? p = some q → q.Plain) (budget : Nat) (hp : p.Plain) :
    (index.walk budget p).path.Plain := by
  induction budget generalizing p with
  | zero =>
    unfold walk
    split <;> exact hp
  | succ budget ih =>
    unfold walk
    split
    · exact hp
    · rename_i q hq
      exact ih (redirect?_plain hpointers hp hq)

end Index

/-! ## Reads -/

namespace View

/-- A read of a path without selectors that comes to its result within a budget of hops. -/
inductive Arrives (view : View) : Nat → Path → Option Value → Prop where
  /-- A hidden path holds a value in its branch, or nothing. -/
  | opened {budget : Nat} {p scope : Path} (hscope : view.scopes.hidingScope? p = some scope)
    (hdata : ∀ target, view.branchEntry? scope p ≠ some (.pointer target)) :
    Arrives view budget p (view.branchEntry? scope p)
  /-- A pointer in a branch takes a hop. -/
  | hop {budget : Nat} {p scope : Path} {target : String} {found : Option Value}
    (hscope : view.scopes.hidingScope? p = some scope)
    (hpointer : view.branchEntry? scope p = some (.pointer target))
    (h : Arrives view budget (Path.canonical target) found) : Arrives view (budget + 1) p found
  /-- A pointer in the index exactly at a path is what is read. -/
  | marker {budget : Nat} {p : Path} {target : String} (hclear : view.scopes.hidingScope? p = none)
    (hpointer : view.index.entry p = some (.pointer target)) : Arrives view budget p (some (.pointer target))
  /-- A walk ends at an entry, or at once. -/
  | walked {budget : Nat} {p : Path} (hclear : view.scopes.hidingScope? p = none)
    (hwalks : ∀ target, view.index.entry p ≠ some (.pointer target))
    (hends : (view.index.walk budget p).exhausted = false)
    (hstops : (view.index.walk budget p).raw ≠ none ∨ (view.index.walk budget p).path = p) :
    Arrives view budget p ((view.index.walk budget p).raw.bind (view.plain? (view.index.walk budget p).path))
  /-- A walk leads to no entry, and the read starts anew where it ended. -/
  | anew {budget : Nat} {p : Path} {found : Option Value} (hclear : view.scopes.hidingScope? p = none)
    (hwalks : ∀ target, view.index.entry p ≠ some (.pointer target))
    (hends : (view.index.walk budget p).exhausted = false) (hraw : (view.index.walk budget p).raw = none)
    (haway : (view.index.walk budget p).path ≠ p)
    (h : Arrives view (view.index.walk budget p).left (view.index.walk budget p).path found) :
    Arrives view budget p found

/-- The pointers that reads of plain paths come to, in the index and in the branches of hidden paths, lead to plain
paths. -/
structure PlainPointers (view : View) : Prop where
  index : ∀ p q, view.index.pointerAt? p = some q → q.Plain
  branches : ∀ p scope target, p.Plain → view.scopes.hidingScope? p = some scope →
    view.branchEntry? scope p = some (.pointer target) → (Path.canonical target).Plain

namespace Arrives

variable {view : View} {budget : Nat} {p : Path} {found : Option Value}

/-- **A read that arrives gives that result.** -/
theorem reading_eq (h : view.Arrives budget p found) (hpointers : view.PlainPointers) (hp : p.Plain) :
    view.reading p budget = some found := by
  induction h with
  | opened hscope hdata =>
    have hnormal := Path.normalize_plain hp
    rw [reading_hidden view (Selector.direct_of_plain hp).free (by rwa [hnormal]) (by rwa [hnormal]), hnormal]
  | @hop budget p scope target found hscope hpointer h ih =>
    rw [reading, readStep_plain view hp, readPlain, hscope]
    dsimp only
    rw [readHidden, hpointer]
    exact ih (hpointers.branches p scope target hp hscope hpointer)
  | @marker budget p target hclear hpointer =>
    rw [reading, readStep_plain view hp, readPlain, hclear]
    dsimp only
    rw [readIndexed, hpointer]
    rfl
  | @walked budget p hclear hwalks hends hstops =>
    rw [reading, readStep_plain view hp, readPlain, hclear]
    dsimp only
    rw [readIndexed_walks view hwalks, hends, if_neg Bool.false_ne_true]
    cases hraw : (view.index.walk budget p).raw with
    | some v => rfl
    | none => exact if_pos (hstops.resolve_left fun hne => hne hraw)
  | @anew budget p found hclear hwalks hends hraw haway h ih =>
    rw [reading, readStep_plain view hp, readPlain, hclear]
    dsimp only
    rw [readIndexed_walks view hwalks, hends, if_neg Bool.false_ne_true, hraw]
    dsimp only
    rw [if_neg haway]
    exact ih (Index.walk_plain hpointers.index budget hp)

/-- **A plain path from which a read arrives reads as that result.** -/
theorem read_eq (h : view.Arrives maxHops p found) (hpointers : view.PlainPointers) (hp : p.Plain) :
    view.read p = some found := h.reading_eq hpointers hp

/-- **A larger budget changes nothing.** -/
theorem succ (h : view.Arrives budget p found) : view.Arrives (budget + 1) p found := by
  induction h with
  | opened hscope hdata => exact .opened hscope hdata
  | hop hscope hpointer _ ih => exact .hop hscope hpointer ih
  | marker hclear hpointer => exact .marker hclear hpointer
  | @walked budget p hclear hwalks hends hstops =>
    have hwalk := Index.walk_add hends 1
    have h : view.Arrives (budget + 1) p _ := .walked hclear hwalks (by rw [hwalk, hends]) (by rwa [hwalk])
    rwa [hwalk] at h
  | @anew budget p found hclear hwalks hends hraw haway _ ih =>
    have hwalk := Index.walk_add hends 1
    exact .anew hclear hwalks (by rw [hwalk, hends]) (by rw [hwalk, hraw]) (by rwa [hwalk]) (by rwa [hwalk])

end Arrives

end View

end PathLedger
