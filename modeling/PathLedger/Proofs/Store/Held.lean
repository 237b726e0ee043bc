import PathLedger.Proofs.Store.Branches
import PathLedger.Proofs.Store.ReadBack

/-!
# Values at separate paths

Values are kept at plain paths none of which lies below another. Each of them is held in the branch of a
hiding scope, sealed in the index, or plain in the index.

* `Path.Separate` — plain paths of which none is the root or lies below another.
* `Store.Tidy` — the stores that edits of separate paths lead to; a read finds what they hold.
* `Store.Sets` — what is held for one path changes, and for no other.
-/

namespace PathLedger

namespace Path

/-- Plain paths of which none is the root or lies below another. -/
structure Separate (P : Path → Prop) : Prop where
  plain {p : Path} (hp : P p) : p.Plain
  nonroot {p : Path} (hp : P p) : p.isRoot = false
  eq_of_prefix {p q : Path} (hp : P p) (hq : P q) (h : p.segments <+: q.segments) : p = q

namespace Separate

variable {P : Path → Prop} (hP : Separate P) {p q : Path} (hp : P p) (hq : P q)

include hP hp hq

theorem key_ne (hne : q ≠ p) : q.key ≠ p.key :=
  mt (key_inj (hP.plain hq).clean (hP.plain hp).clean) hne

/-- No path lies at or below another, and none at or below a scope above another. -/
theorem not_prefix_take {n : Nat} (hn : n < q.length) : ¬p.segments <+: (q.take n).segments := by
  intro hstarts
  obtain rfl := hP.eq_of_prefix hp hq (hstarts.trans (List.take_prefix n q.segments))
  have := hstarts.length_le
  rw [take, List.length_take] at this
  rw [length] at hn
  omega

theorem not_prefix (hne : q ≠ p) : ¬p.segments <+: q.segments :=
  fun hstarts => hne (hP.eq_of_prefix hp hq hstarts).symm

/-- Below one scope, neither path goes on as the other does. -/
theorem apart (hne : q ≠ p) {n : Nat} (h : p.take n = q.take n) :
    Value.Apart (p.drop n).segments (q.drop n).segments := by
  have hjoin (a : Path) : (a.take n).segments ++ (a.drop n).segments = a.segments :=
    List.take_append_drop n a.segments
  constructor
  · intro hstarts
    refine hne (hP.eq_of_prefix hp hq ?_).symm
    rw [← hjoin p, ← hjoin q, h]
    exact (List.prefix_append_right_inj _).mpr hstarts
  · intro hstarts
    refine hne (hP.eq_of_prefix hq hp ?_)
    rw [← hjoin p, ← hjoin q, h]
    exact (List.prefix_append_right_inj _).mpr hstarts

end Separate

end Path

namespace Store

variable {P : Path → Prop} {used : Nat} {s t : Store} {p q scope : Path} {v : Value}

/-! ## Tidy stores -/

/-- A store in which only separate paths have been edited, with no more room used than told. -/
structure Tidy (P : Path → Prop) (used : Nat) (s : Store) : Prop where
  settled : Settled s
  operators : s.operators = .initial
  current : IndexCurrent s
  /-- What sets a key is at one of the paths and carries data. -/
  records : ∀ r ∈ s.ledger.records, Index.setsKey r →
    (∃ p, P p ∧ r.path = p.key) ∧ ∀ target, r.value ≠ .pointer target
  /-- None of the paths is a scope with a secret. -/
  silent : ∀ p, P p → s.scopes.liveAt p = false
  /-- Branches belong to scopes above the paths. -/
  branches : ∀ key ∈ s.branches.keys, ∃ q n, P q ∧ n < q.length ∧ (q.take n).key = key
  room : ∀ q n, P q → n < q.length → Wire.roomFields (s.branchFields (q.take n)) ≤ used

namespace Tidy

theorem mono {more : Nat} (h : Tidy P used s) (hle : used ≤ more) : Tidy P more s :=
  { h with room := fun q n hq hn => Nat.le_trans (h.room q n hq hn) hle }

/-- The scope that hides one of the paths lies strictly above it. -/
theorem hidden (h : Tidy P used s) (hp : P p) (hscope : s.scopes.hidingScope? p = some scope) :
    ∃ n, n < p.length ∧ scope = p.take n ∧ scope.length = n ∧ s.scopes.effectiveSecret scope ≠ "" :=
  Scopes.hidingScope?_above (h.silent p hp) hscope

/-- Every entry of the index is at one of the paths and carries data. -/
theorem index (h : Tidy P used s) {key : String} (hkey : s.index.get? key = some v) :
    (∃ p, P p ∧ key = p.key) ∧ ∀ target, v ≠ .pointer target := by
  rw [h.current] at hkey
  obtain ⟨r, hr, hsets, -, rfl, rfl⟩ := Index.exists_of_materialize_get? hkey
  exact h.records r hr hsets

theorem pointerAt? (h : Tidy P used s) (p : Path) : s.index.pointerAt? p = none :=
  Index.pointerAt?_eq_none.mpr fun target hentry => (h.index hentry).2 target rfl

/-- What is held is what is read. -/
theorem read (h : Tidy P used s) (hP : Path.Separate P) (hp : P p)
    (hdata : ∀ target, s.held p ≠ some (.pointer target)) : s.read p.key = some (s.held p) :=
  read_eq_held (hP.plain hp) (h.silent p hp) (fun _ _ _ => h.pointerAt? _) hdata

end Tidy

/-- What is held for one path changes, and for none of the others. -/
structure Sets (P : Path → Prop) (p : Path) (found : Option Value) (s t : Store) : Prop where
  self : t.held p = found
  others : ∀ q, P q → q ≠ p → t.held q = s.held q

end Store

end PathLedger
