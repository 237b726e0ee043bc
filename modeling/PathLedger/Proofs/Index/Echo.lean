import Mathlib.Data.List.Forall2
import PathLedger.Proofs.Index.Fold
import PathLedger.Proofs.Scope.Alike

/-!
# Indexes that echo each other

Records made again elsewhere have the same paths and operators, but other hashes, times and seals. Folded in the same
order under declarations that are alike, they give an index with the same keys.

* `Value.Echoes` — the same value, or anything in place of a sealed one.
* `Record.Echoes` — the same record, as far as the fold sees it.
* `Index.Echoes` — the same keys, with values that echo each other.
* `Index.Echoes.absorb` — one more record and its echo.
* `Index.echoes_foldl` — **records that echo each other give indexes that do**.
-/

namespace PathLedger

/-- The same value, or anything in place of a sealed one. -/
def Value.Echoes (v w : Value) : Prop := w = v ∨ ∃ blob, v = .ciphertext blob

/-- A record at the same path, with the same operator and a value that echoes. -/
structure Record.Echoes (r r' : Record) : Prop where
  path : r'.path = r.path
  operator : r'.operator = r.operator
  value : r.value.Echoes r'.value

/-- Records that echo each other lie at the same paths and have the same operators. -/
theorem Record.map_of_echoes {records records' : List Record} (h : List.Forall₂ Echoes records records') :
    (records'.map fun r => (r.path, r.operator)) = records.map fun r => (r.path, r.operator) := by
  induction h with
  | nil => rfl
  | cons hr _ ih => rw [List.map_cons, List.map_cons, ih, hr.path, hr.operator]

namespace Index

variable {index other : Index}

/-- The same keys, with values that echo each other. -/
def Echoes (index other : Index) : Prop := ∀ key, Option.Rel Value.Echoes (index.get? key) (other.get? key)

theorem Echoes.isSome (h : Echoes index other) (key : String) :
    (other.get? key).isSome = (index.get? key).isSome := by
  have hkey := h key
  generalize index.get? key = v at hkey ⊢
  generalize other.get? key = w at hkey ⊢
  cases hkey <;> rfl

theorem Echoes.get? (h : Echoes index other) {key : String} {v : Value} (hv : index.get? key = some v)
    (hplain : ∀ blob, v ≠ .ciphertext blob) : other.get? key = some v := by
  have hkey := h key
  rw [hv] at hkey
  generalize hother : other.get? key = found at hkey
  cases hkey with
  | some hecho =>
    rcases hecho with rfl | ⟨blob, hblob⟩
    · rfl
    · exact absurd hblob (hplain blob)

theorem Echoes.empty : Echoes .empty .empty := fun _ => .none

theorem Echoes.insert (h : Echoes index other) (key : String) {v w : Value} (hv : v.Echoes w) :
    Echoes (index.insert key v) (other.insert key w) := by
  intro k
  rw [get?_insert_eq, get?_insert_eq]
  split
  · exact .some hv
  · exact h k

theorem Echoes.removeUnder (h : Echoes index other) (key : String) :
    Echoes (index.removeUnder key) (other.removeUnder key) := by
  intro k
  rw [get?_removeUnder, get?_removeUnder]
  split
  · exact .none
  · exact h k

/-- One more record and its echo. -/
theorem Echoes.absorb (h : Echoes index other) {scopes scopes' : Scopes} (hscopes : scopes.Alike scopes')
    {r r' : Record} (hr : r.Echoes r') : Echoes (absorb scopes index r) (absorb scopes' other r') := by
  have hsame : setsKey r' = setsKey r := by rw [setsKey, setsKey, hr.operator]
  by_cases hsets : setsKey r
  · rw [absorb_of_setsKey hsets, absorb_of_setsKey (hsame.trans hsets), hr.path, ← hscopes.hidingScope?]
    split
    · exact h
    · exact h.insert _ hr.value
  · rw [absorb_of_not_setsKey hsets, absorb_of_not_setsKey (by rwa [hsame]), hr.path, hr.operator]
    split
    · exact h.removeUnder _
    · exact h

/-- **Records that echo each other give indexes that do.** -/
theorem echoes_foldl {scopes scopes' : Scopes} (hscopes : scopes.Alike scopes') {records records' : List Record}
    (hrecords : List.Forall₂ Record.Echoes records records') (h : Echoes index other) :
    Echoes (records.foldl (Index.absorb scopes) index) (records'.foldl (Index.absorb scopes') other) := by
  induction hrecords generalizing index other with
  | nil => exact h
  | cons hr _ ih => exact ih (h.absorb hscopes hr)

end Index

end PathLedger
