import PathLedger.Operator.Registry
import PathLedger.Proofs.Entries

/-!
# Which symbols a registry binds

A registry starts with the initial symbols and only grows: symbols are bound anew, never taken out. So the initial
bindings are there to be overlaid, and overlaying them once more changes nothing.

* `Dict.get?_foldl_insert` — a table with the kept entries of another put over it.
* `Operator.Registry.kindOf?_overlay` — what an overlay binds.
* `Operator.Registry.Closed` — every initial symbol is bound, and no symbol that cannot be.
* `Operator.Registry.Closed.define`, `Operator.Registry.closed_overlay` — **registries stay closed**.
* `Operator.Registry.Closed.overlay` — **overlaying a closed registry gives it back**.
-/

namespace PathLedger

section Overlay

variable {κ α : Type} [Ord κ] [Std.LawfulEqOrd κ]

theorem Entries.get?_eq_none_of_lt {k : κ} {l : Entries κ α} (h : ∀ e ∈ l, compare k e.1 = .lt) :
    get? k l = none := by
  refine Option.eq_none_iff_forall_ne_some.mpr fun a ha => ?_
  have hlt := h _ (mem_of_get? ha)
  simp at hlt

variable [Std.TransOrd κ]

/-- A table with the kept entries of another put over it. -/
theorem Dict.get?_foldl_insert (keep : κ → Bool) {l : Entries κ α} (h : l.Ordered) (d : Dict κ α) (k : κ) :
    (l.foldl (fun d e => if keep e.1 then d.insert e.1 e.2 else d) d).get? k =
      (if keep k then Entries.get? k l else none).or (d.get? k) := by
  induction l generalizing d with
  | nil => simp [Entries.get?]
  | cons e rest ih =>
    have hbehind : ∀ a ∈ rest, compare e.1 a.1 = .lt := fun a ha => List.rel_of_pairwise_cons h ha
    rw [List.foldl_cons, ih (List.Pairwise.of_cons h), Entries.get?]
    by_cases hk : compare k e.1 = .eq
    · -- The entry at the key itself: no later one stands there.
      obtain rfl : k = e.1 := Std.LawfulEqCmp.eq_of_compare hk
      rw [Entries.get?_eq_none_of_lt hbehind, if_pos hk, ite_self, Option.none_or]
      split
      · rw [get?_insert_self, Option.some_or]
      · rw [Option.none_or]
    · have hne : k ≠ e.1 := fun heq => hk (heq ▸ Std.ReflCmp.compare_self)
      have hkept : (if keep e.1 then d.insert e.1 e.2 else d).get? k = d.get? k := by
        split
        · rw [get?_insert_of_ne _ hne]
        · rfl
      rw [if_neg hk, hkept]

end Overlay

namespace Operator.Registry

/-- Whether a symbol can be bound. -/
def bindable (symbol : String) : Bool := symbol != definingSymbol && !symbol.isEmpty

/-- **What an overlay binds**: what is imported, and else what is bound from the start. -/
theorem kindOf?_overlay (imported : Dict String Kind) (symbol : String) :
    (overlay imported).kindOf? symbol =
      (if bindable symbol then imported.get? symbol else none).or (initial.kindOf? symbol) :=
  Dict.get?_foldl_insert bindable imported.ordered initial symbol

/-- Every symbol of the start is bound, and neither the defining symbol nor the empty one is. -/
structure Closed (r : Registry) : Prop where
  initial : ∀ symbol, (initial.kindOf? symbol).isSome → (r.kindOf? symbol).isSome
  bindable : ∀ symbol, bindable symbol = false → r.kindOf? symbol = none

theorem not_bindable_iff {symbol : String} : bindable symbol = false ↔ symbol = definingSymbol ∨ symbol = "" := by
  rw [bindable, Bool.and_eq_false_iff, bne_eq_false_iff_eq, Bool.not_eq_false', String.isEmpty_iff]

theorem closed_initial : Closed initial := by
  refine ⟨fun _ h => h, fun symbol h => ?_⟩
  rcases not_bindable_iff.mp h with rfl | rfl <;> decide

/-- **Overlaying a closed registry gives it back.** -/
theorem Closed.overlay {r : Registry} (h : Closed r) : overlay r = r := by
  refine Dict.ext_of_get? fun symbol => (kindOf?_overlay r symbol).trans ?_
  show _ = r.kindOf? symbol
  cases hsymbol : Registry.bindable symbol with
  | false =>
    rw [h.bindable symbol hsymbol, closed_initial.bindable symbol hsymbol]
    rfl
  | true =>
    rw [if_pos rfl]
    cases hkind : r.kindOf? symbol with
    | some kind =>
      rw [show r.get? symbol = some kind from hkind, Option.some_or]
    | none =>
      have hnone : Registry.initial.kindOf? symbol = none := by
        rw [← Option.not_isSome_iff_eq_none]
        intro hstart
        have := h.initial symbol hstart
        rw [hkind] at this
        cases this
      rw [show r.get? symbol = none from hkind, hnone, Option.none_or]

theorem closed_overlay (imported : Dict String Kind) : Closed (Registry.overlay imported) := by
  constructor
  · intro symbol hstart
    rw [kindOf?_overlay, Option.isSome_or, hstart, Bool.or_true]
  · intro symbol hsymbol
    rw [kindOf?_overlay, hsymbol, closed_initial.bindable symbol hsymbol]
    rfl

/-- A binding made by the user is of a symbol that can be bound. -/
theorem define_ok {r bound : Registry} {symbol kind : String} {k : Kind} (h : r.define symbol kind = .ok (k, bound)) :
    bindable (Text.trimmed symbol) ∧ bound = r.insert (Text.trimmed symbol) k := by
  unfold define at h
  dsimp only at h
  split at h
  · cases h
  · rename_i hempty
    split at h
    · cases h
    · rename_i hdefining
      split at h
      · cases h
      · split at h
        · cases h
        · cases h
          exact ⟨by simp [bindable, hdefining, hempty], rfl⟩

theorem Closed.define {r bound : Registry} (h : Closed r) {symbol kind : String} {k : Kind}
    (hdefine : r.define symbol kind = .ok (k, bound)) : Closed bound := by
  obtain ⟨hsymbol, rfl⟩ := define_ok hdefine
  generalize Text.trimmed symbol = bound at hsymbol
  constructor
  · intro symbol hstart
    by_cases heq : symbol = bound
    · rw [heq, kindOf?, Dict.get?_insert_self]
      rfl
    · rw [kindOf?, Dict.get?_insert_of_ne _ heq]
      exact h.initial symbol hstart
  · intro symbol hnot
    have hne : symbol ≠ bound := by
      rintro rfl
      rw [hsymbol] at hnot
      cases hnot
    rw [kindOf?, Dict.get?_insert_of_ne _ hne]
    exact h.bindable symbol hnot

end Operator.Registry

end PathLedger
