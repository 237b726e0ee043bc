import Mathlib.Data.List.Nodup
import PathLedger.Proofs.Derivation.Subscriptions

/-!
# The upkeep of a graph

A graph is changed by five operations. Whatever the order in which they come, the rows of subscriptions keep
to the formulas that are registered.

* `Derivation.Graph.Operation`, `Derivation.Graph.operate` — the operations of a graph, and one of them carried
  out.
* `Derivation.Graph.Tidy` — no target stands twice in a row, and no row is empty.
* `Derivation.Graph.Kept.operate` — one operation keeps the graph in order.
* `Derivation.Graph.subscribersOf_foldl_operate` — **after any operations on an empty graph the rows mirror the
  references**, each target once in its row, and no key with an empty row.
-/

namespace PathLedger.Derivation.Graph

/-- An operation of a graph. -/
inductive Operation where
  | register (target : Path) (derivation : Derivation)
  | unregister (target : String)
  | clearUnder (p : Path)
  | touch (target : String) (time : UInt64)
  | clear
deriving DecidableEq

/-- The graph after an operation. -/
def operate (g : Graph) : Operation → Graph
  | .register target derivation => g.register target derivation
  | .unregister target => g.unregister target
  | .clearUnder p => g.clearUnder p
  | .touch target time => g.touch target time
  | .clear => empty

/-! ## Rows of subscriptions -/

/-- No target stands twice in a row of subscriptions, and no row is empty. -/
structure Tidy (subs : Dict String (List String)) : Prop where
  nodup : ∀ key row, subs.get? key = some row → row.Nodup
  nonempty : ∀ key, subs.get? key ≠ some []

namespace Tidy

variable {subs : Dict String (List String)} {target : String}

theorem empty : Tidy .empty := ⟨fun _ _ h => (nomatch h), fun _ h => (nomatch h)⟩

/-- A row that is put in place of another. -/
theorem insert (h : Tidy subs) {key : String} {row : List String} (hnodup : row.Nodup) (hne : row ≠ []) :
    Tidy (subs.insert key row) := by
  constructor
  · intro k r hr
    by_cases hk : k = key
    · subst hk
      rw [Dict.get?_insert_self] at hr
      cases hr
      exact hnodup
    · rw [Dict.get?_insert_of_ne _ hk] at hr
      exact h.nodup k r hr
  · intro k hr
    by_cases hk : k = key
    · subst hk
      rw [Dict.get?_insert_self] at hr
      exact hne (Option.some.inj hr)
    · rw [Dict.get?_insert_of_ne _ hk] at hr
      exact h.nonempty k hr

theorem erase (h : Tidy subs) (key : String) : Tidy (subs.erase key) := by
  constructor
  · intro k r hr
    rw [Dict.get?_erase] at hr
    split at hr
    · cases hr
    · exact h.nodup k r hr
  · intro k hr
    rw [Dict.get?_erase] at hr
    split at hr
    · cases hr
    · exact h.nonempty k hr

theorem nodup_getD (h : Tidy subs) (key : String) : ((subs.get? key).getD []).Nodup := by
  cases hrow : subs.get? key with
  | none => exact List.nodup_nil
  | some row => exact h.nodup key row hrow

theorem subscribe (h : Tidy subs) (key : String) : Tidy (subscribe target subs key) := by
  unfold Graph.subscribe
  dsimp only
  split
  · exact h
  · rename_i hnew
    have hnew : target ∉ (subs.get? key).getD [] := by simpa using hnew
    refine h.insert ?_ (List.append_ne_nil_of_right_ne_nil _ (List.cons_ne_nil _ _))
    exact List.nodup_append.mpr ⟨h.nodup_getD key, List.nodup_singleton _, fun t ht u hu heq =>
      hnew (List.mem_singleton.mp hu ▸ heq ▸ ht)⟩

theorem unsubscribe (h : Tidy subs) (key : String) : Tidy (unsubscribe target subs key) := by
  unfold Graph.unsubscribe
  cases hrow : subs.get? key with
  | none => exact h
  | some row =>
    dsimp only
    split
    · exact h.erase key
    · rename_i hrest
      exact h.insert ((h.nodup key row hrow).filter _) fun hnil => hrest (by rw [hnil]; rfl)

end Tidy

/-! ## Operations -/

/-- What the operations of a graph keep: the rows mirror the references and are tidy. -/
structure Kept (g : Graph) : Prop where
  mirrors : g.Mirrors
  tidy : Tidy g.subscribers

namespace Kept

variable {g : Graph}

theorem empty : Kept empty := ⟨.empty, .empty⟩

theorem unregister (h : Kept g) (target : String) : Kept (g.unregister target) := by
  refine ⟨h.mirrors.unregister target, ?_⟩
  unfold Graph.unregister
  cases g.get? target with
  | none => exact h.tidy
  | some old => exact List.foldlRecOn _ _ h.tidy fun subs hsubs key _ => hsubs.unsubscribe key

theorem register (h : Kept g) (target : Path) (d : Derivation) : Kept (g.register target d) := by
  refine ⟨h.mirrors.register target d, ?_⟩
  unfold Graph.register
  exact List.foldlRecOn _ _ (h.unregister target.key).tidy fun subs hsubs key _ => hsubs.subscribe key

theorem clearUnder (h : Kept g) (p : Path) : Kept (g.clearUnder p) :=
  List.foldlRecOn _ _ h fun _ hg target _ => hg.unregister target

theorem touch (h : Kept g) (target : String) (time : UInt64) : Kept (g.touch target time) :=
  ⟨h.mirrors.touch target time, by rw [subscribers_touch]; exact h.tidy⟩

/-- **One operation keeps the graph in order.** -/
theorem operate (h : Kept g) (op : Operation) : Kept (g.operate op) := by
  cases op with
  | register target d => exact h.register target d
  | unregister target => exact h.unregister target
  | clearUnder p => exact h.clearUnder p
  | touch target time => exact h.touch target time
  | clear => exact .empty

theorem foldl_operate (h : Kept g) (ops : List Operation) : Kept (ops.foldl Graph.operate g) :=
  List.foldlRecOn _ _ h fun _ hg op _ => hg.operate op

end Kept

/-- **The rows of subscriptions mirror the references.** After any operations on an empty graph a target stands
in the row of a key exactly when the formula registered at it refers to the key; it then stands there once, and
no key has an empty row. -/
theorem subscribersOf_foldl_operate (ops : List Operation) (key t : String) :
    let g := ops.foldl operate empty
    (t ∈ g.subscribersOf key ↔ ∃ d, g.get? t = some d ∧ key ∈ d.refKeys) ∧
    (t ∈ g.subscribersOf key → (g.subscribersOf key).count t = 1) ∧
    g.subscribers.get? key ≠ some [] := by
  intro g
  have hkept : Kept g := Kept.empty.foldl_operate ops
  refine ⟨hkept.mirrors key t, fun ht => ?_, hkept.tidy.nonempty key⟩
  exact List.count_eq_one_of_mem (hkept.tidy.nodup_getD key) ht

end PathLedger.Derivation.Graph
