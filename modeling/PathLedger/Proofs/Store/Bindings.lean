import PathLedger.Proofs.Derivation.Cascades
import PathLedger.Proofs.Store.Passes

/-!
# What the formulas of a store are bound to

The labels of a formula are bound to keys when it is registered, and its target subscribes to them. No label is
bound to the root.

* `Derivation.bindReferences_path_ne_empty` — a label is bound to a key that is not empty.
* `Derivation.Graph.Bound` — subscriptions mirror references, and nothing refers to the root.
* `Store.Reached.bound` — **the graph is bound in every store that is reached**.
* `Store.downstream_registered`, `Store.mem_downstream` — what is downstream of a path.
-/

namespace PathLedger

/-! ## Keys that are not empty -/

/-- A key with a canonical path at its end is empty for the root only. -/
theorem Path.key_join_canonical_ne_empty (scope : Path) {label : String}
    (h : (canonical label).isRoot = false) : (scope.join (canonical label)).key ≠ "" := by
  obtain ⟨s, hs⟩ := List.exists_mem_of_ne_nil (canonical label).segments (by simpa [isRoot] using h)
  exact joinSegments_ne_empty (List.mem_append_right _ hs) (canonical_segments s hs)

namespace Derivation

theorem mem_firstPerKey {refs : List Reference} {r : Reference} (h : r ∈ firstPerKey refs) : r ∈ refs := by
  have hkept (kept rest : List Reference)
      (h : r ∈ rest.foldl (fun kept r => if kept.any (·.path == r.path) then kept else kept ++ [r]) kept) :
      r ∈ kept ∨ r ∈ rest := by
    induction rest generalizing kept with
    | nil => exact .inl h
    | cons a rest ih =>
      rcases ih _ h with h | h
      · dsimp only at h
        split at h
        · exact .inl h
        · rcases List.mem_append.mp h with h | h
          · exact .inl h
          · exact .inr (List.mem_cons.mpr (.inl (List.mem_singleton.mp h)))
      · exact .inr (List.mem_cons_of_mem _ h)
  exact (hkept [] refs h).resolve_left List.not_mem_nil

/-- No label is bound to the root. -/
theorem bindReferences_path_ne_empty {r : Resolver Option} {expression : String} {scope : Path}
    {refs : List Reference} (hrefs : bindReferences r expression scope = some refs) {ref : Reference}
    (href : ref ∈ refs) : ref.path ≠ "" := by
  obtain ⟨-, rfl⟩ := bindReferences_eq_some_iff.mp hrefs
  obtain ⟨label, hlabel, hbound⟩ := List.mem_filterMap.mp (mem_firstPerKey href)
  obtain ⟨p, hp, rfl⟩ := Option.map_eq_some_iff.mp hbound
  have hroot : (Path.canonical label).isRoot = false := by
    have := (List.mem_filter.mp hlabel).2
    simp only [Bool.and_eq_true, Bool.not_eq_eq_eq_not, Bool.not_true] at this
    exact this.2
  obtain rfl | rfl := bindPath_cases hp
  · exact Path.key_join_canonical_ne_empty scope hroot
  · exact Path.key_ne_empty Path.canonical_segments hroot

namespace Graph

/-- What is reached is registered. -/
theorem Mirrors.registered_of_reaches {g : Graph} (h : Mirrors g) {key t : String}
    (hreaches : Reaches g key t) : (g.formula? t).isSome := by
  rw [formula?, Option.isSome_map]
  cases hreaches with
  | direct ht => exact h.registered ht
  | further _ ht => exact h.registered ht

/-- Subscriptions mirror references, and nothing refers to the root. -/
structure Bound (g : Graph) : Prop where
  mirrors : Mirrors g
  rooted : ∀ target d, g.get? target = some d → "" ∉ d.refKeys

variable {g : Graph}

theorem Bound.empty : Bound empty := by
  refine ⟨.empty, ?_⟩
  intro target d hd
  cases hd

theorem Bound.unregister (h : Bound g) (target : String) : Bound (g.unregister target) := by
  refine ⟨h.mirrors.unregister target, ?_⟩
  intro t d hd
  rw [get?_unregister] at hd
  split at hd
  · cases hd
  · exact h.rooted t d hd

theorem Bound.clearUnder (h : Bound g) (p : Path) : Bound (g.clearUnder p) := by
  unfold Graph.clearUnder
  exact List.foldlRecOn _ _ h fun g hg target _ => hg.unregister target

theorem Bound.register (h : Bound g) (p : Path) {d : Derivation} (hd : "" ∉ d.refKeys) :
    Bound (g.register p d) := by
  refine ⟨h.mirrors.register p d, ?_⟩
  intro t e he
  rw [get?_register] at he
  split at he
  · cases he
    exact hd
  · exact h.rooted t e he

theorem Bound.touch (h : Bound g) (target : String) (time : UInt64) : Bound (g.touch target time) := by
  refine ⟨h.mirrors.touch target time, ?_⟩
  intro t e he
  rw [get?_touch] at he
  split at he
  · obtain ⟨d, hd, rfl⟩ := Option.map_eq_some_iff.mp he
    exact h.rooted t d hd
  · exact h.rooted t e he

/-- Nothing is reached from the root. -/
theorem Bound.not_reaches_root (h : Bound g) (t : String) : ¬Reaches g "" t := by
  intro hreaches
  induction hreaches with
  | direct ht =>
    obtain ⟨d, hd, href⟩ := (h.mirrors _ _).mp ht
    exact h.rooted _ d hd href
  | further _ _ ih => exact ih

end Graph

end Derivation

open PathLedger.Derivation

namespace Store

variable {s t : Store}

theorem bound_stable : Stable fun s => s.derivations.Bound where
  value p v operator h := by
    rw [commitValue_derivations]
    exact h
  secret _ _ h := h
  noise _ _ h := h
  removal target h := by
    rw [removeSubtree_eq, commit_derivations, (frame_pruned _ target).derivations]
    exact h.clearUnder target
  register scope name _ _ hrefs h := by
    refine h.register _ ?_
    intro href
    obtain ⟨ref, href, hpath⟩ := List.mem_map.mp href
    exact bindReferences_path_ne_empty hrefs href hpath
  touch target h := h.touch target _
  operators _ h := h

/-- **The graph is bound in every store that is reached.** -/
theorem Reached.bound {allowed : Call → Prop} (h : Reached allowed s) : s.derivations.Bound :=
  h.holds bound_stable (fun _ => .empty) (fun _ _ => .empty) (fun _ _ _ => .empty)

/-! ## Downstream -/

/-- A cascade takes registered targets only. -/
theorem downstream_registered (h : s.derivations.Bound) (changed : List String) :
    ∀ u ∈ s.downstream changed, (s.derivations.formula? u).isSome := by
  intro u hu
  obtain ⟨key, -, hreaches⟩ := Graph.reaches_of_mem_cascade hu
  exact h.mirrors.registered_of_reaches hreaches

/-- What is reached from a path is downstream of it. -/
theorem mem_downstream (h : s.derivations.Bound) {p : Path} {u : String} (hu : s.derivations.Reaches p.key u) :
    u ∈ s.downstream (Graph.changedAt p) := by
  have hroot : p.isRoot = false := by
    cases hroot : p.isRoot with
    | false => rfl
    | true =>
      have hkey : p.key = "" := by
        rw [Path.key, show p.segments = [] by simpa [Path.isRoot] using hroot]
        rfl
      rw [hkey] at hu
      exact absurd hu (h.not_reaches_root u)
  refine Graph.mem_cascade (fun key t ht => h.mirrors.registered ht) ?_ hu
  rw [Graph.changedAt, hroot]
  exact List.mem_singleton_self _

end Store

end PathLedger
