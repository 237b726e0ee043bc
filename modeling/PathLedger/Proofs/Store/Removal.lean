import PathLedger.Proofs.Store.Freshness

/-!
# What a removal leaves as it was

A removal takes the keys at or under its path out of the index, and the formulas of these targets out of the graph. It
computes nothing anew: a formula elsewhere keeps its value, also when what it reads is gone.

* `Store.Bare.removeSubtree` — a removal from a store without declarations and pointers.
* `Store.remove_keeps` — **a formula that stays keeps its value**, and so it is current exactly when it still gives
  that value, as it does when it was current and reads nothing that was removed.
* `Store.negation_stays` — a formula that is left behind by a removal.
-/

namespace PathLedger

open PathLedger.Derivation

theorem Scopes.purgeUnder_empty (p : Path) : empty.purgeUnder p = empty := rfl

namespace Index

theorem Pointerless.removeUnder {index : Index} (h : index.Pointerless) (key : String) :
    (index.removeUnder key).Pointerless := by
  intro k target hk
  rw [get?_removeUnder] at hk
  split at hk
  · cases hk
  · exact h k target hk

end Index

namespace Store

variable {s : Store} {p : Path} {target expression : String} {scope : Path}

theorem formula?_removeSubtree (s : Store) (p : Path) (t : String) :
    (s.removeSubtree p).1.derivations.formula? t =
      if Path.atOrUnder t p.key then none else s.derivations.formula? t := by
  rw [removeSubtree_eq, commit_derivations, (frame_pruned s p).derivations]
  exact s.derivations.formula?_clearUnder p t

/-- **A removal** takes its keys out of the index, and leaves a bare store bare. -/
theorem Bare.removeSubtree (h : Bare s) (hfresh : Fresh s) (p : Path) :
    Bare (s.removeSubtree p).1 ∧ (s.removeSubtree p).1.index = s.index.removeUnder p.key := by
  have hscopes : s.scopes.purgeUnder p = s.scopes := by
    rw [h.scopes, Scopes.purgeUnder_empty]
  have hindex : (s.removeSubtree p).1.index = s.index.removeUnder p.key := by
    rw [index_removeSubtree hfresh, hscopes, ← h.current]
  refine ⟨⟨?_, ?_, indexCurrent_stable.removal p h.current, ?_⟩, hindex⟩
  · rw [removeSubtree_scopes, hscopes, h.scopes]
  · rw [hindex]
    exact h.pointerless.removeUnder _
  · intro t ht
    rw [formula?_removeSubtree] at ht
    split at ht
    · cases ht
    · exact h.spelled t ht

/-- What was removed reads as nothing any more, and what else there is stays. -/
theorem Bare.get?_removeSubtree (h : Bare s) (hfresh : Fresh s) {key : String}
    (hkey : Path.atOrUnder key p.key = false) : (s.removeSubtree p).1.index.get? key = s.index.get? key := by
  rw [(h.removeSubtree hfresh p).2, Index.get?_removeUnder, hkey]
  rfl

/-! ## Formulas that stay -/

/-- **A formula that stays keeps its value.** So it is current exactly when it still gives that value, as it does
when it was current before and reads nothing that was removed. -/
theorem remove_keeps (hs : Reached (fun _ => True) s) (hscopes : s.scopes = .empty) (hpointers : s.index.Pointerless)
    (hspelled : ∀ u, (s.derivations.formula? u).isSome → Path.Spelled u) (hp : p.Plain) (hticks : Ticks s 1)
    (hformula : (s.remove p.key).store.derivations.formula? target = some (expression, scope)) :
    s.derivations.formula? target = some (expression, scope) ∧
      (s.remove p.key).store.index.get? target = s.index.get? target ∧
      ((s.remove p.key).store.Current target ↔
        ∃ v, (s.remove p.key).store.valueOf expression scope = some v ∧ s.index.get? target = some v) ∧
      (Expr.Direct expression scope → s.Current target →
        (∀ key, (s.remove p.key).store.Reads expression scope key → Path.atOrUnder key p.key = false) →
        (s.remove p.key).store.Current target) := by
  have hbare : Bare s := ⟨hscopes, hpointers, hs.indexCurrent, hspelled⟩
  have hremove : (s.remove p.key).store = (s.removeSubtree p).1 := after_remove s hp
  rw [hremove] at hformula ⊢
  obtain ⟨hafter, -⟩ := hbare.removeSubtree hticks.fresh p
  obtain ⟨hstays, hbefore⟩ : Path.atOrUnder target p.key = false ∧
      s.derivations.formula? target = some (expression, scope) := by
    rw [formula?_removeSubtree] at hformula
    split at hformula
    · cases hformula
    · exact ⟨Bool.eq_false_iff.mpr ‹_›, hformula⟩
  have hvalue := hbare.get?_removeSubtree (p := p) hticks.fresh hstays
  have hiff : (s.removeSubtree p).1.Current target ↔
      ∃ v, (s.removeSubtree p).1.valueOf expression scope = some v ∧ s.index.get? target = some v := by
    unfold Current
    simp only [hformula, hvalue, Option.some.injEq, Prod.mk.injEq, and_assoc, exists_and_left, exists_eq_left']
  refine ⟨hbefore, hvalue, hiff, ?_⟩
  rintro hdirect ⟨e, d, v, hregistered, hgives, hholds⟩ hreads
  obtain ⟨rfl, rfl⟩ := Prod.mk.inj (Option.some.inj (hregistered.symm.trans hbefore))
  refine hiff.mpr ⟨v, ?_, hholds⟩
  -- What the formula reads was not removed, so it gives the same as before.
  rw [← hgives]
  refine (hbare.valueOf_congr hafter hdirect fun key hkey => ?_).symm
  rw [hbare.get?_removeSubtree hticks.fresh (hreads key hkey)]

/-- The negation of a flag stays current when the comparison that reads it is removed. -/
theorem remove_keeps_negation : (leading.remove (Path.key ⟨["c"]⟩)).store.Current "b" := by
  obtain ⟨hflag, hb, first, second, hgraph⟩ := leading_parts
  have hs : Reached (fun _ => True) leading := leading_reached.mono fun _ _ => trivial
  have hplain : Path.Plain ⟨["c"]⟩ := Path.plain_word (by decide)
  have hbefore : leading.derivations.formula? "b" = some ("!p", .root) := by
    rw [hgraph]
    rfl
  have hremove : (leading.remove (Path.key ⟨["c"]⟩)).store = (leading.removeSubtree ⟨["c"]⟩).1 :=
    after_remove leading hplain
  have hformula : (leading.remove (Path.key ⟨["c"]⟩)).store.derivations.formula? "b" = some ("!p", .root) := by
    rw [hremove, formula?_removeSubtree, hbefore]
    decide
  have hcurrent : leading.Current "b" :=
    ⟨"!p", .root, _, hbefore, hflag.bare.valueOf_negation hflag.flag, hb⟩
  obtain ⟨-, -, -, hkeeps⟩ := remove_keeps hs hflag.bare.scopes hflag.bare.pointerless hflag.bare.spelled hplain
    (hflag.ticks.mono (by decide)) hformula
  refine hkeeps (by decide) hcurrent fun key hreads => ?_
  rw [reads_negation hreads]
  decide

/-- **A negation is left behind** when its flag is removed: nothing is declared, nothing points elsewhere, the formula
stays registered and refers to the removed key, and yet it is not current. -/
theorem negation_stays :
    Reached (fun c => c.isLocal = true) negated ∧ negated.scopes = .empty ∧ negated.index.Pointerless ∧
      (∀ u, (negated.derivations.formula? u).isSome → Path.Spelled u) ∧ Ticks negated 1 ∧
      (∃ d, (negated.remove "p").store.derivations.get? "b" = some d ∧ "p" ∈ d.refKeys) ∧
      ¬(negated.remove "p").store.Current "b" := by
  obtain ⟨hflag, hb, first, hgraph⟩ := negated_parts
  have hticks := hflag.ticks.mono (by decide : 1 ≤ 9)
  have hremove : (negated.remove "p").store = (negated.removeSubtree ⟨["p"]⟩).1 :=
    after_remove negated (p := ⟨["p"]⟩) (Path.plain_word (by decide))
  obtain ⟨hafter, hindex⟩ := hflag.bare.removeSubtree hticks.fresh ⟨["p"]⟩
  have hregistered : (negated.removeSubtree ⟨["p"]⟩).1.derivations.get? "b" = some (negation first) := by
    rw [removeSubtree_eq, commit_derivations, (frame_pruned _ _).derivations, purged, Graph.get?_clearUnder, hgraph]
    rfl
  rw [hremove]
  refine ⟨negated_reached, hflag.bare.scopes, hflag.bare.pointerless, hflag.bare.spelled, hticks,
    ⟨_, hregistered, List.mem_singleton_self _⟩, ?_⟩
  rintro ⟨expression, scope, v, hformula, hgives, hholds⟩
  rw [Graph.formula?, hregistered] at hformula
  obtain ⟨rfl, rfl⟩ := Prod.mk.inj (Option.some.inj hformula)
  have hgone : (negated.removeSubtree ⟨["p"]⟩).1.index.get? "p" = none := by
    rw [hindex, Index.get?_removeUnder]
    rfl
  have hkept : (negated.removeSubtree ⟨["p"]⟩).1.index.get? "b" = some (.bool false) := by
    rw [hflag.bare.get?_removeSubtree hticks.fresh (by decide), hb]
  have hvalue : (negated.removeSubtree ⟨["p"]⟩).1.valueOf "!p" .root = some (.text "!p") :=
    hafter.valueOf_negation_of_none hgone
  rw [show (negation first).expression = "!p" from rfl, show (negation first).scope = .root from rfl, hvalue] at hgives
  rw [hkept, ← hgives] at hholds
  simp at hholds

end Store

end PathLedger
