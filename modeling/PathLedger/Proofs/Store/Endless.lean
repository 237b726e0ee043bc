import PathLedger.Proofs.Store.Downstream

/-!
# Reads that never end

A read through a filter waits for what the filter looks at first: the left side of its first clause, under the first
child. A key may itself be spelled like a filter. Then that read goes through a filter once more, and reads may wait for
one another without end. The pass of a write stops at a formula over such a read, and the write does not return.

* `View.LooksFirst` — the read of one path waits for the read of another.
* `View.reading_of_looksFirst` — a read that waits for one without end never ends.
* `View.reading_endless` — **reads that wait for one another never end**.
* `Store.write_endless` — a write does not return whose pass starts with a formula without end.
* `Store.write_knotted_endless` — a write that never returns, where all formulas are at plain paths.
-/

namespace PathLedger

namespace View

variable {view : View} {p q : Path}

/-- The read of a path waits for the read of another: the path has a filter and no other selector, and what to look at
first is the left side of its first clause, under the first child. -/
structure LooksFirst (view : View) (p q : Path) : Prop where
  transform : Selector.firstSegment? (Selector.selectorOf? Selector.Transform.parse?) p.segments = none
  selection : Selector.firstSegment? (Selector.selectorOf? Selector.keys?) p.segments = none
  filter : ∃ position f child rest,
    Selector.firstSegment? (fun s => Selector.Filter.parse? s.toList) p.normalize.segments = some (position, f) ∧
    position ≠ 0 ∧ view.index.childrenOf (p.normalize.take position) = child :: rest ∧
    ((p.normalize.take position).child child).join (Path.canonical f.first.left) = q

/-- One read has no result where the one that it waits for has none. -/
theorem LooksFirst.readStep_eq_none (h : view.LooksFirst p q) {next : Next Option} (hnext : next q maxHops = none)
    (budget : Nat) : view.readStep next p budget = none := by
  obtain ⟨position, f, child, rest, hfilter, hposition, hchildren, hq⟩ := h.filter
  have hside : Selector.readSide (view.inner next) ((p.normalize.take position).child child) f.first.left = none := by
    unfold Selector.readSide Resolver.readFirst
    rw [hq]
    exact congrArg (· >>= _) hnext
  have hmatches : f.matchesAt (view.inner next) ((p.normalize.take position).child child) = none := by
    unfold Selector.Filter.matchesAt Selector.Clause.holdsAt
    rw [hside]
    rfl
  have hread : Selector.readFilter (view.inner next) view.index p.normalize = none := by
    unfold Selector.readFilter
    rw [hfilter]
    dsimp only
    rw [if_neg hposition, hchildren, Selector.gatherObject, Selector.gather, hmatches]
    rfl
  rw [readStep, Selector.readTransform, h.transform, Selector.readSelection, h.selection, hread]
  rfl

/-- A read that waits for one without end never ends. -/
theorem reading_of_looksFirst (h : view.LooksFirst p q) (hq : view.read q = none) (budget : Nat) :
    view.reading p budget = none := by
  rw [reading]
  exact h.readStep_eq_none hq budget

/-- **Reads that wait for one another never end.** -/
theorem reading_endless (waiting : Path → Prop) (h : ∀ p, waiting p → ∃ q, view.LooksFirst p q ∧ waiting q)
    (hp : waiting p) (budget : Nat) : view.reading p budget = none := by
  -- A read that ends does so within some depth, and none is enough: each read looks one level further.
  have hdepth (fuel : Nat) : ∀ p, waiting p → ∀ budget, view.readWith fuel p budget = none := by
    induction fuel with
    | zero => exact fun _ _ _ => rfl
    | succ fuel ih =>
      intro p hp budget
      obtain ⟨q, hfirst, hq⟩ := h p hp
      exact hfirst.readStep_eq_none (ih q hq maxHops) budget
  refine Option.eq_none_iff_forall_ne_some.mpr fun found hfound => ?_
  obtain ⟨fuel, hfuel⟩ := view.reading_eq_some_iff.mp hfound
  rw [hdepth fuel p hp budget] at hfuel
  cases hfuel

end View

open PathLedger.Derivation

namespace Store

variable {s : Store}

/-- A write does not return whose pass starts with a formula without end. -/
theorem write_endless {p : Path} (hp : p.Plain)
    (hleaf : ∀ leaf, p.last? = some leaf → s.operators.kindOf? leaf = none) {v : Value} {target : String}
    {rest : List String} (hfirst : s.downstream (Graph.changedAt p) = target :: rest)
    (hend : (s.commitValue p v none).1.recompute target = none) : (s.write p.key v none).result = none := by
  rw [write_eq_put hp hleaf, put_eq_pass, hfirst, recomputeEach, hend]
  rfl

/-! ## A key that is spelled like a filter -/

/-- A formula over the children that pass a filter. -/
def knotFormula : String := "p + a[q == 1].z"

/-- What it refers to. -/
def knotRefs : List Reference := [⟨"p", "p"⟩, ⟨"a[q == 1].z", "a.q == 1.z"⟩]

section Children

variable {view : View} (hchildren : view.index.childrenOf ⟨["a"]⟩ = ["b > 1"])

include hchildren

/-- Under the child whose key is spelled like a filter, the filter looks at itself first. -/
theorem looksFirst_self : view.LooksFirst ⟨["a", "b > 1", "b"]⟩ ⟨["a", "b > 1", "b"]⟩ :=
  ⟨by decide, by decide, 1, ⟨⟨"b", .gt, "1"⟩, []⟩, "b > 1", [], by decide, by decide, hchildren, by decide⟩

theorem looksFirst_below : view.LooksFirst ⟨["a", "b > 1", "q"]⟩ ⟨["a", "b > 1", "b"]⟩ :=
  ⟨by decide, by decide, 1, ⟨⟨"b", .gt, "1"⟩, []⟩, "b > 1", [], by decide, by decide, hchildren, by decide⟩

theorem looksFirst_label : view.LooksFirst (Path.parse "a[q == 1].z") ⟨["a", "b > 1", "q"]⟩ :=
  ⟨by decide, by decide, 1, ⟨⟨"q", .eq, "1"⟩, []⟩, "b > 1", [], by decide, by decide, hchildren, by decide⟩

/-- The label of the formula is read without end. -/
theorem read_knotted_label : view.read (Path.parse "a[q == 1].z") = none := by
  have hself : view.read ⟨["a", "b > 1", "b"]⟩ = none :=
    View.reading_endless (· = ⟨["a", "b > 1", "b"]⟩) (fun _ hp => ⟨_, hp ▸ looksFirst_self hchildren, rfl⟩) rfl maxHops
  have hbelow : view.read ⟨["a", "b > 1", "q"]⟩ = none :=
    View.reading_of_looksFirst (looksFirst_below hchildren) hself maxHops
  exact View.reading_of_looksFirst (looksFirst_label hchildren) hbelow maxHops

end Children

/-- The formula has no value where its first label has one. -/
theorem valueOf_knotFormula {v : Value} (hchildren : s.view.index.childrenOf ⟨["a"]⟩ = ["b > 1"])
    (hfirst : Expr.resolveIdentifier s.resolver .root "p" = some (some v)) :
    s.valueOf knotFormula .root = none := by
  have hsteps : Expr.compile? knotFormula = some [.load "p", .load "a[q == 1].z", .binary .add] := by decide
  have hsecond : Expr.resolveIdentifier s.resolver .root "a[q == 1].z" = none := by
    unfold Expr.resolveIdentifier
    rw [show Expr.pointerLabel? "a[q == 1].z" = none by decide]
    dsimp only
    rw [Path.root_join, Resolver.readFirst]
    exact congrArg (· >>= _) (read_knotted_label hchildren)
  have hload : (Expr.runStep s.resolver .root [] (.load "p")).run = some (some [v]) :=
    congrArg (· >>= _) hfirst
  have hstop : (Expr.runStep s.resolver .root [v] (.load "a[q == 1].z")).run = none :=
    congrArg (· >>= _) hsecond
  have hrun : (Expr.runSteps s.resolver .root [] [.load "p", .load "a[q == 1].z", .binary .add]).run = none :=
    (congrArg (· >>= _) hload).trans (congrArg (· >>= _) hstop)
  unfold valueOf Expr.evaluate
  rw [hsteps]
  dsimp only
  rw [hrun]
  rfl

/-- A formula over a filter, in a store that has nothing else. -/
def knotting : Store := (empty (.ticking 1000 1)).after (.deriveAt "t" knotFormula)

/-- That store with a child whose key is spelled like a filter. -/
def knotted : Store := knotting.after (.write "a[\"b > 1\"].z" (.ofJson (.int 1)) none)

theorem knotted_reached : Reached (fun c => c.isLocal = true) knotted := by
  have hstart : Reached (fun c => c.isLocal = true) (empty (.ticking 1000 1)) := .start _
  have hderived := hstart.call (.deriveAt "t" knotFormula) rfl
  exact hderived.call (.write "a[\"b > 1\"].z" (.ofJson (.int 1)) none) rfl

theorem registered_knotFormula :
    ((empty (.ticking 1000 1)).registered .root "t" knotFormula knotRefs).derivations =
      Graph.empty.register ⟨["t"]⟩ ⟨knotFormula, .root, knotRefs, 1000⟩ :=
  registered_word _ (by decide) _ _

theorem knotting_parts :
    Bare knotting ∧ Ticks knotting 2 ∧ knotting.operators = .initial ∧
      (∃ v, knotting.index = Dict.empty.insert "t" v) ∧
      knotting.derivations = Graph.empty.register ⟨["t"]⟩ ⟨knotFormula, .root, knotRefs, 1000⟩ := by
  have hstart : Bare (empty (.ticking 1000 1)) :=
    ⟨rfl, Index.pointerless_empty, indexCurrent_empty _, fun _ h => (nomatch h)⟩
  have hticks : Ticks (empty (.ticking 1000 1)) 4 := ticks_empty (increasing_ticking (by decide))
  have hunmarked : (empty (.ticking 1000 1)).view.Unmarked := View.unmarked_of_entries rfl rfl fun _ h => (nomatch h)
  have hrefs : firstPerKey ((boundLabels knotFormula).map fun label => ⟨label, (Path.canonical label).key⟩) =
    knotRefs := by decide
  have hword : Text.isWord "t" := by decide
  obtain ⟨v, hv, hderived⟩ := deriveAt_of_unmarked hunmarked hword (by decide) (by decide) hrefs
  have hnone : ((empty (.ticking 1000 1)).registered .root "t" knotFormula knotRefs).downstream ["t"] = [] :=
    downstream_of_no_subscribers (by rw [registered_knotFormula]; rfl)
  obtain ⟨hbare, hticks, hindex⟩ :=
    (hstart.registered_word hword knotFormula knotRefs).commitValue_word (hticks.advance rfl rfl) hword hv
  have hoperators : knotting.operators = .initial := (empty (.ticking 1000 1)).deriveAt_operators "t" knotFormula
  have hknotting : knotting = (((empty (.ticking 1000 1)).registered .root "t" knotFormula knotRefs).commitValue
      ⟨["t"]⟩ v (some .derive)).1 := by
    rw [hnone] at hderived
    exact hderived
  rw [hknotting] at hoperators ⊢
  exact ⟨hbare, hticks, hoperators, ⟨v, hindex⟩, (commitValue_derivations _ _ _ _).trans registered_knotFormula⟩

theorem knotted_parts :
    Bare knotted ∧ Ticks knotted 1 ∧ knotted.operators = .initial ∧
      (∃ v, knotted.index = (Dict.empty.insert "a.b > 1.z" (.ofJson (.int 1))).insert "t" v) ∧
      knotted.derivations = Graph.empty.register ⟨["t"]⟩ ⟨knotFormula, .root, knotRefs, 1000⟩ := by
  obtain ⟨hbare, hticks, hoperators, ⟨v, hindex⟩, hgraph⟩ := knotting_parts
  have hmeaning : knotting.meaning? (.write "a[\"b > 1\"].z" (.ofJson (.int 1)) none) =
      some (.ok (.set ⟨["a", "b > 1", "z"]⟩ (.ofJson (.int 1)))) := by
    rw [meaning?, hoperators]
    rfl
  have hknotted : knotted = (knotting.commitValue ⟨["a", "b > 1", "z"]⟩ (.ofJson (.int 1)) none).1 := by
    refine (after_of_meaning hmeaning).trans ?_
    exact congrArg Prod.fst (put_of_no_subscribers (by rw [hgraph]; rfl) _ _)
  have hdata (target : String) : Value.ofJson (.int 1) ≠ .pointer target := Value.noConfusion
  obtain ⟨hafter, hinserted⟩ := hbare.commitValue hticks.fresh (by decide : Path.Clean ⟨["a", "b > 1", "z"]⟩) hdata
    (fun _ => rfl : ∀ w, Index.setsKey (knotting.recordOf ⟨⟨["a", "b > 1", "z"]⟩, none, _, w⟩))
  rw [hknotted]
  rw [hindex] at hinserted
  refine ⟨hafter, hticks.commitValue _ _ _, ?_, ⟨v, hinserted⟩, ?_⟩
  · rw [commitValue_operators, hoperators]
  · rw [commitValue_derivations, hgraph]

theorem knotted_targets : PlainTargets knotted := by
  obtain ⟨-, -, -, -, hgraph⟩ := knotted_parts
  intro u hu
  rw [hgraph, Graph.get?_register] at hu
  split at hu
  · rename_i heq
    exact ⟨⟨["t"]⟩, by decide, heq.symm⟩
  · cases hu

/-- **A write that never returns.** The store is reached, its only formula is at a plain path, and so is the write. -/
theorem write_knotted_endless :
    Reached (fun c => c.isLocal = true) knotted ∧ PlainTargets knotted ∧ Path.Plain ⟨["p"]⟩ ∧
      (knotted.write "p" (.ofJson (.int 1)) none).result = none := by
  obtain ⟨hbare, hticks, hoperators, ⟨v, hindex⟩, hgraph⟩ := knotted_parts
  have hplain : Path.Plain ⟨["p"]⟩ := by decide
  have hleaf : ∀ leaf, Path.last? ⟨["p"]⟩ = some leaf → knotted.operators.kindOf? leaf = none := by
    intro leaf hleaf
    obtain rfl := Option.some.inj hleaf
    rw [hoperators]
    decide
  have horder : knotted.downstream (Graph.changedAt ⟨["p"]⟩) = ["t"] :=
    downstream_of_one_subscriber (by rw [hgraph]; rfl) (by rw [hgraph]; rfl)
  have hdata (target : String) : Value.ofJson (.int 1) ≠ .pointer target := Value.noConfusion
  have hsets (x : Value) : Index.setsKey (knotted.recordOf ⟨⟨["p"]⟩, none, .ofJson (.int 1), x⟩) := rfl
  obtain ⟨hafter, hinserted⟩ := hbare.commitValue hticks.fresh hplain.clean hdata hsets
  have hgraph : (knotted.commitValue ⟨["p"]⟩ (.ofJson (.int 1)) none).1.derivations.get? "t" =
      some ⟨knotFormula, .root, knotRefs, 1000⟩ := by
    rw [commitValue_derivations, hgraph]
    rfl
  refine ⟨knotted_reached, knotted_targets, hplain, write_endless hplain hleaf horder ?_⟩
  generalize (knotted.commitValue ⟨["p"]⟩ (.ofJson (.int 1)) none).1 = s at *
  have hchildren : s.view.index.childrenOf ⟨["a"]⟩ = ["b > 1"] := by
    show s.index.childrenOf ⟨["a"]⟩ = _
    rw [hinserted, hindex, Index.childrenOf_insert (by decide), Index.childrenOf_insert (by decide)]
    decide
  have hfirst := hafter.resolve_word (by decide : Text.isWord "p") (by decide)
  rw [hinserted, Path.key_word, Dict.get?_insert_self] at hfirst
  rw [recompute_eq hgraph, valueOf_knotFormula hchildren hfirst]
  rfl

end Store

end PathLedger
