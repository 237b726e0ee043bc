import PathLedger.Selector.Read

/-!
# Evaluation along a relation

Evaluation, filters and selectors come to their resolver through its reads only. What results and further steps keep
between the runs of two monads, they keep too, wherever it holds between the reads that they start.

* `Simulation` — a relation between runs that is kept by results and by what follows on them.
* `Simulation.outlasts` — what one run comes to, the other comes to as well.
* `Simulation.evaluate`, `Simulation.matchesAt` — expressions and filters.
* `Simulation.readTransform`, `Simulation.readSelection`, `Simulation.readFilter` — the three selectors.
-/

namespace PathLedger

/-- A relation between the runs of two monads that is kept by results and by what follows on them. -/
structure Simulation (m n : Type → Type) [Monad m] [Monad n] where
  Holds : {α : Type} → m α → n α → Prop
  result {α : Type} (a : α) : Holds (pure a : m α) (pure a : n α)
  next {α β : Type} {x : m α} {y : n α} {f : α → m β} {g : α → n β} (h : Holds x y)
    (hnext : ∀ a, Holds (f a) (g a)) : Holds (x >>= f) (y >>= g)

namespace Simulation

/-- What one run comes to, the other comes to as well. -/
def outlasts : Simulation Option Option where
  Holds x y := ∀ a, x = some a → y = some a
  result _ _ h := h
  next {_ _ x _ f _} h hnext b hb := by
    obtain ⟨a, hx, hf⟩ := Option.bind_eq_some_iff.mp hb
    exact Option.bind_eq_some_iff.mpr ⟨a, h a hx, hnext a b hf⟩

open Selector

variable {m n : Type → Type} [Monad m] [Monad n] (S : Simulation m n) {r : Resolver m} {r' : Resolver n}
  {index : Index} {scope p q : Path}

theorem readFirst (hp : S.Holds (r.readPath p) (r'.readPath p)) (hq : S.Holds (r.readPath q) (r'.readPath q)) :
    S.Holds (r.readFirst p q) (r'.readFirst p q) := by
  refine S.next hp fun first => ?_
  cases Value.present first with
  | some v => exact S.result _
  | none => exact S.next hq fun second => S.result _

/-! ## Expressions -/

theorem resolveIdentifier (hentry : r.indexEntry = r'.indexEntry)
    (h : ∀ q, S.Holds (r.readPath q) (r'.readPath q)) (label : String) :
    S.Holds (Expr.resolveIdentifier r scope label) (Expr.resolveIdentifier r' scope label) := by
  unfold Expr.resolveIdentifier
  rw [hentry]
  split
  · split
    · exact S.result _
    · exact S.next (h _) fun found => S.result _
  · exact S.readFirst (h _) (h _)

theorem runStep {step : Expr.Step}
    (h : ∀ l, step = .load l → S.Holds (Expr.resolveIdentifier r scope l) (Expr.resolveIdentifier r' scope l))
    (stack : List Value) :
    S.Holds (Expr.runStep r scope stack step).run (Expr.runStep r' scope stack step).run := by
  cases step with
  | push v => exact S.result _
  | load l =>
    refine S.next (h l rfl) fun found => ?_
    cases found <;> exact S.result _
  | unary o => cases stack <;> exact S.result _
  | binary o =>
    cases stack with
    | nil => exact S.result _
    | cons b below => cases below <;> exact S.result _

theorem runSteps {steps : List Expr.Step}
    (h : ∀ l, .load l ∈ steps → S.Holds (Expr.resolveIdentifier r scope l) (Expr.resolveIdentifier r' scope l))
    (stack : List Value) :
    S.Holds (Expr.runSteps r scope stack steps).run (Expr.runSteps r' scope stack steps).run := by
  induction steps generalizing stack with
  | nil => exact S.result _
  | cons step rest ih =>
    have hfirst := S.runStep (fun l hl => h l (hl ▸ List.mem_cons_self)) stack
    refine S.next hfirst fun found => ?_
    cases found with
    | none => exact S.result _
    | some stack => exact ih (fun l hl => h l (List.mem_cons_of_mem _ hl)) stack

/-- **Evaluation keeps the relation** that the values of its labels are in. -/
theorem evaluate {text : String}
    (h : ∀ steps, Expr.compile? text = some steps → ∀ l, .load l ∈ steps →
      S.Holds (Expr.resolveIdentifier r scope l) (Expr.resolveIdentifier r' scope l)) :
    S.Holds (Expr.evaluate r scope text) (Expr.evaluate r' scope text) := by
  unfold Expr.evaluate
  cases hsteps : Expr.compile? text with
  | none => exact S.result _
  | some steps =>
    refine S.next (S.runSteps (h steps hsteps) []) fun found => ?_
    split <;> exact S.result _

/-! ## Filters -/

theorem holdsAt {clause : Clause}
    (hleft : S.Holds (readSide r scope clause.left) (readSide r' scope clause.left))
    (hright : S.Holds (readSide r scope clause.right) (readSide r' scope clause.right)) :
    S.Holds (clause.holdsAt r scope) (clause.holdsAt r' scope) := by
  refine S.next hleft fun left => ?_
  cases left with
  | none => exact S.result _
  | some left =>
    dsimp only
    cases literal? clause.right with
    | some v => exact S.result _
    | none => exact S.next hright fun right => S.result _

theorem joinClauses {clauses : List (Connective × Clause)}
    (h : ∀ e ∈ clauses, S.Holds (e.2.holdsAt r scope) (e.2.holdsAt r' scope)) (acc : Bool) :
    S.Holds (Selector.joinClauses r scope acc clauses) (Selector.joinClauses r' scope acc clauses) := by
  induction clauses generalizing acc with
  | nil => exact S.result _
  | cons e rest ih =>
    exact S.next (h e List.mem_cons_self) fun v => ih (fun e he => h e (List.mem_cons_of_mem _ he)) _

/-- **Filters keep the relation** that their sides are in. -/
theorem matchesAt {f : Filter}
    (h : ∀ clause ∈ f.clauses, S.Holds (readSide r scope clause.left) (readSide r' scope clause.left) ∧
      S.Holds (readSide r scope clause.right) (readSide r' scope clause.right)) :
    S.Holds (f.matchesAt r scope) (f.matchesAt r' scope) := by
  obtain ⟨hleft, hright⟩ := h f.first List.mem_cons_self
  refine S.next (S.holdsAt hleft hright) fun v => S.joinClauses (fun e he => ?_) v
  obtain ⟨hleft, hright⟩ := h e.2 (List.mem_cons_of_mem _ (List.mem_map_of_mem he))
  exact S.holdsAt hleft hright

/-! ## Selectors -/

theorem gather {value : String → m (Option Value)} {value' : String → n (Option Value)} {keys : List String}
    (h : ∀ key ∈ keys, S.Holds (value key) (value' key)) :
    S.Holds (Selector.gather value keys) (Selector.gather value' keys) := by
  induction keys with
  | nil => exact S.result _
  | cons key rest ih =>
    have hrest := ih fun key hkey => h key (List.mem_cons_of_mem _ hkey)
    refine S.next (h key List.mem_cons_self) fun found => ?_
    cases found with
    | none => exact hrest
    | some v => exact S.next hrest fun others => S.result _

theorem gatherObject {value : String → m (Option Value)} {value' : String → n (Option Value)} {keys : List String}
    (h : ∀ key ∈ keys, S.Holds (value key) (value' key)) :
    S.Holds (Selector.gatherObject value keys) (Selector.gatherObject value' keys) :=
  S.next (S.gather h) fun _ => S.result _

theorem readBelow {suffix : Path} (h : S.Holds (r.readPath (scope.join suffix)) (r'.readPath (scope.join suffix))) :
    S.Holds (Selector.readBelow r index scope suffix) (Selector.readBelow r' index scope suffix) := by
  unfold Selector.readBelow
  split
  · exact S.result _
  · exact h

theorem readTransform
    (h : ∀ position base transform, firstSegment? (selectorOf? Transform.parse?) p.segments =
        some (position, base, transform) → ∀ child ∈ index.childrenOf (collectionAt p position base),
      S.Holds (Expr.evaluate r ((collectionAt p position base).child child) transform.relativeExpression)
        (Expr.evaluate r' ((collectionAt p position base).child child) transform.relativeExpression)) :
    S.Holds (Selector.readTransform r index p) (Selector.readTransform r' index p) := by
  unfold Selector.readTransform
  split
  · exact S.result _
  · rename_i position base transform hfirst
    split
    · exact S.next (S.gatherObject (h position base transform hfirst)) fun v => S.result _
    · exact S.result _

theorem readSelection
    (h : ∀ position base keys, firstSegment? (selectorOf? keys?) p.segments = some (position, base, keys) →
      ∀ key ∈ keys, S.Holds
        (r.readPath (((collectionAt p position base).child key).join (p.drop (position + 1))))
        (r'.readPath (((collectionAt p position base).child key).join (p.drop (position + 1))))) :
    S.Holds (Selector.readSelection r index p) (Selector.readSelection r' index p) := by
  unfold Selector.readSelection
  split
  · exact S.result _
  · rename_i position base keys hfirst
    refine S.next (S.gatherObject fun key hkey => ?_) fun v => S.result _
    exact S.readBelow (h position base keys hfirst key hkey)

theorem readFilter
    (h : ∀ position filter, firstSegment? (fun s => Filter.parse? s.toList) p.segments = some (position, filter) →
      ∀ child ∈ index.childrenOf (p.take position),
        S.Holds (filter.matchesAt r ((p.take position).child child))
          (filter.matchesAt r' ((p.take position).child child)) ∧
        S.Holds (r.readPath (((p.take position).child child).join (p.drop (position + 1))))
          (r'.readPath (((p.take position).child child).join (p.drop (position + 1))))) :
    S.Holds (Selector.readFilter r index p) (Selector.readFilter r' index p) := by
  unfold Selector.readFilter
  split
  · exact S.result _
  · rename_i position filter hfirst
    split
    · exact S.result _
    · refine S.next (S.gatherObject fun child hchild => ?_) fun v => S.result _
      obtain ⟨hmatches, hbelow⟩ := h position filter hfirst child hchild
      refine S.next hmatches fun passes => ?_
      cases passes with
      | false => exact S.result _
      | true => exact S.readBelow hbelow

end Simulation

end PathLedger
