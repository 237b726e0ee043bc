import PathLedger.Proofs.Derivation.Subscriptions
import PathLedger.Proofs.Index.Uncovered
import PathLedger.Proofs.Selector.Free
import PathLedger.Proofs.Store.Derivations
import PathLedger.Proofs.Store.Stealth
import PathLedger.Proofs.Store.Termination

/-!
# Passes over derivations

A pass computes targets anew, one after another. Where nothing is declared and nothing points elsewhere, each
step puts the value of a formula at its target and leaves all other keys as they were.

* `Store.Computes` — a pass that comes to its end; `Store.recomputeEach_cases` — how far a pass gets.
* `Store.Bare` — stores without declarations and pointers.
* `Store.Reads` — the keys that an evaluation comes to.
* `Store.Bare.isSome_valueOf` — the evaluation of a formula without selectors ends.
* `Store.Bare.valueOf_congr` — **what a formula gives depends on these keys only**.
* `Store.Bare.recompute`, `Store.Bare.computes` — one step of a pass, and a pass.
* `Store.Current` — a target that holds what its formula gives.
* `Store.Bare.current_of_pass` — **a target is current after a pass** that computes it after all the targets
  that its formula reads.
-/

namespace PathLedger

theorem Scopes.effectiveSecret_empty (p : Path) : empty.effectiveSecret p = "" := by
  have hnoise : empty.noiseOver? p = none := List.foldl_fixed' (fun _ => rfl) _
  unfold effectiveSecret
  rw [hnoise]
  dsimp only
  rw [List.foldl_fixed' fun _ => rfl]
  rfl

/-! ## Formulas -/

namespace Derivation

/-- The text and the scope of a derivation. -/
def formula (d : Derivation) : String × Path := (d.expression, d.scope)

namespace Graph

/-- The formula registered at a target. -/
def formula? (g : Graph) (target : String) : Option (String × Path) := (g.get? target).map formula

theorem formula?_touch (g : Graph) (target : String) (time : UInt64) (t : String) :
    (g.touch target time).formula? t = g.formula? t := by
  unfold formula?
  rw [get?_touch]
  split
  · cases g.get? t <;> rfl
  · rfl

theorem formula?_register (g : Graph) (p : Path) (d : Derivation) (t : String) :
    (g.register p d).formula? t = if t = p.key then some d.formula else g.formula? t := by
  unfold formula?
  rw [get?_register]
  split <;> rfl

theorem formula?_clearUnder (g : Graph) (p : Path) (t : String) :
    (g.clearUnder p).formula? t = if Path.atOrUnder t p.key then none else g.formula? t := by
  unfold formula?
  rw [get?_clearUnder]
  split <;> rfl

theorem get?_of_formula? {g : Graph} {target expression : String} {scope : Path}
    (h : g.formula? target = some (expression, scope)) :
    ∃ d, g.get? target = some d ∧ d.expression = expression ∧ d.scope = scope := by
  obtain ⟨d, hd, hformula⟩ := Option.map_eq_some_iff.mp h
  exact ⟨d, hd, congrArg Prod.fst hformula, congrArg Prod.snd hformula⟩

end Graph

end Derivation

/-- No label of a formula leads through a selector, neither below the scope nor from the root. -/
def Expr.Direct (expression : String) (scope : Path) : Prop :=
  ∀ label ∈ references expression,
    Selector.Free (scope.join (Path.parse label)) ∧ Selector.Free (Path.parse label)

instance (expression : String) (scope : Path) : Decidable (Expr.Direct expression scope) :=
  inferInstanceAs (Decidable (∀ label ∈ Expr.references expression, _))

namespace Store

variable {s t : Store}

theorem touched_index (s : Store) (target : String) : (s.touched target).index = s.index := rfl

theorem Ticks.touched {n : Nat} (h : Ticks s (n + 1)) (target : String) : Ticks (s.touched target) n :=
  h.advance rfl rfl

theorem formula?_recompute {target : String} (h : s.recompute target = some t) (u : String) :
    t.derivations.formula? u = s.derivations.formula? u := by
  obtain ⟨time, htime⟩ := derivations_recompute h
  rw [htime, Derivation.Graph.formula?_touch]

/-! ## Passes that come to their end -/

/-- Targets computed anew in turn, each to the end of its evaluation. -/
inductive Computes : Store → List String → Store → Prop where
  | nil (s : Store) : Computes s [] s
  | cons {s t u : Store} {target : String} {rest : List String} (h : s.recompute target = some t)
    (hrest : Computes t rest u) : Computes s (target :: rest) u

theorem computes_nil_iff : Computes s [] t ↔ t = s := by
  constructor
  · rintro (_ | _)
    rfl
  · rintro rfl
    exact .nil t

theorem computes_append_iff {front rest : List String} :
    Computes s (front ++ rest) t ↔ ∃ u, Computes s front u ∧ Computes u rest t := by
  induction front generalizing s with
  | nil => simp [computes_nil_iff]
  | cons target front ih =>
    constructor
    · rintro (_ | ⟨h, hmore⟩)
      obtain ⟨u, hfront, hrest⟩ := ih.mp hmore
      exact ⟨u, .cons h hfront, hrest⟩
    · rintro ⟨u, hfront, hrest⟩
      cases hfront with
      | cons h hmore => exact .cons h (ih.mpr ⟨u, hmore, hrest⟩)

/-- **How far a pass gets**: to its end, or to a target whose evaluation never ends. -/
theorem recomputeEach_cases (s : Store) (targets : List String) :
    ∃ done left, targets = done ++ left ∧ Computes s done (s.recomputeEach targets).1 ∧
      ((s.recomputeEach targets).2 = true ∧ left = [] ∨
        (s.recomputeEach targets).2 = false ∧
          ∃ target rest, left = target :: rest ∧ (s.recomputeEach targets).1.recompute target = none) := by
  induction targets generalizing s with
  | nil => exact ⟨[], [], rfl, .nil s, .inl ⟨rfl, rfl⟩⟩
  | cons target rest ih =>
    unfold recomputeEach
    cases h : s.recompute target with
    | none => exact ⟨[], target :: rest, rfl, .nil s, .inr ⟨rfl, target, rest, rfl, h⟩⟩
    | some t =>
      obtain ⟨done, left, rfl, hdone, hends⟩ := ih t
      exact ⟨target :: done, left, rfl, .cons h hdone, hends⟩

/-- A pass comes to its end exactly when every one of its evaluations does. -/
theorem recomputeEach_eq_iff {targets : List String} : s.recomputeEach targets = (t, true) ↔ Computes s targets t := by
  induction targets generalizing s with
  | nil => simp [recomputeEach, computes_nil_iff, eq_comm]
  | cons target rest ih =>
    unfold recomputeEach
    constructor
    · intro h
      split at h
      · rename_i u hu
        exact .cons hu (ih.mp h)
      · cases congrArg Prod.snd h
    · rintro (_ | ⟨hu, hrest⟩)
      rw [hu]
      exact ih.mpr hrest

theorem computes_of_ends {targets : List String} (h : (s.recomputeEach targets).2 = true) :
    Computes s targets (s.recomputeEach targets).1 := recomputeEach_eq_iff.mp (Prod.ext rfl h)

theorem Computes.formula? {targets : List String} (h : Computes s targets t) (u : String) :
    t.derivations.formula? u = s.derivations.formula? u := by
  induction h with
  | nil s => rfl
  | cons h _ ih => rw [ih, formula?_recompute h]

/-! ## Bare stores -/

/-- Nothing is declared, nothing points elsewhere, and every key of a target spells its path. -/
structure Bare (s : Store) : Prop where
  scopes : s.scopes = .empty
  pointerless : s.index.Pointerless
  current : IndexCurrent s
  spelled : ∀ target, (s.derivations.formula? target).isSome → Path.Spelled target

/-- The keys that the evaluation of a formula comes to: every label below the scope and, where that reads as
nothing, from the root. -/
def Reads (s : Store) (expression : String) (scope : Path) (key : String) : Prop :=
  ∃ label ∈ Expr.references expression, Expr.pointerLabel? label = none ∧
    (key = (scope.join (Path.parse label)).normalize.key ∨
      (∃ found, s.view.read (scope.join (Path.parse label)) = some found ∧ Value.present found = none) ∧
        key = (Path.parse label).normalize.key)

/-- A target holds what its formula gives. -/
def Current (s : Store) (target : String) : Prop :=
  ∃ expression scope v, s.derivations.formula? target = some (expression, scope) ∧
    s.valueOf expression scope = some v ∧ s.index.get? target = some v

namespace Bare

/-! ## Reading and evaluating -/

/-- A path without selectors reads as its entry. -/
theorem read_free (h : Bare s) {p : Path} (hp : Selector.Free p) :
    s.view.read p = some ((s.index.get? p.normalize.key).bind (s.view.plain? p.normalize)) := by
  refine s.view.read_clear hp ?_ (h.pointerless.redirect? _)
  rw [show s.view.scopes = s.scopes from rfl, h.scopes]
  exact Scopes.hidingScope?_empty _

theorem read_congr (hs : Bare s) (ht : Bare t) {p : Path} (hp : Selector.Free p)
    (hsame : s.index.get? p.normalize.key = t.index.get? p.normalize.key) : s.view.read p = t.view.read p := by
  have hscopes : s.scopes = t.scopes := hs.scopes.trans ht.scopes.symm
  have hplain : s.view.plain? p.normalize = t.view.plain? p.normalize :=
    View.plain?_congr (congrArg (Scopes.effectiveSecret · _) hscopes)
  rw [hs.read_free hp, ht.read_free hp, hsame, hplain]

/-- A label stands for what it reads as below the scope, or else from the root. -/
theorem resolve_label (s : Store) {label : String} (h : Expr.pointerLabel? label = none) {scope : Path}
    {near far : Option Value} (hnear : s.view.read (scope.join (Path.parse label)) = some near)
    (hfar : s.view.read (Path.parse label) = some far) :
    Expr.resolveIdentifier s.resolver scope label = some ((Value.present near).or (Value.present far)) := by
  have hread (p : Path) : s.resolver.readPath p = s.view.read p := rfl
  unfold Expr.resolveIdentifier Resolver.readFirst
  rw [h]
  simp only [hread, hnear, hfar, Option.bind_eq_bind, Option.bind_some]
  cases Value.present near <;> rfl

/-- No label reads through a pointer. -/
theorem resolve_pointerLabel (h : Bare s) {label rest : String} (hlabel : Expr.pointerLabel? label = some rest)
    (scope : Path) : Expr.resolveIdentifier s.resolver scope label = some none := by
  have hnone : (s.resolver.indexEntry scope).bind Value.asPointer? = none := by
    show (s.index.get? scope.key).bind Value.asPointer? = none
    cases hentry : s.index.get? scope.key with
    | none => rfl
    | some v =>
      cases v with
      | pointer target => exact absurd hentry (h.pointerless _ target)
      | _ => rfl
  unfold Expr.resolveIdentifier
  rw [hlabel]
  dsimp only
  rw [hnone]
  rfl

/-- **The evaluation of a formula without selectors ends.** -/
theorem isSome_valueOf (h : Bare s) {expression : String} {scope : Path} (hdirect : Expr.Direct expression scope) :
    (s.valueOf expression scope).isSome := by
  have hlabels (label : String) (hlabel : label ∈ Expr.references expression) : Simulation.meets.Holds
      (Expr.resolveIdentifier s.resolver scope label) (Expr.resolveIdentifier s.resolver scope label) := by
    cases hpointer : Expr.pointerLabel? label with
    | some rest => exact ⟨_, h.resolve_pointerLabel hpointer scope, h.resolve_pointerLabel hpointer scope⟩
    | none =>
      obtain ⟨hrelative, habsolute⟩ := hdirect label hlabel
      have hresolve := resolve_label s hpointer (h.read_free hrelative) (h.read_free habsolute)
      exact ⟨_, hresolve, hresolve⟩
  obtain ⟨v, hv, -⟩ :=
    Simulation.meets.evaluate fun _ hsteps label hlabel => hlabels label (Expr.mem_compile? hsteps hlabel)
  rw [valueOf, hv]
  rfl

/-- **What a formula gives depends on the keys only that its evaluation comes to.** -/
theorem valueOf_congr (hs : Bare s) (ht : Bare t) {expression : String} {scope : Path}
    (hdirect : Expr.Direct expression scope)
    (hsame : ∀ key, t.Reads expression scope key → s.index.get? key = t.index.get? key) :
    s.valueOf expression scope = t.valueOf expression scope := by
  unfold valueOf
  refine congrArg (Option.map _) (Expr.evaluate_congr fun label hlabel => ?_)
  cases hpointer : Expr.pointerLabel? label with
  | some rest => rw [hs.resolve_pointerLabel hpointer, ht.resolve_pointerLabel hpointer]
  | none =>
    obtain ⟨hrelative, habsolute⟩ := hdirect label hlabel
    have hfirst := read_congr hs ht hrelative (hsame _ ⟨label, hlabel, hpointer, .inl rfl⟩)
    have hnear := ht.read_free hrelative
    have hfar := hs.read_free habsolute
    have hfar' := ht.read_free habsolute
    rw [resolve_label s hpointer (hfirst.trans hnear) hfar, resolve_label t hpointer hnear hfar']
    cases hpresent : Value.present ((t.index.get? (scope.join (Path.parse label)).normalize.key).bind
        (t.view.plain? (scope.join (Path.parse label)).normalize)) with
    | some v => rw [Option.some_or, Option.some_or]
    | none =>
      have hkey : t.Reads expression scope (Path.parse label).normalize.key :=
        ⟨label, hlabel, hpointer, .inr ⟨⟨_, hnear, hpresent⟩, rfl⟩⟩
      rw [read_congr hs ht habsolute (hsame _ hkey), hfar'] at hfar
      rw [Option.some.inj hfar]

/-! ## One step -/

/-- A value that is no pointer is put at its key. -/
theorem commitValue (h : Bare s) (hfresh : Fresh s) {p : Path} (hp : p.Clean) {v : Value}
    (hv : ∀ target, v ≠ .pointer target) {operator : Option Operator.Kind}
    (hsets : ∀ w, Index.setsKey (s.recordOf ⟨p, operator, v, w⟩)) :
    Bare (s.commitValue p v operator).1 ∧
      (s.commitValue p v operator).1.index = s.index.insert p.key v := by
  have hclear : s.scopes.hidingScope? p = none := by
    rw [h.scopes]
    exact Scopes.hidingScope?_empty p
  have hplain : s.storedForm p v operator = v := by
    refine storedForm_of_effectiveSecret_eq_empty ?_ v operator
    rw [h.scopes]
    exact Scopes.effectiveSecret_empty p
  have hindex : (s.commitValue p v operator).1.index = s.index.insert p.key v := by
    rw [commitValue_index_of_setsKey h.current hfresh hp hclear v (hsets _), hplain]
  refine ⟨⟨?_, ?_, ?_, ?_⟩, hindex⟩
  · rw [commitValue_scopes, h.scopes]
  · rw [hindex]
    exact h.pointerless.insert hv _
  · exact indexCurrent_stable.value p v operator h.current
  · rw [commitValue_derivations]
    exact h.spelled

theorem registered (h : Bare s) {scope : Path} {name : String}
    (hspelled : Path.Spelled (scope.join (Path.canonical name)).key) (expression : String) (refs : List Reference) :
    Bare (s.registered scope name expression refs) := by
  refine ⟨h.scopes, h.pointerless, h.current, ?_⟩
  intro u hu
  unfold Store.registered at hu
  rw [Derivation.Graph.formula?_register] at hu
  split at hu
  · rename_i heq
    rw [heq]
    exact hspelled
  · exact h.spelled u hu

theorem registered_word (h : Bare s) {name : String} (hname : Text.isWord name) (expression : String)
    (refs : List Reference) : Bare (s.registered .root name expression refs) := by
  refine h.registered ?_ expression refs
  rw [Path.canonical_word hname, Path.root_join, Path.Spelled, (Path.plain_word hname).ofKey_key]

/-- A computed value committed at a word. -/
theorem commitValue_word (h : Bare s) {n : Nat} (hticks : Ticks s (n + 1)) {name : String}
    (hname : Text.isWord name) {v : Value} (hv : v.IsData) :
    Bare (s.commitValue ⟨[name]⟩ v (some .derive)).1 ∧ Ticks (s.commitValue ⟨[name]⟩ v (some .derive)).1 n ∧
      (s.commitValue ⟨[name]⟩ v (some .derive)).1.index = s.index.insert name v := by
  have hsets (w : Value) : Index.setsKey (s.recordOf ⟨⟨[name]⟩, some .derive, v, w⟩) := rfl
  obtain ⟨hbare, hindex⟩ := h.commitValue hticks.fresh (Path.plain_word hname).clean hv.ne_pointer hsets
  rw [Path.key_word] at hindex
  exact ⟨hbare, hticks.commitValue _ _ _, hindex⟩

theorem touched (h : Bare s) (target : String) : Bare (s.touched target) := by
  refine ⟨h.scopes, h.pointerless, h.current, ?_⟩
  intro u hu
  unfold Store.touched at hu
  rw [Derivation.Graph.formula?_touch] at hu
  exact h.spelled u hu

variable {n : Nat} {target expression : String} {scope : Path}

/-- **One step of a pass** puts the value of a formula at its target and takes two readings of the clock. -/
theorem recompute (h : Bare s) (hticks : Ticks s (n + 2))
    (hformula : s.derivations.formula? target = some (expression, scope)) (hdone : s.recompute target = some t) :
    Bare t ∧ Ticks t n ∧ ∃ v, s.valueOf expression scope = some v ∧ t.index = s.index.insert target v := by
  obtain ⟨d, hd, rfl, rfl⟩ := Derivation.Graph.get?_of_formula? hformula
  have hspelled : (Path.ofKey target).key = target := h.spelled target (by rw [hformula]; rfl)
  rw [recompute_eq hd] at hdone
  obtain ⟨v, hv, rfl⟩ := Option.map_eq_some_iff.mp hdone
  have hsets (w : Value) : Index.setsKey (s.recordOf ⟨Path.ofKey target, some .derive, v, w⟩) := rfl
  obtain ⟨hbare, hindex⟩ :=
    h.commitValue hticks.fresh (Path.ofKey_clean target) (valueOf_isData hv).ne_pointer hsets
  refine ⟨hbare.touched target, (hticks.commitValue _ _ _).touched target, v, hv, ?_⟩
  rw [touched_index, hindex, hspelled]

/-- A formula without selectors can be computed anew. -/
theorem exists_recompute (h : Bare s) (hformula : s.derivations.formula? target = some (expression, scope))
    (hdirect : Expr.Direct expression scope) : ∃ t, s.recompute target = some t := by
  obtain ⟨d, hd, rfl, rfl⟩ := Derivation.Graph.get?_of_formula? hformula
  obtain ⟨v, hv⟩ := Option.isSome_iff_exists.mp (h.isSome_valueOf hdirect)
  exact ⟨_, by rw [recompute_eq hd, hv, Option.map_some]⟩

/-! ## A pass -/

/-- **A pass changes its own targets only.** -/
theorem computes (h : Bare s) {targets : List String} (hticks : Ticks s (n + 2 * targets.length))
    (hregistered : ∀ u ∈ targets, (s.derivations.formula? u).isSome) (hpass : Computes s targets t) :
    Bare t ∧ Ticks t n ∧ ∀ key ∉ targets, t.index.get? key = s.index.get? key := by
  induction hpass with
  | nil s => exact ⟨h, hticks, fun _ _ => rfl⟩
  | @cons s t last u rest hfirst hrest ih =>
    obtain ⟨⟨expression, scope⟩, hformula⟩ := Option.isSome_iff_exists.mp (hregistered u List.mem_cons_self)
    have hsum : n + 2 * (u :: rest).length = n + 2 * rest.length + 2 := by
      rw [List.length_cons]
      omega
    rw [hsum] at hticks
    obtain ⟨hbare, hafter, v, -, hindex⟩ := h.recompute hticks hformula hfirst
    obtain ⟨hlast, hleft, hothers⟩ := ih hbare hafter fun w hw => by
      rw [formula?_recompute hfirst]
      exact hregistered w (List.mem_cons_of_mem _ hw)
    refine ⟨hlast, hleft, fun key hkey => ?_⟩
    obtain ⟨hne, hrest⟩ := not_or.mp (mt List.mem_cons.mpr hkey)
    rw [hothers key hrest, hindex, Dict.get?_insert_of_ne _ hne]

/-- **A pass over formulas without selectors comes to its end.** -/
theorem exists_computes (h : Bare s) {targets : List String} (hticks : Ticks s (n + 2 * targets.length))
    (hdirect : ∀ u ∈ targets, ∃ expression scope,
      s.derivations.formula? u = some (expression, scope) ∧ Expr.Direct expression scope) :
    ∃ t, Computes s targets t := by
  induction targets generalizing s with
  | nil => exact ⟨s, .nil s⟩
  | cons u rest ih =>
    obtain ⟨⟨expression, scope, hformula, hfirst⟩, hmore⟩ := List.forall_mem_cons.mp hdirect
    obtain ⟨mid, hdone⟩ := h.exists_recompute hformula hfirst
    have hsum : n + 2 * (u :: rest).length = n + 2 * rest.length + 2 := by
      rw [List.length_cons]
      omega
    rw [hsum] at hticks
    obtain ⟨hbare, hafter, -⟩ := h.recompute hticks hformula hdone
    obtain ⟨t, hrest⟩ := ih hbare hafter fun w hw => by
      rw [formula?_recompute hdone]
      exact hmore w hw
    exact ⟨t, .cons hdone hrest⟩

/-- **A target is current after a pass** that computes it once, after all the targets that its formula reads. -/
theorem current_of_pass (h : Bare s) {before after : List String}
    (hticks : Ticks s (n + 2 * (before ++ target :: after).length))
    (hregistered : ∀ u ∈ before ++ target :: after, (s.derivations.formula? u).isSome)
    (honce : target ∉ after) (hformula : s.derivations.formula? target = some (expression, scope))
    (hdirect : Expr.Direct expression scope) (hpass : Computes s (before ++ target :: after) t)
    (hreads : ∀ u, t.Reads expression scope u → u ∉ target :: after) : t.Current target := by
  have hsum : n + 2 * (before ++ target :: after).length =
      n + 2 * after.length + 2 + 2 * before.length := by
    rw [List.length_append, List.length_cons]
    omega
  have hlast := (h.computes hticks hregistered hpass).1
  have hkept := hpass.formula? target
  rw [hsum] at hticks
  obtain ⟨mid, hbefore, hlater⟩ := computes_append_iff.mp hpass
  obtain ⟨hmid, hticks, -⟩ := h.computes hticks (fun u hu => hregistered u (List.mem_append_left _ hu)) hbefore
  have hformulas := hbefore.formula?
  cases hlater with
  | @cons _ done _ _ _ hstep hafter =>
    obtain ⟨hdone, hticks, v, hv, hindex⟩ := hmid.recompute hticks ((hformulas target).trans hformula) hstep
    obtain ⟨-, -, hothers⟩ := hdone.computes hticks (fun u hu => by
      rw [formula?_recompute hstep, hformulas]
      exact hregistered u (List.mem_append_right _ (List.mem_cons_of_mem _ hu))) hafter
    refine ⟨expression, scope, v, hkept.trans hformula, ?_, ?_⟩
    · -- What the formula reads is not touched any more, so it gives the same at the end of the pass.
      rw [← hv]
      refine (hmid.valueOf_congr hlast hdirect fun key hkey => ?_).symm
      obtain ⟨hne, hnot⟩ := not_or.mp (mt List.mem_cons.mpr (hreads key hkey))
      rw [hothers key hnot, hindex, Dict.get?_insert_of_ne _ hne]
    · rw [hothers target honce, hindex, Dict.get?_insert_self]

end Bare

end Store

end PathLedger
