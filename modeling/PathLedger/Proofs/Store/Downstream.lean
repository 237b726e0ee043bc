import PathLedger.Proofs.Derivation.Levels
import PathLedger.Proofs.Derivation.Upkeep
import PathLedger.Proofs.Store.Freshness
import PathLedger.Proofs.Store.PlainRuns

/-!
# What a change records

A change commits its own record and then goes through the targets that it sets off. Each of them is computed anew
once, and each computation is one record. A call that never returns stands before a target whose evaluation never
ends.

* `Store.Reached.kept` — in every store that is reached the rows of subscriptions mirror the references.
* `Store.pass` — a pass that asks the graph of the store it has come to; `Store.pass_eq` — **computing does not
  change what comes next**, so that the order may be read off at the start.
* `Store.recompute_records`, `Store.Computes.records` — one record for each target.
* `Store.Recomputes` — records of what is downstream of a change, each target once and from near to far.
* `Store.call_records_downstream` — **a write and a declaration record themselves, then what
  is downstream of them**, and nothing else, as far as the evaluations come to an end.
-/

namespace PathLedger

open PathLedger.Derivation

namespace Derivation.Graph

theorem subscribersOf_touch (g : Graph) (target : String) (time : UInt64) :
    (g.touch target time).subscribersOf = g.subscribersOf := by
  funext key
  rw [subscribersOf, subscribers_touch, subscribersOf]

theorem ahead_touch (g : Graph) (target : String) (time : UInt64) : (g.touch target time).ahead = g.ahead := by
  funext seen
  rw [ahead, subscribedTargets, subscribers_touch, ahead, subscribedTargets]

/-- A cascade depends on the rows of subscriptions and on what counts as changed. -/
theorem cascadeFrom_congr {g g' : Graph} (hsubs : g'.subscribersOf = g.subscribersOf) {changes changes' : String → Bool}
    (hchanges : changes' = changes) (seen waiting changed : List String) :
    g'.cascadeFrom changes' seen waiting changed = g.cascadeFrom changes seen waiting changed := by
  subst hchanges
  fun_induction cascadeFrom g changes' seen waiting changed with
  | case1 seen t waiting changed ih =>
    simp only [dite_eq_ite] at ih ⊢
    rw [cascadeFrom_waiting, ih]
  | case2 seen => exact cascadeFrom_nil seen
  | case3 seen key changed hnone ih => rw [cascadeFrom_changed, hsubs, hnone, List.append_nil, ih]
  | case4 seen key changed t rest hnew hlt ih => rw [cascadeFrom_changed, hsubs, hnew, ih]

end Derivation.Graph

/-- The scope that an instruction declares a secret or a noise for, and the operator of its record. -/
def Operator.Instruction.declaration? : Operator.Instruction → Option (Path × Operator.Kind)
  | .declareSecret scope _ => some (scope, .secret)
  | .declareNoise scope _ => some (scope, .noise)
  | _ => none

namespace Store

variable {s t : Store}

/-! ## Subscriptions of a store -/

theorem kept_stable : Stable fun s => s.derivations.Kept where
  value p v operator h := by
    rw [commitValue_derivations]
    exact h
  secret _ _ h := h
  noise _ _ h := h
  removal target h := by
    rw [removeSubtree_eq, commit_derivations, (frame_pruned _ target).derivations]
    exact h.clearUnder target
  register _ _ _ _ _ h := h.register _ _
  touch target h := h.touch target _
  operators _ h := h

/-- **In every store that is reached the rows of subscriptions mirror the references**, and are tidy. -/
theorem Reached.kept {allowed : Call → Prop} (h : Reached allowed s) : s.derivations.Kept :=
  h.holds kept_stable (fun _ => .empty) (fun _ _ => .empty) (fun _ _ _ => .empty)

/-! ## A pass step by step -/

theorem subscribersOf_recompute {target : String} (h : s.recompute target = some t) :
    t.derivations.subscribersOf = s.derivations.subscribersOf := by
  obtain ⟨time, htime⟩ := derivations_recompute h
  rw [htime, Graph.subscribersOf_touch]

theorem Computes.subscribersOf {targets : List String} (h : Computes s targets t) :
    t.derivations.subscribersOf = s.derivations.subscribersOf := by
  induction h with
  | nil s => rfl
  | cons hstep _ ih => rw [ih, subscribersOf_recompute hstep]

/-- However far a pass gets, it changes no subscription. -/
theorem subscribersOf_recomputeEach (s : Store) (targets : List String) :
    (s.recomputeEach targets).1.derivations.subscribersOf = s.derivations.subscribersOf := by
  obtain ⟨done, left, -, hdone, -⟩ := s.recomputeEach_cases targets
  exact hdone.subscribersOf

theorem ahead_recompute {target : String} (h : s.recompute target = some t) :
    t.derivations.ahead = s.derivations.ahead := by
  obtain ⟨time, htime⟩ := derivations_recompute h
  rw [htime, Graph.ahead_touch]

theorem isSome_get?_recompute {target : String} (h : s.recompute target = some t) (u : String) :
    (t.derivations.get? u).isSome = (s.derivations.get? u).isSome := by
  have h := congrArg Option.isSome (formula?_recompute h u)
  rwa [Graph.formula?, Graph.formula?, Option.isSome_map, Option.isSome_map] at h

/-- The store after a pass that asks, at every step, the graph of the store that it has come to, and whether it comes to
its end: the first of what waits is computed anew and counts as changed, and otherwise the first changed key sends what
it sets off to wait. -/
def pass (s : Store) (seen waiting changed : List String) : Store × Bool :=
  match waiting, changed with
  | t :: waiting, changed =>
    match h : s.recompute t with
    | some u =>
      have := ahead_recompute h
      u.pass seen waiting (if (s.derivations.get? t).isSome then changed ++ [t] else changed)
    | none => (s, false)
  | [], [] => (s, true)
  | [], key :: changed =>
    match h : Graph.unseen seen (s.derivations.subscribersOf key) with
    | [] => s.pass seen [] changed
    | t :: rest =>
      have := Graph.ahead_lt h
      s.pass (seen ++ t :: rest) (t :: rest) changed
termination_by (s.derivations.ahead seen, 2 * waiting.length + changed.length)
decreasing_by
  · rw [this]
    apply Prod.Lex.right
    split
    · simp
      omega
    · simp
  · apply Prod.Lex.right
    simp
  · exact Prod.Lex.left _ _ this

/-- **Computing a target anew does not change what comes next in a pass.** -/
theorem pass_eq (s : Store) (seen waiting changed : List String) :
    s.pass seen waiting changed =
      s.recomputeEach (s.derivations.cascadeFrom (fun t => (s.derivations.get? t).isSome) seen waiting changed) := by
  fun_induction pass s seen waiting changed with
  | case1 s seen t waiting changed u hu _ ih =>
    simp only [dite_eq_ite] at ih ⊢
    rw [ih, Graph.cascadeFrom_waiting, recomputeEach, hu]
    dsimp only
    congr 1
    exact Graph.cascadeFrom_congr (subscribersOf_recompute hu) (funext (isSome_get?_recompute hu)) _ _ _
  | case2 s seen t waiting changed hu => rw [Graph.cascadeFrom_waiting, recomputeEach, hu]
  | case3 s seen => rw [Graph.cascadeFrom_nil, recomputeEach]
  | case4 s seen key changed hnone ih => rw [ih, Graph.cascadeFrom_changed, hnone, List.append_nil]
  | case5 s seen key changed t rest hnew hlt ih => rw [ih, Graph.cascadeFrom_changed, hnew]

/-! ## The records of a pass -/

/-- **Computing a target anew is one record.** -/
theorem recompute_records {target : String} (h : s.recompute target = some t)
    (hregistered : (s.derivations.formula? target).isSome) (hspelled : Path.Spelled target) :
    ∃ r, t.ledger.records = s.ledger.records ++ [r] ∧ r.path = target ∧ r.operator = some .derive := by
  obtain ⟨⟨expression, scope⟩, hformula⟩ := Option.isSome_iff_exists.mp hregistered
  obtain ⟨d, hd, -, -⟩ := Graph.get?_of_formula? hformula
  rw [recompute_eq hd] at h
  obtain ⟨v, -, rfl⟩ := Option.map_eq_some_iff.mp h
  obtain ⟨r, hrecords, hpath, hoperator, -⟩ := s.commitValue_records (Path.ofKey target) v (some .derive)
  exact ⟨r, hrecords, hpath.trans hspelled, hoperator⟩

/-- **A pass is one record for each of its targets**, in their order. -/
theorem Computes.records {targets : List String} (h : Computes s targets t)
    (hregistered : ∀ u ∈ targets, (s.derivations.formula? u).isSome) (hspelled : ∀ u ∈ targets, Path.Spelled u) :
    ∃ rs, t.ledger.records = s.ledger.records ++ rs ∧ rs.map Record.path = targets ∧
      ∀ r ∈ rs, r.operator = some .derive := by
  induction h with
  | nil s => exact ⟨[], (List.append_nil _).symm, rfl, fun _ h => nomatch h⟩
  | @cons s mid last u rest hstep _ ih =>
    obtain ⟨r, hfirst, hpath, hoperator⟩ :=
      recompute_records hstep (hregistered u List.mem_cons_self) (hspelled u List.mem_cons_self)
    obtain ⟨rs, hrest, hpaths, hoperators⟩ := ih
      (fun v hv => formula?_recompute hstep v ▸ hregistered v (List.mem_cons_of_mem _ hv))
      fun v hv => hspelled v (List.mem_cons_of_mem _ hv)
    refine ⟨r :: rs, ?_, ?_, List.forall_mem_cons.mpr ⟨hoperator, hoperators⟩⟩
    · rw [hrest, hfirst, List.append_assoc, List.singleton_append]
    · rw [List.map_cons, hpath, hpaths]

/-- Records of computations, and the targets that were left: together one for each target that is a subscription or more
away from where a change starts, from near to far, and none besides. -/
structure Recomputes (g : Graph) (start : String → Prop) (records : List Record) (left : List String) : Prop where
  computed : ∀ r ∈ records, r.operator = some .derive
  reached : ∀ u, u ∈ records.map Record.path ++ left ↔ ∃ n, g.Away start (n + 1) u
  once : (records.map Record.path ++ left).Nodup
  ordered : (records.map Record.path ++ left).Pairwise (g.NoFarther start)

theorem PlainTargets.spelled (h : PlainTargets s) {u : String} (hu : (s.derivations.formula? u).isSome) :
    Path.Spelled u := by
  rw [Graph.formula?, Option.isSome_map] at hu
  obtain ⟨p, hp, rfl⟩ := h u hu
  rw [Path.Spelled, hp.ofKey_key]

/-- **What is downstream of a row of changed keys is recorded**, up to a target whose evaluation never ends. -/
theorem downstream_records (hbound : s.derivations.Bound) (htargets : PlainTargets s) {changed : List String}
    {start : String → Prop} (hstart : ∀ key, key ∈ changed ↔ start key) :
    ∃ rs left, (s.recomputeEach (s.downstream changed)).1.ledger.records = s.ledger.records ++ rs ∧
      Recomputes s.derivations start rs left ∧
      ((s.recomputeEach (s.downstream changed)).2 = true ∧ left = [] ∨
        (s.recomputeEach (s.downstream changed)).2 = false ∧ ∃ target rest, left = target :: rest ∧
          (s.recomputeEach (s.downstream changed)).1.recompute target = none) := by
  obtain rfl : (· ∈ changed) = start := funext fun key => propext (hstart key)
  have hregistered := downstream_registered hbound changed
  have hchanges (key u : String) (hu : u ∈ s.derivations.subscribersOf key) : (s.derivations.get? u).isSome :=
    hbound.mirrors.registered hu
  obtain ⟨done, left, hsplit, hdone, hends⟩ := s.recomputeEach_cases (s.downstream changed)
  have hmem (u : String) (hu : u ∈ done) : u ∈ s.downstream changed := hsplit ▸ List.mem_append_left _ hu
  obtain ⟨rs, hrecords, rfl, hoperators⟩ := hdone.records (fun u hu => hregistered u (hmem u hu))
    fun u hu => htargets.spelled (hregistered u (hmem u hu))
  refine ⟨rs, left, hrecords, ⟨hoperators, fun u => ?_, ?_, ?_⟩, hends⟩
  · rw [← hsplit, Graph.exists_away_iff]
    exact ⟨Graph.reaches_of_mem_cascade, fun ⟨_, hkey, hreaches⟩ => Graph.mem_cascade hchanges hkey hreaches⟩
  · rw [← hsplit]
    exact Graph.nodup_cascade _ _ _
  · rw [← hsplit]
    exact Graph.pairwise_cascade hchanges changed

/-- A target that cannot be computed anew has a formula whose evaluation never ends, and that takes a selector in a
key or in the target of a pointer. -/
theorem not_unmarked_of_recompute {target : String} (h : s.recompute target = none) : ¬s.view.Unmarked := by
  intro hview
  cases hd : s.derivations.get? target with
  | none => rw [recompute_of_none hd] at h; cases h
  | some d =>
    obtain ⟨v, hv⟩ := Option.isSome_iff_exists.mp (isSome_valueOf hview d.expression d.scope)
    rw [recompute_eq hd, hv] at h
    cases h

/-! ## Calls -/

/-- Carrying out an instruction adds a record of an operator at a path and then records of what is downstream of a
start: of all of it when the call returns, and otherwise up to a target whose evaluation never ends. That takes a
selector in a key or in the target of a pointer. -/
def Records (s : Store) (i : Operator.Instruction) (path : String) (operator : Option Operator.Kind)
    (start : String → Prop) : Prop :=
  ∃ r rs left, (s.apply i).store.ledger.records = s.ledger.records ++ r :: rs ∧ r.path = path ∧
    r.operator = operator ∧ Recomputes s.derivations start rs left ∧
    ((s.apply i).result = some (.ok (.committed r)) ∧ left = [] ∨
      (s.apply i).result = none ∧ ¬(s.apply i).store.view.Unmarked ∧
        ∃ target rest, left = target :: rest ∧ (s.apply i).store.recompute target = none)

/-- **A pass behind a first record** records what is downstream, when that record left the derivations alone. -/
theorem records_behind (hbound : s.derivations.Bound) (htargets : PlainTargets s) {i : Operator.Instruction}
    {r : Record} {changed : List String}
    (happly : s.apply i = apply.committed (recorded r (t.recomputeEach (t.downstream changed))))
    (hderivations : t.derivations = s.derivations) (hfirst : t.ledger.records = s.ledger.records ++ [r])
    {path : String} (hpath : r.path = path) {operator : Option Operator.Kind} (hoperator : r.operator = operator)
    {start : String → Prop} (hstart : ∀ key, key ∈ changed ↔ start key) : Records s i path operator start := by
  have htargets : PlainTargets t := fun u hu => htargets u (hderivations ▸ hu)
  obtain ⟨rs, left, hrecords, hrecomputes, hends⟩ := downstream_records (hderivations ▸ hbound) htargets hstart
  refine ⟨r, rs, left, ?_, hpath, hoperator, hderivations ▸ hrecomputes, ?_⟩
  · rw [happly]
    show (t.recomputeEach (t.downstream changed)).1.ledger.records = _
    rw [hrecords, hfirst, List.append_assoc, List.singleton_append]
  · rw [happly]
    generalize t.recomputeEach (t.downstream changed) = pass at hends
    obtain ⟨u, ends⟩ := pass
    obtain ⟨rfl, hleft⟩ | ⟨rfl, target, rest, hleft, hnone⟩ := hends
    · exact .inl ⟨rfl, hleft⟩
    · exact .inr ⟨rfl, not_unmarked_of_recompute hnone, target, rest, hleft, hnone⟩

theorem put_records (hbound : s.derivations.Bound) (htargets : PlainTargets s) {p : Path} (hroot : p.isRoot = false)
    (v : Value) : Records s (.set p v) p.key none (· = p.key) := by
  have hstart (key : String) : key ∈ Graph.changedAt p ↔ key = p.key := by
    rw [Graph.changedAt, hroot]
    exact List.mem_singleton
  obtain ⟨u, hframe, heq⟩ := s.exists_commitValue_eq p v none
  have hfirst : (s.commitValue p v none).1.ledger.records = s.ledger.records ++ [(s.commitValue p v none).2] := by
    rw [heq, ← hframe.ledger]
    rfl
  refine records_behind hbound htargets (r := (s.commitValue p v none).2) (t := (s.commitValue p v none).1) rfl
    (s.commitValue_derivations p v none) hfirst ?_ ?_ hstart
  · rw [heq]
    rfl
  · rw [heq]
    rfl

theorem mem_changedUnder {g : Graph} (h : g.Kept) (scope : Path) (key : String) :
    key ∈ g.changedUnder scope ↔ Path.atOrUnder key scope.key ∧ ∃ u, u ∈ g.subscribersOf key := by
  unfold Graph.changedUnder Graph.referencesUnder Graph.subscribersOf
  rw [List.mem_filter, Dict.mem_keys_iff, and_comm]
  refine and_congr_right fun _ => ?_
  cases hrow : g.subscribers.get? key with
  | none => simp
  | some row =>
    cases row with
    | nil => exact absurd hrow (h.tidy.nonempty key)
    | cons u rest => simp

theorem declaration_records (hbound : s.derivations.Bound) (hkept : s.derivations.Kept) (htargets : PlainTargets s)
    {i : Operator.Instruction} {scope : Path} {kind : Operator.Kind} (hi : i.declaration? = some (scope, kind)) :
    Records s i scope.key (some kind)
      fun key => Path.atOrUnder key scope.key ∧ ∃ u, u ∈ s.derivations.subscribersOf key := by
  have hstart := mem_changedUnder hkept scope
  cases i with
  | declareSecret scope text =>
    cases hi
    have happly : s.apply (.declareSecret scope text) = apply.committed
        ({ s with scopes := s.scopes.declareSecret scope text }.declare scope .secret) := rfl
    exact records_behind hbound htargets happly rfl rfl rfl rfl hstart
  | declareNoise scope text =>
    cases hi
    have happly : s.apply (.declareNoise scope text) = apply.committed
        ({ s with scopes := s.scopes.declareNoise scope text }.declare scope .noise) := rfl
    exact records_behind hbound htargets happly rfl rfl rfl rfl hstart
  | _ => cases hi

/-- **A write and a declaration record themselves, then what is downstream of them**, each target once and from
near to far, and nothing else. A write starts from its path, also when the path is downstream of itself; a
declaration starts from every key at or under its scope that something subscribes to. One that does not return has
recorded all in front of a target whose evaluation never ends, in a store with a selector in a key or in the target of
a pointer. -/
theorem call_records_downstream (hs : Reached (fun _ => True) s) (htargets : PlainTargets s) {c : Call}
    {i : Operator.Instruction} (hmeaning : s.meaning? c = some (.ok i)) :
    s.after c = (s.apply i).store ∧
      (∀ p v, i = .set p v → p.Plain → p.isRoot = false → Records s i p.key none (· = p.key)) ∧
      ∀ scope kind, i.declaration? = some (scope, kind) →
        Records s i scope.key (some kind)
          fun key => Path.atOrUnder key scope.key ∧ ∃ u, u ∈ s.derivations.subscribersOf key := by
  refine ⟨after_of_meaning hmeaning, ?_, ?_⟩
  · rintro p v rfl - hroot
    exact put_records hs.bound htargets hroot v
  · intro scope kind hi
    exact declaration_records hs.bound hs.kept htargets hi

/-! ## Two formulas that read each other -/

/-- What changes sets off the other, and that sets off what has changed. -/
theorem downstream_entwined {a b : String} (ha : s.derivations.subscribersOf a = [b])
    (hb : s.derivations.subscribersOf b = [a]) (hne : a ≠ b) (hafound : (s.derivations.get? a).isSome)
    (hbfound : (s.derivations.get? b).isSome) : s.downstream [a] = [b, a] := by
  unfold downstream Graph.cascade
  simp [Graph.cascadeFrom_changed, Graph.cascadeFrom_waiting, Graph.cascadeFrom_nil, Graph.unseen, ha, hb, hne, hafound,
    hbfound]

/-- Two formulas that read each other. -/
def entwined : Store := ((empty (.ticking 1000 1)).after (.deriveAt "a" "b")).after (.deriveAt "b" "a")

theorem entwined_reached : Reached (fun _ => True) entwined :=
  ((Reached.start _).call (.deriveAt "a" "b") trivial).call (.deriveAt "b" "a") trivial

theorem entwined_targets : PlainTargets entwined := by
  have hfirst : kindAt .derive "a" (.text "b") = .ok (.derive .root "a" "b") := by rfl
  have hsecond : kindAt .derive "b" (.text "a") = .ok (.derive .root "b" "a") := by rfl
  have ha : (Path.canonical "a").Plain := by decide
  have hb : (Path.canonical "b").Plain := by decide
  have hroot : Path.root.Plain := by decide
  have hplain : PlainlyReached (.ticking 1000 1) entwined := by
    refine (PlainlyReached.start.call (c := .deriveAt "a" "b") (congrArg some hfirst) ?_).call
      (c := .deriveAt "b" "a") (congrArg some hsecond) ?_
    · rintro j hj
      cases hj
      exact ⟨hroot, ha⟩
    · rintro j hj
      cases hj
      exact ⟨hroot, hb⟩
  exact hplain.leads.keeps (fun _ _ hc h => h.change hc.overPlain) fun _ h => (nomatch h)

/-- The graph of the two formulas, of which each sets off the other. -/
def entwinedGraph (first second : UInt64) : Graph :=
  (Graph.empty.register ⟨["a"]⟩ ⟨"b", .root, [⟨"b", "b"⟩], first⟩).register ⟨["b"]⟩
    ⟨"a", .root, [⟨"a", "a"⟩], second⟩

theorem entwinedGraph_formulas {first second : UInt64} :
    ∀ u ∈ ["a", "b"], ∃ expression scope,
      (entwinedGraph first second).formula? u = some (expression, scope) ∧ Expr.Direct expression scope := by
  intro u hu
  rcases List.mem_pair.mp hu with rfl | rfl
  · exact ⟨"b", .root, rfl, by decide⟩
  · exact ⟨"a", .root, rfl, by decide⟩

theorem refs_entwined : ∀ name ∈ ["a", "b"],
    firstPerKey ((boundLabels name).map fun label => ⟨label, (Path.canonical label).key⟩) = [⟨name, name⟩] := by
  decide

/-- The store has nothing but the two formulas. -/
theorem entwined_parts :
    Bare entwined ∧ Ticks entwined 5 ∧ entwined.operators = .initial ∧
      entwined.derivations.subscribersOf "a" = ["b"] ∧ entwined.derivations.subscribersOf "b" = ["a"] ∧
      ∀ u ∈ ["a", "b"], ∃ expression scope,
        entwined.derivations.formula? u = some (expression, scope) ∧ Expr.Direct expression scope := by
  have hstart : Bare (empty (.ticking 1000 1)) :=
    ⟨rfl, Index.pointerless_empty, indexCurrent_empty _, fun _ h => (nomatch h)⟩
  have hticks : Ticks (empty (.ticking 1000 1)) 13 := ticks_empty (increasing_ticking (by decide))
  obtain ⟨v, hv⟩ := Option.isSome_iff_exists.mp (hstart.isSome_valueOf (by decide : Expr.Direct "b" .root))
  obtain ⟨t, hfirst, hticks, -, hgraph, hpass⟩ := hstart.deriveAt (by decide : Text.isWord "a") (by decide) (by decide)
    (by decide) (refs_entwined "b" (by decide)) hv (downstream_of_no_subscribers rfl) (fun _ hu => nomatch hu) hticks
  have hentwined : entwined = (((empty (.ticking 1000 1)).deriveAt "a" "b").store.deriveAt "b" "a").store := rfl
  have hoperators : entwined.operators = .initial :=
    (deriveAt_operators _ _ _).trans (deriveAt_operators (empty (.ticking 1000 1)) "a" "b")
  rw [hentwined, computes_nil_iff.mp hpass] at *
  obtain ⟨w, hw⟩ := Option.isSome_iff_exists.mp (hfirst.isSome_valueOf (by decide : Expr.Direct "a" .root))
  obtain ⟨first, second, hregistered⟩ : ∃ first second,
      (t.registered .root "b" "a" [⟨"a", "a"⟩]).derivations = entwinedGraph first second := by
    rw [t.registered_word (by decide), hgraph, registered_word _ (by decide)]
    exact ⟨_, _, rfl⟩
  -- The second formula sets off the first, and that the second once more.
  have horder : (t.registered .root "b" "a" [⟨"a", "a"⟩]).downstream ["b"] = ["a", "b"] := by
    refine downstream_entwined ?_ ?_ (by decide) ?_ ?_ <;> rw [hregistered] <;> rfl
  obtain ⟨u, hsecond, hticks, -, hgraph, hpass⟩ := hfirst.deriveAt (by decide : Text.isWord "b") (by decide) (by decide)
    (by decide) (refs_entwined "a" (by decide)) hw horder (hregistered ▸ entwinedGraph_formulas) hticks
  rw [hregistered] at hgraph
  obtain ⟨hlast, hticks, -⟩ := hsecond.computes hticks (fun x hx => by
    obtain ⟨expression, scope, hformula, -⟩ := entwinedGraph_formulas x hx
    rw [hgraph, hformula]
    rfl) hpass
  refine ⟨hlast, hticks, hoperators, ?_, ?_, fun x hx => ?_⟩
  · rw [hpass.subscribersOf, hgraph]
    rfl
  · rw [hpass.subscribersOf, hgraph]
    rfl
  · rw [hpass.formula?, hgraph]
    exact entwinedGraph_formulas x hx

/-- A write to one of the two paths returns: both formulas have a value in every store. -/
theorem isSome_result_entwined : (entwined.apply (.set ⟨["a"]⟩ (.bool true))).result.isSome := by
  obtain ⟨hbare, hticks, -, ha, hb, hformulas⟩ := entwined_parts
  have hfound (u : String) (hu : u ∈ ["a", "b"]) : (entwined.derivations.get? u).isSome := by
    obtain ⟨expression, scope, hformula, -⟩ := hformulas u hu
    obtain ⟨d, hd, -⟩ := Graph.get?_of_formula? hformula
    rw [hd]
    rfl
  have horder : entwined.downstream (Graph.changedAt ⟨["a"]⟩) = ["b", "a"] :=
    downstream_entwined ha hb (by decide) (hfound _ (by decide)) (hfound _ (by decide))
  have hdata (target : String) : Value.bool true ≠ .pointer target := Value.noConfusion
  have hsets (w : Value) : Index.setsKey (entwined.recordOf ⟨⟨["a"]⟩, none, .bool true, w⟩) := rfl
  obtain ⟨hcommitted, -⟩ := hbare.commitValue hticks.fresh (by decide : Path.Clean ⟨["a"]⟩) hdata hsets
  have hrest : Ticks (entwined.commitValue ⟨["a"]⟩ (.bool true) none).1 (0 + 2 * ["b", "a"].length) :=
    hticks.commitValue _ _ _
  obtain ⟨t, hpass⟩ := hcommitted.exists_computes hrest fun u hu => by
    rw [commitValue_derivations]
    exact hformulas u (List.mem_pair.mpr (List.mem_pair.mp hu).symm)
  have happly : entwined.apply (.set ⟨["a"]⟩ (.bool true)) =
      apply.committed (entwined.put ⟨["a"]⟩ (.bool true) none) := rfl
  rw [happly, put_eq_pass, isSome_result_recorded, horder, recomputeEach_eq_iff.mpr hpass]

/-- A path that is downstream of itself is recorded by a write and once more behind it, and the write returns; a
declaration at the path sets off the same formulas. -/
theorem call_records_downstream_entwined :
    entwined.derivations.Reaches "a" "a" ∧ Records entwined (.set ⟨["a"]⟩ (.bool true)) "a" none (· = "a") ∧
      (entwined.apply (.set ⟨["a"]⟩ (.bool true))).result.isSome ∧
      Records entwined (.declareSecret ⟨["a"]⟩ "k") "a" (some .secret)
        fun key => Path.atOrUnder key "a" ∧ ∃ u, u ∈ entwined.derivations.subscribersOf key := by
  obtain ⟨hbare, hticks, hoperators, ha, hb, hformulas⟩ := entwined_parts
  have hset : entwined.meaning? (.write "a" (.bool true) none) = some (.ok (.set ⟨["a"]⟩ (.bool true))) := by
    rw [meaning?, hoperators]
    rfl
  have hsecret : entwined.meaning? (.declareSecret "a" "k") = some (.ok (.declareSecret ⟨["a"]⟩ "k")) := rfl
  refine ⟨?_, ?_, ?_, ?_⟩
  · exact (Graph.Reaches.direct (ha ▸ List.mem_cons_self)).further (hb ▸ List.mem_cons_self)
  · exact (call_records_downstream entwined_reached entwined_targets hset).2.1 ⟨["a"]⟩ (.bool true) rfl
      (Path.plain_word (by decide)) rfl
  · exact isSome_result_entwined
  · exact (call_records_downstream entwined_reached entwined_targets hsecret).2.2 ⟨["a"]⟩ .secret rfl

end Store

end PathLedger
