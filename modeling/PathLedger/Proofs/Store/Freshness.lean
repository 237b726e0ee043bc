import PathLedger.Proofs.Store.Bindings

/-!
# What a write leaves current

A write computes anew whatever it sets off, each target once and breadth first. A target is current afterwards,
unless its formula reads itself or something that is computed later. So the order of registration matters: a
formula that was registered before one that it reads may be left behind.

* `Store.write_refreshes` — **what a write sets off is current**, when it reads nothing that is computed later; the
  write returns where the formulas that it sets off have no selectors.
* `Store.Flag` — stores with a flag, over which formulas are registered.
* `Store.comparison_lags` — a formula that is left behind, in a store where no target depends on itself.
-/

namespace PathLedger

open PathLedger.Derivation

namespace Store

variable {s : Store}

/-- A clock with more readings left has fewer left. -/
theorem Ticks.mono {m n : Nat} (h : Ticks s n) (hle : m ≤ n) : Ticks s m := by
  constructor
  · intro i j hij hj
    exact h.increasing i j hij (by omega)
  · intro r hr i hi
    exact h.behind r hr i (by omega)

/-! ## A flag, its negation and their comparison -/

section Flags

theorem Bare.read_word (h : Bare s) {label : String} (hlabel : Text.isWord label) :
    s.view.read ⟨[label]⟩ = some ((s.index.get? label).bind (s.view.plain? ⟨[label]⟩)) := by
  have hplain := Path.plain_word hlabel
  rw [h.read_free (Selector.direct_of_plain hplain).free, Path.normalize_plain hplain, Path.key_word]

/-- A word stands for its entry. -/
theorem Bare.resolve_word (h : Bare s) {label : String} (hlabel : Text.isWord label)
    (hpointer : Expr.pointerLabel? label = none) :
    Expr.resolveIdentifier s.resolver .root label =
      some (Value.present ((s.index.get? label).bind (s.view.plain? ⟨[label]⟩))) := by
  have hread : s.view.read (Path.parse label) = some ((s.index.get? label).bind (s.view.plain? ⟨[label]⟩)) := by
    rw [Path.parse_word hlabel, h.read_word hlabel]
  rw [resolve_label s hpointer (by rwa [Path.root_join]) hread, Option.or_self]

/-- Words are bound to the keys that they spell. -/
theorem Bare.bindReferences_words (h : Bare s) {expression : String}
    (hlabels : ∀ label ∈ boundLabels expression, Text.isWord label) :
    bindReferences s.resolver expression .root =
      some (firstPerKey ((boundLabels expression).map fun label => ⟨label, (Path.canonical label).key⟩)) := by
  refine bindReferences_root fun label hlabel => ?_
  have hread : s.resolver.readPath (Path.canonical label) = s.view.read (Path.canonical label) := rfl
  rw [hread, Path.canonical_word (hlabels label hlabel), h.read_word (hlabels label hlabel)]
  rfl

/-- **A formula derived at a word** is registered and its value is put there, and then what is downstream of the word is
computed anew. -/
theorem Bare.deriveAt (h : Bare s) {name expression : String} (hname : Text.isWord name)
    (htrimmed : Text.trimmed expression = expression) (hexpression : expression.isEmpty = false)
    (hlabels : ∀ label ∈ boundLabels expression, Text.isWord label) {refs : List Reference}
    (hrefs : firstPerKey ((boundLabels expression).map fun label => ⟨label, (Path.canonical label).key⟩) = refs)
    {v : Value} (hv : s.valueOf expression .root = some v) {order : List String}
    (horder : (s.registered .root name expression refs).downstream [name] = order)
    (hdirect : ∀ u ∈ order, ∃ expression' scope,
      (s.registered .root name expression refs).derivations.formula? u = some (expression', scope) ∧
        Expr.Direct expression' scope) {n : Nat} (hticks : Ticks s (n + 2 * order.length + 2)) :
    ∃ t, Bare t ∧ Ticks t (n + 2 * order.length) ∧ t.index = s.index.insert name v ∧
      t.derivations = (s.registered .root name expression refs).derivations ∧
      Computes t order (s.deriveAt name expression).store := by
  have hbound := h.bindReferences_words hlabels
  rw [hrefs] at hbound
  have hvalue : (s.registered .root name expression refs).valueOf expression .root = some v := hv
  have hregistered := h.registered_word hname expression refs
  have hticks : Ticks (s.registered .root name expression refs) (n + 2 * order.length + 1) := hticks.advance rfl rfl
  obtain ⟨hbare, hticks, hindex⟩ := hregistered.commitValue_word hticks hname (valueOf_isData hv)
  have hkept := commitValue_derivations (s.registered .root name expression refs) ⟨[name]⟩ v (some .derive)
  obtain ⟨t, hpass⟩ := hbare.exists_computes hticks fun u hu => hkept ▸ hdirect u hu
  refine ⟨_, hbare, hticks, hindex, hkept, ?_⟩
  rwa [deriveAt_eq_pass s hname htrimmed hexpression hbound hvalue, horder, recomputeEach_eq_iff.mpr hpass]

theorem deriveAt_operators (s : Store) (raw expression : String) :
    (s.deriveAt raw expression).store.operators = s.operators :=
  (s.perform_leads fun _ hj _ hc => hc.keepsOperators (Operator.classifyKind_ne_define hj)).operators

variable {x y : Bool}

theorem compile_negation : Expr.compile? "!p" = some [.load "p", .unary .not] := by decide

theorem Bare.valueOf_negation (h : Bare s) (hp : s.index.get? "p" = some (.bool x)) :
    s.valueOf "!p" .root = some (.bool !x) := by
  have hlabel := h.resolve_word (by decide : Text.isWord "p") (by decide)
  rw [hp] at hlabel
  unfold valueOf Expr.evaluate
  rw [compile_negation]
  unfold Expr.runSteps
  simp only [List.foldlM_cons, List.foldlM_nil, Expr.runStep, hlabel]
  cases x <;> rfl

/-- Without its flag, the negation gives its own text. -/
theorem Bare.valueOf_negation_of_none (h : Bare s) (hp : s.index.get? "p" = none) :
    s.valueOf "!p" .root = some (.text "!p") := by
  have hlabel := h.resolve_word (by decide : Text.isWord "p") (by decide)
  rw [hp] at hlabel
  unfold valueOf Expr.evaluate
  rw [compile_negation]
  unfold Expr.runSteps
  simp only [List.foldlM_cons, List.foldlM_nil, Expr.runStep, hlabel]
  rfl

theorem Bare.valueOf_comparison (h : Bare s) (hp : s.index.get? "p" = some (.bool x))
    (hb : s.index.get? "b" = some (.bool y)) : s.valueOf "p == b" .root = some (.bool (x == y)) := by
  have hsteps : Expr.compile? "p == b" = some [.load "p", .load "b", .binary .eq] := by decide
  have hleft := h.resolve_word (by decide : Text.isWord "p") (by decide)
  have hright := h.resolve_word (by decide : Text.isWord "b") (by decide)
  rw [hp] at hleft
  rw [hb] at hright
  unfold valueOf Expr.evaluate
  rw [hsteps]
  unfold Expr.runSteps
  simp only [List.foldlM_cons, List.foldlM_nil, Expr.runStep, hleft, hright]
  cases x <;> cases y <;> rfl

/-- A bare store in which the flag is set to a truth value, with readings of the clock left. -/
structure Flag (s : Store) (x : Bool) (n : Nat) : Prop where
  bare : Bare s
  ticks : Ticks s n
  operators : s.operators = .initial
  flag : s.index.get? "p" = some (.bool x)

namespace Flag

variable {n : Nat} {name target expression : String} {scope : Path}

theorem recompute (h : Flag s x (n + 2)) (hne : "p" ≠ target)
    (hformula : s.derivations.formula? target = some (expression, scope)) (hdone : s.recompute target = some t) :
    Flag t x n := by
  obtain ⟨hbare, hticks, v, -, hindex⟩ := h.bare.recompute h.ticks hformula hdone
  refine ⟨hbare, hticks, ?_, ?_⟩
  · rw [operators_recompute hdone, h.operators]
  · rw [hindex, Dict.get?_insert_of_ne _ hne, h.flag]

/-- The flag written. -/
theorem write (hbare : Bare s) (hticks : Ticks s (n + 1)) (hoperators : s.operators = .initial) (y : Bool) :
    s.write "p" (.bool y) none = apply.committed (recorded (s.commitValue ⟨["p"]⟩ (.bool y) none).2
      ((s.commitValue ⟨["p"]⟩ (.bool y) none).1.recomputeEach (s.downstream ["p"]))) ∧
    Flag (s.commitValue ⟨["p"]⟩ (.bool y) none).1 y n ∧
    (s.commitValue ⟨["p"]⟩ (.bool y) none).1.index = s.index.insert "p" (.bool y) := by
  have hword : Path.Plain ⟨["p"]⟩ := Path.plain_word (by decide)
  have hleaf : ∀ leaf, Path.last? ⟨["p"]⟩ = some leaf → s.operators.kindOf? leaf = none := by
    intro leaf hleaf
    obtain rfl := Option.some.inj hleaf
    rw [hoperators]
    decide
  have hsets (w : Value) : Index.setsKey (s.recordOf ⟨⟨["p"]⟩, none, .bool y, w⟩) := rfl
  obtain ⟨hafter, hindex⟩ := hbare.commitValue hticks.fresh hword.clean (fun _ => Value.noConfusion) hsets
  rw [Path.key_word] at hindex
  refine ⟨?_, ⟨hafter, hticks.commitValue _ _ _, ?_, ?_⟩, hindex⟩
  · have hput := write_eq_put hword hleaf (.bool y)
    rw [Path.key_word, put_eq_pass] at hput
    exact hput
  · rw [commitValue_operators, hoperators]
  · rw [hindex, Dict.get?_insert_self]

/-- A formula derived at a word that nothing depends on. -/
theorem derive (h : Flag s x (n + 2)) (hname : Text.isWord name) (hne : "p" ≠ name)
    (htrimmed : Text.trimmed expression = expression) (hexpression : expression.isEmpty = false)
    {refs : List Reference}
    (hlabels : ∀ label ∈ boundLabels expression, Text.isWord label)
    (hrefs : firstPerKey ((boundLabels expression).map fun label => ⟨label, (Path.canonical label).key⟩) = refs)
    {v : Value} (hv : s.valueOf expression .root = some v)
    (hnone : ∀ time,
      (s.derivations.register ⟨[name]⟩ ⟨expression, .root, refs, time⟩).subscribersOf name = []) :
    Flag (s.deriveAt name expression).store x n ∧
      (s.deriveAt name expression).store.index = s.index.insert name v ∧
      ∃ time, (s.deriveAt name expression).store.derivations =
        s.derivations.register ⟨[name]⟩ ⟨expression, .root, refs, time⟩ := by
  have hregistered := s.registered_word hname expression refs
  have horder : (s.registered .root name expression refs).downstream [name] = [] :=
    downstream_of_no_subscribers (by rw [hregistered]; exact hnone _)
  obtain ⟨t, hbare, hticks, hindex, hkept, hpass⟩ := h.bare.deriveAt hname htrimmed hexpression hlabels hrefs hv horder
    (fun _ hu => nomatch hu) h.ticks
  obtain hdone := computes_nil_iff.mp hpass
  have hoperators := s.deriveAt_operators name expression
  rw [hdone] at hoperators ⊢
  refine ⟨⟨hbare, hticks, hoperators.trans h.operators, ?_⟩, hindex, _, hkept.trans hregistered⟩
  rw [hindex, Dict.get?_insert_of_ne _ hne, h.flag]

end Flag

/-- A comparison of a flag with its negation. -/
def comparison (time : UInt64) : Derivation := ⟨"p == b", .root, [⟨"p", "p"⟩, ⟨"b", "b"⟩], time⟩

def negation (time : UInt64) : Derivation := ⟨"!p", .root, [⟨"p", "p"⟩], time⟩

theorem references_comparison : Expr.references "p == b" = ["p", "b"] := by decide

theorem refs_comparison :
    firstPerKey ((boundLabels "p == b").map fun label => ⟨label, (Path.canonical label).key⟩) =
      [⟨"p", "p"⟩, ⟨"b", "b"⟩] := by decide

theorem words_comparison : ∀ label ∈ boundLabels "p == b", Text.isWord label := by decide

theorem words_negation : ∀ label ∈ boundLabels "!p", Text.isWord label := by decide

theorem refs_negation :
    firstPerKey ((boundLabels "!p").map fun label => ⟨label, (Path.canonical label).key⟩) = [⟨"p", "p"⟩] := by
  decide

def flagged : Store := (empty (.ticking 1000 1)).after (.write "p" (.ofJson (.bool true)) none)

theorem flagged_reached : Reached (fun c => c.isLocal = true) flagged := by
  have hstart : Reached (fun c => c.isLocal = true) (empty (.ticking 1000 1)) := .start _
  exact hstart.call (.write "p" (.ofJson (.bool true)) none) rfl

theorem flagged_flag : Flag flagged true 11 ∧ flagged.derivations = .empty := by
  have hticks : Ticks (empty (.ticking 1000 1)) 12 := ticks_empty (increasing_ticking (by decide))
  have hbare : Bare (empty (.ticking 1000 1)) :=
    ⟨rfl, Index.pointerless_empty, indexCurrent_empty _, fun _ h => (nomatch h)⟩
  have hflagged : flagged = ((empty (.ticking 1000 1)).write "p" (.bool true) none).store := rfl
  obtain ⟨hwrite, hflag, -⟩ := Flag.write hbare hticks rfl true
  rw [hflagged, hwrite, downstream_of_no_subscribers rfl]
  exact ⟨hflag, commitValue_derivations _ _ _ _⟩

/-- The comparison is registered before the negation that it reads. -/
def lagging : Store := (flagged.after (.deriveAt "c" "p == b")).after (.deriveAt "b" "!p")

/-- Only the negation is registered. -/
def negated : Store := flagged.after (.deriveAt "b" "!p")

/-- The negation is registered first. -/
def leading : Store := (flagged.after (.deriveAt "b" "!p")).after (.deriveAt "c" "p == b")

theorem lagging_reached : Reached (fun c => c.isLocal = true) lagging :=
  (flagged_reached.call (.deriveAt "c" "p == b") rfl).call (.deriveAt "b" "!p") rfl

theorem negated_reached : Reached (fun c => c.isLocal = true) negated :=
  flagged_reached.call (.deriveAt "b" "!p") rfl

theorem leading_reached : Reached (fun c => c.isLocal = true) leading :=
  negated_reached.call (.deriveAt "c" "p == b") rfl

theorem negated_parts :
    Flag negated true 9 ∧ negated.index.get? "b" = some (.bool false) ∧
      ∃ first, negated.derivations = Graph.empty.register ⟨["b"]⟩ (negation first) := by
  obtain ⟨hflag, hgraph⟩ := flagged_flag
  have hvalue := hflag.bare.valueOf_negation hflag.flag
  obtain ⟨hflag, hindex, first, hnegation⟩ := hflag.derive (by decide : Text.isWord "b") (by decide)
    (by decide : Text.trimmed "!p" = "!p") (by decide) words_negation refs_negation hvalue
    fun _ => by rw [hgraph]; rfl
  have hnegated : negated = (flagged.deriveAt "b" "!p").store := rfl
  rw [hnegated]
  refine ⟨hflag, ?_, first, ?_⟩
  · rw [hindex, Dict.get?_insert_self]
    rfl
  · rw [hnegation, hgraph]
    rfl

theorem leading_parts :
    Flag leading true 7 ∧ leading.index.get? "b" = some (.bool false) ∧
      ∃ first second, leading.derivations =
        (Graph.empty.register ⟨["b"]⟩ (negation first)).register ⟨["c"]⟩ (comparison second) := by
  obtain ⟨hflag, hb, first, hgraph⟩ := negated_parts
  have hvalue := hflag.bare.valueOf_comparison hflag.flag hb
  obtain ⟨hflag, hindex, second, hcomparison⟩ := hflag.derive (by decide : Text.isWord "c") (by decide)
    (by decide : Text.trimmed "p == b" = "p == b") (by decide) words_comparison refs_comparison hvalue
    fun _ => by rw [hgraph]; rfl
  have hleading : leading = (negated.deriveAt "c" "p == b").store := rfl
  rw [hgraph] at hcomparison
  rw [hleading]
  refine ⟨hflag, ?_, first, second, hcomparison⟩
  rw [hindex, Dict.get?_insert_of_ne _ (by decide), hb]

/-- Both formulas read the flag, and the comparison reads the negation too. -/
theorem downstream_flag {row : List String} (hrow : row = ["b", "c"] ∨ row = ["c", "b"])
    (hp : s.derivations.subscribersOf "p" = row) (hb : s.derivations.subscribersOf "b" = ["c"])
    (hc : s.derivations.subscribersOf "c" = []) : s.downstream ["p"] = row := by
  unfold downstream
  rw [Graph.cascade_of_closed, hp]
  · rw [hp]
    rcases hrow with rfl | rfl <;> decide
  · rw [hp]
    rcases hrow with rfl | rfl <;> simp [hb, hc]

/-- The graph of the store in which the comparison comes first. -/
def lagGraph (first second last : UInt64) : Graph :=
  ((Graph.empty.register ⟨["c"]⟩ (comparison first)).register ⟨["b"]⟩ (negation second)).touch "c" last

/-- Registering the negation sets off the comparison. -/
theorem lagging_parts :
    Flag lagging true 5 ∧ lagging.index.get? "b" = some (.bool false) ∧
      ∃ first second last, lagging.derivations = lagGraph first second last := by
  obtain ⟨hflag, hgraph⟩ := flagged_flag
  obtain ⟨v, hv⟩ := Option.isSome_iff_exists.mp (hflag.bare.isSome_valueOf (by decide : Expr.Direct "p == b" .root))
  obtain ⟨hflag, -, first, hcomparison⟩ := hflag.derive (by decide : Text.isWord "c") (by decide)
    (by decide : Text.trimmed "p == b" = "p == b") (by decide) words_comparison refs_comparison hv
    fun _ => by rw [hgraph]; rfl
  have hlagging : lagging = ((flagged.deriveAt "c" "p == b").store.deriveAt "b" "!p").store := rfl
  have hvalue := hflag.bare.valueOf_negation hflag.flag
  rw [hgraph] at hcomparison
  rw [hlagging]
  generalize (flagged.deriveAt "c" "p == b").store = s at *
  have hregistered := s.registered_word (by decide : Text.isWord "b") "!p" [⟨"p", "p"⟩]
  rw [hcomparison] at hregistered
  have horder : (s.registered .root "b" "!p" [⟨"p", "p"⟩]).downstream ["b"] = ["c"] :=
    downstream_of_one_subscriber (by rw [hregistered]; rfl) (by rw [hregistered]; rfl)
  have hformula : (s.registered .root "b" "!p" [⟨"p", "p"⟩]).derivations.formula? "c" = some ("p == b", .root) := by
    rw [hregistered]
    rfl
  obtain ⟨t, hbare, hticks, hindex, hkept, hpass⟩ := hflag.bare.deriveAt (by decide) (by decide) (by decide)
    words_negation refs_negation hvalue horder
    (fun u hu => ⟨_, _, List.mem_singleton.mp hu ▸ hformula, by decide⟩) hflag.ticks
  have hoperators := s.deriveAt_operators "b" "!p"
  generalize (s.deriveAt "b" "!p").store = u at *
  cases hpass with
  | cons hdone hnil =>
    obtain rfl := computes_nil_iff.mp hnil
    obtain ⟨hlast, hticks, w, -, hafter⟩ := hbare.recompute hticks (by rw [hkept, hformula]) hdone
    obtain ⟨last, htouched⟩ := derivations_recompute hdone
    refine ⟨⟨hlast, hticks, hoperators.trans hflag.operators, ?_⟩, ?_, first, s.clock.now, last, ?_⟩
    · rw [hafter, Dict.get?_insert_of_ne _ (by decide), hindex, Dict.get?_insert_of_ne _ (by decide), hflag.flag]
    · rw [hafter, Dict.get?_insert_of_ne _ (by decide), hindex, Dict.get?_insert_self]
      rfl
    · rw [htouched, hkept, hregistered]
      rfl

theorem lagging_order : lagging.downstream ["p"] = ["c", "b"] := by
  obtain ⟨-, -, first, second, last, hgraph⟩ := lagging_parts
  refine downstream_flag (.inr rfl) ?_ ?_ ?_ <;> rw [hgraph] <;> rfl

/-- The comparison is computed before the negation, and so with its old value. -/
theorem lagging_written :
    (lagging.write "p" (.bool false) none).result.isSome ∧
      (lagging.write "p" (.bool false) none).store.index.get? "c" = some (.bool true) ∧
      (lagging.write "p" (.bool false) none).store.valueOf "p == b" .root = some (.bool false) ∧
      (lagging.write "p" (.bool false) none).store.derivations.formula? "c" = some ("p == b", .root) := by
  obtain ⟨hflag, hb, first, second, last, hgraph⟩ := lagging_parts
  obtain ⟨hwrite, hcommitted, hindex⟩ := Flag.write hflag.bare hflag.ticks hflag.operators false
  have hkept := commitValue_derivations lagging ⟨["p"]⟩ (.bool false) none
  rw [hwrite, lagging_order]
  have hb : (lagging.commitValue ⟨["p"]⟩ (.bool false) none).1.index.get? "b" = some (.bool false) := by
    rw [hindex, Dict.get?_insert_of_ne _ (by decide), hb]
  generalize (lagging.commitValue ⟨["p"]⟩ (.bool false) none).2 = r
  generalize (lagging.commitValue ⟨["p"]⟩ (.bool false) none).1 = s at *
  have hc : s.derivations.formula? "c" = some ("p == b", .root) := by
    rw [hkept, hgraph]
    rfl
  obtain ⟨t, hfirst⟩ := hcommitted.bare.exists_recompute hc (by decide)
  have hn : t.derivations.formula? "b" = some ("!p", .root) := by
    rw [formula?_recompute hfirst, hkept, hgraph]
    rfl
  have hcompared := hcommitted.recompute (by decide) hc hfirst
  obtain ⟨u, hsecond⟩ := hcompared.bare.exists_recompute hn (by decide)
  have hnegated := hcompared.recompute (by decide) hn hsecond
  obtain ⟨-, -, v, hv, hcomparison⟩ := hcommitted.bare.recompute hcommitted.ticks hc hfirst
  obtain ⟨-, -, w, hw, hnegation⟩ := hcompared.bare.recompute hcompared.ticks hn hsecond
  rw [hcommitted.bare.valueOf_comparison hcommitted.flag hb] at hv
  rw [hcompared.bare.valueOf_negation hcompared.flag] at hw
  obtain rfl := Option.some.inj hv
  obtain rfl := Option.some.inj hw
  rw [recomputeEach_eq_iff.mpr (.cons hfirst (.cons hsecond (.nil u)))]
  refine ⟨rfl, ?_, ?_, ?_⟩
  · show u.index.get? "c" = _
    rw [hnegation, Dict.get?_insert_of_ne _ (by decide), hcomparison, Dict.get?_insert_self]
    rfl
  · refine hnegated.bare.valueOf_comparison hnegated.flag (y := true) ?_
    rw [hnegation, Dict.get?_insert_self]
    rfl
  · show u.derivations.formula? "c" = _
    rw [formula?_recompute hsecond, formula?_recompute hfirst, hc]

theorem mem_lagGraph {first second last : UInt64} {key t : String}
    (h : t ∈ (lagGraph first second last).subscribersOf key) :
    t = "b" ∧ key = "p" ∨ t = "c" ∧ (key = "p" ∨ key = "b") := by
  have hmirrors : Graph.Mirrors (lagGraph first second last) :=
    ((Graph.Mirrors.empty.register _ _).register _ _).touch _ _
  obtain ⟨d, hd, hkey⟩ := (hmirrors key t).mp h
  unfold lagGraph at hd
  rw [Graph.get?_touch, Graph.get?_register, Graph.get?_register, Graph.get?_empty, Path.key_word,
    Path.key_word] at hd
  by_cases hc : t = "c"
  · subst hc
    rw [if_pos rfl, if_neg (by decide), if_pos rfl] at hd
    obtain rfl := Option.some.inj hd
    exact .inr ⟨rfl, by simpa [comparison, refKeys] using hkey⟩
  · rw [if_neg hc] at hd
    split at hd
    · cases hd
      exact .inl ⟨‹_›, by simpa [negation, refKeys] using hkey⟩
    · cases hd

theorem reaches_lagGraph {first second last : UInt64} {key t : String}
    (h : (lagGraph first second last).Reaches key t) :
    t = "b" ∧ key = "p" ∨ t = "c" ∧ (key = "p" ∨ key = "b") := by
  induction h with
  | direct ht => exact mem_lagGraph ht
  | further _ hu ih =>
    rcases mem_lagGraph hu with ⟨-, rfl⟩ | ⟨rfl, hb⟩
    · simp at ih
    · refine .inr ⟨rfl, ?_⟩
      rcases ih with ⟨-, hkey⟩ | ⟨-, hkey⟩
      · exact .inl hkey
      · exact hkey

theorem reads_negation {key : String} (h : s.Reads "!p" .root key) : key = "p" := by
  obtain ⟨label, hlabel, -, hkey⟩ := h
  have hp : (Path.parse "p").normalize.key = "p" := by decide
  obtain rfl : label = "p" := List.mem_singleton.mp hlabel
  rw [Path.root_join, hp] at hkey
  exact hkey.elim id And.right

theorem reads_comparison {key : String} (h : s.Reads "p == b" .root key) : key = "p" ∨ key = "b" := by
  obtain ⟨label, hlabel, -, hkey⟩ := h
  have hp : (Path.parse "p").normalize.key = "p" := by decide
  have hb : (Path.parse "b").normalize.key = "b" := by decide
  rw [references_comparison] at hlabel
  rcases List.mem_pair.mp hlabel with rfl | rfl
  · rw [Path.root_join, hp] at hkey
    exact .inl (hkey.elim id And.right)
  · rw [Path.root_join, hb] at hkey
    exact .inr (hkey.elim id And.right)

end Flags

/-! ## A write -/

/-- **What a write sets off is current** once the write has returned, when its formula reads neither itself nor a target
that is computed later in the pass. The write returns when no formula that it sets off leads through a selector. -/
theorem write_refreshes (hs : Reached (fun _ => True) s) (hscopes : s.scopes = .empty)
    (hpointers : s.index.Pointerless)
    (hspelled : ∀ u, (s.derivations.formula? u).isSome → Path.Spelled u) {p : Path} (hp : p.Plain)
    (hleaf : ∀ leaf, p.last? = some leaf → s.operators.kindOf? leaf = none) {v : Value}
    (hv : ∀ target, v ≠ .pointer target)
    (hticks : Ticks s (1 + 2 * (s.downstream (Graph.changedAt p)).length)) {target expression : String}
    {scope : Path} (hreaches : s.derivations.Reaches p.key target)
    (hformula : s.derivations.formula? target = some (expression, scope))
    (hdirect : Expr.Direct expression scope)
    (hreads : ∀ u ∈ s.downstream (Graph.changedAt p),
      (s.write p.key v none).store.Reads expression scope u →
      (s.downstream (Graph.changedAt p)).idxOf u < (s.downstream (Graph.changedAt p)).idxOf target) :
    ((∀ u ∈ s.downstream (Graph.changedAt p), ∀ expression scope,
        s.derivations.formula? u = some (expression, scope) → Expr.Direct expression scope) →
      (s.write p.key v none).result.isSome) ∧
    ((s.write p.key v none).result.isSome → (s.write p.key v none).store.Current target) := by
  have hbound := hs.bound
  have hmem := mem_downstream hbound hreaches
  have hnodup := s.derivations.nodup_cascade (fun t => (s.derivations.get? t).isSome) (Graph.changedAt p)
  have hregistered := downstream_registered hbound (Graph.changedAt p)
  rw [Nat.add_comm] at hticks
  have hbare : Bare s := ⟨hscopes, hpointers, hs.indexCurrent, hspelled⟩
  have hsets (w : Value) : Index.setsKey (s.recordOf ⟨p, none, v, w⟩) := rfl
  obtain ⟨hcommitted, -⟩ := hbare.commitValue hticks.fresh hp.clean hv hsets
  have hticks := hticks.commitValue p v none
  rw [write_eq_put hp hleaf, put_eq_pass] at hreads ⊢
  rw [isSome_result_recorded]
  change (s.downstream (Graph.changedAt p)).Nodup at hnodup
  generalize s.downstream (Graph.changedAt p) = order at *
  have hkept := commitValue_derivations s p v none
  rw [← hkept] at hregistered hformula
  rw [← Nat.zero_add (2 * order.length)] at hticks
  constructor
  · intro hdirect
    obtain ⟨t, hpass⟩ := hcommitted.exists_computes hticks fun u hu => by
      obtain ⟨⟨expression, scope⟩, hformula⟩ := Option.isSome_iff_exists.mp (hregistered u hu)
      exact ⟨expression, scope, hformula, hdirect u hu expression scope (by rw [← hkept, hformula])⟩
    rw [recomputeEach_eq_iff.mpr hpass]
  · intro hends
    obtain ⟨before, after, rfl⟩ := List.append_of_mem hmem
    rw [List.nodup_append, List.nodup_cons] at hnodup
    obtain ⟨-, ⟨honce, -⟩, hapart⟩ := hnodup
    have hbefore : target ∉ before := fun h => hapart target h target List.mem_cons_self rfl
    refine hcommitted.current_of_pass hticks hregistered honce hformula hdirect (computes_of_ends hends) ?_
    intro u hu hlater
    have hindex := hreads u (List.mem_append_right _ hlater) hu
    have hnot : u ∉ before := fun h => hapart u h u hlater rfl
    rw [List.idxOf_append_of_notMem hnot, List.idxOf_append_of_notMem hbefore, List.idxOf_cons_self] at hindex
    omega

/-- Registered behind the negation, the comparison is current. -/
theorem write_refreshes_comparison :
    (leading.write (Path.key ⟨["p"]⟩) (.bool false) none).result.isSome ∧
      (leading.write (Path.key ⟨["p"]⟩) (.bool false) none).store.Current "c" := by
  obtain ⟨hflag, -, first, second, hgraph⟩ := leading_parts
  have hs : Reached (fun _ => True) leading := leading_reached.mono fun _ _ => trivial
  have hleaf : ∀ leaf, Path.last? ⟨["p"]⟩ = some leaf → leading.operators.kindOf? leaf = none := by
    intro leaf hleaf
    obtain rfl := Option.some.inj hleaf
    rw [hflag.operators]
    decide
  have horder : leading.downstream (Graph.changedAt ⟨["p"]⟩) = ["b", "c"] := by
    refine downstream_flag (.inl rfl) ?_ ?_ ?_ <;> rw [hgraph] <;> rfl
  have hticks : Ticks leading (1 + 2 * (leading.downstream (Graph.changedAt ⟨["p"]⟩)).length) := by
    rw [horder]
    exact hflag.ticks.mono (by decide)
  have hreaches : leading.derivations.Reaches (Path.key ⟨["p"]⟩) "c" := by
    have hp : leading.derivations.subscribersOf (Path.key ⟨["p"]⟩) = ["b", "c"] := by
      rw [hgraph]
      rfl
    refine .direct ?_
    rw [hp]
    decide
  have hformula : leading.derivations.formula? "c" = some ("p == b", .root) := by
    rw [hgraph]
    rfl
  have hformula' : leading.derivations.formula? "b" = some ("!p", .root) := by
    rw [hgraph]
    rfl
  obtain ⟨hreturns, hcurrent⟩ := write_refreshes hs hflag.bare.scopes hflag.bare.pointerless hflag.bare.spelled
    (Path.plain_word (by decide)) hleaf (v := .bool false) (fun _ => Value.noConfusion) hticks hreaches hformula
    (by decide) (by
      rw [horder]
      intro u hu hreads
      rcases reads_comparison hreads with rfl | rfl
      · exact absurd hu (by decide)
      · decide)
  have hresult := hreturns (by
    rw [horder]
    intro u hu expression scope hfound
    rcases List.mem_pair.mp hu with rfl | rfl
    · rw [hformula'] at hfound
      obtain ⟨rfl, rfl⟩ := Prod.mk.inj (Option.some.inj hfound)
      decide
    · rw [hformula] at hfound
      obtain ⟨rfl, rfl⟩ := Prod.mk.inj (Option.some.inj hfound)
      decide)
  exact ⟨hresult, hcurrent hresult⟩

/-- **A comparison registered before what it reads lags behind**: it is reached, nothing is declared, nothing
points elsewhere, no target depends on itself, and yet it is not current after a write has returned. -/
theorem comparison_lags :
    Reached (fun c => c.isLocal = true) lagging ∧ lagging.scopes = .empty ∧ lagging.index.Pointerless ∧
      lagging.operators = .initial ∧
      Ticks lagging (1 + 2 * (lagging.downstream (Graph.changedAt ⟨["p"]⟩)).length) ∧
      (∀ u, ¬lagging.derivations.Reaches u u) ∧ lagging.derivations.formula? "p" = none ∧
      lagging.derivations.Reaches "p" "c" ∧ (lagging.derivations.formula? "c").isSome ∧
      (lagging.write "p" (.bool false) none).result.isSome ∧
      ¬(lagging.write "p" (.bool false) none).store.Current "c" := by
  obtain ⟨hflag, -, first, second, last, hgraph⟩ := lagging_parts
  obtain ⟨hreturns, hindex, hvalue, hformula⟩ := lagging_written
  refine ⟨lagging_reached, hflag.bare.scopes, hflag.bare.pointerless, hflag.operators, ?_, ?_, ?_, ?_, ?_, hreturns, ?_⟩
  · have horder : lagging.downstream (Graph.changedAt ⟨["p"]⟩) = ["c", "b"] := lagging_order
    rw [horder]
    exact hflag.ticks
  · intro u hu
    rw [hgraph] at hu
    rcases reaches_lagGraph hu with ⟨rfl, hkey⟩ | ⟨rfl, hkey⟩
    · simp at hkey
    · simp at hkey
  · rw [hgraph]
    rfl
  · rw [hgraph]
    refine .direct ?_
    have hp : (lagGraph first second last).subscribersOf "p" = ["c", "b"] := rfl
    rw [hp]
    exact List.mem_cons_self
  · rw [hgraph]
    rfl
  · rintro ⟨expression, scope, v, hregistered, hgives, hholds⟩
    rw [hformula] at hregistered
    obtain ⟨rfl, rfl⟩ := Prod.mk.inj (Option.some.inj hregistered)
    rw [hvalue] at hgives
    rw [hindex, ← hgives] at hholds
    simp at hholds

end Store

end PathLedger
