import Mathlib.Data.List.Forall2
import PathLedger.Proofs.Index.Below
import PathLedger.Proofs.Selector.Choices
import PathLedger.Proofs.Store.Derivations
import PathLedger.Proofs.Store.Noninterference
import PathLedger.Proofs.Store.Termination
import PathLedger.Store.Inspect

/-!
# What an explanation tells of hidden values

An input of an explained derivation is masked when its path is hidden, or the path that its pointers lead to.
The value of any other input is read, and a read may go further than that: its selectors, and names that are
normalized once more, can lead it into a branch.

* `Explanation.inputs` — the inputs of the derivation of an explained value.
* `Store.Straight` — paths that are read where the test for hiding looks.
* `Store.isSome_explain` — every path is explained where neither keys nor pointers hold a selector.
* `Store.explain_inputs_agree` — **explanations of stores that differ in their branches only agree**, but for
  the values of inputs that are not straight.
* `Store.filtered_input_shows` — two stores that differ in a hidden value, which an explanation shows.
-/

namespace PathLedger

/-- The inputs of the derivation of an explained value. -/
def Explanation.inputs (e : Explanation) : List ExplainedInput :=
  (e.derivation.map ExplainedDerivation.inputs).getD []

namespace Store

variable {s t : Store}

/-- The inputs of an explanation are the references explained in turn. -/
theorem explain_inputs {raw : String} {a : Explanation} (h : s.explain raw = some a) :
    ((s.derivations.get? (Path.canonical raw).key).elim [] Derivation.refs).mapM s.explainInput = some a.inputs := by
  obtain ⟨v, -, h⟩ := Option.bind_eq_some_iff.mp h
  cases hd : s.derivations.get? (Path.canonical raw).key with
  | none =>
    rw [hd] at h
    obtain rfl := Option.some.inj h
    rfl
  | some d =>
    rw [hd] at h
    obtain ⟨found, hfound, h⟩ := Option.bind_eq_some_iff.mp h
    obtain ⟨derivation, hderivation, rfl⟩ := Option.map_eq_some_iff.mp hfound
    obtain rfl := Option.some.inj h
    obtain ⟨inputs, hinputs, rfl⟩ := Option.map_eq_some_iff.mp hderivation
    exact hinputs

/-- What a reference is explained by. -/
theorem explainInput_eq_some_iff {r : Reference} {a : ExplainedInput} :
    s.explainInput r = some a ↔ ∃ v, (if s.reachesHidden (Path.canonical r.path) then some (some mask)
      else s.view.read (Path.canonical r.path)) = some v ∧
        a = ⟨r.label, r.path, v, s.reachesHidden (Path.canonical r.path)⟩ := by
  unfold explainInput
  dsimp only
  rw [Option.map_eq_some_iff]
  exact exists_congr fun v => and_congr_right fun _ => eq_comm

/-- A path that is read as it is, and so is the path that its pointers lead to. -/
structure Straight (s : Store) (p : Path) : Prop where
  start : Selector.Direct p
  finish : Selector.Direct (s.index.walk maxHops p).path

/-- What lies behind an input that is not masked does not depend on branches. -/
theorem read_of_straight {p : Path} (hopen : s.reachesHidden p = false) (h : s.Straight p) :
    s.view.read p = some (s.view.shown p) := by
  unfold reachesHidden at hopen
  simp only [Bool.or_eq_false_iff, Option.isSome_eq_false_iff, Option.isNone_iff_eq_none] at hopen
  exact s.view.read_direct h.start h.finish hopen.1 hopen.2

section Agree

variable (hindex : t.index = s.index) (hscopes : t.scopes = s.scopes)

include hindex hscopes

theorem reachesHidden_congr (p : Path) : t.reachesHidden p = s.reachesHidden p := by
  unfold reachesHidden
  rw [hindex, hscopes]

/-- **A reference is explained alike**, but for the value of an input that is neither masked nor straight. -/
theorem explainInput_agrees {r : Reference} {a b : ExplainedInput} (ha : s.explainInput r = some a)
    (hb : t.explainInput r = some b) :
    a.label = b.label ∧ a.path = b.path ∧ a.hidden = b.hidden ∧
      (a.hidden ∨ s.Straight (Path.canonical a.path) → a.value = b.value) := by
  have hsame := reachesHidden_congr hindex hscopes (Path.canonical r.path)
  obtain ⟨v, hv, rfl⟩ := explainInput_eq_some_iff.mp ha
  obtain ⟨w, hw, rfl⟩ := explainInput_eq_some_iff.mp hb
  dsimp only
  refine ⟨rfl, rfl, hsame.symm, fun h => ?_⟩
  rw [hsame] at hw
  cases hhidden : s.reachesHidden (Path.canonical r.path) with
  | true =>
    rw [hhidden, if_pos rfl] at hv hw
    exact Option.some.inj (hv.symm.trans hw)
  | false =>
    rw [hhidden] at hv hw h
    have hstraight := h.resolve_left Bool.false_ne_true
    have hstraight' : t.Straight (Path.canonical r.path) :=
      ⟨hstraight.start, by rw [hindex]; exact hstraight.finish⟩
    rw [if_neg Bool.false_ne_true, read_of_straight hhidden hstraight] at hv
    rw [if_neg Bool.false_ne_true, read_of_straight (hsame.trans hhidden) hstraight',
      s.view.shown_congr hindex hscopes] at hw
    exact Option.some.inj (hv.symm.trans hw)

end Agree

/-! ## A filter that leads into a branch -/

section Filtered

/-- A formula over the children that pass a filter. -/
def filteredFormula : String := "staff[active == true].pay.rate"

/-- The path of its label. -/
def filteredPath : Path := ⟨["staff", "active == true", "pay", "rate"]⟩

/-- A store in which the only child that passes the filter has its pay hidden. -/
structure Payroll (s : Store) : Prop where
  scopes : s.scopes = Scopes.empty.declareSecret ⟨["staff", "ann", "pay"]⟩ "k"
  index : ∃ v : Value, v.IsData ∧ s.index = (Dict.empty.insert "staff.ann.active" (.bool true)).insert "r" v
  derivation : ∃ d, s.derivations.get? "r" = some d ∧ d.refs = [⟨filteredFormula, filteredPath.key⟩]

namespace Payroll

variable (h : Payroll s)

include h

theorem pointerless : s.index.Pointerless := by
  obtain ⟨v, hv, hindex⟩ := h.index
  rw [hindex]
  have hactive : ∀ target, Value.bool true ≠ .pointer target := fun _ => Value.noConfusion
  exact (Index.pointerless_empty.insert hactive _).insert hv.ne_pointer _

theorem children : s.index.childrenOf ⟨["staff"]⟩ = ["ann"] := by
  obtain ⟨v, -, hindex⟩ := h.index
  rw [hindex, Index.childrenOf_insert (by decide)]
  decide

theorem reachesHidden : s.reachesHidden filteredPath = false := by
  have hclear : s.scopes.hidingScope? filteredPath = none := by
    rw [h.scopes]
    decide
  unfold Store.reachesHidden
  rw [Index.walk_of_redirect?_eq_none (h.pointerless.redirect? _), hclear]
  rfl

theorem read_active : s.view.read ⟨["staff", "ann", "active"]⟩ = some (some (.bool true)) := by
  obtain ⟨v, -, hindex⟩ := h.index
  have hplain : Path.Plain ⟨["staff", "ann", "active"]⟩ := by decide
  have hentry : s.index.entry ⟨["staff", "ann", "active"]⟩ = some (.bool true) := by
    rw [hindex]
    show ((Dict.empty.insert "staff.ann.active" (.bool true)).insert "r" v).get? "staff.ann.active" = _
    rw [Dict.get?_insert_of_ne _ (by decide), Dict.get?_insert_self]
  have hclear : s.scopes.hidingScope? ⟨["staff", "ann", "active"]⟩ = none := by
    rw [h.scopes]
    decide
  have hnormal := Path.normalize_plain hplain
  rw [s.view.read_clear (Selector.direct_of_plain hplain).free (by rw [hnormal]; exact hclear)
    (h.pointerless.redirect? _), hnormal]
  show some ((s.index.entry _).bind _) = _
  rw [hentry]
  rfl

theorem read_rate {v : Value} (hv : v.IsData) (hheld : s.held ⟨["staff", "ann", "pay", "rate"]⟩ = some v) :
    s.view.read ⟨["staff", "ann", "pay", "rate"]⟩ = some (some v) := by
  have hplain : Path.Plain ⟨["staff", "ann", "pay", "rate"]⟩ := by decide
  have hscope : s.scopes.hidingScope? ⟨["staff", "ann", "pay", "rate"]⟩ = some ⟨["staff", "ann", "pay"]⟩ := by
    rw [h.scopes]
    decide
  have hnormal := Path.normalize_plain hplain
  have hentry : s.view.branchEntry? ⟨["staff", "ann", "pay"]⟩ ⟨["staff", "ann", "pay", "rate"]⟩ = some v := by
    rw [branchEntry?_eq (by decide), ← held_hidden hscope, hheld]
  rw [View.read, s.view.reading_hidden (Selector.direct_of_plain hplain).free (by rw [hnormal]; exact hscope), hnormal,
    hentry]
  rw [hnormal, hentry]
  simpa using hv.ne_pointer

/-- The value that was computed reads as itself. -/
theorem read_target : ∃ found, s.view.read ⟨["r"]⟩ = some found := by
  have hplain : Path.Plain ⟨["r"]⟩ := by decide
  have hclear : s.scopes.hidingScope? ⟨["r"]⟩ = none := by
    rw [h.scopes]
    decide
  have hnormal := Path.normalize_plain hplain
  exact ⟨_, s.view.read_clear (Selector.direct_of_plain hplain).free (by rw [hnormal]; exact hclear)
    (h.pointerless.redirect? _)⟩

/-- The one child of the collection passes the filter. -/
theorem matchesAt :
    (⟨⟨"active", .eq, "true"⟩, []⟩ : Selector.Filter).matchesAt s.view.resolver ⟨["staff", "ann"]⟩ = some true := by
  have hpath : Path.canonical "active" = ⟨["active"]⟩ := by decide
  have hside : Selector.readSide s.view.resolver ⟨["staff", "ann"]⟩ "active" = some (some (.bool true)) := by
    unfold Selector.readSide Resolver.readFirst
    rw [hpath]
    show (s.view.read ⟨["staff", "ann", "active"]⟩).bind _ = _
    rw [h.read_active]
    rfl
  have hliteral : Selector.literal? "true" = some (.bool true) := by decide
  unfold Selector.Filter.matchesAt Selector.Clause.holdsAt
  rw [hside]
  dsimp only [Option.bind_eq_bind, Option.bind_some]
  rw [hliteral]
  rfl

/-- The filter lets the read of the label into the branch. -/
theorem read_filtered {v : Value} (hv : v.IsData)
    (hheld : s.held ⟨["staff", "ann", "pay", "rate"]⟩ = some v) :
    s.view.read filteredPath = some (some (.object [("ann", v)])) := by
  have htransform : Selector.firstSegment? (Selector.selectorOf? Selector.Transform.parse?)
      filteredPath.segments = none := by decide
  have hselection : Selector.firstSegment? (Selector.selectorOf? Selector.keys?)
      filteredPath.segments = none := by decide
  have hnormal : filteredPath.normalize = filteredPath := by decide
  have hfilter : Selector.firstSegment? (fun s => Selector.Filter.parse? s.toList)
      filteredPath.segments = some (1, ⟨⟨"active", .eq, "true"⟩, []⟩) := by decide
  have hchildren : s.view.index.childrenOf (filteredPath.take 1) = ["ann"] := h.children
  have hbelow : Selector.readBelow s.view.resolver s.view.index ⟨["staff", "ann"]⟩ ⟨["pay", "rate"]⟩ =
      some (some v) := h.read_rate hv hheld
  have hgather : Selector.readFilter (s.view.inner s.view.reading) s.view.index filteredPath =
      some (some (.object [("ann", v)])) := by
    unfold Selector.readFilter
    rw [hfilter]
    dsimp only
    rw [if_neg (by decide), hchildren, Selector.gatherObject_single (v := v)]
    · rfl
    · have hchild : (filteredPath.take 1).child "ann" = ⟨["staff", "ann"]⟩ := rfl
      have hrest : filteredPath.drop (1 + 1) = ⟨["pay", "rate"]⟩ := rfl
      rw [hchild, hrest, show s.view.inner s.view.reading = s.view.resolver from rfl, h.matchesAt]
      exact hbelow
  rw [View.read, View.reading, View.readStep, Selector.readTransform, htransform,
    Selector.readSelection, hselection, hnormal, hgather]
  rfl

/-- The hidden pay is an input in clear. -/
theorem explained {v : Value} (hv : v.IsData) (hheld : s.held ⟨["staff", "ann", "pay", "rate"]⟩ = some v) :
    ∃ a, s.explain "r" = some a ∧
      a.inputs = [⟨filteredFormula, filteredPath.key, some (.object [("ann", v)]), false⟩] := by
  obtain ⟨d, hd, hrefs⟩ := h.derivation
  obtain ⟨found, hfound⟩ := h.read_target
  have hname : Path.canonical "r" = ⟨["r"]⟩ := by decide
  have hpath : Path.canonical filteredPath.key = filteredPath := by decide
  have hinput : s.explainInput ⟨filteredFormula, filteredPath.key⟩ =
      some ⟨filteredFormula, filteredPath.key, some (.object [("ann", v)]), false⟩ := by
    unfold explainInput
    dsimp only
    rw [hpath, h.reachesHidden, h.read_filtered hv hheld]
    rfl
  have hderivation : s.explainDerivation d = some ⟨d.expression,
      [⟨filteredFormula, filteredPath.key, some (.object [("ann", v)]), false⟩], d.lastComputedAt⟩ := by
    rw [explainDerivation, hrefs, List.mapM_cons, hinput]
    rfl
  have hkey : Path.key ⟨["r"]⟩ = "r" := rfl
  have hall : Option.mapM s.explainDerivation (some d) = (s.explainDerivation d).map some := rfl
  refine ⟨⟨"r", found, some ⟨d.expression, _, d.lastComputedAt⟩⟩, ?_, rfl⟩
  unfold explain
  dsimp only
  rw [hname, hfound, hkey, hd, hall, hderivation]
  rfl

end Payroll

/-- A secret over the pay of one member of the staff, who is active. -/
def hired : Store :=
  ((empty (.ticking 1000 1)).after (.declareSecret "staff.ann.pay" "k")).after
    (.write "staff.ann.active" (.ofJson (.bool true)) none)

/-- That store with a formula over the pay of the active members. -/
def unpaid : Store := hired.after (.deriveAt "r" filteredFormula)

/-- That store after the pay has been written. -/
def paid (rate : String) : Store := unpaid.after (.write "staff.ann.pay.rate" (.ofJson (.str rate)) none)

theorem unpaid_reached : Reached (fun c => c.isLocal = true) unpaid := by
  have hstart : Reached (fun c => c.isLocal = true) (empty (.ticking 1000 1)) := .start _
  have hdeclared := hstart.call (.declareSecret "staff.ann.pay" "k") rfl
  have hhired := hdeclared.call (.write "staff.ann.active" (.ofJson (.bool true)) none) rfl
  exact hhired.call (.deriveAt "r" filteredFormula) rfl

theorem paid_reached (rate : String) : Reached (fun c => c.isLocal = true) (paid rate) :=
  unpaid_reached.call (.write "staff.ann.pay.rate" (.ofJson (.str rate)) none) rfl

theorem hired_parts :
    Orderly hired ∧ Ticks hired 3 ∧ hired.derivations = .empty ∧ hired.branches = .empty ∧
      hired.scopes = Scopes.empty.declareSecret ⟨["staff", "ann", "pay"]⟩ "k" ∧
      hired.index = Dict.empty.insert "staff.ann.active" (.bool true) := by
  have hticking : ∀ j < 5, ∀ i < j,
      (Clock.ticking 1000 1).readings (0 + i) < (Clock.ticking 1000 1).readings (0 + j) := by decide
  have hticks : Ticks (empty (.ticking 1000 1)) 5 :=
    ⟨fun i j hij hj => hticking j hj i hij, fun _ hr => nomatch hr⟩
  have hpay : Path.Plain ⟨["staff", "ann", "pay"]⟩ := by decide
  have hactive : Path.Plain ⟨["staff", "ann", "active"]⟩ := by decide
  have hone : OneSecret ((empty (.ticking 1000 1)).after (Action.secret ⟨["staff", "ann", "pay"]⟩ "k").call)
      ⟨["staff", "ann", "pay"]⟩ "k" := oneSecret (.ticking 1000 1) "staff.ann.pay" "k"
  obtain ⟨hdeclared, hticks⟩ := (orderly_empty (.ticking 1000 1)).act
    (a := .secret ⟨["staff", "ann", "pay"]⟩ "k") ⟨hpay, by decide⟩ hticks
  have hgraph : ((empty (.ticking 1000 1)).after
      (Action.secret ⟨["staff", "ann", "pay"]⟩ "k").call).derivations = .empty := by
    rw [(orderly_empty _).after_secret hpay]
    rfl
  have hhired : hired =
      ((empty (.ticking 1000 1)).after (Action.secret ⟨["staff", "ann", "pay"]⟩ "k").call).after
      (Action.write ⟨["staff", "ann", "active"]⟩ (.ofJson (.bool true))).call := rfl
  rw [hhired, hdeclared.after_write hactive]
  generalize (empty (.ticking 1000 1)).after (Action.secret ⟨["staff", "ann", "pay"]⟩ "k").call = s at *
  have hclear : s.scopes.hidingScope? ⟨["staff", "ann", "active"]⟩ = none := by
    rw [hone.scopes]
    decide
  have hplain : s.scopes.effectiveSecret ⟨["staff", "ann", "active"]⟩ = "" := by
    rw [hone.scopes]
    decide
  refine ⟨hdeclared.write hactive _, hticks.commitValue _ _ _, ?_, ?_, ?_, ?_⟩
  · rw [commitValue_derivations, hgraph]
  · rw [commitValue_clear hclear, commit_branches, hone.branches]
  · rw [commitValue_scopes, hone.scopes]
  · rw [commitValue_index hdeclared.current hticks.fresh hactive.clean hclear,
      storedForm_of_effectiveSecret_eq_empty hplain, hone.index]
    rfl

/-- Neither keys nor pointers hold a selector. -/
theorem hired_unmarked : hired.view.Unmarked := by
  obtain ⟨-, -, -, hbranches, -, hindex⟩ := hired_parts
  have hentries : hired.view.index.entries = [("staff.ann.active", .bool true)] := by
    show hired.index.entries = _
    rw [hindex]
    rfl
  refine View.unmarked_of_entries hbranches hentries fun e he => ?_
  obtain rfl := List.mem_singleton.mp he
  exact ⟨by decide, fun _ htarget => nomatch htarget⟩

/-- What the formula refers to. -/
def filteredRefs : List Reference := [⟨filteredFormula, filteredPath.key⟩]

theorem registered_hired :
    ∃ time, (hired.registered .root "r" filteredFormula filteredRefs).derivations =
      Derivation.Graph.empty.register ⟨["r"]⟩ ⟨filteredFormula, .root, filteredRefs, time⟩ := by
  obtain ⟨-, -, hgraph, -⟩ := hired_parts
  refine ⟨hired.clock.now, ?_⟩
  rw [registered_word hired (by decide), hgraph]

theorem unpaid_eq :
    ∃ v, v.IsData ∧ unpaid =
      ((hired.registered .root "r" filteredFormula filteredRefs).commitValue ⟨["r"]⟩ v (some .derive)).1 := by
  obtain ⟨time, hgraph⟩ := registered_hired
  have hrefs : Derivation.firstPerKey ((Derivation.boundLabels filteredFormula).map fun label =>
      ⟨label, (Path.canonical label).key⟩) = filteredRefs := by decide
  obtain ⟨v, hdata, hderived⟩ :=
    deriveAt_of_unmarked hired_unmarked (by decide : Text.isWord "r") (by decide) (by decide) hrefs
  have hnone : (hired.registered .root "r" filteredFormula filteredRefs).downstream ["r"] = [] :=
    downstream_of_no_subscribers (by rw [hgraph]; rfl)
  rw [hnone] at hderived
  exact ⟨v, hdata, hderived⟩

theorem unpaid_parts :
    Payroll unpaid ∧ unpaid.operators = .initial ∧ unpaid.branches = .empty ∧ Fresh unpaid ∧
      unpaid.derivations.subscribersOf "staff.ann.pay.rate" = [] := by
  obtain ⟨horderly, hticks, -, hbranches, hscopes, hindex⟩ := hired_parts
  obtain ⟨time, hgraph⟩ := registered_hired
  obtain ⟨v, hdata, hunpaid⟩ := unpaid_eq
  have hticks : Ticks (hired.registered .root "r" filteredFormula filteredRefs) 2 := hticks.advance rfl rfl
  have hcurrent : IndexCurrent (hired.registered .root "r" filteredFormula filteredRefs) := horderly.current
  have hoperators : (hired.registered .root "r" filteredFormula filteredRefs).operators = .initial :=
    horderly.operators
  have hbranches : (hired.registered .root "r" filteredFormula filteredRefs).branches = .empty := hbranches
  have hindex : (hired.registered .root "r" filteredFormula filteredRefs).index =
    Dict.empty.insert "staff.ann.active" (.bool true) := hindex
  have hscopes : (hired.registered .root "r" filteredFormula filteredRefs).scopes =
    Scopes.empty.declareSecret ⟨["staff", "ann", "pay"]⟩ "k" := hscopes
  rw [hunpaid]
  generalize hired.registered .root "r" filteredFormula filteredRefs = s at *
  have hclear : s.scopes.hidingScope? ⟨["r"]⟩ = none := by
    rw [hscopes]
    decide
  have hclean : Path.Clean ⟨["r"]⟩ := Path.Plain.clean (by decide)
  refine ⟨⟨?_, ⟨_, hdata, ?_⟩,
    ⟨⟨filteredFormula, .root, filteredRefs, time⟩, ?_, rfl⟩⟩, ?_, ?_,
    (hticks.commitValue _ _ _).fresh, ?_⟩
  · rw [commitValue_scopes, hscopes]
  · rw [commitValue_index_of_setsKey hcurrent hticks.fresh hclean hclear _ rfl, storedForm_of_staysPlain rfl,
      hindex]
    rfl
  · rw [commitValue_derivations, hgraph]
    rfl
  · rw [commitValue_operators, hoperators]
  · rw [commitValue_clear hclear, commit_branches, hbranches]
  · rw [commitValue_derivations, hgraph]
    rfl

/-- The pay that is written goes into the branch and changes nothing else that an explanation looks at. -/
theorem paid_parts (rate : String)
    (hfits : (Wire.encodeValue (.object [("rate", .text rate)])).length < 2 ^ 64) :
    Payroll (paid rate) ∧ (paid rate).held ⟨["staff", "ann", "pay", "rate"]⟩ = some (.text rate) ∧
      (paid rate).index = unpaid.index ∧ (paid rate).scopes = unpaid.scopes ∧
      (paid rate).derivations = unpaid.derivations := by
  obtain ⟨hpayroll, hoperators, hbranches, hfresh, hsubscribers⟩ := unpaid_parts
  have hplain : Path.Plain ⟨["staff", "ann", "pay", "rate"]⟩ := by decide
  have hcurrent : IndexCurrent unpaid := unpaid_reached.indexCurrent
  have hleaf : ∀ leaf, Path.last? ⟨["staff", "ann", "pay", "rate"]⟩ = some leaf →
      unpaid.operators.kindOf? leaf = none := by
    intro leaf hleaf
    obtain rfl := Option.some.inj hleaf
    rw [hoperators]
    decide
  have hscope : unpaid.scopes.hidingScope? ⟨["staff", "ann", "pay", "rate"]⟩ =
      some ⟨["staff", "ann", "pay"]⟩ := by
    rw [hpayroll.scopes]
    decide
  have hself : unpaid.scopes.liveAt ⟨["staff", "ann", "pay", "rate"]⟩ = false := by
    rw [hpayroll.scopes]
    decide
  have hpaid : paid rate = (unpaid.commitValue ⟨["staff", "ann", "pay", "rate"]⟩ (.text rate) none).1 := by
    refine (congrArg Outcome.store (write_eq_put hplain hleaf (.text rate))).trans ?_
    exact congrArg Prod.fst (put_of_no_subscribers hsubscribers _ _)
  have hseal : SealFits unpaid ⟨["staff", "ann", "pay", "rate"]⟩ (.text rate) := by
    unfold SealFits
    rw [hscope]
    dsimp only
    unfold fieldsWith
    rw [branchFields_of_get?_eq_none (by rw [hbranches]; rfl)]
    exact hfits
  rw [hpaid]
  have hindex := commitValue_index_of_hidden hcurrent hfresh hplain.clean hscope (.text rate)
  have hscopes := commitValue_scopes unpaid ⟨["staff", "ann", "pay", "rate"]⟩ (.text rate) none
  have hgraph := commitValue_derivations unpaid ⟨["staff", "ann", "pay", "rate"]⟩ (.text rate) none
  refine ⟨⟨?_, ?_, ?_⟩, ?_, hindex, hscopes, hgraph⟩
  · rw [hscopes, hpayroll.scopes]
  · rw [hindex]
    exact hpayroll.index
  · rw [hgraph]
    exact hpayroll.derivation
  · exact held_commitValue_hidden hscope hself trivial hseal

/-- What agrees one by one agrees in a row. -/
theorem forall₂_of_mapM {α β γ : Type} {f : α → Option β} {g : α → Option γ} {R : β → γ → Prop} {l : List α}
    (h : ∀ r ∈ l, ∀ a b, f r = some a → g r = some b → R a b) {as : List β} {bs : List γ} (has : l.mapM f = some as)
    (hbs : l.mapM g = some bs) : List.Forall₂ R as bs := by
  induction l generalizing as bs with
  | nil =>
    obtain rfl := Option.some.inj has
    obtain rfl := Option.some.inj hbs
    exact .nil
  | cons r rest ih =>
    rw [List.mapM_cons] at has hbs
    obtain ⟨a, ha, has⟩ := Option.bind_eq_some_iff.mp has
    obtain ⟨as, hrest, has⟩ := Option.bind_eq_some_iff.mp has
    obtain ⟨b, hb, hbs⟩ := Option.bind_eq_some_iff.mp hbs
    obtain ⟨bs, hrest', hbs⟩ := Option.bind_eq_some_iff.mp hbs
    obtain rfl := Option.some.inj has
    obtain rfl := Option.some.inj hbs
    exact .cons (h r List.mem_cons_self a b ha hb)
      (ih (fun r hr => h r (List.mem_cons_of_mem _ hr)) hrest hrest')

/-- Every path is explained where neither keys nor pointers hold a selector. -/
theorem isSome_explain (h : s.view.Unmarked) (raw : String) : (s.explain raw).isSome := by
  have hinput (r : Reference) : (s.explainInput r).isSome := by
    obtain ⟨found, hfound⟩ := View.exists_read h (Path.canonical r.path)
    unfold explainInput
    dsimp only
    rw [hfound, Option.isSome_map]
    split <;> rfl
  have hderivation (d : Derivation) : ∃ explained, s.explainDerivation d = some explained :=
    ⟨_, Option.map_eq_some_iff.mpr ⟨_, mapM_eq_some_iff.mpr ⟨fun r _ => hinput r, rfl⟩, rfl⟩⟩
  obtain ⟨found, hfound⟩ := View.exists_read h (Path.canonical raw)
  unfold explain
  dsimp only
  rw [hfound]
  cases hd : s.derivations.get? (Path.canonical raw).key with
  | none => rfl
  | some d =>
    obtain ⟨explained, hexplained⟩ := hderivation d
    have hall : Option.mapM s.explainDerivation (some d) = (s.explainDerivation d).map some := rfl
    rw [hall, hexplained]
    rfl

/-- **Explanations of stores that differ in their branches only agree** in the labels, the paths and the
masks of the inputs, and in the values of all inputs that are masked or straight. Everything is explained where
neither keys nor pointers hold a selector. -/
theorem explain_inputs_agree (hindex : t.index = s.index) (hscopes : t.scopes = s.scopes)
    (hderivations : t.derivations = s.derivations) (raw : String) :
    (∀ a b, s.explain raw = some a → t.explain raw = some b →
      List.Forall₂
        (fun a b : ExplainedInput => a.label = b.label ∧ a.path = b.path ∧ a.hidden = b.hidden ∧
          (a.hidden ∨ s.Straight (Path.canonical a.path) → a.value = b.value))
        a.inputs b.inputs) ∧
      (s.view.Unmarked → (s.explain raw).isSome) ∧ (t.view.Unmarked → (t.explain raw).isSome) := by
  refine ⟨fun a b ha hb => ?_, fun h => isSome_explain h raw, fun h => isSome_explain h raw⟩
  have hinputs := explain_inputs hb
  rw [hderivations] at hinputs
  exact forall₂_of_mapM (fun _ _ _ _ ha hb => explainInput_agrees hindex hscopes ha hb) (explain_inputs ha) hinputs

/-- Two rates of pay: the inputs agree in all but the value, whose path a filter bends. -/
theorem explain_inputs_agree_paid :
    ∃ a b, (paid "low").explain "r" = some a ∧ (paid "high").explain "r" = some b ∧ a.inputs ≠ [] ∧
      List.Forall₂
        (fun a b : ExplainedInput => a.label = b.label ∧ a.path = b.path ∧ a.hidden = b.hidden ∧
          (a.hidden ∨ (paid "low").Straight (Path.canonical a.path) → a.value = b.value))
        a.inputs b.inputs := by
  obtain ⟨hlow, hheld, hindex, hscopes, hgraph⟩ := paid_parts "low" (by decide)
  obtain ⟨hhigh, hheld', hindex', hscopes', hgraph'⟩ := paid_parts "high" (by decide)
  obtain ⟨a, ha, hinputs⟩ := hlow.explained ⟨rfl, fun _ => Value.noConfusion⟩ hheld
  obtain ⟨b, hb, -⟩ := hhigh.explained ⟨rfl, fun _ => Value.noConfusion⟩ hheld'
  refine ⟨a, b, ha, hb, ?_, ?_⟩
  · rw [hinputs]
    exact List.cons_ne_nil _ _
  · exact (explain_inputs_agree (hindex'.trans hindex.symm) (hscopes'.trans hscopes.symm)
      (hgraph'.trans hgraph.symm) "r").1 a b ha hb

/-- **A filter shows a hidden value**: two stores that differ in it alone are explained differently. -/
theorem filtered_input_shows :
    ∃ s t, Reached (fun c => c.isLocal = true) s ∧ Reached (fun c => c.isLocal = true) t ∧
      t.index = s.index ∧ t.scopes = s.scopes ∧ t.derivations = s.derivations ∧
      s.scopes.liveAt ⟨["staff", "ann", "pay"]⟩ ∧
      ∃ a b, s.explain "r" = some a ∧ t.explain "r" = some b ∧ a.inputs ≠ b.inputs := by
  obtain ⟨hlow, hheld, hindex, hscopes, hgraph⟩ := paid_parts "low" (by decide)
  obtain ⟨hhigh, hheld', hindex', hscopes', hgraph'⟩ := paid_parts "high" (by decide)
  have hdata (rate : String) : (Value.text rate).IsData := ⟨rfl, fun _ => Value.noConfusion⟩
  obtain ⟨a, ha, hinputs⟩ := hlow.explained (hdata "low") hheld
  obtain ⟨b, hb, hinputs'⟩ := hhigh.explained (hdata "high") hheld'
  refine ⟨paid "low", paid "high", paid_reached _, paid_reached _, hindex'.trans hindex.symm,
    hscopes'.trans hscopes.symm, hgraph'.trans hgraph.symm, ?_, a, b, ha, hb, ?_⟩
  · rw [hlow.scopes]
    decide
  · rw [hinputs, hinputs']
    decide

end Filtered

end Store

end PathLedger
